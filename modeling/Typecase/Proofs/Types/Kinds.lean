import Typecase.Proofs.Types.Extension
import Typecase.Proofs.Types.Bind
set_option autoImplicit false

/-!
# Kinds of variables

A variable stands for a type or for the rest of a row, and for the same of the two wherever
it is met.  Binding a variable to something of its kind keeps this, as long as the variable
does not occur in what it is bound to.
-/

namespace Typecase

/-- What a variable stands for. -/
inductive Kind where
  | type
  /-- The rest of a row. -/
  | row
  deriving DecidableEq, Repr, Inhabited

namespace Ty

variable {t : Ty}

mutual

/-- The variables written in a type of the given kind, each with the kind at which it is
used there. -/
def uses : Kind → Ty → List (Var × Kind)
  | k, .var v => [(v, k)]
  | _, .con _ _ args => usesList args
  | _, .arrow _ a r => uses .type a ++ uses .type r
  | _, .tuple _ es => usesList es
  | _, .record _ r => uses .row r
  | _, .rowExtend _ ls r => usesFields ls ++ uses .row r
  | _, .rowEmpty => []
  | _, .lost => []

def usesList : List Ty → List (Var × Kind)
  | [] => []
  | t :: ts => uses .type t ++ usesList ts

/-- The variables used in labelled types. -/
def usesFields : List (String × Ty) → List (Var × Kind)
  | [] => []
  | (_, t) :: ts => uses .type t ++ usesFields ts

end

theorem usesList_eq (ts : List Ty) : usesList ts = ts.flatMap (uses .type) := by
  induction ts with
  | nil => rfl
  | cons t ts ih => rw [usesList, ih, List.flatMap_cons]

theorem usesFields_eq (fs : List (String × Ty)) : usesFields fs = usesList (fs.map (·.2)) := by
  induction fs with
  | nil => rfl
  | cons e fs ih => rw [usesFields, ih, List.map_cons, usesList]

theorem map_uses (k : Kind) (t : Ty) : (t.uses k).map (·.1) = t.vars := by
  have hlist : ∀ {ts : List Ty}, (∀ t ∈ ts, ∀ k, (t.uses k).map (·.1) = t.vars) →
      (usesList ts).map (·.1) = varsList ts := by
    intro ts ih
    rw [usesList_eq, varsList_eq, List.map_flatMap]
    exact List.flatMap_congr fun t ht => ih t ht _
  induction t using Ty.induction generalizing k with
  | con _ _ ts ih | tuple _ ts ih => exact hlist ih
  | arrow _ a r iha ihr => rw [uses, vars, List.map_append, iha, ihr]
  | record _ r ih => exact ih _
  | rowExtend _ ls r ihls ihr =>
    rw [uses, vars, List.map_append, usesFields_eq, varsFields_eq, hlist ihls, ihr]
  | var | rowEmpty | lost => rfl

theorem mem_vars_of_uses {k k' : Kind} {v : Var} (h : (v, k') ∈ t.uses k) : v ∈ t.vars :=
  map_uses k t ▸ List.mem_map.mpr ⟨(v, k'), h, rfl⟩

theorem exists_uses {v : Var} (h : v ∈ t.vars) (k : Kind) : ∃ k', (v, k') ∈ t.uses k := by
  rw [← map_uses k t, List.mem_map] at h
  obtain ⟨⟨w, k'⟩, hmem, rfl⟩ := h
  exact ⟨k', hmem⟩

theorem mem_usesList {ts : List Ty} {p : Var × Kind} :
    p ∈ usesList ts ↔ ∃ t ∈ ts, p ∈ t.uses .type := by
  rw [usesList_eq, List.mem_flatMap]

theorem mem_usesFields {fs : List (String × Ty)} {p : Var × Kind} :
    p ∈ usesFields fs ↔ ∃ e ∈ fs, p ∈ e.2.uses .type := by
  rw [usesFields_eq, mem_usesList]
  simp only [List.mem_map, exists_exists_and_eq_and]

theorem uses_args {c : Ty} (h : c ∈ t.args) (k : Kind) : c.uses .type ⊆ t.uses k := by
  intro p hp
  cases t with
  | con | tuple => exact mem_usesList.mpr ⟨c, h, hp⟩
  | arrow =>
    simp only [args, List.mem_cons, List.not_mem_nil, or_false] at h
    rcases h with rfl | rfl
    · exact List.mem_append_left _ hp
    · exact List.mem_append_right _ hp
  | _ => cases h

theorem uses_row? {r : Ty} (h : t.row? = some r) (k : Kind) : r.uses .row = t.uses k := by
  cases t <;> simp [row?] at h <;> subst h <;> simp [uses]

end Ty

namespace Store

variable {s s' : Store} {kind : Var → Kind} {k k' : Kind} {t u r x : Ty} {v : Var}
  {fs : List (String × Ty)} {e : RowEnd}

/-- A variable is met on the way along links from a type, and used there at a kind. -/
inductive Uses (s : Store) : Kind → Ty → Var → Kind → Prop
  | here {k k' : Kind} {t : Ty} {v : Var} : (v, k') ∈ t.uses k → Uses s k t v k'
  | step {k k' k'' : Kind} {t u : Ty} {v w : Var} : (w, k') ∈ t.uses k → s.state w = .linked u →
      Uses s k' u v k'' → Uses s k t v k''

theorem Uses.reach (h : s.Uses k t v k') : s.Reach t v := by
  induction h with
  | here hv => exact .here (Ty.mem_vars_of_uses hv)
  | step hw hu _ ih => exact .step (Ty.mem_vars_of_uses hw) hu ih

/-- `v` may take part in a unification at the given kind. -/
structure Usable (s : Store) (kind : Var → Kind) (v : Var) (k : Kind) : Prop where
  lt : v < s.size
  kind : kind v = k
  leveled : (s.state v).Leveled

/-- All variables that are met from a type may take part in a unification, at the kinds at
which they are used. -/
inductive Proper (s : Store) (kind : Var → Kind) : Kind → Ty → Prop
  | intro {k : Kind} {t : Ty} : (∀ v k', (v, k') ∈ t.uses k → s.Usable kind v k') →
      (∀ v k' u, (v, k') ∈ t.uses k → s.state v = .linked u → Proper s kind k' u) →
      Proper s kind k t

theorem Proper.usable (h : s.Proper kind k t) (hv : (v, k') ∈ t.uses k) : s.Usable kind v k' := by
  cases h with
  | intro husable _ => exact husable v k' hv

theorem Proper.follow (h : s.Proper kind k t) (hv : (v, k') ∈ t.uses k)
    (hu : s.state v = .linked u) : s.Proper kind k' u := by
  cases h with
  | intro _ hlinks => exact hlinks v k' u hv hu

theorem Proper.mono (h : s.Proper kind k t) (hsub : u.uses k' ⊆ t.uses k) : s.Proper kind k' u :=
  .intro (fun _ _ hv => h.usable (hsub hv)) (fun _ _ _ hv hu => h.follow (hsub hv) hu)

theorem Proper.var (h : s.Proper kind k (.var v)) : s.Usable kind v k :=
  h.usable (by simp [Ty.uses])

theorem Proper.link (h : s.Proper kind k (.var v)) (hu : s.state v = .linked u) :
    s.Proper kind k u :=
  h.follow (by simp [Ty.uses]) hu

theorem Proper.tail {m : Mark} {ls : List (String × Ty)} (h : s.Proper kind k (.rowExtend m ls r)) :
    s.Proper kind .row r :=
  h.mono (by simp [Ty.uses])

theorem Proper.row (h : s.Proper kind k t) (hr : t.row? = some r) : s.Proper kind .row r :=
  h.mono (by simp [Ty.uses_row? hr k])

theorem Proper.resolvable (h : s.Proper kind k t) : s.Resolvable t := by
  induction h with
  | @intro k t husable _ ih =>
    refine .intro ?_ ?_
    · intro v hv
      obtain ⟨k', hmem⟩ := Ty.exists_uses hv k
      exact (husable v k' hmem).lt
    · intro v hv u hu
      obtain ⟨k', hmem⟩ := Ty.exists_uses hv k
      exact ih v k' u hmem hu

theorem Resolvable.proper (h : s.Resolvable t)
    (huses : ∀ v k', s.Uses k t v k' → kind v = k' ∧ (s.state v).Leveled) : s.Proper kind k t := by
  induction h generalizing k with
  | intro hbound _ ih =>
    refine .intro ?_ ?_
    · intro v k' hv
      obtain ⟨hkind, hleveled⟩ := huses v k' (.here hv)
      exact ⟨hbound v (Ty.mem_vars_of_uses hv), hkind, hleveled⟩
    · intro v k' u hv hu
      exact ih v (Ty.mem_vars_of_uses hv) u hu fun w k'' hw => huses w k'' (.step hv hu hw)

/-! ## Parts -/

theorem Proper.leads (h : s.Proper kind k t) (hlead : s.Leads t u) : s.Proper kind k u := by
  induction hlead with
  | done => exact h
  | link hv _ ih => exact ih (h.link hv)

theorem Row.proper (h : s.Row r fs e) (hr : s.Proper kind .row r) : s.Proper kind .row e.toTy := by
  induction h with
  | extend _ ih => exact ih hr.tail
  | link hv _ ih => exact ih (hr.link hv)
  | flexible => exact hr
  | rigid => exact hr

theorem Fields.proper (h : s.Fields x fs e) (hx : s.Proper kind k x) :
    s.Proper kind .row e.toTy := by
  induction h with
  | link hv _ ih => exact ih (hx.link hv)
  | row hr hrow => exact hrow.proper (hx.row hr)

/-- The end of a row is a variable for rows. -/
theorem Fields.usable (h : s.Fields x fs (.flexible v)) (hx : s.Proper kind k x) :
    s.Usable kind v .row :=
  (h.proper hx).var

theorem Row.proper_field (h : s.Row r fs e) (hr : s.Proper kind .row r) {f : String × Ty}
    (hf : f ∈ fs) : s.Proper kind .type f.2 := by
  induction h with
  | @extend m ls fs r e _ ih =>
    rcases List.mem_append.mp hf with hls | hfs
    · refine hr.mono ?_
      intro p hp
      exact List.mem_append_left _ (Ty.mem_usesFields.mpr ⟨f, hls, hp⟩)
    · exact ih hr.tail hfs
  | link hv _ ih => exact ih (hr.link hv) hf
  | flexible => cases hf
  | rigid => cases hf

theorem Proper.args {c : Ty} (h : s.Proper kind k t) (hc : c ∈ t.args) : s.Proper kind .type c :=
  h.mono (Ty.uses_args hc k)

theorem Proper.child {c : Ty} (h : s.Proper kind k x) (hc : s.Child x c) :
    s.Proper kind .type c := by
  obtain ⟨sym, parts, slot, hview, hc⟩ := hc
  induction hview with
  | link hv _ ih => exact ih (h.link hv) hc
  | con | arrow | tuple => exact h.args (Slot.mem_of_nth hc)
  | record hr hrow =>
    obtain ⟨l, hmem⟩ := Slot.mem_of_named hc
    exact hrow.proper_field (h.row hr) hmem
  | _ => cases hc

/-! ## Changes of the store -/

theorem Proper.tuned {vs : List Var} (h : s.Proper kind k t) (htuned : Tuned vs s s')
    (hvs : ∀ v ∈ vs, s.Reach t v → ∃ u, s'.state v = .linked u ∧ s'.Proper kind (kind v) u) :
    s'.Proper kind k t := by
  induction h with
  | @intro k t husable _ ih =>
    refine .intro ?_ ?_
    · intro v k' hv
      have hv' := husable v k' hv
      refine ⟨Nat.lt_of_lt_of_le hv'.lt htuned.size_le, hv'.kind, ?_⟩
      by_cases hmem : v ∈ vs
      · obtain ⟨u, hu, -⟩ := hvs v hmem (.here (Ty.mem_vars_of_uses hv))
        rw [hu]
        trivial
      · exact htuned.leveled hv'.lt hmem hv'.leveled
    · intro v k' u hv hu
      have hv' := husable v k' hv
      by_cases hmem : v ∈ vs
      · obtain ⟨u', hu', hproper⟩ := hvs v hmem (.here (Ty.mem_vars_of_uses hv))
        rw [hu] at hu'
        cases hu'
        rwa [hv'.kind] at hproper
      · have hbefore := (htuned.linked hv'.lt hmem).mp hu
        refine ih v k' u hv hbefore ?_
        intro w hw hreach
        exact hvs w hw (.step (Ty.mem_vars_of_uses hv) hbefore hreach)

/-- Binding a variable to something of its kind, in which it does not occur. -/
theorem Proper.binds (hx : s.Proper kind k x) (h : Binds v t s s') (ht : s.Proper kind (kind v) t)
    (hoccurs : ¬ s.Reach t v) : s'.Proper kind k x := by
  have ht' : s'.Proper kind (kind v) t := by
    refine ht.tuned h.tuned ?_
    intro w hw hreach
    rw [List.mem_singleton] at hw
    exact absurd (hw ▸ hreach) hoccurs
  refine hx.tuned h.tuned ?_
  intro w hw _
  rw [List.mem_singleton] at hw
  subst hw
  exact ⟨t, h.linked, ht'⟩

end Store

end Typecase
