import Typecase.Proofs.LabelMap
import Typecase.Proofs.Types.Resolvable
import Mathlib.Logic.Relation
set_option autoImplicit false

/-!
# Looking at types through links

What a type is, once links are followed, is told by a symbol and by the parts of the type.
Two types are the same if they have the same symbol and the same parts in turn; the order
in which a record lists its fields does not count.
-/

namespace Typecase

variable {t : Ty}

/-- The place of a part in a type. -/
inductive Slot where
  /-- An argument of a type constructor or function type, or an element of a tuple. -/
  | index (i : Nat)
  /-- A field of a record. -/
  | field (label : String)
  deriving DecidableEq, Repr, Inhabited

namespace Slot

variable {α : Type}

/-- The elements of a list by their places. -/
def nth (xs : List α) : Slot → Option α
  | .index i => xs[i]?
  | .field _ => none

/-- The values of labels by their places. -/
def named (fs : List (String × α)) : Slot → Option α
  | .index _ => none
  | .field l => fs.lookup l

theorem mem_of_nth {xs : List α} {slot : Slot} {x : α} (h : nth xs slot = some x) : x ∈ xs := by
  cases slot with
  | index i => exact List.mem_of_getElem? h
  | field l => cases h

theorem mem_of_named {fs : List (String × α)} {slot : Slot} {x : α} (h : named fs slot = some x) :
    ∃ l, (l, x) ∈ fs := by
  cases slot with
  | index i => cases h
  | field l => exact ⟨l, LabelMap.mem_of_lookup h⟩

theorem isSome_nth (xs : List α) (i : Nat) :
    (nth xs (.index i)).isSome = decide (i < xs.length) := by
  by_cases hi : i < xs.length <;> simp [nth, hi]

end Slot

/-- What a type is made by. -/
inductive Symbol where
  /-- A variable without a link. -/
  | var (v : Var)
  /-- A type constructor with its number of arguments. -/
  | con (name : String) (arity : Nat)
  /-- A function type. -/
  | arrow
  /-- A tuple type with its number of elements. -/
  | tuple (arity : Nat)
  /-- A record type, or a row, with its labels and its end. -/
  | record (labels : String → Bool) (rest : RowEnd)
  /-- A record type over something that is no row. -/
  | invalid
  /-- No type at all. -/
  | lost

/-- The places of the parts of a type with the given symbol. -/
def Symbol.has : Symbol → Slot → Bool
  | .con _ n, .index i => i < n
  | .arrow, .index i => i < 2
  | .tuple n, .index i => i < n
  | .record labels _, .field l => labels l
  | _, _ => false

namespace Tree

def symbol : Tree → Symbol
  | .var v _ _ => .var v
  | .con name args => .con name args.length
  | .arrow _ _ => .arrow
  | .tuple es => .tuple es.length
  | .record fields rest => .record (LabelMap.has fields) rest
  | .invalidRecord => .invalid
  | .lost => .lost

def part? : Tree → Slot → Option Tree
  | .con _ args => Slot.nth args
  | .arrow a r => Slot.nth [a, r]
  | .tuple es => Slot.nth es
  | .record fields _ => Slot.named fields
  | _ => fun _ => none

/-- Two resolved types are the same type: they have the same symbol and the same parts.
Type constructors agree in name and arguments, records in labels, fields and end. -/
inductive Same : Tree → Tree → Prop
  | node {a b : Tree} : a.symbol = b.symbol →
      (∀ slot t u, a.part? slot = some t → b.part? slot = some u → Same t u) → Same a b

end Tree

/-- The row of a record type; a row stands for itself. -/
def Ty.row? : Ty → Option Ty
  | .record _ r => some r
  | .rowExtend m ls r => some (.rowExtend m ls r)
  | .rowEmpty => some .rowEmpty
  | _ => none

/-- The arguments or elements that a type lists. -/
def Ty.args : Ty → List Ty
  | .con _ _ args => args
  | .arrow _ a r => [a, r]
  | .tuple _ es => es
  | _ => []

theorem Ty.vars_args {c : Ty} (h : c ∈ t.args) : c.vars ⊆ t.vars := by
  intro v hv
  cases t with
  | con | tuple => exact mem_varsList.mpr ⟨c, h, hv⟩
  | arrow =>
    simp only [args, List.mem_cons, List.not_mem_nil, or_false] at h
    rcases h with rfl | rfl
    · exact List.mem_append_left _ hv
    · exact List.mem_append_right _ hv
  | _ => cases h

theorem Ty.depth_le_list {ts : List Ty} (h : t ∈ ts) : t.depth ≤ depthList ts := by
  induction ts with
  | nil => cases h
  | cons u ts ih =>
    rw [depthList]
    rcases List.mem_cons.mp h with rfl | h
    · exact Nat.le_max_left _ _
    · exact Nat.le_trans (ih h) (Nat.le_max_right _ _)

theorem Ty.depth_le_fields {l : String} {fs : List (String × Ty)} (h : (l, t) ∈ fs) :
    t.depth ≤ depthFields fs := by
  induction fs with
  | nil => cases h
  | cons f fs ih =>
    rw [depthFields]
    rcases List.mem_cons.mp h with rfl | h
    · exact Nat.le_max_left _ _
    · exact Nat.le_trans (ih h) (Nat.le_max_right _ _)

theorem Ty.depth_args {c : Ty} (h : c ∈ t.args) : c.depth < t.depth := by
  cases t with
  | con | tuple => exact Nat.lt_succ_of_le (depth_le_list h)
  | arrow =>
    simp only [args, List.mem_cons, List.not_mem_nil, or_false] at h
    rw [depth]
    rcases h with rfl | rfl <;> omega
  | _ => cases h

namespace Store

/-- The fields of a row, outer extensions first, and its end. -/
inductive Row (s : Store) : Ty → List (String × Ty) → RowEnd → Prop
  | extend {m : Mark} {ls fs : List (String × Ty)} {r : Ty} {e : RowEnd} :
      Row s r fs e → Row s (.rowExtend m ls r) (ls ++ fs) e
  | link {v : Var} {t : Ty} {fs : List (String × Ty)} {e : RowEnd} :
      s.state v = .linked t → Row s t fs e → Row s (.var v) fs e
  | flexible {v : Var} : (∀ t, s.state v ≠ .linked t) → Row s (.var v) [] (.flexible v)
  | rigid : Row s .rowEmpty [] .rigid

/-- The fields and the end of a type that is a record or a row. -/
inductive Fields (s : Store) : Ty → List (String × Ty) → RowEnd → Prop
  | link {v : Var} {t : Ty} {fs : List (String × Ty)} {e : RowEnd} :
      s.state v = .linked t → Fields s t fs e → Fields s (.var v) fs e
  | row {t r : Ty} {fs : List (String × Ty)} {e : RowEnd} :
      t.row? = some r → Row s r fs e → Fields s t fs e

/-- The symbol and the parts of a type. -/
inductive View (s : Store) : Ty → Symbol → (Slot → Option Ty) → Prop
  | link {v : Var} {t : Ty} {sym : Symbol} {k : Slot → Option Ty} :
      s.state v = .linked t → View s t sym k → View s (.var v) sym k
  | var {v : Var} : (∀ t, s.state v ≠ .linked t) → View s (.var v) (.var v) fun _ => none
  | con {m : Mark} {name : String} {args : List Ty} :
      View s (.con m name args) (.con name args.length) (Slot.nth args)
  | arrow {m : Mark} {a r : Ty} : View s (.arrow m a r) .arrow (Slot.nth [a, r])
  | tuple {m : Mark} {es : List Ty} : View s (.tuple m es) (.tuple es.length) (Slot.nth es)
  | record {t r : Ty} {fs : List (String × Ty)} {e : RowEnd} : t.row? = some r → Row s r fs e →
      View s t (.record (LabelMap.has fs) e) (Slot.named fs)
  | invalid {t r : Ty} : t.row? = some r → (∀ fs e, ¬ Row s r fs e) →
      View s t .invalid fun _ => none
  | lost : View s .lost .lost fun _ => none

variable {s : Store} {x r y c t : Ty} {e : RowEnd} {fs : List (String × Ty)} {k : Slot → Option Ty}
  {sym : Symbol} {v : Var}

theorem Row.unique {gs : List (String × Ty)} {e' : RowEnd} (h : s.Row r fs e) (h' : s.Row r gs e') :
    fs = gs ∧ e = e' := by
  induction h generalizing gs with
  | extend _ ih =>
    cases h' with
    | extend hrest =>
      obtain ⟨rfl, rfl⟩ := ih hrest
      exact ⟨rfl, rfl⟩
  | link hv _ ih =>
    cases h' with
    | link hv' hrest =>
      rw [hv] at hv'
      cases hv'
      exact ih hrest
    | flexible hunlinked => exact absurd hv (hunlinked _)
  | flexible hunlinked =>
    cases h' with
    | link hv => exact absurd hv (hunlinked _)
    | flexible => exact ⟨rfl, rfl⟩
  | rigid =>
    cases h' with
    | rigid => exact ⟨rfl, rfl⟩

theorem Fields.unique {gs : List (String × Ty)} {e' : RowEnd} (h : s.Fields x fs e)
    (h' : s.Fields x gs e') : fs = gs ∧ e = e' := by
  induction h with
  | link hv _ ih =>
    cases h' with
    | link hv' hrest =>
      rw [hv] at hv'
      cases hv'
      exact ih hrest
    | row hr => cases hr
  | row hr hrow =>
    cases h' with
    | link => cases hr
    | row hr' hrow' =>
      rw [hr] at hr'
      cases hr'
      exact hrow.unique hrow'

theorem View.unique {sym' : Symbol} {k' : Slot → Option Ty} (h : s.View x sym k)
    (h' : s.View x sym' k') : sym = sym' ∧ k = k' := by
  induction h with
  | link hv _ ih =>
    cases h' with
    | link hv' hrest =>
      rw [hv] at hv'
      cases hv'
      exact ih hrest
    | var hunlinked => exact absurd hv (hunlinked _)
    | record hrow => cases hrow
    | invalid hrow => cases hrow
  | var hunlinked =>
    cases h' with
    | link hv => exact absurd hv (hunlinked _)
    | var => exact ⟨rfl, rfl⟩
    | record hrow => cases hrow
    | invalid hrow => cases hrow
  | record hrow hfields =>
    cases h' with
    | record hrow' hfields' =>
      rw [hrow] at hrow'
      cases hrow'
      obtain ⟨rfl, rfl⟩ := hfields.unique hfields'
      exact ⟨rfl, rfl⟩
    | invalid hrow' hnone =>
      rw [hrow] at hrow'
      cases hrow'
      exact absurd hfields (hnone _ _)
    | _ => cases hrow
  | invalid hrow hnone =>
    cases h' with
    | record hrow' hfields' =>
      rw [hrow] at hrow'
      cases hrow'
      exact absurd hfields' (hnone _ _)
    | invalid => exact ⟨rfl, rfl⟩
    | _ => cases hrow
  | _ =>
    cases h' with
    | record hrow => cases hrow
    | invalid hrow => cases hrow
    | _ => exact ⟨rfl, rfl⟩

theorem View.isSome (h : s.View x sym k) (slot : Slot) : (k slot).isSome = sym.has slot := by
  induction h with
  | link _ _ ih => exact ih
  | con | arrow | tuple =>
    cases slot with
    | index i => exact Slot.isSome_nth _ i
    | field l => rfl
  | _ => cases slot <;> rfl

/-- Types with the same symbol have parts at the same places. -/
theorem View.part {k' : Slot → Option Ty} (hx : s.View x sym k) (hy : s.View y sym k') {slot : Slot}
    (ht : k slot = some t) : ∃ u, k' slot = some u := by
  rw [← Option.isSome_iff_exists, hy.isSome, ← hx.isSome, ht]
  rfl

theorem Fields.view (h : s.Fields x fs e) :
    s.View x (.record (LabelMap.has fs) e) (Slot.named fs) := by
  induction h with
  | link hv _ ih => exact .link hv ih
  | row hrow hfields => exact .record hrow hfields

theorem View.fields {labels : String → Bool} (h : s.View x (.record labels e) k) :
    ∃ fs, s.Fields x fs e ∧ labels = LabelMap.has fs ∧ k = Slot.named fs := by
  generalize hsym : Symbol.record labels e = sym at h
  induction h with
  | link hv _ ih =>
    obtain ⟨fs, hfields, hlabels⟩ := ih hsym
    exact ⟨fs, .link hv hfields, hlabels⟩
  | record hrow hfields =>
    cases hsym
    exact ⟨_, .row hrow hfields, rfl, rfl⟩
  | _ => cases hsym

theorem Row.unlinked (h : s.Row r fs (.flexible v)) : ∀ t, s.state v ≠ .linked t := by
  generalize he : RowEnd.flexible v = e at h
  induction h with
  | extend _ ih => exact ih he
  | link _ _ ih => exact ih he
  | flexible hunlinked =>
    cases he
    exact hunlinked
  | rigid => cases he

theorem Fields.unlinked (h : s.Fields x fs (.flexible v)) : ∀ t, s.state v ≠ .linked t := by
  generalize he : RowEnd.flexible v = e at h
  induction h with
  | link _ _ ih => exact ih he
  | row _ hrow =>
    subst he
    exact hrow.unlinked

/-! ## Chains of links -/

theorem Leads.trans {z : Ty} (h : s.Leads x y) (h' : s.Leads y z) : s.Leads x z := by
  induction h with
  | done => exact h'
  | link hv _ ih => exact .link hv (ih h')

theorem Leads.reach (h : s.Leads x (.var v)) : s.Reach x v := by
  generalize hy : Ty.var v = y at h
  induction h with
  | done =>
    subst hy
    exact .here (by simp [Ty.vars])
  | link hu _ ih => exact .step (by simp [Ty.vars]) hu (ih hy)

theorem Leads.view_iff (h : s.Leads x y) : s.View x sym k ↔ s.View y sym k := by
  induction h with
  | done => exact Iff.rfl
  | link hv _ ih =>
    rw [← ih]
    constructor
    · intro hview
      cases hview with
      | link hv' hrest =>
        rw [hv] at hv'
        cases hv'
        exact hrest
      | var hunlinked => exact absurd hv (hunlinked _)
      | record hr => cases hr
      | invalid hr => cases hr
    · exact fun hview => .link hv hview

theorem Leads.fields_iff (h : s.Leads x y) : s.Fields x fs e ↔ s.Fields y fs e := by
  induction h with
  | done => exact Iff.rfl
  | link hv _ ih =>
    rw [← ih]
    constructor
    · intro hfields
      cases hfields with
      | link hv' hrest =>
        rw [hv] at hv'
        cases hv'
        exact hrest
      | row hr => cases hr
    · exact fun hfields => .link hv hfields

theorem View.leads (h : s.View x (.var v) k) : s.Leads x (.var v) ∧ ∀ t, s.state v ≠ .linked t := by
  generalize hsym : Symbol.var v = sym at h
  induction h with
  | link hu _ ih =>
    obtain ⟨hleads, hunlinked⟩ := ih hsym
    exact ⟨.link hu hleads, hunlinked⟩
  | var hunlinked =>
    cases hsym
    exact ⟨.done, hunlinked⟩
  | _ => cases hsym

/-! ## Parts of resolvable types -/

theorem vars_row? (h : t.row? = some r) : r.vars = t.vars := by
  cases t <;> simp [Ty.row?] at h <;> subst h <;> simp [Ty.vars]

theorem Resolvable.row (h : s.Resolvable t) (hr : t.row? = some r) : s.Resolvable r :=
  h.mono (by simp [vars_row? hr])

theorem exists_view_row (hr : x.row? = some r) : ∃ sym k, s.View x sym k := by
  by_cases hfields : ∃ fs e, s.Row r fs e
  · obtain ⟨fs, e, hfields⟩ := hfields
    exact ⟨_, _, .record hr hfields⟩
  · exact ⟨_, _, .invalid hr fun fs e hrow => hfields ⟨fs, e, hrow⟩⟩

theorem Resolvable.exists_view (h : s.Resolvable x) : ∃ sym k, s.View x sym k := by
  induction h with
  | @intro x _ _ ih =>
    cases x with
    | var v =>
      cases hv : s.state v with
      | linked u =>
        obtain ⟨sym, k, hview⟩ := ih v (by simp [Ty.vars]) u hv
        exact ⟨sym, k, .link hv hview⟩
      | _ => exact ⟨_, _, .var (by simp [hv])⟩
    | con => exact ⟨_, _, .con⟩
    | arrow => exact ⟨_, _, .arrow⟩
    | tuple => exact ⟨_, _, .tuple⟩
    | lost => exact ⟨_, _, .lost⟩
    | _ => exact exists_view_row rfl

/-- The type of a part, with links followed. -/
def Child (s : Store) (x c : Ty) : Prop := ∃ sym k slot, s.View x sym k ∧ k slot = some c

theorem Child.link (hv : s.state v = .linked t) (h : s.Child t c) : s.Child (.var v) c := by
  obtain ⟨sym, k, slot, hview, hc⟩ := h
  exact ⟨sym, k, slot, .link hv hview, hc⟩

theorem Row.child (h : s.Row r fs e) {l : String} (hc : fs.lookup l = some c) : s.Child r c := by
  induction h with
  | @extend m ls fs r e hrow _ =>
    exact ⟨_, _, .field l, .record (r := .rowExtend m ls r) rfl (.extend hrow), hc⟩
  | link hv _ ih => exact .link hv (ih hc)
  | flexible => cases hc
  | rigid => cases hc

theorem depth_row? (h : t.row? = some r) : r.depth ≤ t.depth := by
  cases t <;> simp [Ty.row?] at h <;> subst h <;> simp [Ty.depth]

/-- A field of a row stands in the row itself or behind a link of the row. -/
theorem Row.field (h : s.Row r fs e) {l : String} (hc : fs.lookup l = some c) :
    (c.depth < r.depth ∧ c.vars ⊆ r.vars) ∨
      ∃ v ∈ r.vars, ∃ t, s.state v = .linked t ∧ s.Child t c := by
  induction h with
  | @extend m ls fs r e _ ih =>
    rw [List.lookup_append, Option.or_eq_some_iff] at hc
    rcases hc with hls | ⟨-, hfs⟩
    · have hmem := LabelMap.mem_of_lookup hls
      have hle := Ty.depth_le_fields hmem
      refine Or.inl ⟨?_, ?_⟩
      · rw [Ty.depth]
        omega
      · intro v hv
        exact List.mem_append_left _ (Ty.mem_varsFields.mpr ⟨_, hmem, hv⟩)
    · rcases ih hfs with ⟨hlt, hsub⟩ | ⟨v, hv, t, ht, hchild⟩
      · refine Or.inl ⟨?_, ?_⟩
        · rw [Ty.depth]
          omega
        · intro v hv
          exact List.mem_append_right _ (hsub hv)
      · exact Or.inr ⟨v, List.mem_append_right _ hv, t, ht, hchild⟩
  | @link v t fs e hv hrow _ => exact Or.inr ⟨v, by simp [Ty.vars], t, hv, hrow.child hc⟩
  | flexible => cases hc
  | rigid => cases hc

theorem View.smaller (h : s.View x sym k) {slot : Slot} (hc : k slot = some c) :
    (c.depth < x.depth ∧ c.vars ⊆ x.vars) ∨
      ∃ v ∈ x.vars, ∃ t, s.state v = .linked t ∧ s.Child t c := by
  cases h with
  | @link v t _ _ hv hrest =>
    exact Or.inr ⟨v, by simp [Ty.vars], t, hv, sym, k, slot, hrest, hc⟩
  | @con m name args =>
    have hmem : c ∈ (Ty.con m name args).args := Slot.mem_of_nth hc
    exact Or.inl ⟨Ty.depth_args hmem, Ty.vars_args hmem⟩
  | @arrow m a r =>
    have hmem : c ∈ (Ty.arrow m a r).args := Slot.mem_of_nth hc
    exact Or.inl ⟨Ty.depth_args hmem, Ty.vars_args hmem⟩
  | @tuple m es =>
    have hmem : c ∈ (Ty.tuple m es).args := Slot.mem_of_nth hc
    exact Or.inl ⟨Ty.depth_args hmem, Ty.vars_args hmem⟩
  | record hr hrow =>
    cases slot with
    | index i => cases hc
    | field l =>
      rcases hrow.field hc with ⟨hlt, hsub⟩ | hlink
      · exact Or.inl ⟨Nat.lt_of_lt_of_le hlt (depth_row? hr), vars_row? hr ▸ hsub⟩
      · exact Or.inr (vars_row? hr ▸ hlink)
  | _ => cases hc

theorem Resolvable.child (h : s.Resolvable x) (hc : s.Child x c) : s.Resolvable c := by
  induction h with
  | @intro x hbound hlinks ih =>
    obtain ⟨sym, k, slot, hview, hc⟩ := hc
    rcases hview.smaller hc with ⟨-, hsub⟩ | ⟨v, hv, t, ht, hchild⟩
    · exact Resolvable.mono (.intro hbound hlinks) hsub
    · exact ih v hv t ht hchild

/-- There is no infinite way down from a resolvable type. -/
theorem Resolvable.acc (h : s.Resolvable x) : Acc (fun c t => s.Child t c) x := by
  suffices hall : ∀ y : Ty, y.vars ⊆ x.vars → Acc (fun c t => s.Child t c) y from
    hall x (List.Subset.refl _)
  induction h with
  | @intro x _ _ ih =>
    intro y
    -- within a type, parts get smaller; behind links, the types are known to be accessible
    induction hn : y.depth using Nat.strong_induction_on generalizing y with
    | _ n ihn =>
      intro hsub
      refine .intro y ?_
      rintro c ⟨sym, k, slot, hview, hc⟩
      rcases hview.smaller hc with ⟨hlt, hvars⟩ | ⟨v, hv, t, ht, hchild⟩
      · exact ihn c.depth (hn ▸ hlt) c rfl (List.Subset.trans hvars hsub)
      · exact (ih v (hsub hv) t ht t (List.Subset.refl _)).inv hchild

/-! ## Equal types -/

/-- Two types are the same once links are followed. -/
inductive Equal (s : Store) : Ty → Ty → Prop
  | node {x y : Ty} {sym : Symbol} {k k' : Slot → Option Ty} : s.View x sym k → s.View y sym k' →
      (∀ slot t u, k slot = some t → k' slot = some u → Equal s t u) → Equal s x y

theorem Equal.symm (h : s.Equal x y) : s.Equal y x := by
  induction h with
  | node hx hy _ ih => exact .node hy hx fun slot t u ht hu => ih slot u t hu ht

theorem Equal.trans {z : Ty} (h : s.Equal x y) (h' : s.Equal y z) : s.Equal x z := by
  induction h generalizing z with
  | node hx hy _ ih =>
    cases h' with
    | node hy' hz hparts =>
      obtain ⟨rfl, rfl⟩ := hy.unique hy'
      refine .node hx hz ?_
      intro slot t w ht hw
      obtain ⟨u, hu⟩ := hx.part hy ht
      exact ih slot t u ht hu (hparts slot u w hu hw)

theorem Resolvable.equal_refl (h : s.Resolvable x) : s.Equal x x := by
  have hacc := h.acc
  induction hacc with
  | intro x _ ih =>
    obtain ⟨sym, k, hview⟩ := h.exists_view
    refine .node hview hview ?_
    intro slot t u ht hu
    rw [ht] at hu
    cases hu
    have hchild : s.Child x t := ⟨sym, k, slot, hview, ht⟩
    exact ih t hchild (h.child hchild)

theorem Equal.child (h : s.Equal x y) (hc : s.Child x c) : ∃ d, s.Child y d ∧ s.Equal c d := by
  obtain ⟨sym, k, slot, hview, hslot⟩ := hc
  cases h with
  | node hx hy hparts =>
    obtain ⟨rfl, rfl⟩ := hview.unique hx
    obtain ⟨d, hd⟩ := hx.part hy hslot
    exact ⟨d, ⟨_, _, slot, hy, hd⟩, hparts slot c d hslot hd⟩

/-- Equal types have equal parts below them. -/
theorem Equal.descend (h : s.Equal x y) (hc : Relation.ReflTransGen s.Child x c) :
    ∃ d, Relation.ReflTransGen s.Child y d ∧ s.Equal c d := by
  induction hc with
  | refl => exact ⟨y, .refl, h⟩
  | tail _ hchild ih =>
    obtain ⟨d, hbelow, hequal⟩ := ih
    obtain ⟨d', hchild', hequal'⟩ := hequal.child hchild
    exact ⟨d', hbelow.tail hchild', hequal'⟩

/-- No type is the same as a proper part of it. -/
theorem Resolvable.not_equal_part (h : s.Resolvable x) (hpart : Relation.TransGen s.Child x y) :
    ¬ s.Equal x y := by
  have hacc := h.acc
  induction hacc generalizing y with
  | intro x _ ih =>
    intro hequal
    obtain ⟨c, hchild, hrest⟩ := Relation.TransGen.head'_iff.mp hpart
    -- the corresponding part of `y` is a proper part of `c`, and the same as `c`
    obtain ⟨d, hchild', hequal'⟩ := hequal.child hchild
    exact ih c hchild (h.child hchild) (Relation.TransGen.tail' hrest hchild') hequal'

/-! ## Flattening -/

theorem flattenWith_row {follow : LabelMap Ty → Ty → Option (LabelMap Ty × RowEnd)}
    (hfollow : ∀ acc t ls e, follow acc t = some (ls, e) →
      ∃ fs, s.Row t fs e ∧ ls = LabelMap.extend acc fs) {acc ls : LabelMap Ty}
    (h : s.flattenWith follow acc r = some (ls, e)) :
    ∃ fs, s.Row r fs e ∧ ls = LabelMap.extend acc fs := by
  fun_induction flattenWith s follow acc r with
  | case1 acc m labels row ih =>
    obtain ⟨fs, hrow, rfl⟩ := ih h
    exact ⟨labels ++ fs, .extend hrow, by simp [LabelMap.extend, List.foldl_append]⟩
  | case2 acc v t hv =>
    obtain ⟨fs, hrow, rfl⟩ := hfollow _ _ _ _ h
    exact ⟨fs, .link hv hrow, rfl⟩
  | case3 acc v hv =>
    cases h
    exact ⟨[], .flexible hv, rfl⟩
  | case4 acc =>
    cases h
    exact ⟨[], .rigid, rfl⟩
  | case5 => cases h

theorem flattenRow_row {ls : LabelMap Ty} (h : s.flattenRow r = some (ls, e)) :
    ∃ fs, s.Row r fs e ∧ ls = LabelMap.extend [] fs := by
  unfold flattenRow at h
  generalize s.size = n at h
  generalize ([] : LabelMap Ty) = acc at h ⊢
  induction n generalizing acc r ls e with
  | zero => exact flattenWith_row (fun _ _ _ _ hnone => by cases hnone) h
  | succ n ih => exact flattenWith_row (fun acc t ls e => ih acc) h

end Store

end Typecase
