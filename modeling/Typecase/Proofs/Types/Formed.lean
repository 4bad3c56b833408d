import Typecase.Proofs.Types.Tidy
set_option autoImplicit false

/-!
# Types and rows in their places

Types are written where types belong and rows where rows belong, also behind links.  A record
then has a row, and every variable that is met from a type shows as a type or as the end of a
record somewhere below the type.
-/

namespace Typecase

namespace Ty

variable {t : Ty}

mutual

/-- A type or a row is written of types and rows in their places.  A variable may stand for
either. -/
def formed : Kind → Ty → Bool
  | _, .var _ => true
  | .type, .con _ _ args => formedList args
  | .type, .arrow _ a r => formed .type a && formed .type r
  | .type, .tuple _ es => formedList es
  | .type, .record _ r => formed .row r
  | .row, .rowExtend _ ls r => formedFields ls && formed .row r
  | .row, .rowEmpty => true
  | _, _ => false

def formedList : List Ty → Bool
  | [] => true
  | t :: ts => formed .type t && formedList ts

def formedFields : List (String × Ty) → Bool
  | [] => true
  | (_, t) :: ts => formed .type t && formedFields ts

end

theorem formedList_iff {ts : List Ty} : formedList ts = true ↔ ∀ t ∈ ts, t.formed .type = true := by
  induction ts with
  | nil => simp [formedList]
  | cons t ts ih => simp [formedList, ih]

theorem formedFields_iff {fs : List (String × Ty)} :
    formedFields fs = true ↔ ∀ f ∈ fs, f.2.formed .type = true := by
  induction fs with
  | nil => simp [formedFields]
  | cons f fs ih => simp [formedFields, ih]

theorem depth_pos (t : Ty) : 0 < t.depth := by
  cases t <;> simp [depth]

theorem formed_args {c : Ty} (h : t.formed .type = true) (hc : c ∈ t.args) :
    c.formed .type = true := by
  cases t with
  | con | tuple => exact formedList_iff.mp h c hc
  | arrow =>
    simp only [args, List.mem_cons, List.not_mem_nil, or_false] at hc
    rw [formed, Bool.and_eq_true] at h
    rcases hc with rfl | rfl
    · exact h.1
    · exact h.2
  | _ => cases hc

theorem exists_arg (ht : t.row? = none) (hvar : ∀ v, t ≠ .var v) {v : Var} (hv : v ∈ t.vars) :
    ∃ c ∈ t.args, v ∈ c.vars := by
  cases t with
  | var w => exact absurd rfl (hvar w)
  | con | tuple => exact mem_varsList.mp hv
  | arrow m a r =>
    rcases List.mem_append.mp hv with hv | hv
    · exact ⟨a, by simp [args], hv⟩
    · exact ⟨r, by simp [args], hv⟩
  | lost => cases hv
  | _ => cases ht

/-- A formed type that has a row is a record. -/
theorem formed_row? {r : Ty} (h : t.formed .type = true) (hr : t.row? = some r) :
    (∃ m, t = .record m r) ∧ r.formed .row = true := by
  cases t with
  | record m row =>
    cases hr
    exact ⟨⟨m, rfl⟩, h⟩
  | rowExtend => cases h
  | rowEmpty => cases h
  | _ => cases hr

end Ty

namespace Store

variable {s s' : Store} {kind : Var → Kind} {W : Set Ty} {k : Kind} {x t r u c y : Ty} {v : Var}
  {n d : Nat} {fs : List (String × Ty)} {e : RowEnd}

/-- Types and rows are in their places in a type of the given kind, and in what its variables
are linked to. -/
inductive Formed (s : Store) : Kind → Ty → Prop
  | intro {k : Kind} {t : Ty} : t.formed k = true →
      (∀ v k' u, (v, k') ∈ t.uses k → s.state v = .linked u → Formed s k' u) → Formed s k t

theorem Formed.here (h : s.Formed k t) : t.formed k = true := by
  cases h with
  | intro hformed _ => exact hformed

theorem Formed.follow (h : s.Formed k t) {k' : Kind} (hv : (v, k') ∈ t.uses k)
    (hu : s.state v = .linked u) : s.Formed k' u := by
  cases h with
  | intro _ hlinks => exact hlinks v k' u hv hu

theorem Formed.mono {k' : Kind} (h : s.Formed k t) (hu : u.formed k' = true)
    (hsub : u.uses k' ⊆ t.uses k) : s.Formed k' u :=
  .intro hu fun _ _ _ hv hlink => h.follow (hsub hv) hlink

theorem Formed.leads (h : s.Formed k t) (hlead : s.Leads t u) : s.Formed k u := by
  induction hlead with
  | done => exact h
  | link hv _ ih => exact ih (h.follow (by simp [Ty.uses]) hv)

theorem Formed.tail {m : Mark} {ls : List (String × Ty)} (h : s.Formed .row (.rowExtend m ls r)) :
    s.Formed .row r := by
  have hformed := h.here
  rw [Ty.formed, Bool.and_eq_true] at hformed
  exact h.mono hformed.2 (by simp [Ty.uses])

theorem Formed.fields {m : Mark} {ls : List (String × Ty)} (h : s.Formed .row (.rowExtend m ls r))
    {f : String × Ty} (hf : f ∈ ls) : s.Formed .type f.2 := by
  have hformed := h.here
  rw [Ty.formed, Bool.and_eq_true] at hformed
  refine h.mono (Ty.formedFields_iff.mp hformed.1 f hf) ?_
  intro p hp
  exact List.mem_append_left _ (Ty.mem_usesFields.mpr ⟨f, hf, hp⟩)

theorem Formed.row (h : s.Formed .type t) (hr : t.row? = some r) : s.Formed .row r :=
  h.mono (Ty.formed_row? h.here hr).2 (by simp [Ty.uses_row? hr .type])

theorem Row.formed_field (h : s.Row r fs e) (hr : s.Formed .row r) {f : String × Ty} (hf : f ∈ fs) :
    s.Formed .type f.2 := by
  induction h with
  | extend _ ih =>
    rcases List.mem_append.mp hf with hls | hfs
    · exact hr.fields hls
    · exact ih hr.tail hfs
  | link hv _ ih => exact ih (hr.follow (by simp [Ty.uses]) hv) hf
  | flexible => cases hf
  | rigid => cases hf

theorem Formed.child (h : s.Formed .type x) (hc : s.Child x c) : s.Formed .type c := by
  obtain ⟨sym, parts, slot, hview, hc⟩ := hc
  have hargs : ∀ t : Ty, s.Formed .type t → c ∈ t.args → s.Formed .type c := fun t ht hmem =>
    ht.mono (Ty.formed_args ht.here hmem) (Ty.uses_args hmem .type)
  induction hview with
  | link hv _ ih => exact ih (h.follow (by simp [Ty.uses]) hv) hc
  | con | arrow | tuple => exact hargs _ h (Slot.mem_of_nth hc)
  | record hr hrow =>
    obtain ⟨l, hmem⟩ := Slot.mem_of_named hc
    exact hrow.formed_field (h.row hr) hmem
  | _ => cases hc

/-! ## Rows -/

theorem exists_row_of_formed {ps : List (Var × Kind)}
    (hlinks : ∀ v u, (v, Kind.row) ∈ ps → s.state v = .linked u → ∃ fs e, s.Row u fs e) :
    (r : Ty) → r.formed .row = true → r.uses .row ⊆ ps → ∃ fs e, s.Row r fs e
  | .rowExtend m ls r, hformed, hsub => by
    rw [Ty.formed, Bool.and_eq_true] at hformed
    obtain ⟨fs, e, hrow⟩ := exists_row_of_formed hlinks r hformed.2
      fun p hp => hsub (List.mem_append_right _ hp)
    exact ⟨ls ++ fs, e, .extend hrow⟩
  | .var v, _, hsub => by
    cases hv : s.state v with
    | linked u =>
      obtain ⟨fs, e, hrow⟩ := hlinks v u (hsub (by simp [Ty.uses])) hv
      exact ⟨fs, e, .link hv hrow⟩
    | _ => exact ⟨[], .flexible v, .flexible (by simp [hv])⟩
  | .rowEmpty, _, _ => ⟨[], .rigid, .rigid⟩

theorem Formed.exists_row (h : s.Formed .row r) : ∃ fs e, s.Row r fs e := by
  generalize hk : Kind.row = k at h
  induction h with
  | @intro k r hformed _ ih =>
    subst hk
    exact exists_row_of_formed (fun v u hv hu => ih v .row u hv hu rfl) r hformed
      (List.Subset.refl _)

theorem Settled.mono (h : s.Settled n t) (hsub : u.vars ⊆ t.vars) : s.Settled n u := by
  cases n <;> exact fun v hv => h v (hsub hv)

theorem flattenAt_eq (s : Store) (n : Nat) : s.flattenAt n = s.flattenWith (match n with
    | 0 => fun _ _ => none
    | n + 1 => s.flattenAt n) := by
  cases n <;> rfl

theorem Settled.flattenAt (h : s.Settled n r) (hrow : s.Row r fs e) (acc : LabelMap Ty) :
    s.flattenAt n acc r = some (LabelMap.extend acc fs, e) := by
  induction hrow generalizing n acc with
  | @extend m ls fs r e _ ih =>
    have hrest : s.Settled n r := h.mono fun v hv => List.mem_append_right _ hv
    have happend : LabelMap.extend acc (ls ++ fs) = (LabelMap.extend acc ls).extend fs := by
      simp [LabelMap.extend, List.foldl_append]
    rw [flattenAt_eq, flattenWith, ← flattenAt_eq, ih hrest, happend]
  | @link v t fs e hv _ ih =>
    cases n with
    | zero => exact absurd hv (h v (by simp [Ty.vars]) t)
    | succ n =>
      rw [flattenAt_eq, flattenWith, hv]
      exact ih (h v (by simp [Ty.vars]) t hv) acc
  | @flexible v hunlinked =>
    rw [flattenAt_eq, flattenWith]
    cases hv : s.state v with
    | linked t => exact absurd hv (hunlinked t)
    | _ => rfl
  | rigid =>
    rw [flattenAt_eq, flattenWith]
    rfl

/-- Every row is flattened. -/
theorem Row.flattenRow (h : s.Row r fs e) (hr : s.Resolvable r) :
    s.flattenRow r = some (LabelMap.extend [] fs, e) :=
  hr.settled.flattenAt h []

/-! ## Variables below a type -/

/-- The variable written in a type at which the way to a variable begins. -/
theorem Reach.first (h : s.Reach t v) : ∃ w ∈ t.vars, ∀ u : Ty, w ∈ u.vars → s.Reach u v := by
  cases h with
  | here hv => exact ⟨v, hv, fun u hu => .here hu⟩
  | step hw hlink hrest => exact ⟨_, hw, fun u hu => .step hu hlink hrest⟩

theorem Reach.link_inv {w : Var} (h : s.Reach (.var v) w) (hv : s.state v = .linked t) :
    w = v ∨ s.Reach t w := by
  cases h with
  | here hw => exact Or.inl (by simpa [Ty.vars] using hw)
  | step hu hlink hrest =>
    obtain rfl : _ = v := by simpa [Ty.vars] using hu
    rw [hv] at hlink
    cases hlink
    exact Or.inr hrest

theorem Reach.unlinked_inv {w : Var} (h : s.Reach (.var v) w) (hv : ∀ t, s.state v ≠ .linked t) :
    w = v := by
  cases h with
  | here hw => simpa [Ty.vars] using hw
  | step hu hlink =>
    obtain rfl : _ = v := by simpa [Ty.vars] using hu
    exact absurd hlink (hv _)

theorem Row.reach (h : s.Row r fs e) (hv : s.Reach r v) (hunlinked : ∀ t, s.state v ≠ .linked t) :
    e = .flexible v ∨ ∃ f ∈ fs, s.Reach f.2 v := by
  induction h with
  | @extend m ls fs r e _ ih =>
    obtain ⟨w, hw, hfirst⟩ := hv.first
    rcases List.mem_append.mp hw with hw | hw
    · obtain ⟨f, hf, hw⟩ := Ty.mem_varsFields.mp hw
      exact Or.inr ⟨f, List.mem_append_left _ hf, hfirst f.2 hw⟩
    · rcases ih (hfirst r hw) with hend | ⟨f, hf, hreach⟩
      · exact Or.inl hend
      · exact Or.inr ⟨f, List.mem_append_right _ hf, hreach⟩
  | link hu _ ih =>
    rcases hv.link_inv hu with rfl | hrest
    · exact absurd hu (hunlinked _)
    · exact ih hrest
  | flexible hu => exact Or.inl (by rw [hv.unlinked_inv hu])
  | rigid => exact absurd hv (by rintro (⟨⟨⟩⟩ | ⟨⟨⟩, _, _⟩))

theorem View.reach_arg {sym : Symbol} (h : s.View x sym (Slot.nth x.args)) (hv : s.Reach x v)
    (hrow : x.row? = none) (hvar : ∀ v, x ≠ .var v) : ∃ c, s.Child x c ∧ s.Reach c v := by
  obtain ⟨w, hw, hfirst⟩ := hv.first
  obtain ⟨c, hc, hwc⟩ := Ty.exists_arg hrow hvar hw
  obtain ⟨i, hi⟩ := List.mem_iff_getElem?.mp hc
  exact ⟨c, ⟨sym, _, .index i, h, hi⟩, hfirst c hwc⟩

/-- A variable that is met from a type is the open variable of the type or met from a part. -/
theorem View.reach {sym : Symbol} {parts : Slot → Option Ty} (h : s.View x sym parts)
    (hx : s.Formed .type x) (hnodup : s.NoRepeat x) (hv : s.Reach x v)
    (hunlinked : ∀ t, s.state v ≠ .linked t) :
    sym.open? = some v ∨ ∃ c, s.Child x c ∧ s.Reach c v := by
  induction h with
  | link hu _ ih =>
    rcases hv.link_inv hu with rfl | hrest
    · exact absurd hu (hunlinked _)
    · rcases ih (hx.follow (by simp [Ty.uses]) hu)
        (fun fs e hfields => hnodup fs e (.link hu hfields)) hrest with hopen | ⟨c, hchild, hc⟩
      · exact Or.inl hopen
      · exact Or.inr ⟨c, .link hu hchild, hc⟩
  | var hu => exact Or.inl (by rw [hv.unlinked_inv hu]; rfl)
  | @record x r fs e hr hrow =>
    rcases hrow.reach (hv.mono (by simp [vars_row? hr])) hunlinked with rfl | ⟨f, hf, hreach⟩
    · exact Or.inl rfl
    · have hlookup := LabelMap.lookup_of_mem (hnodup fs e (.row hr hrow)) hf
      exact Or.inr ⟨f.2, ⟨_, _, .field f.1, .record hr hrow, hlookup⟩, hreach⟩
  | invalid hr hnone =>
    obtain ⟨fs, e, hrow⟩ := (hx.row hr).exists_row
    exact absurd hrow (hnone fs e)
  | lost => exact absurd hx.here (by simp [Ty.formed])
  | con => exact Or.inr (View.con.reach_arg hv rfl (by simp))
  | arrow => exact Or.inr (View.arrow.reach_arg hv rfl (by simp))
  | tuple => exact Or.inr (View.tuple.reach_arg hv rfl (by simp))

/-- Every variable that is met from a type is the open variable of a type below it. -/
theorem Tidy.open_below (h : s.Tidy kind W) (hx : x ∈ W) (hformed : s.Formed .type x)
    (hv : s.Reach x v) (hunlinked : ∀ t, s.state v ≠ .linked t) :
    ∃ z sym parts, Relation.ReflTransGen s.Child x z ∧ s.View z sym parts ∧
      sym.open? = some v := by
  have hacc := (h.resolvable x hx).acc
  induction hacc with
  | intro x _ ih =>
    obtain ⟨sym, parts, hview⟩ := (h.resolvable x hx).exists_view
    rcases hview.reach hformed (h.noRepeat x hx) hv hunlinked with hopen | ⟨c, hchild, hc⟩
    · exact ⟨x, sym, parts, .refl, hview, hopen⟩
    · obtain ⟨z, sym', parts', hbelow, hview', hopen⟩ :=
        ih c hchild (h.parts x hx c hchild) (hformed.child hchild) hc
      exact ⟨z, sym', parts', .head hchild hbelow, hview', hopen⟩

/-! ## Long ways down -/

/-- `y` is `n` levels below `x`. -/
inductive Levels (s : Store) : Nat → Ty → Ty → Prop
  | here {x : Ty} : Levels s 0 x x
  | down {n : Nat} {x c y : Ty} : s.Child x c → Levels s n c y → Levels s (n + 1) x y

theorem Levels.tail (h : s.Levels n x y) (hc : s.Child y c) : s.Levels (n + 1) x c := by
  induction h with
  | here => exact .down hc .here
  | down hchild _ ih => exact .down hchild (ih hc)

theorem Levels.extend {k : Nat} (h : s.Levels k x y) (hs : s.Tidy kind W) (hext : Extends W s s')
    (hx : x ∈ W) : s'.Levels k x y := by
  induction h with
  | here => exact .here
  | down hchild _ ih =>
    exact .down (hchild.extend hext hx (hs.resolvable _ hx)) (ih (hs.parts _ hx _ hchild))

/-- The levels below a type pass through the type itself and through types behind links. -/
theorem Levels.lt (hdepth : ∀ v t, v < s.size → s.state v = .linked t → t.depth ≤ d) {k : Nat}
    (h : s.Levels k x y) (hx : s.Resolvable x) (hn : s.Settled n x) : k < x.depth + n * d := by
  induction n using Nat.strong_induction_on generalizing k x y with
  | _ n ihn =>
    induction h with
    | @here x => exact Nat.lt_of_lt_of_le x.depth_pos (Nat.le_add_right _ _)
    | @down k x c y hchild hrest ih =>
      have hpart := hchild
      obtain ⟨sym, parts, slot, hview, hc⟩ := hpart
      rcases hview.smaller hc with ⟨hlt, hsub⟩ | ⟨v, hv, t, ht, hchild'⟩
      · have hbound := ih (hx.child hchild) (hn.mono hsub)
        omega
      · -- the way is also one from the type behind the link
        cases n with
        | zero => exact absurd ht (hn v hv t)
        | succ n =>
          have hbound := ihn n (Nat.lt_succ_self n) (.down hchild' hrest) (hx.follow hv ht)
            (hn v hv t ht)
          have hle := hdepth v t (hx.bound hv) ht
          rw [Nat.succ_mul]
          omega

/-- The levels below a type while there are at most `2 * n` variables. -/
theorem Levels.lt_bound {k : Nat}
    (hdepth : ∀ v t, v < s.size → s.state v = .linked t → t.depth ≤ d + 1) {root : Ty}
    (h : s.Levels k root x) (hroot : s.Resolvable root) (hd : root.depth ≤ d)
    (hsize : s.size ≤ 2 * n) : k < (2 * n + 2) * (d + 2) :=
  calc k < root.depth + s.size * (d + 1) := h.lt hdepth hroot hroot.settled
    _ ≤ d + 2 * n * (d + 1) := Nat.add_le_add hd (Nat.mul_le_mul_right _ hsize)
    _ ≤ (2 * n + 2) * (d + 2) := by
      have hexpand : (2 * n + 2) * (d + 2) = 2 * n * (d + 1) + 2 * n + 2 * (d + 2) := by
        rw [Nat.add_mul, Nat.mul_succ]
      omega

theorem Resolvable.child_depth (hdepth : ∀ v t, v < s.size → s.state v = .linked t → t.depth ≤ d)
    (hx : s.Resolvable x) (hd : x.depth ≤ d) (hc : s.Child x c) : c.depth ≤ d := by
  induction hx with
  | @intro x hbound _ ih =>
    obtain ⟨sym, parts, slot, hview, hc⟩ := hc
    rcases hview.smaller hc with ⟨hlt, -⟩ | ⟨v, hv, t, ht, hchild⟩
    · omega
    · exact ih v hv t ht (hdepth v t (hbound v hv) ht) hchild

end Store

end Typecase
