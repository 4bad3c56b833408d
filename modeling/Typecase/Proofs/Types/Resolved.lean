import Typecase.Proofs.Types.View
set_option autoImplicit false

/-!
# Resolved forms of equal types

The resolved form of a type has the symbol of the type, and the resolved forms of its parts
as parts.  Two types are therefore equal exactly if their resolved forms are the same, as
long as no row repeats a label.
-/

namespace Typecase

theorem Slot.nth_map {α β : Type} (f : α → β) (xs : List α) (slot : Slot) :
    Slot.nth (xs.map f) slot = (Slot.nth xs slot).map f := by
  cases slot <;> simp [Slot.nth]

theorem Slot.named_map {α β : Type} (f : α → β) (fs : List (String × α)) (slot : Slot) :
    Slot.named (fs.map fun e => (e.1, f e.2)) slot = (Slot.named fs slot).map f := by
  cases slot with
  | index i => rfl
  | field l => exact LabelMap.lookup_map f fs l

namespace Store

variable {s : Store}

/-- No label is repeated among the fields of a type. -/
def NoRepeat (s : Store) (x : Ty) : Prop := ∀ fs e, s.Fields x fs e → (fs.map (·.1)).Nodup

theorem Resolvable.args {t c : Ty} (h : s.Resolvable t) (hc : c ∈ t.args) : s.Resolvable c :=
  h.mono (Ty.vars_args hc)

theorem Resolvable.resolve_row {t r : Ty} (h : s.Resolvable t) (hr : t.row? = some r) :
    s.resolve t = (s.resolveRow r).elim .invalidRecord fun p => .record p.1 p.2 := by
  have hrow : s.Resolvable r := h.row hr
  rw [h.resolve_eq.1]
  cases t with
  | record m row =>
    cases hr
    rw [resolveWith, hrow.resolve_eq.2]
    cases s.resolveRowWith s.resolve s.resolveRow r <;> rfl
  | rowExtend m ls row =>
    cases hr
    rw [resolveWith, hrow.resolve_eq.2, resolveRowWith]
    cases s.resolveRowWith s.resolve s.resolveRow row <;> rfl
  | rowEmpty =>
    cases hr
    rw [resolveWith, hrow.resolve_eq.2, resolveRowWith]
    rfl
  | _ => cases hr

theorem Row.resolveRow {r : Ty} {fs : List (String × Ty)} {e : RowEnd} (h : s.Row r fs e)
    (hr : s.Resolvable r) (hnodup : (fs.map (·.1)).Nodup) :
    s.resolveRow r = some (fs.map fun f => (f.1, s.resolve f.2), e) := by
  induction h with
  | @extend m ls fs r e hrow ih =>
    have hrest : s.Resolvable r := hr.tail
    have hfields : ∀ f ∈ ls, s.Resolvable f.2 := by
      intro f hf
      refine hr.mono ?_
      intro v hv
      exact List.mem_append_left _ (Ty.mem_varsFields.mpr ⟨f, hf, hv⟩)
    have hih := ih hrest (by
      rw [List.map_append] at hnodup
      exact hnodup.of_append_right)
    rw [hr.resolve_eq.2, resolveRowWith, ← hrest.resolve_eq.2, hih,
      resolveFieldsWith_eq hfields]
    simp only
    rw [LabelMap.extend_eq_append, List.map_append]
    simpa [Function.comp_def] using hnodup
  | link hv _ ih => rw [(hr.resolve_link hv).2, ih (hr.link hv) hnodup]
  | @flexible v hunlinked =>
    rw [hr.resolve_eq.2, resolveRowWith]
    cases hv : s.state v with
    | linked t => exact absurd hv (hunlinked t)
    | _ => rfl
  | rigid =>
    rw [hr.resolve_eq.2, resolveRowWith]
    rfl

/-- What resolves to a row is a row, provided that this is so behind links. -/
theorem exists_row_of_links {vs : List Var}
    (hlinks : ∀ v ∈ vs, ∀ u, s.state v = .linked u → (s.resolveRow u).isSome = true →
      ∃ fs e, s.Row u fs e) : (r : Ty) → r.vars ⊆ vs → s.Resolvable r →
    (s.resolveRow r).isSome = true → ∃ fs e, s.Row r fs e
  | .rowExtend m ls r, hsub, hr, hsome => by
    have hrest : s.Resolvable r := hr.tail
    have hsome : (s.resolveRow r).isSome = true := by
      rw [hr.resolve_eq.2, resolveRowWith, ← hrest.resolve_eq.2] at hsome
      cases hrow : s.resolveRow r with
      | none => simp [hrow] at hsome
      | some p => rfl
    obtain ⟨fs, e, hrow⟩ := exists_row_of_links hlinks r
      (fun v hv => hsub (List.mem_append_right _ hv)) hrest hsome
    exact ⟨ls ++ fs, e, .extend hrow⟩
  | .var v, hsub, hr, hsome => by
    cases hv : s.state v with
    | linked u =>
      rw [(hr.resolve_link hv).2] at hsome
      obtain ⟨fs, e, hrow⟩ := hlinks v (hsub (by simp [Ty.vars])) u hv hsome
      exact ⟨fs, e, .link hv hrow⟩
    | _ => exact ⟨[], .flexible v, .flexible (by simp [hv])⟩
  | .rowEmpty, _, _, _ => ⟨[], .rigid, .rigid⟩
  | .con _ _ _, _, hr, hsome | .arrow _ _ _, _, hr, hsome
  | .tuple _ _, _, hr, hsome | .record _ _, _, hr, hsome =>
    by simp [hr.resolve_eq.2, resolveRowWith] at hsome
  | .lost, _, hr, hsome => by simp [hr.resolve_eq.2, resolveRowWith] at hsome

theorem Resolvable.exists_row {r : Ty} (h : s.Resolvable r)
    (hsome : (s.resolveRow r).isSome = true) : ∃ fs e, s.Row r fs e := by
  induction h with
  | @intro r hbound hlinks ih =>
    exact exists_row_of_links ih r (List.Subset.refl _) (.intro hbound hlinks) hsome

/-- A resolved form shows what the type shows. -/
theorem View.resolve {x : Ty} {sym : Symbol} {k : Slot → Option Ty} (h : s.View x sym k)
    (hx : s.Resolvable x) (hnodup : s.NoRepeat x) :
    (s.resolve x).symbol = sym ∧ ∀ slot, (s.resolve x).part? slot = (k slot).map s.resolve := by
  induction h with
  | link hv _ ih =>
    rw [(hx.resolve_link hv).1]
    exact ih (hx.link hv) fun fs e hfields => hnodup fs e (.link hv hfields)
  | @var v hunlinked =>
    rw [hx.resolve_eq.1, resolveWith]
    cases hv : s.state v with
    | linked t => exact absurd hv (hunlinked t)
    | _ => exact ⟨rfl, fun _ => rfl⟩
  | @con m name args =>
    have hargs : ∀ t ∈ args, s.Resolvable t := fun t ht => hx.args ht
    rw [hx.resolve_eq.1, resolveWith, resolveListWith_eq hargs]
    exact ⟨by simp [Tree.symbol], Slot.nth_map s.resolve args⟩
  | @arrow m a r =>
    have ha : s.Resolvable a := hx.args (by simp [Ty.args])
    have hr : s.Resolvable r := hx.args (by simp [Ty.args])
    rw [hx.resolve_eq.1, resolveWith, ← ha.resolve_eq.1, ← hr.resolve_eq.1]
    exact ⟨rfl, Slot.nth_map s.resolve [a, r]⟩
  | @tuple m es =>
    have hes : ∀ t ∈ es, s.Resolvable t := fun t ht => hx.args ht
    rw [hx.resolve_eq.1, resolveWith, resolveListWith_eq hes]
    exact ⟨by simp [Tree.symbol], Slot.nth_map s.resolve es⟩
  | @record t r fs e hr hrow =>
    have hresolvable : s.Resolvable r := hx.row hr
    rw [hx.resolve_row hr, hrow.resolveRow hresolvable (hnodup fs e (.row hr hrow))]
    refine ⟨?_, Slot.named_map s.resolve fs⟩
    simp only [Option.elim_some, Tree.symbol, Symbol.record.injEq, and_true]
    funext l
    simp [LabelMap.has, LabelMap.find?, LabelMap.lookup_map]
  | @invalid t r hr hnone =>
    have hresolvable : s.Resolvable r := hx.row hr
    have hrow : s.resolveRow r = none := by
      by_contra hsome
      obtain ⟨fs, e, hrow⟩ := hresolvable.exists_row (Option.isSome_iff_ne_none.mpr hsome)
      exact hnone fs e hrow
    rw [hx.resolve_row hr, hrow]
    exact ⟨rfl, fun _ => rfl⟩
  | lost =>
    rw [hx.resolve_eq.1, resolveWith]
    exact ⟨rfl, fun _ => rfl⟩

/-- A type is well formed if no row in it repeats a label. -/
def NoRepeats (s : Store) (x : Ty) : Prop :=
  ∀ y, Relation.ReflTransGen s.Child x y → s.NoRepeat y

theorem NoRepeats.child {x c : Ty} (h : s.NoRepeats x) (hc : s.Child x c) : s.NoRepeats c :=
  fun y hy => h y (.head hc hy)

theorem Equal.same {x y : Ty} (h : s.Equal x y) (hx : s.Resolvable x) (hy : s.Resolvable y)
    (hxs : s.NoRepeats x) (hys : s.NoRepeats y) : (s.resolve x).Same (s.resolve y) := by
  induction h with
  | @node x y sym k k' hviewx hviewy _ ih =>
    obtain ⟨hsymx, hpartx⟩ := hviewx.resolve hx (hxs x .refl)
    obtain ⟨hsymy, hparty⟩ := hviewy.resolve hy (hys y .refl)
    refine .node (hsymx.trans hsymy.symm) ?_
    intro slot t u ht hu
    rw [hpartx, Option.map_eq_some_iff] at ht
    rw [hparty, Option.map_eq_some_iff] at hu
    obtain ⟨t', ht', rfl⟩ := ht
    obtain ⟨u', hu', rfl⟩ := hu
    have hchildx : s.Child x t' := ⟨sym, k, slot, hviewx, ht'⟩
    have hchildy : s.Child y u' := ⟨sym, k', slot, hviewy, hu'⟩
    exact ih slot t' u' ht' hu' (hx.child hchildx) (hy.child hchildy) (hxs.child hchildx)
      (hys.child hchildy)

theorem equal_of_same {x y : Ty} (h : (s.resolve x).Same (s.resolve y)) (hx : s.Resolvable x)
    (hy : s.Resolvable y) (hxs : s.NoRepeats x) (hys : s.NoRepeats y) : s.Equal x y := by
  have hacc := hx.acc
  induction hacc generalizing y with
  | intro x _ ih =>
    obtain ⟨sym, k, hviewx⟩ := hx.exists_view
    obtain ⟨sym', k', hviewy⟩ := hy.exists_view
    obtain ⟨hsymx, hpartx⟩ := hviewx.resolve hx (hxs x .refl)
    obtain ⟨hsymy, hparty⟩ := hviewy.resolve hy (hys y .refl)
    cases h with
    | node hsym hparts =>
      obtain rfl : sym = sym' := hsymx.symm.trans (hsym.trans hsymy)
      refine .node hviewx hviewy ?_
      intro slot t u ht hu
      have hchildx : s.Child x t := ⟨sym, k, slot, hviewx, ht⟩
      have hchildy : s.Child y u := ⟨sym, k', slot, hviewy, hu⟩
      have hsame := hparts slot (s.resolve t) (s.resolve u) (by rw [hpartx, ht]; rfl)
        (by rw [hparty, hu]; rfl)
      exact ih t hchildx hsame (hx.child hchildx) (hy.child hchildy) (hxs.child hchildx)
        (hys.child hchildy)

end Store

end Typecase
