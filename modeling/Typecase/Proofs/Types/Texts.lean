import Typecase.Proofs.Types.Expansion
import Typecase.Proofs.LabelMap
import Mathlib.Logic.Equiv.Basic
set_option autoImplicit false

/-!
# The text of a type

The text of a type does not depend on which variables there are, but only on where the same
variable occurs and on which variables are quantified: a one-to-one renaming does not show.
-/

namespace Typecase

theorem LabelMap.map_extend {α β : Type} (f : α → β) (m later : LabelMap α) :
    (extend m later).map (fun e => (e.1, f e.2)) =
      extend (m.map fun e => (e.1, f e.2)) (later.map fun e => (e.1, f e.2)) := by
  have hset : ∀ (m : LabelMap α) (l : String) (a : α), (set m l a).map (fun e => (e.1, f e.2)) =
      set (m.map fun e => (e.1, f e.2)) l (f a) := by
    intro m l a
    have hhas : has (m.map fun e => (e.1, f e.2)) l = has m l := by
      simp [has, find?, lookup_map]
    unfold set
    rw [hhas]
    split
    · simp only [List.map_map]
      refine List.map_congr_left fun e _ => ?_
      simp only [Function.comp_apply]
      split <;> rfl
    · simp
  induction later generalizing m with
  | nil => rfl
  | cons e later ih =>
    show (extend (set m e.1 e.2) later).map _ = extend (set _ e.1 (f e.2)) _
    rw [ih, hset]

/-! ## Trees up to renaming -/

/-- The end of a row without its variable. -/
def RowEnd.blank : RowEnd → RowEnd
  | .rigid => .rigid
  | .flexible _ => .flexible 0

namespace Tree

mutual

/-- The tree with other variable numbers, and without the addresses of variables. -/
def renumber (π : Int → Int) : Tree → Tree
  | .var _ id generic => .var 0 (π id) generic
  | .con name args => .con name (renumberList π args)
  | .arrow a r => .arrow (renumber π a) (renumber π r)
  | .tuple es => .tuple (renumberList π es)
  | .record fields rest => .record (renumberFields π fields) rest.blank
  | .invalidRecord => .invalidRecord
  | .lost => .lost

/-- Elementwise `renumber`. -/
def renumberList (π : Int → Int) : List Tree → List Tree
  | [] => []
  | t :: ts => renumber π t :: renumberList π ts

/-- Entrywise `renumber`, with the labels kept. -/
def renumberFields (π : Int → Int) : List (String × Tree) → List (String × Tree)
  | [] => []
  | (l, t) :: ts => (l, renumber π t) :: renumberFields π ts

end

variable {π : Int → Int}

theorem renumberList_eq (ts : List Tree) : renumberList π ts = ts.map (renumber π) := by
  induction ts with
  | nil => rfl
  | cons t ts ih => rw [renumberList, ih, List.map_cons]

theorem length_renumberList (ts : List Tree) : (renumberList π ts).length = ts.length := by
  rw [renumberList_eq, List.length_map]

theorem renumberFields_eq (fs : List (String × Tree)) :
    renumberFields π fs = fs.map fun e => (e.1, renumber π e.2) := by
  induction fs with
  | nil => rfl
  | cons e fs ih => rw [renumberFields, ih, List.map_cons]

theorem renumberFields_extend (fs gs : List (String × Tree)) :
    renumberFields π (LabelMap.extend fs gs) =
      LabelMap.extend (renumberFields π fs) (renumberFields π gs) := by
  rw [renumberFields_eq, renumberFields_eq, renumberFields_eq, LabelMap.map_extend]

end Tree

/-- The same names for other variable numbers. -/
def Names.renumber (π : Int → Int) (ns : Names) : Names :=
  { ns with assigned := ns.assigned.map fun e => (π e.1, e.2) }

/-- Two printers give the same texts, with the names of the second renumbered. -/
def Prints {α : Type} (π : Int → Int) (m m' : StateM Names α) : Prop :=
  ∀ ns, m' (ns.renumber π) = ((m ns).1, (m ns).2.renumber π)

namespace Prints

variable {α β : Type} {π : Int → Int}

theorem pure (a : α) : Prints π (Pure.pure a) (Pure.pure a) := fun _ => rfl

theorem bind {m m' : StateM Names α} {f f' : α → StateM Names β} (hm : Prints π m m')
    (hf : ∀ a, Prints π (f a) (f' a)) : Prints π (m >>= f) (m' >>= f') := by
  intro ns
  show f' (m' (ns.renumber π)).1 (m' (ns.renumber π)).2 = _
  rw [hm ns]
  exact hf _ _

theorem name (hπ : Function.Injective π) (id : Int) (generic : Bool) :
    Prints π (Names.name id generic) (Names.name (π id) generic) := by
  intro ns
  have hlookup : (ns.renumber π).assigned.lookup (π id) = ns.assigned.lookup id := by
    unfold Names.renumber
    induction ns.assigned with
    | nil => rfl
    | cons e es ih =>
      obtain ⟨k, name⟩ := e
      simp only [List.map_cons, List.lookup_cons, hπ.beq_eq, ih]
  unfold Names.name
  rw [hlookup]
  cases ns.assigned.lookup id with
  | some name => rfl
  | none => cases generic <;> rfl

end Prints

namespace Tree

variable {π : Int → Int}

mutual

theorem prints_render (hπ : Function.Injective π) (place : Place) :
    (t : Tree) → Prints π (t.render place) ((t.renumber π).render place)
  | .var _ id generic => by
    rw [renumber, render, render]
    exact .name hπ id generic
  | .con name args => by
    rw [renumber, render, render, length_renumberList]
    refine (prints_renderList hπ _ args).bind fun texts => ?_
    rcases texts with _ | ⟨a, _ | ⟨b, texts⟩⟩ <;> exact .pure _
  | .arrow a r => by
    rw [renumber, render, render]
    exact (prints_render hπ _ a).bind fun _ => (prints_render hπ _ r).bind fun _ => .pure _
  | .tuple es => by
    rw [renumber, render, render]
    refine (prints_renderList hπ _ es).bind fun texts => ?_
    cases texts <;> exact .pure _
  | .record fields rest => by
    rw [renumber, render, render]
    refine (prints_renderFields hπ fields).bind fun texts => ?_
    cases rest <;> exact .pure _
  | .invalidRecord | .lost => by
    rw [renumber, render]
    exact .pure _

theorem prints_renderList (hπ : Function.Injective π) (place : Place) :
    (ts : List Tree) → Prints π (renderList place ts) (renderList place (renumberList π ts))
  | [] => by
    rw [renumberList, renderList]
    exact .pure _
  | t :: ts => by
    rw [renumberList, renderList, renderList]
    exact (prints_render hπ _ t).bind fun _ => (prints_renderList hπ _ ts).bind fun _ => .pure _

theorem prints_renderFields (hπ : Function.Injective π) :
    (fs : List (String × Tree)) → Prints π (renderFields fs) (renderFields (renumberFields π fs))
  | [] => by
    rw [renumberFields, renderFields]
    exact .pure _
  | (l, t) :: fs => by
    rw [renumberFields, renderFields, renderFields]
    exact (prints_render hπ _ t).bind fun _ => (prints_renderFields hπ fs).bind fun _ => .pure _

end

/-- A record with the given fields and end, if there are any. -/
def ofRow : Option (LabelMap Tree × RowEnd) → Tree
  | some (fields, rest) => .record fields rest
  | none => .invalidRecord

/-- Fields and end of a row, renumbered. -/
def renumberRow (π : Int → Int) (row : LabelMap Tree × RowEnd) : LabelMap Tree × RowEnd :=
  (renumberFields π row.1, row.2.blank)

theorem renumber_ofRow (row : Option (LabelMap Tree × RowEnd)) :
    (ofRow row).renumber π = ofRow (row.map (renumberRow π)) := by
  cases row <;> rfl

theorem renumberRow_extend (fs : List (String × Tree)) (row : Option (LabelMap Tree × RowEnd)) :
    (row.map fun row => (LabelMap.extend fs row.1, row.2)).map (renumberRow π) =
      (row.map (renumberRow π)).map fun row =>
        (LabelMap.extend (renumberFields π fs) row.1, row.2) := by
  cases row <;> simp [renumberRow, renumberFields_extend]

end Tree

namespace Store

variable {s s' : Store} {t t' u x y : Ty} {v : Var} {π π' : Int → Int} {θ : Var → Ty}
  {f : Ty → Tree} {g : Ty → Option (LabelMap Tree × RowEnd)}

/-! ## Resolved forms up to renaming -/

theorem resolveWith_record (m : Mark) (r : Ty) :
    s.resolveWith f g (.record m r) = Tree.ofRow (s.resolveRowWith f g r) := by
  rw [resolveWith]
  cases s.resolveRowWith f g r <;> rfl

theorem resolveRowWith_rowExtend (m : Mark) (ls : List (String × Ty)) (r : Ty) :
    s.resolveRowWith f g (.rowExtend m ls r) = (s.resolveRowWith f g r).map fun row =>
      (LabelMap.extend (s.resolveFieldsWith f g ls) row.1, row.2) := by
  rw [resolveRowWith]
  cases s.resolveRowWith f g r <;> rfl

theorem resolveWith_rowExtend (m : Mark) (ls : List (String × Ty)) (r : Ty) :
    s.resolveWith f g (.rowExtend m ls r) =
      Tree.ofRow (s.resolveRowWith f g (.rowExtend m ls r)) := by
  rw [resolveWith, resolveRowWith]
  cases s.resolveRowWith f g r <;> rfl

theorem resolveWith_unlinked (h : ∀ u, s.state v ≠ .linked u) :
    s.resolveWith f g (.var v) = .var v (s.id v) (s.state v).isGeneric ∧
      s.resolveRowWith f g (.var v) = some ([], .flexible v) := by
  rw [resolveWith, resolveRowWith]
  cases hs : s.state v with
  | linked u => exact absurd hs (h u)
  | _ => exact ⟨rfl, rfl⟩

/-- Up to variables, `y` shows in `s'` without any links what `x` shows in `s`. -/
structure Alike (π π' : Int → Int) (s : Store) (f : Ty → Tree)
    (g : Ty → Option (LabelMap Tree × RowEnd)) (s' : Store) (x y : Ty) : Prop where
  tree : (s.resolveWith f g x).renumber π = (s'.resolveAt 0 y).renumber π'
  row : (s.resolveRowWith f g x).map (Tree.renumberRow π) =
    (s'.resolveRowAt 0 y).map (Tree.renumberRow π')

theorem alike_fillList {ts : List Ty} (h : ∀ t ∈ ts, Alike π π' s f g s' t (t.fill θ)) :
    Tree.renumberList π (s.resolveListWith f g ts) = Tree.renumberList π'
      (s'.resolveListWith (fun _ => .lost) (fun _ => none) (Ty.fillList θ ts)) := by
  rw [Tree.renumberList_eq, Tree.renumberList_eq, resolveListWith_map, resolveListWith_map,
    Ty.fillList_eq, List.map_map, List.map_map, List.map_map]
  exact List.map_congr_left fun t ht => (h t ht).tree

theorem alike_fillFields {fs : List (String × Ty)}
    (h : ∀ e ∈ fs, Alike π π' s f g s' e.2 (e.2.fill θ)) :
    Tree.renumberFields π (s.resolveFieldsWith f g fs) = Tree.renumberFields π'
      (s'.resolveFieldsWith (fun _ => .lost) (fun _ => none) (Ty.fillFields θ fs)) := by
  rw [Tree.renumberFields_eq, Tree.renumberFields_eq, resolveFieldsWith_map, resolveFieldsWith_map,
    Ty.fillFields_map, List.map_map, List.map_map, List.map_map]
  exact List.map_congr_left fun e he => congrArg (Prod.mk e.1) (h e he).tree

theorem alike_fill (x : Ty) (h : ∀ v ∈ x.vars, Alike π π' s f g s' (.var v) (θ v)) :
    Alike π π' s f g s' x (x.fill θ) := by
  induction x using Ty.induction with
  | var v => exact h v (by simp [Ty.vars])
  | con _ _ ts ih | tuple _ ts ih =>
    rw [Ty.vars, Ty.forall_mem_varsList] at h
    refine ⟨?_, rfl⟩
    rw [Ty.fill, resolveAt, resolveWith, resolveWith, Tree.renumber, Tree.renumber,
      alike_fillList fun t ht => ih t ht (h t ht)]
  | arrow _ a r iha ihr =>
    rw [Ty.vars, List.forall_mem_append] at h
    refine ⟨?_, rfl⟩
    rw [Ty.fill, resolveAt, resolveWith, resolveWith, Tree.renumber, Tree.renumber,
      (iha h.1).tree, (ihr h.2).tree]
    rfl
  | record _ r ih =>
    refine ⟨?_, rfl⟩
    rw [Ty.fill, resolveAt, resolveWith_record, resolveWith_record, Tree.renumber_ofRow,
      Tree.renumber_ofRow, (ih h).row]
    rfl
  | rowExtend m ls r ihls ihr =>
    rw [Ty.vars, List.forall_mem_append, Ty.varsFields_eq, Ty.forall_mem_varsList] at h
    have hls := List.forall_mem_map.mp fun t ht => ihls t ht (h.1 t ht)
    have hrow : (s.resolveRowWith f g (.rowExtend m ls r)).map (Tree.renumberRow π) =
        (s'.resolveRowAt 0 ((Ty.rowExtend m ls r).fill θ)).map (Tree.renumberRow π') := by
      rw [Ty.fill, resolveRowAt, resolveRowWith_rowExtend, resolveRowWith_rowExtend,
        Tree.renumberRow_extend, Tree.renumberRow_extend, (ihr h.2).row, alike_fillFields hls]
      rfl
    refine ⟨?_, hrow⟩
    rw [resolveWith_rowExtend, Tree.renumber_ofRow, hrow, Ty.fill, resolveAt,
      resolveWith_rowExtend, Tree.renumber_ofRow]
    rfl
  | rowEmpty | lost => exact ⟨rfl, rfl⟩

theorem alike_var {w : Var} (hv : ∀ u, s.state v ≠ .linked u) (hw : ∀ u, s'.state w ≠ .linked u)
    (hid : π (s.id v) = π' (s'.id w)) (hgeneric : (s.state v).isGeneric = (s'.state w).isGeneric) :
    Alike π π' s f g s' (.var v) (.var w) := by
  constructor
  · rw [resolveAt, (resolveWith_unlinked hv).1, (resolveWith_unlinked hw).1, Tree.renumber,
      Tree.renumber, hid, hgeneric]
  · rw [resolveRowAt, (resolveWith_unlinked hv).2, (resolveWith_unlinked hw).2]
    rfl

/-- A type and its expansion show the same. -/
theorem Resolvable.alike_expand (h : s.Resolvable t) (π : Int → Int) :
    (s.resolve t).renumber π = (s.resolveAt 0 (s.expand t)).renumber π := by
  suffices halike : Alike π π s s.resolve s.resolveRow s t (s.expand t) by
    rw [h.resolve_eq.1, halike.tree]
  induction h with
  | @intro t hbound hfollow ih =>
    rw [(Resolvable.intro hbound hfollow).expand_eq]
    refine alike_fill t fun v hv => ?_
    cases hs : s.state v with
    | linked u =>
      obtain ⟨htree, hrow⟩ := ih v hv u hs
      obtain ⟨hresolve, hresolveRow⟩ := (hfollow v hv u hs).resolve_eq
      rw [ending_linked hs]
      constructor
      · rw [resolveWith, hs, ← htree, ← hresolve]
      · rw [resolveRowWith, hs, ← hrow, ← hresolveRow]
    | _ =>
      have hunlinked : ∀ u, s.state v ≠ .linked u := by simp [hs]
      rw [ending_unlinked hunlinked]
      exact alike_var hunlinked hunlinked rfl rfl

/-- Numbers that agree in the same places are related by a permutation. -/
theorem exists_perm {ι : Type} (xs : List ι) (a b : ι → Int)
    (h : ∀ x ∈ xs, ∀ y ∈ xs, a x = a y ↔ b x = b y) : ∃ π : Int ≃ Int, ∀ x ∈ xs, π (a x) = b x := by
  induction xs with
  | nil => exact ⟨Equiv.refl Int, by simp⟩
  | cons x xs ih =>
    obtain ⟨π, hπ⟩ := ih fun y hy z hz => h y (by simp [hy]) z (by simp [hz])
    by_cases hx : ∃ y ∈ xs, a x = a y
    · obtain ⟨y, hy, heq⟩ := hx
      refine ⟨π, List.forall_mem_cons.mpr ⟨?_, hπ⟩⟩
      rw [heq, hπ y hy, (h x (by simp) y (by simp [hy])).mp heq]
    · refine ⟨π.trans (Equiv.swap (π (a x)) (b x)), List.forall_mem_cons.mpr ⟨by simp, ?_⟩⟩
      intro y hy
      have hne : a x ≠ a y := fun heq => hx ⟨y, hy, heq⟩
      rw [Equiv.trans_apply, Equiv.swap_apply_of_ne_of_ne, hπ y hy]
      · exact fun heq => hne (π.injective heq.symm)
      · rw [hπ y hy]
        exact fun heq => hne ((h x (by simp) y (by simp [hy])).mpr heq.symm)

theorem showType_renumber (hπ : Function.Injective π) :
    s.showType t = (((s.resolve t).renumber π).render .loose {}).1 := by
  have hprints := Tree.prints_render hπ .loose (s.resolve t) {}
  exact (congrArg Prod.fst hprints).symm

/-- Types have the same text if one is the other with its variables renamed, quantified ones
to quantified ones and equal numbers to equal numbers. -/
theorem showType_rename (ht : s.Resolvable t) (ht' : s'.Resolvable t') {ρ : Var → Var}
    (hexpand : s'.expand t' = (s.expand t).fill fun v => .var (ρ v))
    (hgeneric : ∀ v ∈ (s.expand t).vars, (s'.state (ρ v)).isGeneric = (s.state v).isGeneric)
    (hids : ∀ u ∈ (s.expand t).vars, ∀ v ∈ (s.expand t).vars,
      s.id u = s.id v ↔ s'.id (ρ u) = s'.id (ρ v)) : s'.showType t' = s.showType t := by
  obtain ⟨π, hπ⟩ := exists_perm (s.expand t).vars s.id (fun v => s'.id (ρ v)) hids
  have halike : Alike π (fun i => i) s (fun _ => .lost) (fun _ => none) s' (s.expand t)
      (s'.expand t') := by
    rw [hexpand]
    refine alike_fill _ fun v hv => ?_
    have hend : ρ v ∈ (s'.expand t').vars := by
      rw [hexpand, Ty.vars_fill]
      exact List.mem_flatMap.mpr ⟨v, hv, by simp [Ty.vars]⟩
    exact alike_var (ht.unlinked hv) (ht'.unlinked hend) (hπ v hv) (hgeneric v hv).symm
  have htree : (s.resolve t).renumber π = (s'.resolve t').renumber fun i => i := by
    rw [ht.alike_expand, ht'.alike_expand, ← halike.tree]
    rfl
  rw [showType_renumber (s := s) π.injective, htree]
  exact showType_renumber fun _ _ h => h

/-- The text of a type over variables that have not changed has not changed. -/
theorem Resolvable.showType_of_cells (h : s.Resolvable t) (hsize : s.size ≤ s'.size)
    (hcells : ∀ v < s.size, s'.cell v = s.cell v) : s'.showType t = s.showType t := by
  have hstate : ∀ v < s.size, s'.state v = s.state v :=
    fun v hv => congrArg Cell.state (hcells v hv)
  have hid : ∀ v < s.size, s'.id v = s.id v := fun v hv => congrArg Cell.id (hcells v hv)
  have hlt : ∀ v ∈ (s.expand t).vars, v < s.size := fun v hv => lt_size_of_unlinked (h.unlinked hv)
  obtain ⟨h', hexpand, -⟩ := h.expand_of_links hsize fun v hv u => by rw [hstate v hv]
  refine showType_rename h h' (hexpand.trans (expandAt_fill_var s s.size t).symm) ?_ ?_
  · exact fun v hv => by rw [hstate v (hlt v hv)]
  · exact fun u hu v hv => by rw [hid u (hlt u hu), hid v (hlt v hv)]

end Store

end Typecase
