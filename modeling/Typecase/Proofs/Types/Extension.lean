import Typecase.Proofs.Types.View
import Mathlib.Data.Set.Basic
set_option autoImplicit false

/-!
# Stores that know more

A store extends another one if it keeps its links.  Rows then keep their fields and may
gain others at their end, and types that were equal stay equal.
-/

namespace Typecase

/-- The variable by which more may become known of a type with this symbol. -/
def Symbol.open? : Symbol → Option Var
  | .var v => some v
  | .record _ (.flexible v) => some v
  | _ => none

theorem Symbol.cases_open (sym : Symbol) :
    (∃ v, sym = .var v) ∨ (∃ labels v, sym = .record labels (.flexible v)) ∨ sym.open? = none := by
  cases sym with
  | var v => exact Or.inl ⟨v, rfl⟩
  | record labels e =>
    cases e with
    | rigid => exact Or.inr (Or.inr rfl)
    | flexible v => exact Or.inr (Or.inl ⟨labels, v, rfl⟩)
  | _ => exact Or.inr (Or.inr rfl)

namespace Store

/-- `s'` keeps the links of `s`, and the rows of the types in `W` are rows in `s'`. -/
structure Extends (W : Set Ty) (s s' : Store) : Prop where
  size_le : s.size ≤ s'.size
  links : ∀ v t, v < s.size → s.state v = .linked t → s'.state v = .linked t
  rows : ∀ x ∈ W, ∀ fs v, s.Fields x fs (.flexible v) → ∃ gs e, s'.Row (.var v) gs e

section Extension

variable {W : Set Ty} {s s' : Store} {x y r : Ty} {fs gs : List (String × Ty)} {e : RowEnd}

theorem Extends.link (h : Extends W s s') {v : Var} {t : Ty} (hv : s.Resolvable (.var v))
    (ht : s.state v = .linked t) : s'.state v = .linked t :=
  h.links v t hv.lt ht

theorem Leads.extend (h : s.Leads x y) (hext : Extends W s s') (hx : s.Resolvable x) :
    s'.Leads x y := by
  induction h with
  | done => exact .done
  | link hv _ ih =>
    exact .link (hext.link hx hv) (ih (hx.link hv))

/-- A row goes on where it ended. -/
theorem Row.append {e' : RowEnd} (h : s.Row r fs e) (hext : Extends W s s') (hr : s.Resolvable r)
    (hrest : s'.Row e.toTy gs e') : s'.Row r (fs ++ gs) e' := by
  induction h with
  | extend _ ih =>
    rw [List.append_assoc]
    exact .extend (ih hr.tail hrest)
  | link hv _ ih =>
    exact .link (hext.link hr hv) (ih (hr.link hv) hrest)
  | flexible => exact hrest
  | rigid => exact hrest

/-- What is a row was a row before. -/
theorem Row.exists_before (h : s'.Row r fs e) (hext : Extends W s s') (hr : s.Resolvable r) :
    ∃ gs e', s.Row r gs e' := by
  induction h with
  | extend _ ih =>
    obtain ⟨gs, e', hrow⟩ := ih hr.tail
    exact ⟨_, e', .extend hrow⟩
  | @link v t _ _ hv _ ih =>
    cases hstate : s.state v with
    | linked u =>
      have hu := hext.link hr hstate
      rw [hv] at hu
      cases hu
      obtain ⟨gs, e', hrow⟩ := ih (hr.link hstate)
      exact ⟨gs, e', .link hstate hrow⟩
    | _ => exact ⟨[], .flexible v, .flexible (by simp [hstate])⟩
  | @flexible v hunlinked =>
    refine ⟨[], .flexible v, .flexible ?_⟩
    intro t ht
    exact hunlinked t (hext.link hr ht)
  | rigid => exact ⟨[], .rigid, .rigid⟩

theorem Row.ends (h : s.Row r fs e) : s.Row e.toTy [] e := by
  induction h with
  | extend _ ih => exact ih
  | link _ _ ih => exact ih
  | flexible hunlinked => exact .flexible hunlinked
  | rigid => exact .rigid

theorem Fields.ends (h : s.Fields x fs e) : s.Row e.toTy [] e := by
  induction h with
  | link _ _ ih => exact ih
  | row _ hrow => exact hrow.ends

theorem Fields.append {e' : RowEnd} (h : s.Fields x fs e) (hext : Extends W s s')
    (hx : s.Resolvable x) (hrest : s'.Row e.toTy gs e') : s'.Fields x (fs ++ gs) e' := by
  induction h with
  | link hv _ ih =>
    exact .link (hext.link hx hv) (ih (hx.link hv) hrest)
  | row hr hrow => exact .row hr (hrow.append hext (hx.row hr) hrest)

theorem Fields.keep (h : s.Fields x fs e) (hext : Extends W s s') (hx : s.Resolvable x)
    (hend : s'.Row e.toTy [] e) : s'.Fields x fs e := by
  have hfields := h.append hext hx hend
  rwa [List.append_nil] at hfields

theorem Row.resolvable_end (h : s.Row r fs e) (hext : Extends W s s') (hr : s.Resolvable r)
    (hr' : s'.Resolvable r) : s'.Resolvable e.toTy := by
  induction h with
  | extend _ ih => exact ih hr.tail hr'.tail
  | link hv _ ih =>
    exact ih (hr.link hv) (hr'.link (hext.link hr hv))
  | flexible => exact hr'
  | rigid => exact hr'

theorem Fields.resolvable_end (h : s.Fields x fs e) (hext : Extends W s s') (hx : s.Resolvable x)
    (hx' : s'.Resolvable x) : s'.Resolvable e.toTy := by
  induction h with
  | link hv _ ih =>
    exact ih (hx.link hv) (hx'.link (hext.link hx hv))
  | row hr hrow =>
    exact hrow.resolvable_end hext (hx.row hr)
      (hx'.row hr)

theorem Extends.refl (W : Set Ty) (s : Store) : Extends W s s where
  size_le := Nat.le_refl _
  links := fun _ _ _ h => h
  rows := fun _ _ _ v hfields => ⟨[], .flexible v, hfields.ends⟩

theorem Extends.trans {s'' : Store} (h : Extends W s s') (h' : Extends W s' s'')
    (hW : ∀ x ∈ W, s.Resolvable x) (hW' : ∀ x ∈ W, s'.Resolvable x) : Extends W s s'' where
  size_le := Nat.le_trans h.size_le h'.size_le
  links := fun v t hv ht =>
    h'.links v t (Nat.lt_of_lt_of_le hv h.size_le) (h.links v t hv ht)
  rows := by
    intro x hx fs v hfields
    obtain ⟨gs, e, hrow⟩ := h.rows x hx fs v hfields
    have hfields' := hfields.append h (hW x hx) hrow
    have hv : s'.Resolvable (.var v) := hfields.resolvable_end h (hW x hx) (hW' x hx)
    cases e with
    | rigid => exact ⟨gs ++ [], .rigid, hrow.append h' hv .rigid⟩
    | flexible w =>
      obtain ⟨gs', e', hrow'⟩ := h'.rows x hx (fs ++ gs) w hfields'
      exact ⟨gs ++ gs', e', hrow.append h' hv hrow'⟩

/-- A type looks the same in an extension unless its open variable got a link. -/
theorem View.extend {sym : Symbol} {k : Slot → Option Ty} (h : s.View x sym k)
    (hext : Extends W s s') (hx : s.Resolvable x)
    (hopen : ∀ v, sym.open? = some v → ∀ t, s'.state v ≠ .linked t) : s'.View x sym k := by
  induction h with
  | link hv _ ih =>
    exact .link (hext.link hx hv) (ih (hx.link hv) hopen)
  | var => exact .var (hopen _ rfl)
  | con => exact .con
  | arrow => exact .arrow
  | tuple => exact .tuple
  | @record t r fs e hr hrow =>
    have hend : s'.Row e.toTy [] e := by
      cases e with
      | rigid => exact .rigid
      | flexible v => exact .flexible (hopen v rfl)
    have hrow' := hrow.append hext (hx.row hr) hend
    rw [List.append_nil] at hrow'
    exact .record hr hrow'
  | @invalid t r hr hnone =>
    refine .invalid hr ?_
    intro fs e hrow
    obtain ⟨gs, e', hbefore⟩ := hrow.exists_before hext (hx.row hr)
    exact hnone gs e' hbefore
  | lost => exact .lost

/-- What is known of a type whose open variable got no link was known before. -/
theorem View.kept {sym : Symbol} {k : Slot → Option Ty} (h : s.View x sym k) (hext : Extends W s s')
    (hx : s.Resolvable x) (hopen : ∀ v, sym.open? = some v → ∀ t, s'.state v ≠ .linked t) :
    (∀ fs e, s'.Fields x fs e → s.Fields x fs e) ∧ ∀ c, s'.Child x c → s.Child x c := by
  have hview := h.extend hext hx hopen
  constructor
  · intro fs e hfields
    obtain ⟨rfl, -⟩ := hview.unique hfields.view
    obtain ⟨gs, hbefore, -, -⟩ := h.fields
    have hkeep := hbefore.keep hext hx hfields.ends
    rw [(hfields.unique hkeep).1]
    exact hbefore
  · rintro c ⟨sym', k', slot, hview', hc⟩
    obtain ⟨rfl, rfl⟩ := hview.unique hview'
    exact ⟨sym, k, slot, h, hc⟩

theorem Child.extend {c : Ty} (h : s.Child x c) (hext : Extends W s s') (hx : x ∈ W)
    (hresolvable : s.Resolvable x) : s'.Child x c := by
  obtain ⟨sym, k, slot, hview, hc⟩ := h
  rcases sym.cases_open with ⟨v, rfl⟩ | ⟨labels, v, rfl⟩ | hclosed
  · have hnone := hview.isSome slot
    rw [hc] at hnone
    cases slot <;> cases hnone
  · obtain ⟨fs, hfields, rfl, rfl⟩ := hview.fields
    obtain ⟨gs, e, hrest⟩ := hext.rows x hx fs v hfields
    refine ⟨_, _, slot, (hfields.append hext hresolvable hrest).view, ?_⟩
    cases slot with
    | index i => cases hc
    | field l => exact LabelMap.lookup_append_left hc
  · exact ⟨sym, k, slot, hview.extend hext hresolvable (by simp [hclosed]), hc⟩

theorem Resolvable.equal_of_leads {t : Ty} (hx : s.Resolvable x) (hxt : s.Leads x t)
    (hyt : s.Leads y t) : s.Equal x y := by
  have ht := hx.leads hxt
  obtain ⟨sym, k, hview⟩ := ht.exists_view
  refine .node (hxt.view_iff.mpr hview) (hyt.view_iff.mpr hview) ?_
  intro slot c c' hc hc'
  rw [hc] at hc'
  cases hc'
  exact (ht.child ⟨sym, k, slot, hview, hc⟩).equal_refl

/-- Records that grow by the same fields at the same end stay equal. -/
theorem equal_append {fs' : List (String × Ty)} (hx : s.Fields x (fs ++ gs) e)
    (hy : s.Fields y (fs' ++ gs) e) (hxs : s.Resolvable x)
    (hlabels : LabelMap.has fs = LabelMap.has fs')
    (hparts : ∀ l t u, fs.lookup l = some t → fs'.lookup l = some u → s.Equal t u) :
    s.Equal x y := by
  have hlabel : ∀ l, (fs.lookup l).isSome = (fs'.lookup l).isSome := fun l => congrFun hlabels l
  have hhas : LabelMap.has (fs ++ gs) = LabelMap.has (fs' ++ gs) := by
    funext l
    simp only [LabelMap.has, LabelMap.find?, List.lookup_append, Option.isSome_or, hlabel l]
  refine .node hx.view (hhas ▸ hy.view) ?_
  intro slot t u ht hu
  cases slot with
  | index i => cases ht
  | field l =>
    have hfieldx : (fs ++ gs).lookup l = some t := ht
    have hfieldy : (fs' ++ gs).lookup l = some u := hu
    have hl := hlabel l
    rw [List.lookup_append, Option.or_eq_some_iff] at hfieldx hfieldy
    rcases hfieldx with hfs | ⟨hnone, hgs⟩
    · rcases hfieldy with hfs' | ⟨hnone', -⟩
      · exact hparts l t u hfs hfs'
      · simp [hfs, hnone'] at hl
    · rcases hfieldy with hfs' | ⟨-, hgs'⟩
      · simp [hnone, hfs'] at hl
      · rw [hgs] at hgs'
        cases hgs'
        exact (hxs.child ⟨_, _, .field l, hx.view, ht⟩).equal_refl

/-- Equal types stay equal. -/
theorem Equal.extend (h : s.Equal x y) (hext : Extends W s s')
    (hclosed : ∀ z ∈ W, ∀ c, s.Child z c → c ∈ W) (hW : ∀ z ∈ W, s.Resolvable z)
    (hW' : ∀ z ∈ W, s'.Resolvable z) (hx : x ∈ W) (hy : y ∈ W) : s'.Equal x y := by
  induction h with
  | @node x y sym k k' hviewx hviewy _ ih =>
    have hparts : ∀ slot t u, k slot = some t → k' slot = some u → s'.Equal t u := by
      intro slot t u ht hu
      exact ih slot t u ht hu (hclosed x hx t ⟨_, _, slot, hviewx, ht⟩)
        (hclosed y hy u ⟨_, _, slot, hviewy, hu⟩)
    rcases sym.cases_open with ⟨v, rfl⟩ | ⟨labels, v, rfl⟩ | hopen
    · exact (hW' x hx).equal_of_leads (hviewx.leads.1.extend hext (hW x hx))
        (hviewy.leads.1.extend hext (hW y hy))
    · obtain ⟨fs, hfieldsx, rfl, rfl⟩ := hviewx.fields
      obtain ⟨fs', hfieldsy, hlabels, rfl⟩ := hviewy.fields
      obtain ⟨gs, e, hrest⟩ := hext.rows x hx fs v hfieldsx
      exact equal_append (hfieldsx.append hext (hW x hx) hrest)
        (hfieldsy.append hext (hW y hy) hrest) (hW' x hx) hlabels fun l => hparts (.field l)
    · exact .node (hviewx.extend hext (hW x hx) (by simp [hopen]))
        (hviewy.extend hext (hW y hy) (by simp [hopen])) hparts

end Extension

end Store

end Typecase
