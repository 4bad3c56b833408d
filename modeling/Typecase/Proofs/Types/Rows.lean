import Typecase.Proofs.Types.Tidy
set_option autoImplicit false

/-!
# Unifying rows

Two records are unified by giving each the fields that it lacks, after their common fields
have been unified, and a common end.  All records that ended as one of them did grow with
it.
-/

namespace Typecase

theorem RowEnd.mem_vars {e : RowEnd} {v : Var} : v ∈ e.toTy.vars ↔ e = .flexible v := by
  cases e with
  | rigid => simp [toTy, Ty.vars]
  | flexible w =>
    simp only [toTy, Ty.vars, List.mem_singleton, flexible.injEq]
    exact eq_comm

namespace Store

variable {s s' : Store} {kind : Var → Kind} {W : Set Ty} {e : RowEnd} {fs : List (String × Ty)}
  {x r : Ty} {v : Var}

theorem Equal.fields {y : Ty} (h : s.Equal x y) {gs : List (String × Ty)} {e' : RowEnd}
    (hx : s.Fields x fs e) (hy : s.Fields y gs e') :
    LabelMap.has fs = LabelMap.has gs ∧ e = e' := by
  cases h with
  | node hviewx hviewy _ =>
    obtain ⟨rfl, -⟩ := hx.view.unique hviewx
    obtain ⟨hsym, -⟩ := hviewy.unique hy.view
    exact Symbol.record.inj hsym

theorem Row.reach_end (h : s.Row r fs (.flexible v)) : s.Reach r v := by
  generalize he : RowEnd.flexible v = e at h
  induction h with
  | extend _ ih => exact (ih he).mono fun w hw => List.mem_append_right _ hw
  | link hu _ ih => exact .step (by simp [Ty.vars]) hu (ih he)
  | flexible =>
    cases he
    exact .here (by simp [Ty.vars])
  | rigid => cases he

theorem Fields.child {c : Ty} (h : s.Fields x fs e) {l : String} (hc : fs.lookup l = some c) :
    s.Child x c :=
  ⟨_, _, .field l, h.view, hc⟩

theorem Fields.mem_of_child {c : Ty} (h : s.Fields x fs e) (hc : s.Child x c) :
    ∃ l, (l, c) ∈ fs := by
  obtain ⟨sym, k, slot, hview, hslot⟩ := hc
  obtain ⟨-, rfl⟩ := h.view.unique hview
  exact Slot.mem_of_named hslot

/-- Records with the same end are equal once each has the fields that it lacked. -/
theorem equal_of_completed {y : Ty} {fs gs : LabelMap Ty}
    (hx : s.Fields x (fs ++ LabelMap.without gs fs) e)
    (hy : s.Fields y (gs ++ LabelMap.without fs gs) e)
    (hleft : ∀ l t, fs.lookup l = some t → s.Resolvable t)
    (hright : ∀ l t, gs.lookup l = some t → s.Resolvable t)
    (hequal : ∀ l t u, fs.lookup l = some t → gs.lookup l = some u → s.Equal t u) :
    s.Equal x y := by
  have hlabels : LabelMap.has (fs ++ LabelMap.without gs fs) =
      LabelMap.has (gs ++ LabelMap.without fs gs) := by
    funext l
    simp only [LabelMap.has, LabelMap.find?, LabelMap.lookup_append_without, Option.isSome_or]
    exact Bool.or_comm _ _
  refine .node hx.view (hlabels ▸ hy.view) ?_
  intro slot t u ht hu
  cases slot with
  | index i => cases ht
  | field l =>
    have hx' : (fs.lookup l).or (gs.lookup l) = some t :=
      (LabelMap.lookup_append_without fs gs l).symm.trans ht
    have hy' : (gs.lookup l).or (fs.lookup l) = some u :=
      (LabelMap.lookup_append_without gs fs l).symm.trans hu
    cases hfs : fs.lookup l with
    | none =>
      rw [hfs] at hx' hy'
      rw [Option.none_or] at hx'
      rw [hx'] at hy'
      cases hy'
      exact (hright l t hx').equal_refl
    | some t' =>
      rw [hfs] at hx' hy'
      cases hx'
      cases hgs : gs.lookup l with
      | none =>
        rw [hgs] at hy'
        cases hy'
        exact (hleft l t hfs).equal_refl
      | some u' =>
        rw [hgs] at hy'
        cases hy'
        exact hequal l t u hfs hgs

/-! ## A common end -/

/-- `x` and `y` are records with the fields `fs` and `gs` and the ends `a` and `b`.  Their
common fields are equal. -/
structure Records (kind : Var → Kind) (W : Set Ty) (s : Store) (x y : Ty) (fs gs : LabelMap Ty)
    (a b : RowEnd) : Prop where
  tidy : s.Tidy kind W
  left : x ∈ W
  right : y ∈ W
  fieldsLeft : s.Fields x fs a
  fieldsRight : s.Fields y gs b
  equal : ∀ l t u, fs.lookup l = some t → gs.lookup l = some u → s.Equal t u

/-- From `s` to `s'`, the rows of `x` and `y` are completed by the fields that they lack and
come to the common end `e`. -/
structure Meets (kind : Var → Kind) (W : Set Ty) (s s' : Store) (x y : Ty) (fs gs : LabelMap Ty)
    (a b e : RowEnd) : Prop extends Records kind W s x y fs gs a b where
  proper : ∀ z ∈ W, s'.Proper kind .type z
  tuned : Tuned (a.toTy.vars ++ b.toTy.vars) s s'
  calm : ∀ v ∈ a.toTy.vars ++ b.toTy.vars, s.state v ≠ .generic
  rowLeft : s'.Row a.toTy (LabelMap.without gs fs) e
  rowRight : s'.Row b.toTy (LabelMap.without fs gs) e
  /-- The common end is an end of one of the rows, or a new variable. -/
  source : e = a ∨ e = b ∨ ∃ v, e = .flexible v ∧ s.size ≤ v

section Meets

variable {x y z : Ty} {fs gs hs : LabelMap Ty} {a b e : RowEnd} {v : Var}

theorem Records.symm (h : Records kind W s x y fs gs a b) : Records kind W s y x gs fs b a where
  tidy := h.tidy
  left := h.right
  right := h.left
  fieldsLeft := h.fieldsRight
  fieldsRight := h.fieldsLeft
  equal := fun l t u ht hu => (h.equal l u t hu ht).symm

section Meets

variable (h : Meets kind W s s' x y fs gs a b e)
include h

theorem Meets.symm : Meets kind W s s' y x gs fs b a e where
  toRecords := h.toRecords.symm
  proper := h.proper
  tuned := by
    refine ⟨h.tuned.size_le, ?_⟩
    intro u hlt hu
    refine h.tuned.state u hlt ?_
    rwa [List.mem_append, or_comm, ← List.mem_append]
  calm := by
    intro v hv
    refine h.calm v ?_
    rwa [List.mem_append, or_comm, ← List.mem_append]
  rowLeft := h.rowRight
  rowRight := h.rowLeft
  source := by
    rcases h.source with ha | hb | hnew
    · exact Or.inr (Or.inl ha)
    · exact Or.inl hb
    · exact Or.inr (Or.inr hnew)

theorem Meets.end_var (hv : e = .flexible v) : s.size ≤ v ∨ v ∈ a.toTy.vars ++ b.toTy.vars := by
  rcases h.source with ha | hb | ⟨w, hw, hle⟩
  · exact Or.inr (List.mem_append_left _ (RowEnd.mem_vars.mpr (ha.symm.trans hv)))
  · exact Or.inr (List.mem_append_right _ (RowEnd.mem_vars.mpr (hb.symm.trans hv)))
  · rw [hw] at hv
    cases hv
    exact Or.inl hle

theorem Meets.resolvable : ∀ z ∈ W, s'.Resolvable z :=
  fun z hz => (h.proper z hz).resolvable

theorem Meets.extension : Extends W s s' := by
  refine h.tuned.extension ?_ ?_
  · intro v hv
    rcases List.mem_append.mp hv with hv | hv
    · exact (RowEnd.mem_vars.mp hv ▸ h.fieldsLeft).unlinked
    · exact (RowEnd.mem_vars.mp hv ▸ h.fieldsRight).unlinked
  · intro _ _ _ v _ hv
    rcases List.mem_append.mp hv with hv | hv
    · exact ⟨_, e, (RowEnd.mem_vars.mp hv ▸ h.rowLeft : s'.Row (RowEnd.flexible v).toTy _ e)⟩
    · exact ⟨_, e, (RowEnd.mem_vars.mp hv ▸ h.rowRight : s'.Row (RowEnd.flexible v).toTy _ e)⟩

theorem Meets.end_kind (hv : v ∈ a.toTy.vars ++ b.toTy.vars) : kind v = .row := by
  rcases List.mem_append.mp hv with hv | hv
  · have hfields := RowEnd.mem_vars.mp hv ▸ h.fieldsLeft
    exact (hfields.usable (h.tidy.proper x h.left)).kind
  · have hfields := RowEnd.mem_vars.mp hv ▸ h.fieldsRight
    exact (hfields.usable (h.tidy.proper y h.right)).kind

theorem Meets.equal_extend {z' : Ty} (hz : z ∈ W) (hz' : z' ∈ W) (hequal : s.Equal z z') :
    s'.Equal z z' :=
  hequal.extend h.extension h.tidy.parts h.tidy.resolvable h.resolvable hz hz'

/-- What ended as `x` did now has the fields that `x` lacked as well. -/
theorem Meets.append (hz : z ∈ W) (hfields : s.Fields z hs a) :
    s'.Fields z (hs ++ LabelMap.without gs fs) e :=
  hfields.append h.extension (h.tidy.resolvable z hz) h.rowLeft

theorem Meets.equal_types : s'.Equal x y := by
  have hx := h.append h.left h.fieldsLeft
  have hy := h.symm.append h.right h.fieldsRight
  have hleft : ∀ l t, fs.lookup l = some t → t ∈ W := fun l t ht =>
    h.tidy.parts x h.left t (h.fieldsLeft.child ht)
  have hright : ∀ l t, gs.lookup l = some t → t ∈ W := fun l t ht =>
    h.tidy.parts y h.right t (h.fieldsRight.child ht)
  refine equal_of_completed hx hy (fun l t ht => h.resolvable t (hleft l t ht))
    (fun l t ht => h.resolvable t (hright l t ht)) ?_
  intro l t u ht hu
  exact h.equal_extend (hleft l t ht) (hright l u hu) (h.equal l t u ht hu)

end Meets

/-- What became of the record `z`, which now ends as `x` and `y` do. -/
structure Grown (W : Set Ty) (s' : Store) (x z : Ty) (hs : LabelMap Ty) (e : RowEnd) : Prop where
  fields : s'.Fields z hs e
  nodup : (hs.map (·.1)).Nodup
  parts : ∀ l c, hs.lookup l = some c → c ∈ W
  equal : s'.Equal z x

section Grown

variable (h : Meets kind W s s' x y fs gs a b e)
include h

theorem Meets.grown (hz : z ∈ W) (hfields : s.Fields z hs a) (ha : a = .flexible v) :
    ∃ hs', Grown W s' x z hs' e := by
  subst ha
  have hequal := h.tidy.shared z hz x h.left hs fs v hfields h.fieldsLeft
    (h.calm v (List.mem_append_left _ (RowEnd.mem_vars.mpr rfl)))
  have hlabels := (hequal.fields hfields h.fieldsLeft).1
  refine ⟨hs ++ LabelMap.without gs fs, h.append hz hfields, ?_, ?_, ?_⟩
  · exact LabelMap.nodup_append_without (h.tidy.noRepeat z hz hs _ hfields)
      (h.tidy.noRepeat y h.right gs b h.fieldsRight) hlabels
  · intro l c hc
    rw [List.lookup_append, Option.or_eq_some_iff] at hc
    rcases hc with hc | ⟨-, hc⟩
    · exact h.tidy.parts z hz c (hfields.child hc)
    · rw [LabelMap.lookup_without] at hc
      split at hc
      · cases hc
      · exact h.tidy.parts y h.right c (h.fieldsRight.child hc)
  · exact h.equal_extend hz h.left hequal

theorem Meets.grown_end (hz : z ∈ W) (hfields : s.Fields z hs (.flexible v))
    (hv : v ∈ a.toTy.vars ++ b.toTy.vars) : ∃ hs', Grown W s' x z hs' e := by
  rcases List.mem_append.mp hv with hv | hv
  · have ha := RowEnd.mem_vars.mp hv
    exact h.grown hz (ha ▸ hfields) ha
  · have hb := RowEnd.mem_vars.mp hv
    obtain ⟨hs', hgrown⟩ := h.symm.grown hz (hb ▸ hfields) hb
    exact ⟨hs', hgrown.fields, hgrown.nodup, hgrown.parts, hgrown.equal.trans h.equal_types.symm⟩

/-- Each type grew or is as it was. -/
theorem Meets.grown_or_kept (hz : z ∈ W) :
    (∃ hs, Grown W s' x z hs e) ∨
      (∀ hs e', s'.Fields z hs e' → s.Fields z hs e' ∧
        ∀ v, e' = .flexible v → v ∉ a.toTy.vars ++ b.toTy.vars) ∧
      ∀ c, s'.Child z c → s.Child z c := by
  obtain ⟨sym, k, hview⟩ := (h.tidy.resolvable z hz).exists_view
  by_cases hend : ∃ hs v, s.Fields z hs (.flexible v) ∧ v ∈ a.toTy.vars ++ b.toTy.vars
  · obtain ⟨hs, v, hfields, hv⟩ := hend
    exact Or.inl (h.grown_end hz hfields hv)
  · obtain ⟨hfields, hchild⟩ := hview.kept h.extension (h.tidy.resolvable z hz) (by
      intro v hv
      obtain ⟨hunlinked, hcases⟩ := hview.open_cases (h.tidy.proper z hz) hv
      refine h.tuned.unlinked ?_ hunlinked
      intro hmem
      rcases hcases with ⟨-, hkind⟩ | ⟨hs, hfields, -⟩
      · rw [h.end_kind hmem] at hkind
        cases hkind
      · exact hend ⟨hs, v, hfields, hmem⟩)
    refine Or.inr ⟨?_, hchild⟩
    intro hs e' hfields'
    have hbefore := hfields hs e' hfields'
    refine ⟨hbefore, ?_⟩
    rintro v rfl hmem
    exact hend ⟨hs, v, hbefore, hmem⟩

/-- Records are unified by completing their rows. -/
theorem Meets.unified : Unified kind W s [(x, y)] s' := by
  refine ⟨⟨h.proper, ?_, ?_, ?_, ?_⟩, h.extension, List.forall_mem_singleton.mpr h.equal_types, ?_⟩
  · intro z hz c hc
    rcases h.grown_or_kept hz with ⟨hs, hgrown⟩ | ⟨-, hchild⟩
    · obtain ⟨l, hmem⟩ := hgrown.fields.mem_of_child hc
      exact hgrown.parts l c (LabelMap.lookup_of_mem hgrown.nodup hmem)
    · exact h.tidy.parts z hz c (hchild c hc)
  · intro z hz hs e' hfields
    rcases h.grown_or_kept hz with ⟨hs', hgrown⟩ | ⟨hkept, -⟩
    · obtain ⟨rfl, -⟩ := hfields.unique hgrown.fields
      exact hgrown.nodup
    · exact h.tidy.noRepeat z hz hs e' (hkept hs e' hfields).1
  · intro z₁ hz₁ z₂ hz₂ hs₁ hs₂ v hfields₁ hfields₂ hcalm
    -- a record that grew does not end as one that did not
    have hmixed : ∀ z hs, z ∈ W → e = .flexible v → s.Fields z hs (.flexible v) →
        v ∉ a.toTy.vars ++ b.toTy.vars → False := by
      intro z hs hz he hfields hv
      have hlt := (hfields.usable (h.tidy.proper z hz)).lt
      rcases h.end_var he with hle | hmem
      · exact absurd hlt (Nat.not_lt.mpr hle)
      · exact hv hmem
    rcases h.grown_or_kept hz₁ with ⟨_, hgrown₁⟩ | ⟨hkept₁, -⟩ <;>
      rcases h.grown_or_kept hz₂ with ⟨_, hgrown₂⟩ | ⟨hkept₂, -⟩
    · exact hgrown₁.equal.trans hgrown₂.equal.symm
    · obtain ⟨hbefore, hv⟩ := hkept₂ hs₂ _ hfields₂
      exact (hmixed z₂ hs₂ hz₂ (hgrown₁.fields.unique hfields₁).2 hbefore (hv v rfl)).elim
    · obtain ⟨hbefore, hv⟩ := hkept₁ hs₁ _ hfields₁
      exact (hmixed z₁ hs₁ hz₁ (hgrown₂.fields.unique hfields₂).2 hbefore (hv v rfl)).elim
    · obtain ⟨hbefore₁, hv⟩ := hkept₁ hs₁ _ hfields₁
      have hlt := lt_size_of_unlinked hbefore₁.unlinked
      exact h.equal_extend hz₁ hz₂ (h.tidy.shared z₁ hz₁ z₂ hz₂ hs₁ hs₂ v hbefore₁
        (hkept₂ hs₂ _ hfields₂).1 fun hgeneric =>
          hcalm ((h.tuned.generic_iff hlt (hv v rfl)).mpr hgeneric))
  · intro v hv
    exact h.tidy.unallocated v (Nat.le_trans h.tuned.size_le hv)
  · rintro z hz hs v hfields ⟨t, ht⟩
    have hv : v ∈ a.toTy.vars ++ b.toTy.vars := by
      by_contra hv
      exact h.tuned.unlinked hv hfields.unlinked t ht
    obtain ⟨_, hgrown⟩ := h.grown_end hz hfields hv
    exact ⟨(x, y), List.mem_cons_self, x, .refl, hgrown.equal⟩

end Grown

end Meets

/-! ## Reaching a common end -/

theorem Row.tuned {vs : List Var} (h : s.Row r fs e) (htuned : Tuned vs s s') (hr : s.Resolvable r)
    (hvs : ∀ v ∈ vs, ∀ t, s.state v ≠ .linked t) (he : ∀ v ∈ vs, e ≠ .flexible v) :
    s'.Row r fs e := by
  have hext : Extends ∅ s s' := htuned.extension hvs fun _ hx => absurd hx (Set.notMem_empty _)
  have hend : s'.Row e.toTy [] e := by
    cases e with
    | rigid => exact .rigid
    | flexible w => exact .flexible (htuned.unlinked (fun hw => he w hw rfl) h.unlinked)
  have hrow := h.append hext hr hend
  rwa [List.append_nil] at hrow

theorem Row.tuned_one (h : s.Row r fs e) (htuned : Tuned [v] s s') (hr : s.Resolvable r)
    (hv : ∀ t, s.state v ≠ .linked t) (hne : e ≠ .flexible v) : s'.Row r fs e := by
  refine h.tuned htuned hr ?_ ?_
  · intro w hw
    exact List.mem_singleton.mp hw ▸ hv
  · intro w hw
    exact List.mem_singleton.mp hw ▸ hne

theorem Proper.rowExtend {m : Mark} {ls : List (String × Ty)}
    (hls : ∀ f ∈ ls, s.Proper kind .type f.2) (hr : s.Proper kind .row r) :
    s.Proper kind .row (.rowExtend m ls r) := by
  refine .intro ?_ ?_
  · intro v k hv
    rcases List.mem_append.mp hv with hv | hv
    · obtain ⟨f, hf, hv⟩ := Ty.mem_usesFields.mp hv
      exact (hls f hf).usable hv
    · exact hr.usable hv
  · intro v k u hv hu
    rcases List.mem_append.mp hv with hv | hv
    · obtain ⟨f, hf, hv⟩ := Ty.mem_usesFields.mp hv
      exact (hls f hf).follow hv hu
    · exact hr.follow hv hu

/-! ## Completing rows -/

/-- Bind the end `v` of a row to the fields `ls` and the end `e`. -/
def complete (v : Var) (ls : LabelMap Ty) (e : RowEnd) : UnifyM Unit := do
  Store.bind v (← Ty.extendRow ls e.toTy)

/-- What is known when the end `v` of a row is bound to the fields `ls` and the end `e`. -/
structure Completing (kind : Var → Kind) (W : Set Ty) (s : Store) (v : Var) (ls : LabelMap Ty)
    (e : RowEnd) : Prop where
  usable : s.Usable kind v .row
  unlinked : ∀ t, s.state v ≠ .linked t
  parts : ∀ f ∈ ls, f.2 ∈ W
  fields : ∀ f ∈ ls, s.Proper kind .type f.2
  rest : s.Proper kind .row e.toTy
  ending : s.Row e.toTy [] e
  apart : e ≠ .flexible v

/-- A row that is completed has the further fields and the other end. -/
theorem Completing.ok {ls : LabelMap Ty} (h : Completing kind W s v ls e)
    (hrun : complete v ls e s = (.ok (), s')) :
    Tuned [v] s s' ∧ (∀ k x, s.Proper kind k x → s'.Proper kind k x) ∧ s'.Row (.var v) ls e ∧
      s.state v ≠ .generic ∧ ∀ w, e = .flexible w → s.state w ≠ .generic := by
  obtain ⟨t, s₁, hextend, hbind⟩ := bind_ok_iff.mp hrun
  obtain ⟨htuned, -, ht⟩ := extendRow_run (lift_ok_iff.mp hextend)
  have hproper : ∀ k x, s.Proper kind k x → s₁.Proper kind k x := fun k x hx =>
    hx.tuned htuned fun w hw => absurd hw List.not_mem_nil
  have hrow₁ : s₁.Row e.toTy [] e :=
    h.ending.tuned htuned h.rest.resolvable (fun w hw => absurd hw List.not_mem_nil)
      fun w hw => absurd hw List.not_mem_nil
  have hbound : s₁.Proper kind .row t ∧ s₁.Row t ls e := by
    rcases ht with ⟨rfl, rfl⟩ | ⟨m, rfl⟩
    · exact ⟨hproper _ _ h.rest, hrow₁⟩
    · refine ⟨.rowExtend (fun f hf => hproper _ _ (h.fields f hf)) (hproper _ _ h.rest), ?_⟩
      have hextended : s₁.Row (.rowExtend m ls e.toTy) (ls ++ []) e := .extend hrow₁
      rwa [List.append_nil] at hextended
  have hunlinked₁ := htuned.unlinked List.not_mem_nil h.unlinked
  have hleveled₁ := htuned.leveled h.usable.lt List.not_mem_nil h.usable.leveled
  obtain ⟨hbinds, hoccurs⟩ := bind_ok hunlinked₁ hleveled₁ hbound.1.resolvable hbind
  refine ⟨htuned.trans hbinds.tuned, ?_, ?_, ?_, ?_⟩
  · intro k x hx
    exact (hproper k x hx).binds hbinds (h.usable.kind ▸ hbound.1) hoccurs
  · exact .link hbinds.linked
      (hbound.2.tuned_one hbinds.tuned hbound.1.resolvable hbinds.unlinked h.apart)
  · exact fun hgeneric =>
      bind_not_generic hbind ((htuned.generic_iff h.usable.lt List.not_mem_nil).mpr hgeneric)
  · rintro w rfl hgeneric
    have hlt := lt_size_of_unlinked h.ending.unlinked
    exact bind_calm hunlinked₁ hleveled₁ hbound.1.resolvable hbind hbound.2.reach_end
      ((htuned.generic_iff hlt List.not_mem_nil).mpr hgeneric)

section Ends

variable {x y : Ty} {fs gs : LabelMap Ty} {v w : Var} {b a : RowEnd}

theorem Records.lack_parts (h : Records kind W s x y fs gs a b) :
    ∀ f ∈ LabelMap.without gs fs, f.2 ∈ W := by
  intro f hf
  have hmem : (f.1, f.2) ∈ gs := (List.mem_filter.mp hf).1
  have hlookup := LabelMap.lookup_of_mem (h.tidy.noRepeat y h.right gs b h.fieldsRight) hmem
  exact h.tidy.parts y h.right f.2 (h.fieldsRight.child hlookup)

theorem Records.lack (h : Records kind W s x y fs gs a b) :
    ∀ f ∈ LabelMap.without gs fs, s.Proper kind .type f.2 :=
  fun f hf => h.tidy.proper f.2 (h.lack_parts f hf)

theorem Records.usable (h : Records kind W s x y fs gs (.flexible v) b) : s.Usable kind v .row :=
  h.fieldsLeft.usable (h.tidy.proper x h.left)

/-- Records are unified when their ends are the same and no fields are lacking. -/
theorem Records.unified (h : Records kind W s x y fs gs a a) (hlack : LabelMap.without gs fs = [])
    (hlack' : LabelMap.without fs gs = []) : Unified kind W s [(x, y)] s := by
  have hequal : s.Equal x y := by
    refine equal_of_completed (by simpa [hlack] using h.fieldsLeft)
      (by simpa [hlack'] using h.fieldsRight) ?_ ?_ h.equal
    · intro l t ht
      exact h.tidy.resolvable t (h.tidy.parts x h.left t (h.fieldsLeft.child ht))
    · intro l t ht
      exact h.tidy.resolvable t (h.tidy.parts y h.right t (h.fieldsRight.child ht))
  refine h.tidy.unified_nil.above (List.forall_mem_singleton.mpr hequal) ?_
  intro p hp
  exact absurd hp List.not_mem_nil

/-- An open row may be bound to the fields that it lacks and to the other end. -/
theorem Records.completing (h : Records kind W s x y fs gs (.flexible v) b)
    (hne : b ≠ .flexible v) : Completing kind W s v (LabelMap.without gs fs) b where
  usable := h.usable
  unlinked := h.fieldsLeft.unlinked
  parts := h.lack_parts
  fields := h.lack
  rest := h.fieldsRight.proper (h.tidy.proper y h.right)
  ending := h.fieldsRight.ends
  apart := hne

/-- An open record meets one that lacks nothing by taking its end. -/
theorem Records.meets_end (h : Records kind W s x y fs gs (.flexible v) b) (hne : b ≠ .flexible v)
    (hlack : LabelMap.without fs gs = [])
    (hrun : complete v (LabelMap.without gs fs) b s = (.ok (), s')) :
    Meets kind W s s' x y fs gs (.flexible v) b b := by
  have hend := h.completing hne
  obtain ⟨htuned, hproper, hrow, hcalm, hcalm'⟩ := hend.ok hrun
  refine ⟨h, fun z hz => hproper _ _ (h.tidy.proper z hz), ?_, ?_, hrow, ?_, Or.inr (Or.inl rfl)⟩
  · refine ⟨htuned.size_le, ?_⟩
    intro u hlt hu
    refine htuned.state u hlt ?_
    intro hmem
    exact hu (List.mem_append_left _ hmem)
  · intro w hw
    rcases List.mem_append.mp hw with hw | hw
    · cases RowEnd.mem_vars.mp hw
      exact hcalm
    · exact hcalm' w (RowEnd.mem_vars.mp hw)
  · rw [hlack]
    exact h.fieldsRight.ends.tuned_one htuned hend.rest.resolvable hend.unlinked hne

theorem Usable.tuned {vs : List Var} {k : Kind} (h : s.Usable kind v k) (htuned : Tuned vs s s')
    (hv : v ∉ vs) : s'.Usable kind v k where
  lt := Nat.lt_of_lt_of_le h.lt htuned.size_le
  kind := h.kind
  leveled := htuned.leveled h.lt hv h.leveled

theorem Tidy.fresh_ok (h : s.Tidy kind W) {l : Int} (hlow : Level.linked < l)
    (hhigh : l ≤ Level.generic) {t : Ty} (hrun : Ty.fresh l s = (t, s')) :
    t = .var s.size ∧ Tuned [] s s' ∧ (∀ k x, s.Proper kind k x → s'.Proper kind k x) ∧
      s'.Proper kind .row (.var s.size) ∧ s'.Row (.var s.size) [] (.flexible s.size) := by
  obtain rfl : t = .var s.size := (congrArg Prod.fst hrun).symm
  obtain rfl : (Ty.fresh l s).2 = s' := congrArg Prod.snd hrun
  have htuned := fresh_tuned l s
  obtain ⟨hleveled, hunlinked⟩ := fresh_open hlow hhigh s
  refine ⟨rfl, htuned, ?_, .intro ?_ ?_, .flexible hunlinked⟩
  · intro k x hx
    exact hx.tuned htuned fun v hv => absurd hv List.not_mem_nil
  · intro v k hv
    obtain ⟨rfl, rfl⟩ : v = s.size ∧ k = .row := by simpa [Ty.uses] using hv
    exact ⟨lt_size_of_unlinked hunlinked, h.unallocated _ (Nat.le_refl _), hleveled⟩
  · intro v k u hv hu
    obtain ⟨rfl, rfl⟩ : v = s.size ∧ k = .row := by simpa [Ty.uses] using hv
    exact absurd hu (hunlinked u)

/-- An open row may be bound to the fields that it lacks and to a new end. -/
theorem Records.completing_fresh (h : Records kind W s x y fs gs (.flexible v) b) {l : Int}
    (hlow : Level.linked < l) (hhigh : l ≤ Level.generic) :
    Completing kind W (Ty.fresh l s).2 v (LabelMap.without gs fs) (.flexible s.size) := by
  obtain ⟨-, htuned, hproper, hrest, hrow⟩ := h.tidy.fresh_ok hlow hhigh rfl
  refine ⟨h.usable.tuned htuned List.not_mem_nil,
    htuned.unlinked List.not_mem_nil h.fieldsLeft.unlinked, h.lack_parts,
    fun f hf => hproper _ _ (h.lack f hf), hrest, hrow, ?_⟩
  intro heq
  exact Nat.ne_of_gt h.usable.lt (RowEnd.flexible.inj heq)

/-- Once a row is completed, another one may still be bound to the same end. -/
theorem Completing.after {ls ls' : LabelMap Ty} {e : RowEnd} (h' : Completing kind W s w ls' e)
    (h : Completing kind W s v ls e) (hrun : complete v ls e s = (.ok (), s')) (hne : v ≠ w) :
    Completing kind W s' w ls' e := by
  obtain ⟨htuned, hproper, -⟩ := h.ok hrun
  have hw : w ∉ [v] := by simpa using Ne.symm hne
  exact ⟨h'.usable.tuned htuned hw, htuned.unlinked hw h'.unlinked, h'.parts,
    fun f hf => hproper _ _ (h'.fields f hf), hproper _ _ h'.rest,
    h'.ending.tuned_one htuned h'.rest.resolvable h.unlinked h.apart, h'.apart⟩

/-- The level of a new end. -/
theorem Records.level (h : Records kind W s x y fs gs (.flexible v) (.flexible w)) :
    Level.linked < min (s.state v).level (s.state w).level ∧
      min (s.state v).level (s.state w).level ≤ Level.generic := by
  have hrange := h.usable.leveled.range h.fieldsLeft.unlinked
  have hrange' := h.symm.usable.leveled.range h.fieldsRight.unlinked
  omega

/-- Two open records meet at a new end. -/
theorem Records.meets_fresh (h : Records kind W s x y fs gs (.flexible v) (.flexible w))
    (hne : v ≠ w) (hrun : (do
      complete v (LabelMap.without gs fs) (.flexible s.size)
      complete w (LabelMap.without fs gs) (.flexible s.size))
        (Ty.fresh (min (s.state v).level (s.state w).level) s).2 = (.ok (), s')) :
    Meets kind W s s' x y fs gs (.flexible v) (.flexible w) (.flexible s.size) := by
  obtain ⟨_, s₂, hrun₂, hrun₃⟩ := bind_ok_iff.mp hrun
  obtain ⟨hlow, hhigh⟩ := h.level
  obtain ⟨-, htuned₁, hproper₁, -⟩ := h.tidy.fresh_ok hlow hhigh rfl
  -- the first record takes its fields
  have hfirst := h.completing_fresh hlow hhigh
  obtain ⟨htuned₂, hproper₂, hrow₂, hgeneric, -⟩ := hfirst.ok hrun₂
  -- then the second one, whose end is still open
  have hsecond := (h.symm.completing_fresh hlow hhigh).after hfirst hrun₂ hne
  obtain ⟨htuned₃, hproper₃, hrow₃, hgeneric', -⟩ := hsecond.ok hrun₃
  have hw₂ : w ∉ [] ++ [v] := by simpa using Ne.symm hne
  refine ⟨h, ?_, (htuned₁.trans htuned₂).trans htuned₃, ?_, ?_, hrow₃,
    Or.inr (Or.inr ⟨_, rfl, Nat.le_refl _⟩)⟩
  · intro z hz
    exact hproper₃ _ _ (hproper₂ _ _ (hproper₁ _ _ (h.tidy.proper z hz)))
  · intro u hu
    rcases List.mem_append.mp hu with hu | hu <;> cases RowEnd.mem_vars.mp hu
    · exact fun hg => hgeneric ((htuned₁.generic_iff h.usable.lt List.not_mem_nil).mpr hg)
    · exact fun hg => hgeneric' (((htuned₁.trans htuned₂).generic_iff h.symm.usable.lt hw₂).mpr hg)
  · have hvar : s₂.Resolvable (.var v) :=
      (hproper₂ _ _ (hproper₁ _ _ (h.fieldsLeft.proper (h.tidy.proper x h.left)))).resolvable
    exact hrow₂.tuned_one htuned₃ hvar hsecond.unlinked hsecond.apart

/-- How the ends of two rows are made to meet, which lack the fields `ls` and `ls'`. -/
inductive Joins (s : Store) (ls ls' : LabelMap Ty) :
    RowEnd → RowEnd → Except UnifyError Unit → Store → Prop
  | same {e : RowEnd} : (e ≠ .rigid → ls = [] ∧ ls' = []) → Joins s ls ls' e e (.ok ()) s
  | clash {v : Var} {error : UnifyError} : ¬ (ls = [] ∧ ls' = []) → error ≠ .unbounded →
      Joins s ls ls' (.flexible v) (.flexible v) (.error error) s
  /-- The first row takes the other end. -/
  | left {v : Var} {b : RowEnd} {r : Except UnifyError Unit} {s' : Store} : b ≠ .flexible v →
      (b ≠ .rigid → ls' = []) → complete v ls b s = (r, s') → Joins s ls ls' (.flexible v) b r s'
  /-- The second row is closed. -/
  | right {w : Var} {r : Except UnifyError Unit} {s' : Store} :
      complete w ls' .rigid s = (r, s') → Joins s ls ls' .rigid (.flexible w) r s'
  /-- Both rows get a new end. -/
  | fresh {v w : Var} {r : Except UnifyError Unit} {s' : Store} : v ≠ w →
      (do
        complete v ls (.flexible s.size)
        complete w ls' (.flexible s.size))
          (Ty.fresh (min (s.state v).level (s.state w).level) s).2 = (r, s') →
      Joins s ls ls' (.flexible v) (.flexible w) r s'

theorem unifyEnds_joins {expected found : Ty} {ls ls' : LabelMap Ty} {r : Except UnifyError Unit}
    (h : unifyEnds expected found ls ls' a b s = (r, s')) : Joins s ls ls' a b r s' := by
  cases a with
  | rigid =>
    cases b with
    | rigid =>
      cases h
      exact .same fun hne => absurd rfl hne
    | flexible w => exact .right h
  | flexible v =>
    cases b with
    | rigid => exact .left nofun (fun hne => absurd rfl hne) h
    | flexible w =>
      have hempty : (ls.isEmpty && ls'.isEmpty) = true ↔ ls = [] ∧ ls' = [] := by simp
      rw [unifyEnds] at h
      split at h
      · rename_i heq
        subst heq
        split at h <;> rename_i hnil <;> rw [hempty] at hnil <;> cases h
        · exact .same fun _ => hnil
        · exact .clash hnil (by simp)
      · rename_i hne
        split at h
        · rename_i hnil
          rw [hempty] at hnil
          refine .left (fun heq => hne (RowEnd.flexible.inj heq).symm) (fun _ => hnil.2) ?_
          rw [hnil.1]
          exact h
        · rcases bind_cases h with ⟨e, hget, -⟩ | ⟨_, _, hget, h⟩
          · cases hget
          · cases hget
            exact .fresh hne h

/-- Records whose common fields are equal are unified by their ends. -/
theorem Records.joins_ok {a b : RowEnd} (h : Records kind W s x y fs gs a b)
    (ha : a = .rigid → LabelMap.without gs fs = []) (hb : b = .rigid → LabelMap.without fs gs = [])
    (hjoins : Joins s (LabelMap.without gs fs) (LabelMap.without fs gs) a b (.ok ()) s') :
    Unified kind W s [(x, y)] s' := by
  have hlack : (b ≠ .rigid → LabelMap.without fs gs = []) → LabelMap.without fs gs = [] := by
    intro hlack
    by_cases hrigid : b = .rigid
    · exact hb hrigid
    · exact hlack hrigid
  cases hjoins with
  | same hempty =>
    by_cases hrigid : a = .rigid
    · exact h.unified (ha hrigid) (hb hrigid)
    · exact h.unified (hempty hrigid).1 (hempty hrigid).2
  | left hne hempty hrun => exact (h.meets_end hne (hlack hempty) hrun).unified
  | right hrun => exact (h.symm.meets_end nofun (ha rfl) hrun).symm.unified
  | fresh hne hrun => exact (h.meets_fresh hne hrun).unified

end Ends

end Store

end Typecase
