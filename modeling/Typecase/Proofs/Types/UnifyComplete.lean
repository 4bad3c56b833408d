import Typecase.Proofs.Types.Denotation
import Typecase.Proofs.Types.Termination
set_option autoImplicit false

/-!
# Unification finds what can be found

An assignment says what the variables become.  If it makes two types the same, the types are
unified, and the assignment can be extended to the variables that are allocated on the way so
that it satisfies every link that was made.  So a unification fails only if nothing makes the
types the same, and it makes no link that an assignment could do without.

No step of the unification can fail: forms, labels and ends agree since they do in what the types
stand for, and a variable does not occur in what it is bound to since no type stands for a part of
itself.
-/

namespace Typecase

namespace Store

variable {s s' s₀ : Store} {kind : Var → Kind} {W : Set Ty} {V : Set Var}
  {α β β₀ : Var → Replacement} {v u : Var} {x t r : Ty} {fs : List (String × Ty)} {e : RowEnd}

/-! ## Types that stand for the same -/

section Same

variable (h : Explains kind W V β s) {x y : Ty} (hx : x ∈ W) (hy : y ∈ W) {sym : Symbol}
  {parts : Slot → Option Ty}
include h hx

/-- Types below a type stand for parts of what it stands for. -/
theorem Explains.below {z : Ty} (hz : Relation.TransGen s.Child x z) :
    ∃ u, Relation.TransGen Tree.Part (x.denote β) u ∧ u.Same (z.denote β) := by
  have hchild : ∀ {y c}, y ∈ W → s.Child y c → ∃ u, (y.denote β).Part u ∧ u.Same (c.denote β) := by
    rintro y c hy ⟨sym, parts, slot, hview, hslot⟩
    obtain ⟨u, hu, hsame⟩ := (h.shows hy hview).part slot c hslot
    exact ⟨u, ⟨slot, hu⟩, hsame⟩
  induction hz with
  | single hc =>
    obtain ⟨u, hpart, hsame⟩ := hchild hx hc
    exact ⟨u, .single hpart, hsame⟩
  | tail hbelow hc ih =>
    obtain ⟨u, hpart, hsame⟩ := ih
    obtain ⟨w, hpart', hsame'⟩ := hchild (h.tidy.below hx hbelow.to_reflTransGen) hc
    obtain ⟨w', hpart'', hsame''⟩ := hsame.symm.descend hpart'
    exact ⟨w', hpart.tail hpart'', hsame''.symm.trans hsame'⟩

include hy

/-- Types with the same open variable stand for the same. -/
theorem Explains.same_of_open {sym' : Symbol} {parts' : Slot → Option Ty} {v : Var}
    (hviewx : s.View x sym parts) (hviewy : s.View y sym' parts') (hopen : sym.open? = some v)
    (hopen' : sym'.open? = some v) : (x.denote β).Same (y.denote β) := by
  refine h.same_of_equal hx hy ?_
  rcases (hviewx.open_cases (h.tidy.proper x hx) hopen).2 with ⟨rfl, hkind⟩ | ⟨fs, hfs, hkind⟩ <;>
    rcases (hviewy.open_cases (h.tidy.proper y hy) hopen').2 with ⟨rfl, hkind'⟩ | ⟨gs, hgs, hkind'⟩
  · exact (h.tidy.resolvable x hx).equal_of_leads hviewx.leads.1 hviewy.leads.1
  · rw [hkind] at hkind'
    cases hkind'
  · rw [hkind] at hkind'
    cases hkind'
  · have hv := (h.fields (h.vars x hx) hfs).1 v (by simp [RowEnd.toTy, Ty.vars])
    exact h.tidy.shared x hx y hy fs gs v hfs hgs (h.calm v hv)

variable (hsame : (x.denote β).Same (y.denote β))
include hsame

/-- The open variable of a type is not met from the parts of what stands for the same. -/
theorem Explains.not_reach {c : Ty} {v : Var} (hview : s.View x sym parts)
    (hopen : sym.open? = some v) (hc : s.Child y c) : ¬ s.Reach c v := by
  intro hreach
  have hcW := h.tidy.parts y hy c hc
  have hunlinked := (hview.open_cases (h.tidy.proper x hx) hopen).1
  obtain ⟨z, sym', parts', hbelow, hview', hopen'⟩ :=
    h.tidy.open_below hcW (h.formed hcW) hreach hunlinked
  have hxz := h.same_of_open hx (h.tidy.below hcW hbelow) hview hview' hopen hopen'
  obtain ⟨u, hpart, hu⟩ := h.below hy (.head' hc hbelow)
  exact Tree.not_same_part hpart (hsame.symm.trans (hxz.trans hu.symm))

/-- Corresponding parts stand for the same. -/
theorem Explains.same_part {t u : Ty} {sym' : Symbol} {parts' : Slot → Option Ty}
    (hviewx : s.View x sym parts) (hviewy : s.View y sym' parts') (slot : Slot)
    (ht : parts slot = some t) (hu : parts' slot = some u) : (t.denote β).Same (u.denote β) := by
  obtain ⟨t', ht', hsamet⟩ := (h.shows hx hviewx).part slot t ht
  obtain ⟨u', hu', hsameu⟩ := (h.shows hy hviewy).part slot u hu
  exact hsamet.symm.trans ((hsame.part ht' hu').trans hsameu)

/-- Nothing is lacking in a rigid record that stands for the same as another one. -/
theorem Explains.lack_rigid {fs gs : LabelMap Ty} {e : RowEnd} (hfieldsx : s.Fields x fs .rigid)
    (hfieldsy : s.Fields y gs e) : LabelMap.without gs fs = [] := by
  have hsymbol := (h.shows hx hfieldsx.view).symbol rfl
  refine List.filter_eq_nil_iff.mpr ?_
  rintro ⟨l, c⟩ hmem
  have hlookup := LabelMap.lookup_of_mem (h.tidy.noRepeat y hy gs e hfieldsy) hmem
  obtain ⟨u, hu, -⟩ := (h.shows hy hfieldsy.view).part (.field l) c hlookup
  obtain ⟨w, hw⟩ := Tree.part?_of_symbol hsame.symm.symbol_eq hu
  have hhas := Tree.isSome_part? (x.denote β) (.field l)
  rw [hsymbol, hw] at hhas
  have hlabel : LabelMap.has fs l = true := hhas.symm
  simp [hlabel]

/-- Types that stand for the same have the same form. -/
theorem Explains.alike {a b : Ty} (hxa : s.Leads x a) (hyb : s.Leads y b) (ha : ∀ v, a ≠ .var v)
    (hb : ∀ v, b ≠ .var v) : a.Alike b := by
  have hsame : (a.denote β).Same (b.denote β) :=
    (h.leads (h.vars x hx) hxa).2.symm.trans (hsame.trans (h.leads (h.vars y hy) hyb).2)
  have hsymbol := hsame.symbol_eq
  have hend := hsame.rest?_eq
  have hrest : ∀ z ∈ W, ∀ m r, s.Leads z (.record m r) → ∃ e, (r.denote β).rest? = some e := by
    intro z hz m r hzr
    have hproper := ((h.tidy.proper z hz).leads hzr).row rfl
    exact Ty.exists_rest r (((h.formed hz).leads hzr).row rfl).here
      (fun _ _ hv => (hproper.usable hv).kind)
      fun v hv => h.kinds v ((h.leads (h.vars z hz) hzr).1 v hv)
  have hformeda := ((h.formed hx).leads hxa).here
  have hformedb := ((h.formed hy).leads hyb).here
  cases a with
  | var v => exact absurd rfl (ha v)
  | record m r =>
    obtain ⟨e, he⟩ := hrest x hx m r hxa
    rw [Ty.denote, he] at hend
    cases b with
    | record m' r' => exact .record
    | var v => exact absurd rfl (hb v)
    | rowExtend | rowEmpty => cases hformedb
    | _ => cases hend
  | con m name as =>
    cases b with
    | con m' name' bs =>
      obtain ⟨rfl, hlength⟩ := Symbol.con.inj hsymbol
      exact .con (by simpa [Ty.denoteList_eq] using hlength)
    | var v => exact absurd rfl (hb v)
    | record m' r' =>
      obtain ⟨e, he⟩ := hrest y hy m' r' hyb
      cases hend.trans he
    | rowExtend | rowEmpty => cases hformedb
    | _ => cases hsymbol
  | arrow m arg result =>
    cases b with
    | arrow m' arg' result' => exact .arrow
    | var v => exact absurd rfl (hb v)
    | record m' r' =>
      obtain ⟨e, he⟩ := hrest y hy m' r' hyb
      cases hend.trans he
    | rowExtend | rowEmpty => cases hformedb
    | _ => cases hsymbol
  | tuple m es =>
    cases b with
    | tuple m' es' => exact .tuple (by simpa [Ty.denoteList_eq] using Symbol.tuple.inj hsymbol)
    | var v => exact absurd rfl (hb v)
    | record m' r' =>
      obtain ⟨e, he⟩ := hrest y hy m' r' hyb
      cases hend.trans he
    | rowExtend | rowEmpty => cases hformedb
    | _ => cases hsymbol
  | _ => cases hformeda

end Same

theorem Explains.not_stuck (h : Explains kind W V β s) {y : Ty} (hx : x ∈ W) (hy : y ∈ W)
    (hsame : (x.denote β).Same (y.denote β)) : ¬ s.Stuck x y := by
  intro hstuck
  induction hstuck with
  | clash hxa hyb ha hb hne => exact hne (h.alike hx hy hsame hxa hyb ha hb)
  | noRow hleads hr hnone =>
    obtain ⟨fs, e, hrow⟩ := (((h.formed hx).leads hleads).row hr).exists_row
    rw [hrow.flattenRow (((h.tidy.resolvable _ hx).leads hleads).row hr)] at hnone
    cases hnone
  | lack hfieldsx hfieldsy hlack => exact hlack (h.lack_rigid hx hy hsame hfieldsx hfieldsy)
  | swap _ ih => exact ih hy hx hsame.symm

/-- What two records that stand for the same go on with. -/
theorem Explains.records (h : Explains kind W V β s) {y : Ty} {fs gs : LabelMap Ty} {a b : RowEnd}
    (hrec : Records kind W s x y fs gs a b) (hsame : (x.denote β).Same (y.denote β)) :
    (∃ e, (a.toTy.denote β).rest? = some e ∧ (b.toTy.denote β).rest? = some e) ∧
      ∀ l, Tree.SameAt (((fs.lookup l).map (Ty.denote β)).or ((a.toTy.denote β).part? (.field l)))
        (((gs.lookup l).map (Ty.denote β)).or ((b.toTy.denote β).part? (.field l))) := by
  obtain ⟨ha, hsamea⟩ := h.fields (h.vars x hrec.left) hrec.fieldsLeft
  obtain ⟨hb, hsameb⟩ := h.fields (h.vars y hrec.right) hrec.fieldsRight
  obtain ⟨e, he⟩ := h.rest ha (hrec.fieldsLeft.proper (h.tidy.proper x hrec.left))
  obtain ⟨e', he'⟩ := h.rest hb (hrec.fieldsRight.proper (h.tidy.proper y hrec.right))
  have hall := hsamea.symm.trans (hsame.trans hsameb)
  have hend := hall.rest?_eq
  rw [Tree.rest?_prepend, Tree.rest?_prepend] at hend
  refine ⟨⟨e, he, hend ▸ he⟩, fun l => ?_⟩
  have hl := hall.field l
  rwa [Tree.part?_prepend he, Tree.part?_prepend he', Ty.lookup_denoteFields,
    Ty.lookup_denoteFields] at hl

/-! ## The variables of a row -/

/-- The row passes the variable `v`. -/
inductive Passes (s : Store) : Ty → Var → Prop
  | here {v : Var} : Passes s (.var v) v
  | link {u v : Var} {t : Ty} : s.state u = .linked t → Passes s t v → Passes s (.var u) v
  | rest {mark : Mark} {ls : List (String × Ty)} {r : Ty} {v : Var} : Passes s r v →
      Passes s (.rowExtend mark ls r) v

/-- The row of the record `x` passes the variable `v`. -/
def OnRow (s : Store) (x : Ty) (v : Var) : Prop :=
  ∃ t r, s.Leads x t ∧ t.row? = some r ∧ s.Passes r v

theorem Row.passes_end (h : s.Row r fs (.flexible v)) : s.Passes r v := by
  generalize he : RowEnd.flexible v = e at h
  induction h with
  | extend _ ih => exact .rest (ih he)
  | link hu _ ih => exact .link hu (ih he)
  | flexible =>
    cases he
    exact .here
  | rigid => cases he

theorem Fields.onRow_end (h : s.Fields x fs (.flexible v)) : s.OnRow x v := by
  generalize he : RowEnd.flexible v = e at h
  induction h with
  | link hu _ ih =>
    obtain ⟨t, r, hleads, hr, hpasses⟩ := ih he
    exact ⟨t, r, .link hu hleads, hr, hpasses⟩
  | row hr hrow =>
    subst he
    exact ⟨_, _, .done, hr, hrow.passes_end⟩

theorem Passes.extend (h : s.Passes r v) (hext : Extends W s s') (hr : s.Resolvable r) :
    s'.Passes r v := by
  induction h with
  | here => exact .here
  | link hu _ ih => exact .link (hext.link hr hu) (ih (hr.link hu))
  | rest _ ih => exact .rest (ih hr.tail)

theorem OnRow.extend (h : s.OnRow x v) (hext : Extends W s s') (hx : s.Resolvable x) :
    s'.OnRow x v := by
  obtain ⟨t, r, hleads, hr, hpasses⟩ := h
  exact ⟨t, r, hleads.extend hext hx, hr, hpasses.extend hext ((hx.leads hleads).row hr)⟩

/-- A row is made up of the fields before a variable that it passes and of the fields behind. -/
theorem Passes.row (h : s.Passes r v) (hrow : s.Row r fs e) :
    ∃ before after, fs = before ++ after ∧ s.Row (.var v) after e := by
  induction h generalizing fs with
  | here => exact ⟨[], fs, rfl, hrow⟩
  | link hu _ ih =>
    cases hrow with
    | link hu' hrest =>
      rw [hu] at hu'
      cases hu'
      exact ih hrest
    | flexible hunlinked => exact absurd hu (hunlinked _)
  | rest _ ih =>
    cases hrow with
    | extend hrest =>
      obtain ⟨before, after, rfl, hafter⟩ := ih hrest
      exact ⟨_ ++ before, after, (List.append_assoc _ _ _).symm, hafter⟩

theorem Leads.reach_of (h : s.Leads x t) (hv : s.Reach t v) : s.Reach x v := by
  induction h with
  | done => exact hv
  | link hu _ ih => exact .step (by simp [Ty.vars]) hu (ih hv)

theorem Reach.tuned_nil (h : s'.Reach x u) (htuned : Tuned [] s s') (hx : s.Resolvable x) :
    s.Reach x u := by
  induction h with
  | here hu => exact .here hu
  | step hw hlink _ ih =>
    have hbefore := (htuned.linked (hx.bound hw) List.not_mem_nil).mp hlink
    exact .step hw hbefore (ih (hx.follow hw hbefore))

/-- What is met once `v` is bound was met before, or is met behind `v`. -/
theorem Reach.binds (h : s'.Reach x u) (hbinds : Binds v t s s') (hx : s.Resolvable x)
    (ht : s.Resolvable t) : s.Reach x u ∨ s.Reach x v ∧ s.Reach t u := by
  induction h with
  | here hu => exact Or.inl (.here hu)
  | @step x y u w hw hlink _ ih =>
    by_cases hwv : w = v
    · subst hwv
      rw [hbinds.linked] at hlink
      cases hlink
      rcases ih ht with hreach | ⟨-, hreach⟩
      · exact Or.inr ⟨.here hw, hreach⟩
      · exact Or.inr ⟨.here hw, hreach⟩
    · have hnot : w ∉ [v] := by rwa [List.mem_singleton]
      have hbefore := (hbinds.tuned.linked (hx.bound hw) hnot).mp hlink
      rcases ih (hx.follow hw hbefore) with hreach | ⟨hreach, hreach'⟩
      · exact Or.inl (.step hw hbefore hreach)
      · exact Or.inr ⟨.step hw hbefore hreach, hreach'⟩

/-- Nothing but itself is met from the end of a row. -/
theorem Row.reach_toTy (h : s.Row e.toTy [] e) (hu : s.Reach e.toTy u) : e = .flexible u := by
  cases e with
  | rigid =>
    cases hu with
    | here hmem => cases hmem
    | step hmem => cases hmem
  | flexible w => rw [hu.unlinked_inv h.unlinked]

theorem Reach.rowExtend {m : Mark} {ls : List (String × Ty)} (h : s.Reach (.rowExtend m ls r) u) :
    (∃ f ∈ ls, s.Reach f.2 u) ∨ s.Reach r u := by
  obtain ⟨w, hw, hfirst⟩ := h.first
  rcases List.mem_append.mp hw with hw | hw
  · obtain ⟨f, hf, hw⟩ := Ty.mem_varsFields.mp hw
    exact Or.inl ⟨f, hf, hfirst f.2 hw⟩
  · exact Or.inr (hfirst r hw)

/-! ## Completing a row -/

theorem Obeys.reach (h : Obeys kind V β s) (hx : ∀ v ∈ x.vars, v ∈ V) (hu : s.Reach x u) :
    u ∈ V := by
  induction hu with
  | here hv => exact hx _ hv
  | step hw hlink _ ih => exact ih (h.links _ (hx _ hw) _ hlink).vars

/-- The end of a row is bound to further fields and another end, which it stands for. -/
theorem Obeys.complete (h : Obeys kind V β s) {ls : LabelMap Ty} (hc : Completing kind W s v ls e)
    (hls : ∀ f ∈ ls, ∀ u ∈ f.2.vars, u ∈ V) (hformed : ∀ f ∈ ls, f.2.formed .type = true)
    (hv : v ∈ V) (he : ∀ u ∈ e.toTy.vars, u ∈ V) (hfree : ∀ f ∈ ls, ¬ s.Reach f.2 v)
    (hsame : (Ty.denote β (.var v)).Same ((e.toTy.denote β).prepend (Ty.denoteFields β ls))) :
    ∃ s', Store.complete v ls e s = (.ok (), s') ∧ Obeys kind V β s' ∧ s'.size = s.size ∧
      ∀ x, s.Resolvable x → ∀ u, s'.Reach x u → s.Reach x u ∨ s.Reach x v := by
  rcases hextend : Ty.extendRow ls e.toTy s with ⟨t, s₁⟩
  obtain ⟨htuned, hsize, ht⟩ := extendRow_run hextend
  have h₁ : Obeys kind V β s₁ := h.tuned htuned fun _ hw => absurd hw List.not_mem_nil
  have hback : ∀ x, s.Resolvable x → ∀ u, s₁.Reach x u → s.Reach x u := fun x hx u hu =>
    hu.tuned_nil htuned hx
  have hend : ¬ s₁.Reach e.toTy v := fun hreach =>
    hc.apart (hc.ending.reach_toTy (hback _ hc.rest.resolvable _ hreach))
  -- what the end is bound to, in its place and without the end itself
  have hbound : Stands kind V β v t ∧ s₁.Proper kind .row t ∧ ¬ s₁.Reach t v := by
    have hproper : ∀ k x, s.Proper kind k x → s₁.Proper kind k x := fun k x hx =>
      hx.tuned htuned fun w hw => absurd hw List.not_mem_nil
    have hwritten : e.toTy.formed .row = true := by cases e <;> rfl
    rcases ht with ⟨rfl, rfl⟩ | ⟨m, rfl⟩
    · rw [Ty.denoteFields, Tree.prepend_nil] at hsame
      exact ⟨⟨he, hc.usable.kind ▸ hwritten, hsame⟩, hproper _ _ hc.rest, hend⟩
    · refine ⟨⟨?_, ?_, hsame⟩,
        .rowExtend (fun f hf => hproper _ _ (hc.fields f hf)) (hproper _ _ hc.rest), ?_⟩
      · intro u hu
        rcases List.mem_append.mp hu with hu | hu
        · obtain ⟨f, hf, hu⟩ := Ty.mem_varsFields.mp hu
          exact hls f hf u hu
        · exact he u hu
      · rw [hc.usable.kind, Ty.formed, Bool.and_eq_true]
        exact ⟨Ty.formedFields_iff.mpr hformed, hwritten⟩
      · intro hreach
        rcases hreach.rowExtend with ⟨f, hf, hreach⟩ | hreach
        · exact hfree f hf (hback _ (hc.fields f hf).resolvable _ hreach)
        · exact hend hreach
  obtain ⟨hstands, hproper, hoccurs⟩ := hbound
  obtain ⟨s', hrun, hbinds, hsize'⟩ := bind_run (htuned.unlinked List.not_mem_nil hc.unlinked)
    (htuned.leveled hc.usable.lt List.not_mem_nil hc.usable.leveled) (h₁.calm v hv)
    hproper.resolvable hoccurs fun u hu => h₁.calm u (h₁.reach hstands.vars hu)
  refine ⟨s', bind_ok_iff.mpr ⟨t, s₁, lift_ok_iff.mpr hextend, hrun⟩, ?_, hsize'.trans hsize, ?_⟩
  · refine h₁.tuned hbinds.tuned fun w hw => ?_
    obtain rfl := List.mem_singleton.mp hw
    exact ⟨t, hbinds.linked, hstands⟩
  · intro x hx u hreach
    have hx₁ : s₁.Resolvable x := hx.tuned htuned fun _ hw => absurd hw List.not_mem_nil
    rcases hreach.binds hbinds hx₁ hproper.resolvable with hbefore | ⟨hbefore, -⟩
    · exact Or.inl (hback x hx u hbefore)
    · exact Or.inr (hback x hx v hbefore)

/-! ## Steps of a unification -/

/-- `v` is in the place of a type in `W` or on the row of one. -/
def Placed (s : Store) (W : Set Ty) (v : Var) : Prop :=
  ∃ x ∈ W, s.Leads x (.var v) ∨ s.OnRow x v

theorem Placed.extend (h : s.Placed W v) (hs : s.Tidy kind W) (hext : Extends W s s') :
    s'.Placed W v := by
  obtain ⟨x, hx, hleads | hrow⟩ := h
  · exact ⟨x, hx, Or.inl (hleads.extend hext (hs.resolvable x hx))⟩
  · exact ⟨x, hx, Or.inr (hrow.extend hext (hs.resolvable x hx))⟩

/-- A unification that led from `s₀` to `s` is in accordance with `β`, which goes on from `β₀`. -/
structure Accords (kind : Var → Kind) (W : Set Ty) (s₀ : Store) (β₀ : Var → Replacement)
    (V : Set Var) (β : Var → Replacement) (s : Store) : Prop extends Explains kind W V β s where
  size_le : s₀.size ≤ s.size
  old : ∀ v < s₀.size, β v = β₀ v
  given : ∀ x ∈ W, x.denote β = x.denote β₀
  /-- The rest of a record has none of the labels that the record has already. -/
  apart : ∀ x ∈ W, ∀ fs v, s.Fields x fs (.flexible v) → ∀ l, LabelMap.has fs l = true →
    (Ty.denote β (.var v)).part? (.field l) = none
  made : ∀ v t, v < s.size → s.state v = .linked t →
    v < s₀.size ∧ s₀.state v = .linked t ∨ s.Placed W v

section NewEnd

variable {t : Tree} {e : RowEnd} {v : Var}

/-- What the new end of two records stands for, if that of the first one stands for `t` and `gs`
are the fields of the second one. -/
def newEnd (gs : LabelMap Ty) : Tree → Replacement
  | .record more e => .row (more.filter fun f => !LabelMap.has gs f.1) e
  | _ => .row [] .rigid

theorem kind_newEnd (gs : LabelMap Ty) (t : Tree) : (newEnd gs t).kind = .row := by
  cases t <;> rfl

theorem rest?_newEnd (ht : t.rest? = some e) (gs : LabelMap Ty) :
    (newEnd gs t).tree.rest? = some e := by
  obtain ⟨more, rfl⟩ := Tree.exists_record ht
  rfl

theorem part?_newEnd (ht : t.rest? = some e) (gs : LabelMap Ty) (l : String) :
    (newEnd gs t).tree.part? (.field l) =
      if LabelMap.has gs l then none else t.part? (.field l) := by
  obtain ⟨more, rfl⟩ := Tree.exists_record ht
  refine (LabelMap.lookup_filter more (fun l => !LabelMap.has gs l) l).trans ?_
  cases LabelMap.has gs l <;> rfl

/-- The assignment in which the next variable stands for `new`. -/
def withNew (s : Store) (new : Replacement) (β : Var → Replacement) : Var → Replacement :=
  Function.update β s.size new

theorem withNew_of_lt {new : Replacement} (hv : v < s.size) : withNew s new β v = β v :=
  Function.update_of_ne (Nat.ne_of_lt hv) _ _

theorem denote_withNew_self (s : Store) (new : Replacement) (β : Var → Replacement) :
    (RowEnd.flexible s.size).toTy.denote (withNew s new β) = new.tree :=
  congrArg Replacement.tree (Function.update_self _ _ _)

end NewEnd

section Steps

variable (h : Accords kind W s₀ β₀ V β s) {b a : RowEnd} {v : Var}
include h

theorem Accords.next {V' : Set Var} {β' : Var → Replacement} (hexplains : Explains kind W V' β' s')
    (hext : Extends W s s') (hβ : ∀ v < s.size, β' v = β v)
    (hapart : ∀ x ∈ W, ∀ fs v, s'.Fields x fs (.flexible v) → ∀ l, LabelMap.has fs l = true →
      (Ty.denote β' (.var v)).part? (.field l) = none)
    (hmade : ∀ v t, v < s'.size → s'.state v = .linked t →
      v < s.size ∧ s.state v = .linked t ∨ s'.Placed W v) : Accords kind W s₀ β₀ V' β' s' where
  toExplains := hexplains
  size_le := Nat.le_trans h.size_le hext.size_le
  old := fun v hv => (hβ v (Nat.lt_of_lt_of_le hv h.size_le)).trans (h.old v hv)
  given := fun x hx =>
    (Ty.denote_congr x fun v hv => hβ v (h.lt v (h.vars x hx v hv))).trans (h.given x hx)
  apart := hapart
  made := by
    intro v t hlt ht
    rcases hmade v t hlt ht with ⟨hlt, ht⟩ | hplaced
    · exact (h.made v t hlt ht).imp_right fun hplaced => hplaced.extend h.tidy hext
    · exact Or.inr hplaced

/-- A variable is unified with what stands for the same. -/
theorem Accords.bind {x y t : Ty} (hx : x ∈ W) (hy : y ∈ W) (hsame : (x.denote β).Same (y.denote β))
    (hxv : s.Leads x (.var v)) (hyt : s.Leads y t) (hv : ∀ w, s.state v ≠ .linked w)
    (ht : ∀ w, t = .var w → ∀ u, s.state w ≠ .linked u) (hne : t ≠ .var v) :
    ∃ s', Store.bind v t s = (.ok (), s') ∧ Accords kind W s₀ β₀ V β s' := by
  have husable := ((h.tidy.proper x hx).leads hxv).var
  have hproper := (h.tidy.proper y hy).leads hyt
  obtain ⟨hvV, hsamev⟩ := h.leads (h.vars x hx) hxv
  obtain ⟨htV, hsamet⟩ := h.leads (h.vars y hy) hyt
  have hvV := hvV v (by simp [Ty.vars])
  have hoccurs : ¬ s.Reach t v := by
    intro hreach
    obtain ⟨sym, parts, hviewy⟩ := (h.tidy.resolvable y hy).exists_view
    rcases hviewy.reach (h.formed hy) (h.tidy.noRepeat y hy) (hyt.reach_of hreach) hv with
      hopen | ⟨c, hchild, hc⟩
    · -- `y` would end in the variable itself
      rcases (hviewy.open_cases (h.tidy.proper y hy) hopen).2 with ⟨rfl, -⟩ | ⟨fs, -, hkind⟩
      · cases hyt.view_iff.mp hviewy with
        | link hw => exact ht _ rfl _ hw
        | var => exact hne rfl
      · rw [husable.kind] at hkind
        cases hkind
    · exact h.not_reach hx hy hsame (hxv.view_iff.mpr (.var hv)) rfl hchild hc
  obtain ⟨s', hrun, hbinds, hsize⟩ := bind_run hv husable.leveled (h.calm v hvV)
    hproper.resolvable hoccurs fun u hu => h.calm u (h.reach htV hu)
  have hunified := h.tidy.unified_bind hx hy hxv hyt hv hrun
  have hstands : Stands kind V β v t :=
    ⟨htV, husable.kind ▸ ((h.formed hy).leads hyt).here, hsamev.symm.trans (hsame.trans hsamet)⟩
  have hobeys : Obeys kind V β s' := h.toObeys.tuned hbinds.tuned fun w hw => by
    obtain rfl := List.mem_singleton.mp hw
    exact ⟨t, hbinds.linked, hstands⟩
  refine ⟨s', hrun, h.next ⟨hobeys, hunified.tidy, h.vars, h.written⟩ hunified.extension
    (fun _ _ => rfl) ?_ ?_⟩
  · intro z hz fs w hfields
    obtain ⟨z', hz', -, hbefore, -⟩ := h.tidy.stand_in hbinds husable.kind hunified.tidy.proper hy
      hyt hoccurs hz
    exact h.apart z' hz' fs w (hbefore _ _ hfields)
  · intro w u hlt hu
    by_cases hw : w = v
    · subst hw
      exact Or.inr ⟨x, hx, Or.inl (hxv.extend hunified.extension (h.tidy.resolvable x hx))⟩
    · have hlt' : w < s.size := hsize ▸ hlt
      exact Or.inl ⟨hlt', (hbinds.tuned.linked hlt' (by rwa [List.mem_singleton])).mp hu⟩

variable {x y : Ty} {fs gs : LabelMap Ty}

/-- The ends of two rows met. -/
theorem Accords.meets {e : RowEnd} (hmeets : Meets kind W s s' x y fs gs a b e) {V' : Set Var}
    {β' : Var → Replacement} (hobeys : Obeys kind V' β' s') (hV : V ⊆ V')
    (hβ : ∀ v < s.size, β' v = β v) (hnew : ∀ v, s.size ≤ v → v < s'.size → e = .flexible v)
    (hend : ∀ l, LabelMap.has fs l = true ∨ LabelMap.has gs l = true →
      (e.toTy.denote β').part? (.field l) = none) : Accords kind W s₀ β₀ V' β' s' := by
  refine h.next ⟨hobeys, hmeets.unified.tidy, fun z hz v hv => hV (h.vars z hz v hv), h.written⟩
    hmeets.extension hβ ?_ ?_
  · intro z hz hs w hfields l hl
    rcases hmeets.grown_or_kept hz with ⟨_, hgrown⟩ | ⟨hkept, -⟩
    · obtain ⟨rfl, rfl⟩ := hgrown.fields.unique hfields
      have hlabels := (hgrown.equal.fields hfields (hmeets.append hmeets.left hmeets.fieldsLeft)).1
      rw [hlabels, LabelMap.has_append, LabelMap.has_without, Bool.or_eq_true, Bool.and_eq_true]
        at hl
      exact hend l (hl.imp_right And.left)
    · have hbefore := (hkept hs _ hfields).1
      rw [Ty.denote, hβ w (lt_size_of_unlinked hbefore.unlinked)]
      exact h.apart z hz hs w hbefore l hl
  · intro w t hlt ht
    by_cases hw : w ∈ a.toTy.vars ++ b.toTy.vars
    · refine Or.inr ?_
      rcases List.mem_append.mp hw with hw | hw
      · have hrow := (RowEnd.mem_vars.mp hw ▸ hmeets.fieldsLeft).onRow_end
        exact ⟨x, hmeets.left,
          Or.inr (hrow.extend hmeets.extension (h.tidy.resolvable x hmeets.left))⟩
      · have hrow := (RowEnd.mem_vars.mp hw ▸ hmeets.fieldsRight).onRow_end
        exact ⟨y, hmeets.right,
          Or.inr (hrow.extend hmeets.extension (h.tidy.resolvable y hmeets.right))⟩
    · by_cases hlt' : w < s.size
      · exact Or.inl ⟨hlt', (hmeets.tuned.linked hlt' hw).mp ht⟩
      · have hrow := hmeets.rowLeft
        rw [hnew w (Nat.not_lt.mp hlt') hlt] at hrow
        exact absurd ht (hrow.unlinked t)

/-- The fields that the first record lacks do not meet the end of a record that stands for the
same. -/
theorem Accords.lack (hrec : Records kind W s x y fs gs a b) {z : Ty} (hz : z ∈ W)
    (hsame : (z.denote β).Same (y.denote β)) {hs : LabelMap Ty}
    (hfields : s.Fields z hs (.flexible v)) : ∀ f ∈ LabelMap.without gs fs, ¬ s.Reach f.2 v := by
  intro f hf
  have hmem : (f.1, f.2) ∈ gs := (List.mem_filter.mp hf).1
  have hlookup := LabelMap.lookup_of_mem (h.tidy.noRepeat y hrec.right gs b hrec.fieldsRight) hmem
  exact h.not_reach hz hrec.right hsame hfields.view rfl (hrec.fieldsRight.child hlookup)

theorem Accords.disjoint (hrec : Records kind W s x y fs gs a b) (l : String)
    (hl : LabelMap.has fs l = true) : (a.toTy.denote β).part? (.field l) = none := by
  cases a with
  | rigid => rfl
  | flexible v => exact h.apart x hrec.left fs v hrec.fieldsLeft l hl

/-- What the first record goes on with are the fields that it lacks and the rest, which has none of
the fields of the second record. -/
theorem Accords.same_rest (hrec : Records kind W s x y fs gs a b)
    (hsame : (x.denote β).Same (y.denote β)) {rest : Tree}
    (hend : rest.rest? = (a.toTy.denote β).rest?) (hrest : ∀ l, Tree.SameAt (rest.part? (.field l))
      (if LabelMap.has gs l then none else (a.toTy.denote β).part? (.field l))) :
    (a.toTy.denote β).Same (rest.prepend (Ty.denoteFields β (LabelMap.without gs fs))) := by
  obtain ⟨⟨e, he, -⟩, hall⟩ := h.records hrec hsame
  have hend := hend.trans he
  refine Tree.same_of_rest he ((Tree.rest?_prepend _ _).trans hend) fun l => ?_
  rw [Tree.part?_prepend hend, Ty.lookup_denoteFields, LabelMap.lookup_without]
  have hl := hall l
  have hrest := hrest l
  by_cases hfs : LabelMap.has fs l = true
  · rw [h.disjoint hrec l hfs, ite_self] at hrest
    rw [h.disjoint hrec l hfs, if_pos hfs]
    exact hrest.symm
  · rw [LabelMap.has_eq_false.mp (Bool.eq_false_iff.mpr hfs)] at hl
    rw [if_neg hfs]
    cases hgs : gs.lookup l with
    | some c =>
      rw [hgs] at hl
      exact hl
    | none =>
      rw [LabelMap.has_eq_false.mpr hgs] at hrest
      exact hrest.symm

/-- An open record takes the end of one that lacks nothing. -/
theorem Accords.join_end (hrec : Records kind W s x y fs gs (.flexible v) b)
    (hsame : (x.denote β).Same (y.denote β)) (hne : b ≠ .flexible v)
    (hlack : LabelMap.without fs gs = []) :
    ∃ s', Store.complete v (LabelMap.without gs fs) b s = (.ok (), s') ∧
      Accords kind W s₀ β₀ V β s' := by
  obtain ⟨⟨e, hev, heb⟩, hall⟩ := h.records hrec hsame
  have hsub : ∀ l, LabelMap.has fs l = true → LabelMap.has gs l = true := by
    intro l hl
    have hnone : LabelMap.has (LabelMap.without fs gs) l = false := by
      rw [hlack]
      rfl
    simpa [LabelMap.has_without, hl] using hnone
  have hstands := h.same_rest hrec hsame (heb.trans hev.symm) (by
    intro l
    by_cases hgs : LabelMap.has gs l = true
    · rw [if_pos hgs, h.disjoint hrec.symm l hgs]
      exact .none
    · have hfs : LabelMap.has fs l = false := Bool.eq_false_iff.mpr fun hfs => hgs (hsub l hfs)
      have hl := hall l
      rw [LabelMap.has_eq_false.mp hfs,
        LabelMap.has_eq_false.mp (Bool.eq_false_iff.mpr hgs)] at hl
      rw [if_neg hgs]
      exact hl.symm)
  obtain ⟨s', hrun, hobeys, hsize, -⟩ := h.toObeys.complete (hrec.completing hne)
    (fun f hf => h.vars f.2 (hrec.lack_parts f hf))
    (fun f hf => h.written f.2 (hrec.lack_parts f hf))
    ((h.fields (h.vars x hrec.left) hrec.fieldsLeft).1 v (by simp [RowEnd.toTy, Ty.vars]))
    (h.fields (h.vars y hrec.right) hrec.fieldsRight).1
    (h.lack hrec hrec.left hsame hrec.fieldsLeft) hstands
  refine ⟨s', hrun, h.meets (hrec.meets_end hne hlack hrun) hobeys (Set.Subset.refl V)
    (fun _ _ => rfl) ?_ ?_⟩
  · exact fun w hle hlt => absurd (hsize ▸ hlt) (Nat.not_lt.mpr hle)
  · exact fun l hl => h.disjoint hrec.symm l (hl.elim (hsub l) fun hl => hl)

/-- Both of two open records stand for the fields that they lack and the new end. -/
theorem Accords.same_newEnd {w : Var}
    (hrec : Records kind W s x y fs gs (.flexible v) (.flexible w))
    (hsame : (x.denote β).Same (y.denote β)) :
    (Ty.denote β (.var v)).Same
        ((newEnd gs ((RowEnd.flexible v).toTy.denote β)).tree.prepend
          (Ty.denoteFields β (LabelMap.without gs fs))) ∧
      (Ty.denote β (.var w)).Same
        ((newEnd gs ((RowEnd.flexible v).toTy.denote β)).tree.prepend
          (Ty.denoteFields β (LabelMap.without fs gs))) := by
  obtain ⟨⟨e, hev, hew⟩, hall⟩ := h.records hrec hsame
  have hend := rest?_newEnd hev gs
  refine ⟨h.same_rest hrec hsame (hend.trans hev.symm) fun l => ?_,
    h.same_rest hrec.symm hsame.symm (hend.trans hew.symm) fun l => ?_⟩
  · rw [part?_newEnd hev]
    exact .refl _
  · rw [part?_newEnd hev]
    have hl := hall l
    by_cases hgs : LabelMap.has gs l = true
    · rw [if_pos hgs, h.disjoint hrec.symm l hgs, ite_self]
      exact .none
    · rw [LabelMap.has_eq_false.mp (Bool.eq_false_iff.mpr hgs)] at hl
      rw [if_neg hgs]
      by_cases hfs : LabelMap.has fs l = true
      · rw [if_pos hfs, h.disjoint hrec l hfs]
        exact .none
      · rw [LabelMap.has_eq_false.mp (Bool.eq_false_iff.mpr hfs)] at hl
        rw [if_neg hfs]
        exact hl

/-- What stands for fields and a new end does so with a variable for that end. -/
theorem Accords.same_withNew {new : Replacement} {ls : LabelMap Ty} (hv : v ∈ V)
    (hls : ∀ f ∈ ls, f.2 ∈ W)
    (hsame : (Ty.denote β (.var v)).Same (new.tree.prepend (Ty.denoteFields β ls))) :
    (Ty.denote (withNew s new β) (.var v)).Same (((RowEnd.flexible s.size).toTy.denote
      (withNew s new β)).prepend (Ty.denoteFields (withNew s new β) ls)) := by
  have hvar : Ty.denote (withNew s new β) (.var v) = Ty.denote β (.var v) :=
    congrArg Replacement.tree (withNew_of_lt (h.lt v hv))
  rw [hvar, denote_withNew_self, Ty.denoteFields_congr fun f hf => Ty.denote_congr f.2 fun u hu =>
    withNew_of_lt (h.lt u (h.vars f.2 (hls f hf) u hu))]
  exact hsame

/-- Two open records get a new end, which stands for what neither of them has yet. -/
theorem Accords.join_fresh {w : Var} (hrec : Records kind W s x y fs gs (.flexible v) (.flexible w))
    (hsame : (x.denote β).Same (y.denote β)) (hne : v ≠ w) :
    ∃ s', (do
      Store.complete v (LabelMap.without gs fs) (.flexible s.size)
      Store.complete w (LabelMap.without fs gs) (.flexible s.size))
        (Ty.fresh (min (s.state v).level (s.state w).level) s).2 = (.ok (), s') ∧
      ∃ V' β', Accords kind W s₀ β₀ V' β' s' := by
  obtain ⟨hstands, hstands'⟩ := h.same_newEnd hrec hsame
  have hvV := (h.fields (h.vars x hrec.left) hrec.fieldsLeft).1 v (by simp [RowEnd.toTy, Ty.vars])
  have hwV := (h.fields (h.vars y hrec.right) hrec.fieldsRight).1 w
    (by simp [RowEnd.toTy, Ty.vars])
  have hlevel := hrec.usable.leveled.min hrec.symm.usable.leveled hrec.fieldsLeft.unlinked
    hrec.fieldsRight.unlinked (h.calm v hvV)
  have hfirst := hrec.completing_fresh hlevel.1 (Int.le_of_lt hlevel.2)
  have hsecond := hrec.symm.completing_fresh hlevel.1 (Int.le_of_lt hlevel.2)
  rcases hfresh : Ty.fresh (min (s.state v).level (s.state w).level) s with ⟨var, s₁⟩
  rw [hfresh] at hfirst hsecond
  obtain ⟨-, htuned, hsize₁, -⟩ := fresh_run hlevel hfresh
  have h₁ : Obeys kind (insert s.size V)
      (withNew s (newEnd gs ((RowEnd.flexible v).toTy.denote β)) β) s₁ :=
    h.toObeys.fresh ((kind_newEnd _ _).trans (h.tidy.unallocated _ (Nat.le_refl _)).symm) hlevel
      hfresh
  have hend : ∀ u ∈ (RowEnd.flexible s.size).toTy.vars, u ∈ insert s.size V := fun u hu =>
    Or.inl (List.mem_singleton.mp hu)
  have hback : ∀ z ∈ W, ∀ u, s₁.Reach z u → s.Reach z u := fun z hz u hu =>
    hu.tuned_nil htuned (h.tidy.resolvable z hz)
  have hparts := hrec.lack_parts
  have hparts' := hrec.symm.lack_parts
  -- the first record takes its fields
  obtain ⟨s₂, hrun₂, h₂, hsize₂, hback₂⟩ := h₁.complete hfirst
    (fun f hf u hu => Or.inr (h.vars f.2 (hparts f hf) u hu))
    (fun f hf => h.written f.2 (hparts f hf)) (Or.inr hvV) hend
    (fun f hf hreach => h.lack hrec hrec.left hsame hrec.fieldsLeft f hf
      (hback _ (hparts f hf) _ hreach)) (h.same_withNew hvV hparts hstands)
  -- then the second one, whose end is still open
  obtain ⟨s₃, hrun₃, h₃, hsize₃, -⟩ := h₂.complete (hsecond.after hfirst hrun₂ hne)
    (fun f hf u hu => Or.inr (h.vars f.2 (hparts' f hf) u hu))
    (fun f hf => h.written f.2 (hparts' f hf)) (Or.inr hwV) hend (by
      intro f hf hreach
      have hmem := hparts' f hf
      rcases hback₂ f.2 (hsecond.fields f hf).resolvable w hreach with hreach | hreach
      · exact h.lack hrec.symm hrec.right hsame.symm hrec.fieldsRight f hf (hback _ hmem _ hreach)
      · exact h.lack hrec.symm hrec.left (.refl _) hrec.fieldsLeft f hf (hback _ hmem _ hreach))
    (h.same_withNew hwV hparts' hstands')
  have hrun : (do
      Store.complete v (LabelMap.without gs fs) (.flexible s.size)
      Store.complete w (LabelMap.without fs gs) (.flexible s.size)) s₁ = (.ok (), s₃) :=
    bind_ok_iff.mpr ⟨(), s₂, hrun₂, hrun₃⟩
  refine ⟨s₃, hrun, _, _, h.meets (hrec.meets_fresh hne (by rw [hfresh]; exact hrun)) h₃
    (Set.subset_insert _ _) (fun _ => withNew_of_lt) ?_ ?_⟩
  · intro u hle hlt
    obtain rfl : u = s.size := by omega
    rfl
  · intro l hl
    obtain ⟨⟨e, hev, -⟩, -⟩ := h.records hrec hsame
    rw [denote_withNew_self, part?_newEnd hev]
    rcases hl with hl | hl
    · rw [h.disjoint hrec l hl, ite_self]
    · rw [if_pos hl]

/-- The ends of the rows of records that stand for the same meet. -/
theorem Accords.joins {r : Except UnifyError Unit} (hrec : Records kind W s x y fs gs a b)
    (hsame : (x.denote β).Same (y.denote β))
    (hjoins : Joins s (LabelMap.without gs fs) (LabelMap.without fs gs) a b r s') :
    r = .ok () ∧ ∃ V' β', Accords kind W s₀ β₀ V' β' s' := by
  have hlack : b = .rigid → LabelMap.without fs gs = [] := by
    rintro rfl
    exact h.lack_rigid hrec.right hrec.left hsame.symm hrec.fieldsRight hrec.fieldsLeft
  cases hjoins with
  | same => exact ⟨rfl, V, β, h⟩
  | @clash v _ hclash _ =>
    -- records with the same end have the same labels
    have hv := (h.fields (h.vars x hrec.left) hrec.fieldsLeft).1 v (by simp [RowEnd.toTy, Ty.vars])
    have hequal := h.tidy.shared x hrec.left y hrec.right fs gs v hrec.fieldsLeft hrec.fieldsRight
      (h.calm v hv)
    have hlabels := (hequal.fields hrec.fieldsLeft hrec.fieldsRight).1
    exact absurd ⟨LabelMap.without_eq_nil hlabels.symm, LabelMap.without_eq_nil hlabels⟩ hclash
  | left hne hempty hrun =>
    obtain ⟨s'', hok, h'⟩ := h.join_end hrec hsame hne (by
      by_cases hb : b = .rigid
      · exact hlack hb
      · exact hempty hb)
    cases hrun.symm.trans hok
    exact ⟨rfl, V, β, h'⟩
  | right hrun =>
    obtain ⟨s'', hok, h'⟩ := h.join_end hrec.symm hsame.symm (by simp)
      (h.lack_rigid hrec.left hrec.right hsame hrec.fieldsLeft hrec.fieldsRight)
    cases hrun.symm.trans hok
    exact ⟨rfl, V, β, h'⟩
  | fresh hne hrun =>
    obtain ⟨s'', hok, h'⟩ := h.join_fresh hrec hsame hne
    cases hrun.symm.trans hok
    exact ⟨rfl, h'⟩

end Steps

/-- No step of a unification of types that stand for the same fails. -/
theorem Accords.course {V₀ : Set Var} (h₀ : Accords kind W s₀ β₀ V₀ β₀ s₀) {root : Ty} {bound : Nat}
    {r : Except UnifyError Unit}
    (hc : Course kind W (fun x y => (x.denote β₀).Same (y.denote β₀)) root bound s₀ r s)
    (hr : r ≠ .error .unbounded) : r = .ok () ∧ ∃ V β, Accords kind W s₀ β₀ V β s := by
  induction hc with
  | start => exact ⟨rfl, V₀, β₀, h₀⟩
  | cut => exact absurd rfl hr
  | stuck _ hdue hstuck _ ih =>
    obtain ⟨-, V, β, h⟩ := ih (by simp)
    have hsame := hdue.related
    rw [← h.given _ hdue.left, ← h.given _ hdue.right] at hsame
    exact absurd hstuck (h.not_stuck hdue.left hdue.right hsame)
  | bind _ hdue hxv hyt hv ht hne hrun ih =>
    obtain ⟨-, V, β, h⟩ := ih (by simp)
    have hsame := hdue.related
    rw [← h.given _ hdue.left, ← h.given _ hdue.right] at hsame
    obtain ⟨s'', hok, h'⟩ := h.bind hdue.left hdue.right hsame hxv hyt hv ht hne
    cases hrun.symm.trans hok
    exact ⟨rfl, V, β, h'⟩
  | ends _ hrec hsame hjoins ih =>
    obtain ⟨-, V, β, h⟩ := ih (by simp)
    rw [← h.given _ hrec.left, ← h.given _ hrec.right] at hsame
    exact h.joins hrec hsame hjoins

theorem Accords.descends {V₀ : Set Var} (h₀ : Accords kind W s₀ β₀ V₀ β₀ s₀) {root : Ty}
    {bound : Nat} :
    Descends kind W (fun x y => (x.denote β₀).Same (y.denote β₀)) root bound s₀ where
  symm := Tree.Same.symm
  part := by
    intro s x y t u sym sym' parts parts' slot hc hdue hviewx hviewy ht hu
    obtain ⟨-, V, β, h⟩ := h₀.course hc (by simp)
    have hsame := hdue.related
    rw [← h.given _ hdue.left, ← h.given _ hdue.right] at hsame
    have hpart := h.same_part hdue.left hdue.right hsame hviewx hviewy slot ht hu
    rwa [h.given t (h.tidy.parts x hdue.left t ⟨_, _, slot, hviewx, ht⟩),
      h.given u (h.tidy.parts y hdue.right u ⟨_, _, slot, hviewy, hu⟩)] at hpart

/-! ## The start of a unification -/

/-- What a variable of the given kind stands for if it is bound to what stands for `t`. -/
def standFor : Kind → Tree → Replacement
  | .row, .record fields rest => .row fields rest
  | .row, _ => .row [] .rigid
  | .type, t => .type t

theorem kind_standFor (k : Kind) (t : Tree) : (standFor k t).kind = k := by
  cases k <;> cases t <;> rfl

theorem tree_standFor {k : Kind} {t : Tree} (h : k = .row → ∃ e, t.rest? = some e) :
    (standFor k t).tree = t := by
  cases k with
  | type => rfl
  | row =>
    obtain ⟨e, he⟩ := h rfl
    obtain ⟨fields, rfl⟩ := Tree.exists_record he
    rfl

/-- The assignment `α` with variables that have a link set to what they are bound to, for `n`
links in a row. -/
def unrolled (s : Store) (kind : Var → Kind) (α : Var → Replacement) : Nat → Var → Replacement
  | 0, v => α v
  | n + 1, v =>
    match s.state v with
    | .linked t => standFor (kind v) (t.denote (unrolled s kind α n))
    | _ => α v

theorem unrolled_unlinked (h : ∀ t, s.state v ≠ .linked t) (n : Nat) :
    s.unrolled kind α n v = α v := by
  cases n with
  | zero => rfl
  | succ n =>
    rw [unrolled]
    split
    · rename_i t ht
      exact absurd ht (h t)
    · rfl

theorem unrolled_linked (h : s.state v = .linked t) (n : Nat) :
    s.unrolled kind α (n + 1) v = standFor (kind v) (t.denote (s.unrolled kind α n)) := by
  rw [unrolled, h]

theorem Settled.denote_unrolled {n : Nat} (h : s.Settled n t) :
    t.denote (s.unrolled kind α (n + 1)) = t.denote (s.unrolled kind α n) := by
  induction n generalizing t with
  | zero =>
    exact Ty.denote_congr t fun v hv => unrolled_unlinked (h v hv) 1
  | succ n ih =>
    refine Ty.denote_congr t fun v hv => ?_
    by_cases hlinked : ∃ u, s.state v = .linked u
    · obtain ⟨u, hu⟩ := hlinked
      rw [unrolled_linked hu, unrolled_linked hu, ih (h v hv u hu)]
    · have hunlinked : ∀ u, s.state v ≠ .linked u := fun u hu => hlinked ⟨u, hu⟩
      rw [unrolled_unlinked hunlinked, unrolled_unlinked hunlinked]

/-- The assignment gives types to the variables of `W` that stand for types, and to the ends of
rows further fields, none of which the row has already. -/
structure Fits (s : Store) (W : Set Ty) (α : Var → Replacement) : Prop where
  type : ∀ x ∈ W, ∀ v parts, s.View x (.var v) parts → ∃ t, α v = .type t
  row : ∀ x ∈ W, ∀ fs v, s.Fields x fs (.flexible v) →
    ∃ more rest, α v = .row more rest ∧ ∀ l, LabelMap.has fs l = true → LabelMap.has more l = false

/-- Every variable that is met is in its place. -/
theorem Reach.in_place {k : Kind} (h : s.Reach x v) (hproper : s.Proper kind k x)
    (hformed : s.Formed k x) (ht : s.state v = .linked t) :
    s.Proper kind (kind v) t ∧ s.Formed (kind v) t := by
  induction h generalizing k with
  | here hv =>
    obtain ⟨k', hmem⟩ := Ty.exists_uses hv k
    rw [(hproper.usable hmem).kind]
    exact ⟨hproper.follow hmem ht, hformed.follow hmem ht⟩
  | step hw hlink _ ih =>
    obtain ⟨k', hmem⟩ := Ty.exists_uses hw k
    exact ih (hproper.follow hmem hlink) (hformed.follow hmem hlink) ht

/-- A unification starts in accordance with every assignment that fits. -/
theorem Tidy.accords (h : s.Tidy kind W) (hformed : ∀ x ∈ W, s.Formed .type x)
    (hcalm : ∀ x ∈ W, ∀ v, s.Reach x v → s.state v ≠ .generic) (hα : s.Fits W α) :
    Accords kind W s (s.unrolled kind α s.size) {v | ∃ x ∈ W, s.Reach x v}
      (s.unrolled kind α s.size) s := by
  have hlt : ∀ v, (∃ x ∈ W, s.Reach x v) → v < s.size := by
    rintro v ⟨x, hx, hv⟩
    exact (h.resolvable x hx).reach hv
  have hkinds : ∀ v, (∃ x ∈ W, s.Reach x v) → (s.unrolled kind α s.size v).kind = kind v := by
    rintro v ⟨x, hx, hv⟩
    by_cases hlinked : ∃ t, s.state v = .linked t
    · obtain ⟨t, ht⟩ := hlinked
      obtain ⟨n, hn⟩ := Nat.exists_eq_add_of_lt (hlt v ⟨x, hx, hv⟩)
      rw [hn, unrolled_linked ht, kind_standFor]
    · have hunlinked : ∀ t, s.state v ≠ .linked t := fun t ht => hlinked ⟨t, ht⟩
      obtain ⟨z, sym, parts, hbelow, hview, hopen⟩ := h.open_below hx (hformed x hx) hv hunlinked
      have hz := h.below hx hbelow
      rw [unrolled_unlinked hunlinked]
      rcases (hview.open_cases (h.proper z hz) hopen).2 with ⟨rfl, hkind⟩ | ⟨fs, hfields, hkind⟩
      · obtain ⟨t, ht⟩ := hα.type z hz v parts hview
        rw [ht, hkind, Replacement.kind]
      · obtain ⟨more, rest, hrow, -⟩ := hα.row z hz fs v hfields
        rw [hrow, hkind, Replacement.kind]
  refine ⟨⟨⟨hlt, hkinds, ?_, ?_⟩, h, ?_, fun x hx => (hformed x hx).here⟩, Nat.le_refl _,
    fun _ _ => rfl, fun _ _ => rfl, ?_, fun v t hlt ht => Or.inl ⟨hlt, ht⟩⟩
  · rintro v ⟨x, hx, hv⟩
    exact hcalm x hx v hv
  · rintro v ⟨x, hx, hv⟩ t ht
    have hvars : ∀ u ∈ t.vars, ∃ x ∈ W, s.Reach x u := fun u hu => ⟨x, hx, hv.link ht hu⟩
    obtain ⟨hproper, htformed⟩ := hv.in_place (h.proper x hx) (hformed x hx) ht
    refine ⟨hvars, htformed.here, ?_⟩
    -- what `v` is bound to is settled with one link less
    obtain ⟨n, hn⟩ := Nat.exists_eq_add_of_lt (hlt v ⟨x, hx, hv⟩)
    have hvar : s.Resolvable (.var v) := by
      refine .intro (by simpa [Ty.vars] using hlt v ⟨x, hx, hv⟩) ?_
      intro u hu t' ht'
      obtain rfl : u = v := by simpa [Ty.vars] using hu
      cases ht.symm.trans ht'
      exact hproper.resolvable
    have hsettled := hvar.settled
    rw [hn] at hsettled
    have heq : t.denote (s.unrolled kind α (v + n + 1)) = t.denote (s.unrolled kind α (v + n)) :=
      (hsettled v (by simp [Ty.vars]) t ht).denote_unrolled
    rw [Ty.denote, hn, unrolled_linked ht, tree_standFor, heq]
    · exact .refl _
    · intro hrow
      rw [hrow] at hproper htformed
      rw [← heq, ← hn]
      exact Ty.exists_rest t htformed.here (fun _ _ hu => (hproper.usable hu).kind)
        fun u hu => hkinds u (hvars u hu)
  · exact fun x hx v hv => ⟨x, hx, .here hv⟩
  · intro x hx fs v hfields l hl
    obtain ⟨more, rest, hrow, hdisjoint⟩ := hα.row x hx fs v hfields
    rw [Ty.denote, unrolled_unlinked hfields.unlinked, hrow]
    exact LabelMap.has_eq_false.mp (hdisjoint l hl)

/-! ## The end of a unification -/

/-- The assignment gives the variable of a link what the link leads to. -/
def Satisfies (s : Store) (β : Var → Replacement) (v : Var) (t : Ty) : Prop :=
  match β v with
  | .type u => u.Same (s.value β t)
  | .row more rest => ∃ fs e, s.resolveRow t = some (fs, e) ∧
      (Tree.record more rest).Same ((Tree.record fs e).replace fun v => some (β v))

/-- The variables on a row stand for rows. -/
theorem Obeys.passes (h : Obeys kind V β s) (hv : s.Passes r v) (hr : ∀ u ∈ r.vars, u ∈ V)
    (hproper : s.Proper kind .row r) : v ∈ V ∧ s.Proper kind .row (.var v) := by
  induction hv with
  | here => exact ⟨hr _ (by simp [Ty.vars]), hproper⟩
  | link hu _ ih => exact ih (h.links _ (hr _ (by simp [Ty.vars])) _ hu).vars (hproper.link hu)
  | rest _ ih => exact ih (fun u hu => hr u (List.mem_append_right _ hu)) hproper.tail

/-- Links in the places of types and on rows are satisfied. -/
theorem Explains.satisfies (h : Explains kind W V β s)
    (hα : ∀ u ∈ V, (∀ t, s.state u ≠ .linked t) → α u = β u) (ht : s.state v = .linked t)
    (hv : s.Placed W v) (heq : α v = β v) : s.Satisfies α v t := by
  obtain ⟨x, hx, hleads | ⟨u, r, hleads, hr, hpasses⟩⟩ := hv
  · obtain ⟨hvars, hsame⟩ := h.leads (h.vars x hx) hleads
    have hkind := (h.kinds v (hvars v (by simp [Ty.vars]))).trans
      ((h.tidy.proper x hx).leads hleads).var.kind
    have hvalue : s.value α x = s.value α t := by
      rw [value, value, (hleads.trans (.link ht .done)).resolve (h.tidy.resolvable x hx)]
    rw [Satisfies, heq]
    rw [Ty.denote] at hsame
    cases hβ : β v with
    | type u =>
      rw [hβ] at hsame
      exact hvalue ▸ (hsame.symm.trans (h.value_same hα hx).symm)
    | row more rest =>
      rw [hβ] at hkind
      cases hkind
  · have hrproper := ((h.tidy.proper x hx).leads hleads).row hr
    have hrV : ∀ w ∈ r.vars, w ∈ V := by
      rw [vars_row? hr]
      exact (h.leads (h.vars x hx) hleads).1
    obtain ⟨hvV, hproper⟩ := h.passes hpasses hrV hrproper
    obtain ⟨fs, e, hrow⟩ := (((h.formed hx).leads hleads).row hr).exists_row
    obtain ⟨before, after, rfl, hafter⟩ := hpasses.row hrow
    have hfields : s.Fields x (before ++ after) e := hleads.fields_iff.mpr (.row hr hrow)
    have hnodup := h.tidy.noRepeat x hx _ e hfields
    rw [List.map_append] at hnodup
    obtain ⟨he, hsame⟩ := h.row (by simpa [Ty.vars] using hvV) hafter
    have heproper := hafter.proper hproper
    obtain ⟨e', hrest⟩ := h.rest he heproper
    have hresolve := (hproper.resolvable.resolve_link ht).2.symm.trans
      (hafter.resolveRow hproper.resolvable hnodup.of_append_right)
    have hreplace : (Tree.record (after.map fun f => (f.1, s.resolve f.2)) e).replace
        (fun v => some (α v)) = (e.toTy.denote β).prepend
          (after.map fun f => (f.1, s.value α f.2)) := by
      rw [← RowEnd.record_value (α := α), Tree.replace, Tree.replaceFields_eq, List.map_map]
      · rfl
      · intro w hw
        obtain rfl := RowEnd.mem_vars.mp hw
        exact hα w (he w hw) hafter.unlinked
      · intro w hw
        obtain rfl := RowEnd.mem_vars.mp hw
        exact (h.kinds w (he w hw)).trans heproper.var.kind
    rw [Satisfies, heq]
    rw [Ty.denote] at hsame
    have hkind := (h.kinds v hvV).trans hproper.var.kind
    cases hβ : β v with
    | type u =>
      rw [hβ] at hkind
      cases hkind
    | row more rest =>
      rw [hβ] at hsame
      refine ⟨_, e, hresolve, hsame.trans ?_⟩
      rw [hreplace]
      refine Tree.same_of_rest ((Tree.rest?_prepend _ _).trans hrest)
        ((Tree.rest?_prepend _ _).trans hrest) fun l => ?_
      rw [Tree.part?_prepend hrest, Tree.part?_prepend hrest, Ty.lookup_denoteFields,
        LabelMap.lookup_map]
      cases hl : after.lookup l with
      | none => exact .refl _
      | some c =>
        have hmem : (l, c) ∈ before ++ after := List.mem_append_right _ (LabelMap.mem_of_lookup hl)
        have hchild := hfields.child (LabelMap.lookup_of_mem (h.tidy.noRepeat x hx _ e hfields) hmem)
        exact .some (h.value_same hα (h.tidy.parts x hx c hchild)).symm

theorem Row.reach_field (h : s.Row r fs e) {f : String × Ty} (hf : f ∈ fs) (hv : s.Reach f.2 v) :
    s.Reach r v := by
  induction h with
  | extend _ ih =>
    rcases List.mem_append.mp hf with hf | hf
    · refine hv.mono ?_
      intro w hw
      exact List.mem_append_left _ (Ty.mem_varsFields.mpr ⟨f, hf, hw⟩)
    · exact (ih hf).mono fun w hw => List.mem_append_right _ hw
  | link hu _ ih => exact .step (by simp [Ty.vars]) hu (ih hf)
  | flexible => cases hf
  | rigid => cases hf

/-- What is met from a part is met from the type. -/
theorem Child.reach {c : Ty} (h : s.Child x c) (hv : s.Reach c v) : s.Reach x v := by
  obtain ⟨sym, parts, slot, hview, hc⟩ := h
  have hargs : ∀ t : Ty, c ∈ t.args → s.Reach t v := fun t hmem => hv.mono (Ty.vars_args hmem)
  induction hview with
  | link hu _ ih => exact .step (by simp [Ty.vars]) hu (ih hc)
  | con | arrow | tuple => exact hargs _ (Slot.mem_of_nth hc)
  | record hr hrow =>
    obtain ⟨l, hmem⟩ := Slot.mem_of_named hc
    exact (hrow.reach_field hmem hv).mono (by simp [vars_row? hr])
  | _ => cases hc

theorem Reach.uses (h : s.Reach t v) (k : Kind) : ∃ k', s.Uses k t v k' := by
  induction h generalizing k with
  | here hv =>
    obtain ⟨k', hmem⟩ := Ty.exists_uses hv k
    exact ⟨k', .here hmem⟩
  | step hw hlink _ ih =>
    obtain ⟨k', hmem⟩ := Ty.exists_uses hw k
    obtain ⟨k'', huses⟩ := ih k'
    exact ⟨k'', .step hmem hlink huses⟩

theorem Disciplined.calm {ts : List Ty} (h : s.Disciplined ts) (hx : s.PartOf ts x)
    (hv : s.Reach x v) : s.state v ≠ .generic := by
  obtain ⟨t, ht, hbelow⟩ := hx
  have hroot : s.Reach t v := by
    induction hbelow with
    | refl => exact hv
    | tail _ hchild ih => exact ih (hchild.reach hv)
  obtain ⟨k, huses⟩ := hroot.uses .type
  intro hgeneric
  have hready := h.ready v k ⟨t, ht, huses⟩
  rw [hgeneric] at hready
  exact hready

theorem PartOf.formed {ts : List Ty} (h : ∀ t ∈ ts, s.Formed .type t) (hx : s.PartOf ts x) :
    s.Formed .type x := by
  obtain ⟨t, ht, hbelow⟩ := hx
  induction hbelow with
  | refl => exact h t ht
  | tail _ hchild ih => exact ih.child hchild

/-- Types that an assignment makes the same are unified, and the assignment extends to all
variables so that it satisfies the links that were made. -/
theorem Disciplined.unify {a b : Ty} (h : s.Disciplined [a, b])
    (hformed : ∀ t ∈ [a, b], s.Formed .type t) (hfits : s.Fits {x | s.PartOf [a, b] x} α)
    (hsame : (s.value α a).Same (s.value α b)) :
    ∃ s' β, Store.unify a b s = (.ok (), s') ∧ (∀ v < s.size, β v = α v) ∧
      ∀ v t, v < s'.size → s'.state v = .linked t → ¬ (v < s.size ∧ s.state v = .linked t) →
        s'.Satisfies β v t := by
  obtain ⟨kind, htidy⟩ := h.tidy
  have ha : s.PartOf [a, b] a := ⟨a, by simp, .refl⟩
  have hb : s.PartOf [a, b] b := ⟨b, by simp, .refl⟩
  have h₀ := htidy.accords (fun x hx => PartOf.formed hformed hx) (fun x hx v hv => h.calm hx hv)
    hfits
  have hvalue : ∀ x, s.PartOf [a, b] x → (s.value α x).Same (x.denote (s.unrolled kind α s.size)) :=
    fun x hx => h₀.value_same (fun _ _ hunlinked => (unrolled_unlinked hunlinked _).symm) hx
  have hdue : Due kind {x | s.PartOf [a, b] x} (fun x y => (x.denote (s.unrolled kind α s.size)).Same
      (y.denote (s.unrolled kind α s.size))) s a b :=
    ⟨htidy, ha, hb, (hvalue a ha).symm.trans (hsame.trans (hvalue b hb))⟩
  obtain ⟨hcourse, -⟩ := hdue.course_unify h₀.descends
  obtain ⟨hok, V, β, hβ⟩ := h₀.course hcourse h.amenable.not_cut
  have hkept := hcourse.preserves.kept
  -- old variables keep what they were given, also those that had a link
  let γ : Var → Replacement := fun v => if v < s.size then α v else β v
  have hγ : ∀ v, (v < s.size → ∀ t, s.state v ≠ .linked t) → γ v = β v := by
    intro v hv
    by_cases hlt : v < s.size
    · rw [hβ.old v hlt, unrolled_unlinked (hv hlt)]
      exact if_pos hlt
    · exact if_neg hlt
  refine ⟨_, γ, Prod.ext hok rfl, fun v hv => if_pos hv, ?_⟩
  intro v t hlt ht hnew
  rcases hβ.made v t hlt ht with hold | hplaced
  · exact absurd hold hnew
  · refine hβ.satisfies (fun u _ hu => hγ u fun hlt t ht => hu t (hkept u t hlt ht)) ht hplaced
      (hγ v fun hlt u hu => hnew ⟨hlt, ?_⟩)
    cases ht.symm.trans (hkept v u hlt hu)
    exact hu

/-! ## Two open records -/

/-- Each of the two records takes the field of the other. -/
def eachOther : Var → Replacement
  | 0 => .row [("y", .con "bool" [])] .rigid
  | _ => .row [("x", .con "int" [])] .rigid

theorem twoOpen_formed : ∀ t ∈ [withX, withY], twoOpen.Formed .type t := by
  have hstatic : ∀ t ∈ [withX, withY], t.formed .type = true ∧ ∀ p ∈ t.uses .type, p.1 < 2 := by
    decide
  intro t ht
  refine .intro (hstatic t ht).1 ?_
  intro v k u hv hu
  exact absurd hu (twoOpen_unlinked ((hstatic t ht).2 (v, k) hv) u)

theorem not_view_var_twoOpen (h : twoOpen.PartOf [withX, withY] x) {parts : Slot → Option Ty} :
    ¬ twoOpen.View x (.var v) parts := by
  intro hview
  rcases partOf_twoOpen h with rfl | rfl | ⟨name, rfl⟩
  · cases (hview.unique withX_fields.view).1
  · cases (hview.unique withY_fields.view).1
  · cases (hview.unique .con).1

theorem eachOther_fits : twoOpen.Fits {x | twoOpen.PartOf [withX, withY] x} eachOther where
  type := fun x hx v parts hview => absurd hview (not_view_var_twoOpen hx)
  row := by
    intro x hx fs v hfields
    rcases fields_twoOpen hx hfields with heq | heq <;> cases heq
    · refine ⟨_, _, rfl, ?_⟩
      intro l hl
      obtain ⟨c, hc⟩ := Option.isSome_iff_exists.mp hl
      obtain rfl : l = "x" := by simpa using LabelMap.mem_labels_of_lookup hc
      rfl
    · refine ⟨_, _, rfl, ?_⟩
      intro l hl
      obtain ⟨c, hc⟩ := Option.isSome_iff_exists.mp hl
      obtain rfl : l = "y" := by simpa using LabelMap.mem_labels_of_lookup hc
      rfl

theorem eachOther_same : (twoOpen.value eachOther withX).Same (twoOpen.value eachOther withY) := by
  have hx : twoOpen.value eachOther withX =
      .record [("x", .con "int" []), ("y", .con "bool" [])] .rigid := rfl
  have hy : twoOpen.value eachOther withY =
      .record [("y", .con "bool" []), ("x", .con "int" [])] .rigid := rfl
  rw [hx, hy]
  refine Tree.same_record.mpr ⟨rfl, ?_⟩
  intro l
  by_cases hlx : l = "x"
  · subst hlx
    exact .refl _
  · by_cases hly : l = "y"
    · subst hly
      exact .refl _
    · rw [LabelMap.lookup_eq_none.mpr (by simp [hlx, hly]),
        LabelMap.lookup_eq_none.mpr (by simp [hlx, hly])]
      exact .none

/-! ## Completeness -/

/-- Let types and rows be in their places, and let the order that unification relies on hold
among the parts of `a` and `b`.  If an assignment makes `a` and `b` the same, up to the order of
fields, then they are unified, and the assignment extends to the variables that are allocated
in such a way that it satisfies every link that was made.  So if the unification of `a` and `b`
fails, for whatever reason, then no assignment makes them the same.  What an assignment gives to
variables may contain variables in turn. -/
theorem unify_complete {a b : Ty} (h : s.Disciplined [a, b])
    (hformed : ∀ t ∈ [a, b], s.Formed .type t) :
    (∀ α, s.Fits {x | s.PartOf [a, b] x} α → (s.value α a).Same (s.value α b) →
      ∃ s' β, unify a b s = (.ok (), s') ∧ (∀ v < s.size, β v = α v) ∧
        ∀ v t, v < s'.size → s'.state v = .linked t → ¬ (v < s.size ∧ s.state v = .linked t) →
          s'.Satisfies β v t) ∧
    ∀ error s', unify a b s = (.error error, s') →
      ¬ ∃ α, s.Fits {x | s.PartOf [a, b] x} α ∧ (s.value α a).Same (s.value α b) := by
  refine ⟨fun α hfits hsame => h.unify hformed hfits hsame, ?_⟩
  rintro error s' hrun ⟨α, hfits, hsame⟩
  obtain ⟨s'', β, hok, -⟩ := h.unify hformed hfits hsame
  rw [hrun] at hok
  cases hok

theorem unify_complete_twoOpen :
    twoOpen.Disciplined [withX, withY] ∧ (∀ t ∈ [withX, withY], twoOpen.Formed .type t) ∧
      ∃ s' β, unify withX withY twoOpen = (.ok (), s') ∧ (∀ v < 2, β v = eachOther v) ∧
        ∀ v t, v < s'.size → s'.state v = .linked t → ¬ (v < 2 ∧ twoOpen.state v = .linked t) →
          s'.Satisfies β v t :=
  ⟨twoOpen_disciplined, twoOpen_formed,
    (unify_complete twoOpen_disciplined twoOpen_formed).1 eachOther eachOther_fits eachOther_same⟩

end Store

end Typecase
