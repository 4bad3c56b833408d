import Typecase.Proofs.Types.SingleAssignment
set_option autoImplicit false

/-!
# Rows only grow at their open end

A row that is closed keeps its labels whatever is unified, and an open one keeps them as well and
may gain others behind them.  This is so of every row over the store, also of one that takes no
part in the unification and ends in the same variable as one that does.

When an open record is unified with a closed one, it takes over the fields that it lacks in the
order of the closed record, and is closed from then on.
-/

namespace Typecase

theorem LabelMap.labels_extend {α : Type} (m later : LabelMap α) :
    ∃ new, labels (extend m later) = labels m ++ new ∧ ∀ l ∈ new, l ∉ labels m := by
  induction later generalizing m with
  | nil => exact ⟨[], by simp [extend]⟩
  | cons e later ih =>
    obtain ⟨new, hnew, hfresh⟩ := ih (set m e.1 e.2)
    have hstep : extend m (e :: later) = extend (set m e.1 e.2) later := rfl
    rw [hstep]
    by_cases hhas : has m e.1 = true
    · have hlabels : labels (set m e.1 e.2) = labels m := by
        rw [set, if_pos hhas, labels, labels, List.map_map]
        refine List.map_congr_left fun f _ => ?_
        by_cases hf : f.1 = e.1 <;> simp [hf]
      rw [hlabels] at hnew hfresh
      exact ⟨new, hnew, hfresh⟩
    · have hlabels : labels (set m e.1 e.2) = labels m ++ [e.1] := by
        rw [set, if_neg hhas]
        simp [labels]
      rw [hlabels] at hnew hfresh
      refine ⟨e.1 :: new, by simpa using hnew, List.forall_mem_cons.mpr ⟨?_, ?_⟩⟩
      · rwa [has, find?, Bool.not_eq_true, Option.isSome_eq_false_iff, Option.isNone_iff_eq_none,
          lookup_eq_none] at hhas
      · exact fun l hl hmem => hfresh l hl (List.mem_append_left _ hmem)

namespace Store

variable {s s' s'' : Store} {kind : Var → Kind} {W : Set Ty} {root x a b y : Ty} {bound : Nat}
  {r : Except UnifyError Unit} {v : Var} {ls : LabelMap Ty}

/-! ## What a step does to open ends -/

theorem Preserves.extends (h : Preserves s s') : Extends ∅ s s' :=
  ⟨h.size_le, h.kept, fun _ hx => absurd hx (Set.notMem_empty _)⟩

theorem Preserves.resolvable (h : Preserves s s') (hx : s.Resolvable x) : s'.Resolvable x := by
  have hvars : ∀ u ∈ x.vars, s'.Resolvable (.var u) := fun u hu =>
    h.finite u (Nat.lt_of_lt_of_le (hx.bound hu) h.size_le) fun _ =>
      hx.mono (by simpa [Ty.vars] using hu)
  exact .intro (fun u hu => (hvars u hu).lt) fun u hu t ht => (hvars u hu).link ht

/-- `v` is closed or goes on with a row, at the end of which the same is the case. -/
def GoesOn (kind : Var → Kind) (s : Store) (v : Var) : Prop :=
  ∃ fs e, s.Row (.var v) fs e ∧ ∀ w, e = .flexible w → kind w = .row

theorem goesOn_unlinked (hv : ∀ t, s.state v ≠ .linked t) (hkind : kind v = .row) :
    GoesOn kind s v := by
  refine ⟨[], .flexible v, .flexible hv, ?_⟩
  rintro w hw
  cases hw
  exact hkind

/-- Variables that end rows stay so or go on with rows. -/
structure Lengthens (kind : Var → Kind) (s s' : Store) : Prop where
  preserves : Preserves s s'
  goesOn : ∀ v, (∀ t, s.state v ≠ .linked t) → kind v = .row → GoesOn kind s' v

theorem Lengthens.refl (kind : Var → Kind) (s : Store) : Lengthens kind s s :=
  ⟨.refl s, fun _ => goesOn_unlinked⟩

theorem Lengthens.trans (h : Lengthens kind s s') (h' : Lengthens kind s' s'') :
    Lengthens kind s s'' where
  preserves := h.preserves.trans h'.preserves
  goesOn := by
    intro v hv hkind
    obtain ⟨fs, e, hrow, hend⟩ := h.goesOn v hv hkind
    have hfinite := h.preserves.resolvable (resolvable_unlinked hv)
    cases e with
    | rigid => exact ⟨fs ++ [], .rigid, hrow.append h'.preserves.extends hfinite .rigid, nofun⟩
    | flexible w =>
      obtain ⟨gs, e', hrest, hend'⟩ := h'.goesOn w hrow.unlinked (hend w rfl)
      exact ⟨fs ++ gs, e', hrow.append h'.preserves.extends hfinite hrest, hend'⟩

/-- What binds none of the variables that end rows lengthens nothing. -/
theorem Tuned.lengthens {vs : List Var} (h : Tuned vs s s') (hpreserves : Preserves s s')
    (hvs : ∀ v ∈ vs, kind v = .type) : Lengthens kind s s' where
  preserves := hpreserves
  goesOn := by
    intro v hv hkind
    refine goesOn_unlinked (h.unlinked ?_ hv) hkind
    intro hmem
    rw [hvs v hmem] at hkind
    cases hkind

theorem bind_lengthens {t : Ty} (hv : ∀ u, s.state v ≠ .linked u) (hleveled : (s.state v).Leveled)
    (ht : s.Resolvable t) (hkind : kind v = .type) (h : bind v t s = (r, s')) :
    Lengthens kind s s' := by
  have hpreserves := bind_preserves hv hleveled ht h
  obtain ⟨s₁, htuned, -, -, ⟨-, rfl⟩ | ⟨rfl, -⟩⟩ := bind_outcome_tuned hv hleveled h
  · exact htuned.lengthens hpreserves fun _ hmem => absurd hmem List.not_mem_nil
  · obtain ⟨hbinds, -⟩ := bind_ok hv hleveled ht h
    exact hbinds.tuned.lengthens hpreserves fun _ hmem => List.mem_singleton.mp hmem ▸ hkind

/-- A completed row goes on with the fields that it lacked and with the other end. -/
theorem Completing.lengthens {e : RowEnd} (h : Completing kind W s v ls e)
    (hrun : complete v ls e s = (r, s')) : Lengthens kind s s' where
  preserves := h.preserves hrun
  goesOn := by
    intro u hu hkind
    obtain ⟨t, s₁, hb, hbind⟩ := h.bindable hrun
    have hu₁ := hb.tuned.unlinked List.not_mem_nil hu
    obtain ⟨s₂, htuned, -, -, ⟨-, rfl⟩ | ⟨rfl, -⟩⟩ :=
      bind_outcome_tuned hb.unlinked hb.leveled hbind
    · exact goesOn_unlinked (htuned.unlinked List.not_mem_nil hu₁) hkind
    · obtain ⟨htuned', -, hrow, -⟩ := h.ok hrun
      by_cases huv : u = v
      · subst huv
        refine ⟨ls, e, hrow, ?_⟩
        rintro w rfl
        exact h.rest.var.kind
      · exact goesOn_unlinked (htuned'.unlinked (by simpa using huv) hu) hkind

theorem fresh_lengthens {l : Int} (hlow : Level.linked < l) (hhigh : l ≤ Level.generic) :
    Lengthens kind s (Ty.fresh l s).2 :=
  (fresh_tuned l s).lengthens (fresh_preserves hlow hhigh) fun _ hmem =>
    absurd hmem List.not_mem_nil

/-! ## What a unification does to rows -/

theorem Ended.lengthens (h : Ended kind W s r s') : Lengthens kind s s' := by
  cases h with
  | done => exact .refl kind _
  | fail => exact .refl kind _
  | complete h hrun => exact h.lengthens hrun
  | newEndFail hlow hhigh h hrun => exact (fresh_lengthens hlow hhigh).trans (h.lengthens hrun)
  | newEnd hlow hhigh h hrun h' hrun' =>
    exact ((fresh_lengthens hlow hhigh).trans (h.lengthens hrun)).trans (h'.lengthens hrun')

theorem Course.lengthens {R : Ty → Ty → Prop} (h : Course kind W R root bound s r s') :
    Lengthens kind s s' := by
  induction h with
  | start => exact .refl kind _
  | cut _ _ _ _ ih => exact ih
  | stuck _ _ _ _ ih => exact ih
  | bind _ hdue hxv hyt hv _ _ hrun ih =>
    have husable := ((hdue.tidy.proper _ hdue.left).leads hxv).var
    exact ih.trans (bind_lengthens hv husable.leveled
      ((hdue.tidy.resolvable _ hdue.right).leads hyt) husable.kind hrun)
  | ends _ hrecords _ hrun ih => exact ih.trans (hrecords.ended hrun).lengthens

/-- A closed row stays as it is. -/
theorem Preserves.flattenRow_rigid (h : Preserves s s') (hx : s.Resolvable x)
    (hflat : s.flattenRow x = some (ls, .rigid)) : s'.flattenRow x = some (ls, .rigid) := by
  obtain ⟨fs, hrow, rfl⟩ := flattenRow_row hflat
  have hrow' := hrow.append h.extends hx .rigid
  rw [List.append_nil] at hrow'
  exact hrow'.flattenRow (h.resolvable hx)

/-- An open row keeps its labels and may gain others behind them. -/
theorem Lengthens.flattenRow (h : Lengthens kind s s') (hx : s.Resolvable x)
    (hflat : s.flattenRow x = some (ls, .flexible v)) (hkind : kind v = .row) :
    ∃ ls' e new, s'.flattenRow x = some (ls', e) ∧
      LabelMap.labels ls' = LabelMap.labels ls ++ new ∧ ∀ l ∈ new, l ∉ LabelMap.labels ls := by
  obtain ⟨fs, hrow, rfl⟩ := flattenRow_row hflat
  obtain ⟨gs, e, hrest, -⟩ := h.goesOn v hrow.unlinked hkind
  have hrow' := hrow.append h.preserves.extends hx hrest
  obtain ⟨new, hlabels, hnew⟩ := LabelMap.labels_extend (LabelMap.extend [] fs) gs
  refine ⟨_, e, new, hrow'.flattenRow (h.preserves.resolvable hx), ?_, hnew⟩
  rw [← hlabels]
  simp [LabelMap.extend]

/-! ## Records that are unified -/

/-- Different types that have rows are unified by their rows. -/
theorem unifyHeads_rows {inner : Ty → Ty → UnifyM Unit} (ha : a.row? = some x)
    (hb : b.row? = some y) (hne : a ≠ b) (h : unifyHeads inner a b s = (.ok (), s')) :
    unifyRows inner a b x y s = (.ok (), s') := by
  unfold unifyHeads at h
  rw [if_neg hne] at h
  -- a record and a row do not fit, all other pairs are unified by their rows
  cases a <;> cases ha <;> cases b <;> cases hb <;> first | exact h | cases h

/-- What a successful unification of two rows consists of. -/
theorem unifyRows_ok {inner : Ty → Ty → UnifyM Unit} {expected found : Ty}
    (h : unifyRows inner expected found a b s = (.ok (), s')) :
    ∃ fs e gs e' s₁, s.flattenRow a = some (fs, e) ∧ s.flattenRow b = some (gs, e') ∧
      (e = .rigid → LabelMap.without gs fs = []) ∧ (e' = .rigid → LabelMap.without fs gs = []) ∧
      unifyShared inner gs fs s = (.ok (), s₁) ∧
      unifyEnds expected found (LabelMap.without gs fs) (LabelMap.without fs gs) e e' s₁ =
        (.ok (), s') := by
  rcases unifyRows_cases h with
    ⟨-, hr, -⟩ | ⟨fs, e, gs, e', hfs, hgs, ⟨-, _, hr, -⟩ | ⟨hleft, hright, h⟩⟩
  · cases hr
  · cases hr
  · obtain ⟨_, s₁, hshared, hends⟩ := bind_ok_iff.mp h
    exact ⟨fs, e, gs, e', s₁, hfs, hgs, hleft, hright, hshared, hends⟩

/-- Two records have been unified but for their ends. -/
theorem Tidy.unify_records (hs : s.Tidy kind W) (ha : a ∈ W) (hb : b ∈ W)
    (hx : (s.head a).row? = some x) (hy : (s.head b).row? = some y) (hne : s.head a ≠ s.head b)
    (hrun : unify a b s = (.ok (), s')) :
    ∃ fs e gs e' s₁, s.flattenRow x = some (fs, e) ∧ s.flattenRow y = some (gs, e') ∧
      (e = .rigid → LabelMap.without gs fs = []) ∧ (e' = .rigid → LabelMap.without fs gs = []) ∧
      Records kind W s₁ a b fs gs e e' ∧
      unifyEnds (s.head a) (s.head b) (LabelMap.without gs fs) (LabelMap.without fs gs) e e' s₁ =
        (.ok (), s') := by
  unfold unify at hrun
  obtain ⟨_, _, hget, hrun⟩ := bind_ok_iff.mp hrun
  cases hget
  cases hn : s.unifyDepth a b with
  | zero =>
    rw [hn] at hrun
    cases hrun
  | succ n =>
    rw [hn] at hrun
    obtain ⟨_, _, hget, hrun⟩ := bind_ok_iff.mp hrun
    cases hget
    obtain ⟨fs, e, gs, e', s₁, hfs, hgs, hlack, hlack', hshared, hends⟩ :=
      unifyRows_ok (unifyHeads_rows hx hy hne hrun)
    have hfields := hs.flattenRow_fields ha (head_leads s a) hx hfs
    have hfields' := hs.flattenRow_fields hb (head_leads s b) hy hgs
    have hinner : KeepsCourse kind W (fun _ _ => True) a 0 s n (unifyAt n) :=
      keepsCourse_unifyAt ha descends_true n
    obtain ⟨-, hunified⟩ := hinner.shared ha descends_true .start ⟨hs, ha, hb, trivial⟩ .here
      (Nat.zero_le _) hfields hfields' hshared
    exact ⟨fs, e, gs, e', s₁, hfs, hgs, hlack, hlack',
      (hunified rfl).records hs ha hb hfields hfields', hends⟩

/-- The row of a record that met another one. -/
theorem Meets.flattenRow {s₁ : Store} {fs gs : LabelMap Ty} {e e' e'' : RowEnd}
    (h : Meets kind W s₁ s' a b fs gs e e' e'') (hs : s.Tidy kind W) (hpreserves : Preserves s s')
    (hx : (s.head a).row? = some x) (hflat : s.flattenRow x = some (fs, e)) :
    s'.flattenRow x = some (fs ++ LabelMap.without gs fs, e'') := by
  have ha := hs.resolvable a h.left
  have hfinite := (ha.leads (head_leads s a)).row hx
  obtain ⟨fs', hrow, hextend⟩ := flattenRow_row hflat
  have hfields := hs.flattenRow_fields h.left (head_leads s a) hx hflat
  obtain ⟨rfl, -⟩ := hfields.unique ((head_leads s a).fields_iff.mpr (.row hx hrow))
  have hrow' := hrow.append hpreserves.extends hfinite h.rowLeft
  rw [hrow'.flattenRow (hpreserves.resolvable hfinite), LabelMap.extend_eq_append, List.nil_append]
  exact h.unified.tidy.noRepeat a h.left _ _ (h.append h.left h.fieldsLeft)

theorem head_ne_of_ends {fs gs : LabelMap Ty} (hx : (s.head a).row? = some x)
    (hy : (s.head b).row? = some y) (hfs : s.flattenRow x = some (fs, .flexible v))
    (hgs : s.flattenRow y = some (gs, .rigid)) : s.head a ≠ s.head b := by
  intro heq
  rw [heq, hy] at hx
  cases hx
  rw [hgs] at hfs
  cases hfs

/-- Unification leaves closed rows as they are, and open rows keep their labels and may gain others
behind them, whether it succeeds or fails.  An open record that was unified with a closed one has
its own fields followed by those that it lacked, in the order of the closed record, and is
closed. -/
theorem unify_rows_directed {a b : Ty} (h : s.Disciplined [a, b]) :
    (∀ x ls, s.Resolvable x → s.flattenRow x = some (ls, .rigid) →
      (unify a b s).2.flattenRow x = some (ls, .rigid)) ∧
    (∀ x ls v, s.Resolvable x → s.flattenRow x = some (ls, .flexible v) →
      ¬ s.UsedIn [a, b] v .type →
      ∃ ls' e new, (unify a b s).2.flattenRow x = some (ls', e) ∧
        LabelMap.labels ls' = LabelMap.labels ls ++ new ∧ ∀ l ∈ new, l ∉ LabelMap.labels ls) ∧
    ((unify a b s).1 = .ok () → ∀ x y fs gs v, (s.head a).row? = some x →
      (s.head b).row? = some y →
      (s.flattenRow x = some (fs, .flexible v) → s.flattenRow y = some (gs, .rigid) →
        (unify a b s).2.flattenRow x = some (fs ++ LabelMap.without gs fs, .rigid)) ∧
      (s.flattenRow x = some (fs, .rigid) → s.flattenRow y = some (gs, .flexible v) →
        (unify a b s).2.flattenRow y = some (gs ++ LabelMap.without fs gs, .rigid))) := by
  obtain ⟨kind, htidy, hkind⟩ := h.amenable.tidy_kind
  have ha : s.PartOf [a, b] a := ⟨a, by simp, .refl⟩
  have hb : s.PartOf [a, b] b := ⟨b, by simp, .refl⟩
  have hlengthens := (htidy.course_unify ha hb).lengthens
  have hpreserves := hlengthens.preserves
  refine ⟨fun x ls hx hflat => hpreserves.flattenRow_rigid hx hflat,
    fun x ls v hx hflat hv => hlengthens.flattenRow hx hflat (hkind v hv), ?_⟩
  intro hok x y fs gs v hx hy
  have hrun : unify a b s = (.ok (), (unify a b s).2) := Prod.ext hok rfl
  constructor <;> intro hfs hgs
  · obtain ⟨_, _, _, _, s₁, hfs', hgs', -, hlack, hrecords, hends⟩ :=
      htidy.unify_records ha hb hx hy (head_ne_of_ends hx hy hfs hgs) hrun
    cases hfs.symm.trans hfs'
    cases hgs.symm.trans hgs'
    exact (hrecords.meets_end nofun (hlack rfl) hends).flattenRow htidy hpreserves hx hfs
  · obtain ⟨_, _, _, _, s₁, hfs', hgs', hlack, -, hrecords, hends⟩ :=
      htidy.unify_records ha hb hx hy (head_ne_of_ends hy hx hgs hfs).symm hrun
    cases hfs.symm.trans hfs'
    cases hgs.symm.trans hgs'
    exact (hrecords.symm.meets_end nofun (hlack rfl) hends).flattenRow htidy hpreserves hy hgs

/-- A closed record with a field more than the open record `withX`, in front of the common one. -/
def closedZX : Ty := recordOf [("z", "bool"), ("x", "int")] .rigid

theorem withX_closedZX_openApart :
    twoOpen.OpenApart [([("x", "int")], .flexible 0), ([("z", "bool"), ("x", "int")], .rigid)] where
  unbound := by
    simp only [List.forall_mem_cons, RowEnd.flexible.injEq, forall_eq']
    exact ⟨⟨1, rfl, by decide, by decide⟩, nofun, nofun⟩
  nodup := by decide
  apart := by simp

/-- The open record gains the field `z` behind its own, and the closed one stays as it is. -/
theorem unify_rows_directed_withX :
    twoOpen.Disciplined [withX, closedZX] ∧ (unify withX closedZX twoOpen).1 = .ok () ∧
      (unify withX closedZX twoOpen).2.flattenRow
          (.rowExtend .plain [("z", .bool), ("x", .int)] .rowEmpty) =
        some ([("z", .bool), ("x", .int)], .rigid) ∧
      (unify withX closedZX twoOpen).2.flattenRow (.rowExtend .plain [("x", .int)] (.var 0)) =
        some ([("x", .int), ("z", .bool)], .rigid) := by
  have h := unify_rows_directed withX_closedZX_openApart.disciplined
  refine ⟨withX_closedZX_openApart.disciplined, rfl, h.1 _ _ ?_ rfl,
    (h.2.2 rfl _ _ _ _ 0 rfl rfl).1 rfl rfl⟩
  exact .intro nofun nofun

end Store

end Typecase
