import Typecase.Proofs.Types.Formed
import Typecase.Proofs.Types.Rows
set_option autoImplicit false

/-!
# The course of a unification

Unification is followed down the types, whether it succeeds or fails.  It takes few kinds of
steps: a variable is bound to a type, or the ends of two rows are made to meet.  What a
unification does to the store is therefore shown by induction on its course, for both outcomes at
once.

If it succeeds the types are equal.  Whatever it unified before stays equal, since the store only
grows, and what it found out about a record before it unified the fields still holds afterwards,
since no record is equal to a part of it.
-/

namespace Typecase

/-- Two types of the same form. -/
inductive Ty.Alike : Ty → Ty → Prop
  | con {m m' : Mark} {name : String} {as bs : List Ty} : as.length = bs.length →
      Alike (.con m name as) (.con m' name bs)
  | arrow {m m' : Mark} {a r a' r' : Ty} : Alike (.arrow m a r) (.arrow m' a' r')
  | tuple {m m' : Mark} {as bs : List Ty} : as.length = bs.length →
      Alike (.tuple m as) (.tuple m' bs)
  | record {m m' : Mark} {r r' : Ty} : Alike (.record m r) (.record m' r')

namespace Store

variable {s s' s₀ : Store} {kind : Var → Kind} {W : Set Ty} {R : Ty → Ty → Prop} {root : Ty}
  {bound n k : Nat} {r : Except UnifyError Unit} {inner : Ty → Ty → UnifyM Unit} {x y : Ty}
  {fs gs : LabelMap Ty}

/-! ## Steps -/

/-- Two types in `W` are to be unified, and are related by `R`. -/
structure Due (kind : Var → Kind) (W : Set Ty) (R : Ty → Ty → Prop) (s : Store) (x y : Ty) :
    Prop where
  tidy : s.Tidy kind W
  left : x ∈ W
  right : y ∈ W
  related : R x y

/-- Why two types cannot be unified, other than for a variable. -/
inductive Stuck (s : Store) : Ty → Ty → Prop
  | clash {x y a b : Ty} : s.Leads x a → s.Leads y b → (∀ v, a ≠ .var v) → (∀ v, b ≠ .var v) →
      ¬ a.Alike b → Stuck s x y
  | noRow {x y t row : Ty} : s.Leads x t → t.row? = some row → s.flattenRow row = none →
      Stuck s x y
  | lack {x y : Ty} {fs gs : LabelMap Ty} {e : RowEnd} : s.Fields x fs .rigid → s.Fields y gs e →
      LabelMap.without gs fs ≠ [] → Stuck s x y
  | swap {x y : Ty} : Stuck s y x → Stuck s x y

/-- A unification of related types in `W` leads from `s₀` to a store with a result.  It is cut off
only at a type that is `bound` levels or more below `root`. -/
inductive Course (kind : Var → Kind) (W : Set Ty) (R : Ty → Ty → Prop) (root : Ty) (bound : Nat)
    (s₀ : Store) : Except UnifyError Unit → Store → Prop
  | start : Course kind W R root bound s₀ (.ok ()) s₀
  | cut {s : Store} {k : Nat} {x : Ty} : Course kind W R root bound s₀ (.ok ()) s →
      s.Tidy kind W → s.Levels k root x → bound ≤ k →
      Course kind W R root bound s₀ (.error .unbounded) s
  | stuck {s : Store} {x y : Ty} {e : UnifyError} : Course kind W R root bound s₀ (.ok ()) s →
      Due kind W R s x y → s.Stuck x y → e ≠ .unbounded →
      Course kind W R root bound s₀ (.error e) s
  /-- A variable is bound to a type. -/
  | bind {s s' : Store} {x y t : Ty} {v : Var} {r : Except UnifyError Unit} :
      Course kind W R root bound s₀ (.ok ()) s → Due kind W R s x y → s.Leads x (.var v) →
      s.Leads y t → (∀ u, s.state v ≠ .linked u) → (∀ w, t = .var w → ∀ u, s.state w ≠ .linked u) →
      t ≠ .var v → Store.bind v t s = (r, s') → Course kind W R root bound s₀ r s'
  /-- The ends of two rows are made to meet. -/
  | ends {s s' : Store} {x y : Ty} {fs gs : LabelMap Ty} {a b : RowEnd}
      {r : Except UnifyError Unit} : Course kind W R root bound s₀ (.ok ()) s →
      Records kind W s x y fs gs a b → R x y →
      Joins s (LabelMap.without gs fs) (LabelMap.without fs gs) a b r s' →
      Course kind W R root bound s₀ r s'

/-! ## The ends of rows -/

/-- What is done to make the ends of two rows meet. -/
inductive Ended (kind : Var → Kind) (W : Set Ty) (s : Store) :
    Except UnifyError Unit → Store → Prop
  | done : Ended kind W s (.ok ()) s
  | fail {e : UnifyError} : e ≠ .unbounded → Ended kind W s (.error e) s
  /-- A row is completed. -/
  | complete {s' : Store} {v : Var} {ls : LabelMap Ty} {e : RowEnd} {r : Except UnifyError Unit} :
      Completing kind W s v ls e → complete v ls e s = (r, s') → Ended kind W s r s'
  /-- Two open rows get a common new end, but the first one cannot be completed. -/
  | newEndFail {s' : Store} {l : Int} {v : Var} {ls : LabelMap Ty} {e : UnifyError} :
      Level.linked < l → l ≤ Level.generic →
      Completing kind W (Ty.fresh l s).2 v ls (.flexible s.size) →
      Store.complete v ls (.flexible s.size) (Ty.fresh l s).2 = (.error e, s') →
      Ended kind W s (.error e) s'
  /-- Two open rows get a common new end. -/
  | newEnd {s₁ s' : Store} {l : Int} {v w : Var} {ls ls' : LabelMap Ty}
      {r : Except UnifyError Unit} : Level.linked < l → l ≤ Level.generic →
      Completing kind W (Ty.fresh l s).2 v ls (.flexible s.size) →
      Store.complete v ls (.flexible s.size) (Ty.fresh l s).2 = (.ok (), s₁) →
      Completing kind W s₁ w ls' (.flexible s.size) →
      Store.complete w ls' (.flexible s.size) s₁ = (r, s') → Ended kind W s r s'

/-- Two open rows are bound to a common new end. -/
theorem Records.newEnd {v w : Var}
    (h : Records kind W s x y fs gs (.flexible v) (.flexible w)) (hne : v ≠ w)
    (hrun : (do
      Store.complete v (LabelMap.without gs fs) (.flexible s.size)
      Store.complete w (LabelMap.without fs gs) (.flexible s.size))
        (Ty.fresh (min (s.state v).level (s.state w).level) s).2 = (r, s')) :
    Ended kind W s r s' := by
  obtain ⟨hlow, hhigh⟩ := h.level
  have hfirst := h.completing_fresh hlow hhigh
  rcases bind_cases hrun with ⟨e, hcomplete, rfl⟩ | ⟨_, s₂, hcomplete, hcomplete'⟩
  · exact .newEndFail hlow hhigh hfirst hcomplete
  · exact .newEnd hlow hhigh hfirst hcomplete
      ((h.symm.completing_fresh hlow hhigh).after hfirst hcomplete hne) hcomplete'

theorem Records.ended {a b : RowEnd} (h : Records kind W s x y fs gs a b)
    (hjoins : Joins s (LabelMap.without gs fs) (LabelMap.without fs gs) a b r s') :
    Ended kind W s r s' := by
  cases hjoins with
  | same => exact .done
  | clash _ he => exact .fail he
  | left hne _ hrun => exact .complete (h.completing hne) hrun
  | right hrun => exact .complete (h.symm.completing nofun) hrun
  | fresh hne hrun => exact h.newEnd hne hrun

/-! ## Common fields -/

/-- The labels that two rows share are unified as lists of types are. -/
theorem unifyShared_eq (inner : Ty → Ty → UnifyM Unit) (fs gs : LabelMap Ty) :
    unifyShared inner gs fs =
      unifyAll inner ((LabelMap.common fs gs).map (·.1)) ((LabelMap.common fs gs).map (·.2)) := by
  induction fs with
  | nil => rfl
  | cons f fs ih =>
    obtain ⟨l, t⟩ := f
    rw [unifyShared]
    cases hfind : LabelMap.find? gs l with
    | none =>
      have hcommon : LabelMap.common ((l, t) :: fs) gs = LabelMap.common fs gs := by
        simp [LabelMap.common, hfind]
      rw [hcommon, ← ih]
    | some u =>
      have hcommon : LabelMap.common ((l, t) :: fs) gs = (t, u) :: LabelMap.common fs gs := by
        simp [LabelMap.common, hfind]
      rw [hcommon, ih]
      rfl

theorem zip_common (fs gs : LabelMap Ty) :
    ((LabelMap.common fs gs).map (·.1)).zip ((LabelMap.common fs gs).map (·.2)) =
      LabelMap.common fs gs := by
  have hzip := List.zip_unzip (LabelMap.common fs gs)
  rwa [List.unzip_eq_map] at hzip

/-- Without repeated labels, the labels and the end of a row are its fields and its end. -/
theorem Tidy.flattenRow_fields (hs : s.Tidy kind W) {x t r : Ty} (hx : x ∈ W) (hxt : s.Leads x t)
    (hr : t.row? = some r) {fs : LabelMap Ty} {e : RowEnd} (h : s.flattenRow r = some (fs, e)) :
    s.Fields x fs e := by
  obtain ⟨fs', hrow, rfl⟩ := flattenRow_row h
  have hfields : s.Fields x fs' e := hxt.fields_iff.mpr (.row hr hrow)
  have hnodup : (([] ++ fs' : LabelMap Ty).map (·.1)).Nodup := hs.noRepeat x hx fs' e hfields
  rwa [LabelMap.extend_eq_append hnodup]

theorem Tidy.mem_common (hs : s.Tidy kind W) (hx : x ∈ W) {e : RowEnd} (hfields : s.Fields x fs e)
    {p : Ty × Ty} (hp : p ∈ LabelMap.common fs gs) :
    ∃ l, fs.lookup l = some p.1 ∧ gs.lookup l = some p.2 := by
  obtain ⟨l, hmem, hlookup⟩ := LabelMap.mem_common.mp hp
  exact ⟨l, LabelMap.lookup_of_mem (hs.noRepeat x hx fs e hfields) hmem, hlookup⟩

/-- Once their common fields are unified, records are as they were when their fields were
read. -/
theorem Unified.records {s₁ : Store} (h : Unified kind W s (LabelMap.common fs gs) s₁)
    (hs : s.Tidy kind W) (hx : x ∈ W) (hy : y ∈ W) {e e' : RowEnd} (hfieldsx : s.Fields x fs e)
    (hfieldsy : s.Fields y gs e') : Records kind W s₁ x y fs gs e e' := by
  have hfieldsx' := h.still_open hs hx (by
    intro p hp
    obtain ⟨l, hl, -⟩ := hs.mem_common hx hfieldsx hp
    exact hfieldsx.child hl) hfieldsx
  have hfieldsy' := h.swap.still_open hs hy (by
    intro q hq
    obtain ⟨p, hp, rfl⟩ := List.mem_map.mp hq
    obtain ⟨l, -, hl⟩ := hs.mem_common hx hfieldsx hp
    exact hfieldsy.child hl) hfieldsy
  refine ⟨h.tidy, hx, hy, hfieldsx', hfieldsy', ?_⟩
  intro l t u ht hu
  exact h.equal (t, u) (LabelMap.mem_common.mpr ⟨l, LabelMap.mem_of_lookup ht, hu⟩)

/-! ## Down the types -/

/-- In the stores that are passed, the parts of related types are related. -/
structure Descends (kind : Var → Kind) (W : Set Ty) (R : Ty → Ty → Prop) (root : Ty) (bound : Nat)
    (s₀ : Store) : Prop where
  symm : ∀ {x y}, R x y → R y x
  part : ∀ {s x y t u sym sym' parts parts'} slot, Course kind W R root bound s₀ (.ok ()) s →
    Due kind W R s x y → s.View x sym parts → s.View y sym' parts' → parts slot = some t →
    parts' slot = some u → R t u

theorem descends_true : Descends kind W (fun _ _ => True) root bound s₀ :=
  ⟨fun _ => trivial, fun _ _ _ _ _ _ _ => trivial⟩

/-- Unification by `inner` keeps to its course, provided that the first type is at least
`bound - n` levels below `root`, and makes types equal if it succeeds. -/
def KeepsCourse (kind : Var → Kind) (W : Set Ty) (R : Ty → Ty → Prop) (root : Ty) (bound : Nat)
    (s₀ : Store) (n : Nat) (inner : Ty → Ty → UnifyM Unit) : Prop :=
  ∀ {s s' k x y r}, Course kind W R root bound s₀ (.ok ()) s → Due kind W R s x y →
    s.Levels k root x → bound ≤ n + k → inner x y s = (r, s') →
    Course kind W R root bound s₀ r s' ∧ (r = .ok () → Unified kind W s [(x, y)] s')

section Down

variable (h : KeepsCourse kind W R root bound s₀ n inner) (hroot : root ∈ W)
include h hroot

theorem KeepsCourse.all {as bs : List Ty} (hc : Course kind W R root bound s₀ (.ok ()) s)
    (hs : s.Tidy kind W) (hbound : bound ≤ n + k)
    (hdue : ∀ p ∈ as.zip bs, Due kind W R s p.1 p.2 ∧ s.Levels k root p.1)
    (hrun : unifyAll inner as bs s = (r, s')) :
    Course kind W R root bound s₀ r s' ∧ (r = .ok () → Unified kind W s (as.zip bs) s') := by
  induction as generalizing bs s with
  | nil =>
    cases hrun
    exact ⟨hc, fun _ => hs.unified_nil⟩
  | cons a as ih =>
    cases bs with
    | nil =>
      cases hrun
      exact ⟨hc, fun _ => hs.unified_nil⟩
    | cons b bs =>
      rw [List.zip_cons_cons, List.forall_mem_cons] at hdue
      obtain ⟨⟨hfirst, hlevels⟩, hrest⟩ := hdue
      rcases bind_cases hrun with ⟨e, hhead, rfl⟩ | ⟨_, s₁, hhead, htail⟩
      · exact ⟨(h hc hfirst hlevels hbound hhead).1, nofun⟩
      · obtain ⟨hc₁, hunified⟩ := h hc hfirst hlevels hbound hhead
        have hunified := hunified rfl
        obtain ⟨hc', hall⟩ := ih hc₁ hunified.tidy (by
          intro p hp
          obtain ⟨⟨-, hx, hy, hxy⟩, hlevels⟩ := hrest p hp
          exact ⟨⟨hunified.tidy, hx, hy, hxy⟩, hlevels.extend hs hunified.extension hroot⟩) htail
        refine ⟨hc', fun hr => ?_⟩
        show Unified kind W s ([(a, b)] ++ as.zip bs) s'
        exact hunified.append hs (hall hr)
          (List.forall_mem_singleton.mpr ⟨hfirst.left, hfirst.right⟩)

variable (hR : Descends kind W R root bound s₀) (hc : Course kind W R root bound s₀ (.ok ()) s)
  (hdue : Due kind W R s x y) (hlevels : s.Levels k root x) (hbound : bound ≤ n + 1 + k)
include hR hc hdue hlevels hbound

/-- Types of the same form are unified by their arguments. -/
theorem KeepsCourse.args {sym : Symbol} {as bs : List Ty} (hviewx : s.View x sym (Slot.nth as))
    (hviewy : s.View y sym (Slot.nth bs)) (hclosed : sym.open? = none)
    (hrun : unifyAll inner as bs s = (r, s')) :
    Course kind W R root bound s₀ r s' ∧ (r = .ok () → Unified kind W s [(x, y)] s') := by
  have hs := hdue.tidy
  have hslot : ∀ p ∈ as.zip bs, ∃ i : Nat, as[i]? = some p.1 ∧ bs[i]? = some p.2 := by
    intro p hp
    obtain ⟨i, hi⟩ := List.mem_iff_getElem?.mp hp
    exact ⟨i, List.getElem?_zip_eq_some.mp hi⟩
  obtain ⟨hc', hall⟩ := h.all hroot (k := k + 1) hc hs (by omega) (by
    intro p hp
    obtain ⟨i, ht, hu⟩ := hslot p hp
    have hchildx : s.Child x p.1 := ⟨_, _, .index i, hviewx, ht⟩
    have hchildy : s.Child y p.2 := ⟨_, _, .index i, hviewy, hu⟩
    exact ⟨⟨hs, hs.parts x hdue.left _ hchildx, hs.parts y hdue.right _ hchildy,
      hR.part (.index i) hc hdue hviewx hviewy ht hu⟩, hlevels.tail hchildx⟩) hrun
  refine ⟨hc', fun hr => (hall hr).node hs hdue.left hdue.right hviewx hviewy hclosed ?_ ?_⟩
  · intro slot t u ht hu
    cases slot with
    | index i => exact List.mem_of_getElem? (List.getElem?_zip_eq_some.mpr ⟨ht, hu⟩)
    | field l => cases ht
  · intro p hp
    obtain ⟨i, ht, -⟩ := hslot p hp
    exact ⟨_, _, .index i, hviewx, ht⟩

theorem KeepsCourse.shared {e e' : RowEnd} (hfieldsx : s.Fields x fs e)
    (hfieldsy : s.Fields y gs e') (hrun : unifyShared inner gs fs s = (r, s')) :
    Course kind W R root bound s₀ r s' ∧
      (r = .ok () → Unified kind W s (LabelMap.common fs gs) s') := by
  have hs := hdue.tidy
  rw [unifyShared_eq] at hrun
  have hall := h.all hroot (k := k + 1) hc hs (by omega) (by
    rw [zip_common]
    intro p hp
    obtain ⟨l, ht, hu⟩ := hs.mem_common hdue.left hfieldsx hp
    have hchildx := hfieldsx.child ht
    exact ⟨⟨hs, hs.parts x hdue.left _ hchildx, hs.parts y hdue.right _ (hfieldsy.child hu),
      hR.part (.field l) hc hdue hfieldsx.view hfieldsy.view ht hu⟩, hlevels.tail hchildx⟩) hrun
  rwa [zip_common] at hall

/-- Records are unified by their rows. -/
theorem KeepsCourse.rows {t u a b : Ty} (hxt : s.Leads x t) (hyu : s.Leads y u)
    (ha : t.row? = some a) (hb : u.row? = some b) {expected found : Ty}
    (hrun : unifyRows inner expected found a b s = (r, s')) :
    Course kind W R root bound s₀ r s' ∧ (r = .ok () → Unified kind W s [(x, y)] s') := by
  have hs := hdue.tidy
  have hx := hdue.left
  have hy := hdue.right
  rcases unifyRows_cases hrun with ⟨hnone, rfl, rfl⟩ | ⟨fs, e, gs, e', hfs, hgs, hcases⟩
  · refine ⟨.stuck hc hdue ?_ (by simp), nofun⟩
    rcases hnone with hnone | hnone
    · exact .noRow hxt ha hnone
    · exact .swap (.noRow hyu hb hnone)
  have hfieldsx := hs.flattenRow_fields hx hxt ha hfs
  have hfieldsy := hs.flattenRow_fields hy hyu hb hgs
  rcases hcases with ⟨hlack, label, rfl, rfl⟩ | ⟨hrigid, hrigid', hrun⟩
  · refine ⟨.stuck hc hdue ?_ (by simp), nofun⟩
    rcases hlack with ⟨rfl, hlack⟩ | ⟨rfl, hlack⟩
    · exact .lack hfieldsx hfieldsy hlack
    · exact .swap (.lack hfieldsy hfieldsx hlack)
  rcases bind_cases hrun with ⟨_, hcommon, rfl⟩ | ⟨_, s₁, hcommon, hends⟩
  · exact ⟨(h.shared hroot hR hc hdue hlevels hbound hfieldsx hfieldsy hcommon).1, nofun⟩
  · obtain ⟨hc₁, hshared⟩ := h.shared hroot hR hc hdue hlevels hbound hfieldsx hfieldsy hcommon
    have hshared := hshared rfl
    have hrecords := hshared.records hs hx hy hfieldsx hfieldsy
    have hjoins := unifyEnds_joins hends
    refine ⟨.ends hc₁ hrecords hdue.related hjoins, ?_⟩
    rintro rfl
    have hunified := hrecords.joins_ok hrigid hrigid' hjoins
    have hchild : ∀ p ∈ LabelMap.common fs gs, s.Child x p.1 ∧ s.Child y p.2 := by
      intro p hp
      obtain ⟨l, ht, hu⟩ := hs.mem_common hx hfieldsx hp
      exact ⟨hfieldsx.child ht, hfieldsy.child hu⟩
    have hall := hshared.append hs hunified fun p hp =>
      ⟨hs.parts x hx p.1 (hchild p hp).1, hs.parts y hy p.2 (hchild p hp).2⟩
    refine hall.above hunified.equal ?_
    intro p hp
    refine ⟨(x, y), List.mem_cons_self, ?_⟩
    rcases List.mem_append.mp hp with hp | hp
    · exact .single ((hchild p hp).1.extend hall.extension hx (hs.resolvable x hx))
    · exact List.mem_singleton.mp hp ▸ .refl

theorem KeepsCourse.heads {a b : Ty} (hxa : s.Leads x a) (hyb : s.Leads y b)
    (ha : ∀ v, a = .var v → ∀ t, s.state v ≠ .linked t)
    (hb : ∀ v, b = .var v → ∀ t, s.state v ≠ .linked t) (hrun : unifyHeads inner a b s = (r, s')) :
    Course kind W R root bound s₀ r s' ∧ (r = .ok () → Unified kind W s [(x, y)] s') := by
  have hs := hdue.tidy
  have hx := hdue.left
  have hy := hdue.right
  unfold unifyHeads at hrun
  split at hrun
  · rename_i heq
    subst heq
    cases hrun
    have hequal : s.Equal x y := (hs.resolvable x hx).equal_of_leads hxa hyb
    refine ⟨hc, fun _ => hs.unified_nil.above (List.forall_mem_singleton.mpr hequal) ?_⟩
    exact fun p hp => absurd hp List.not_mem_nil
  rename_i hne
  split at hrun
  · rename_i v
    refine ⟨.bind hc hdue hxa hyb (ha v rfl) hb (Ne.symm hne) hrun, ?_⟩
    rintro rfl
    exact hs.unified_bind hx hy hxa hyb (ha v rfl) hrun
  · rename_i v _
    refine ⟨.bind hc ⟨hs, hy, hx, hR.symm hdue.related⟩ hyb hxa (hb v rfl) ha hne hrun, ?_⟩
    rintro rfl
    exact (hs.unified_bind hy hx hyb hxa (hb v rfl) hrun).swap
  · rename_i n as _ m bs
    split at hrun
    · rename_i hname
      cases hrun
      refine ⟨.stuck hc hdue (.clash hxa hyb nofun nofun ?_) (by simp), nofun⟩
      rintro ⟨⟩
      exact hname rfl
    · rename_i hname
      obtain rfl : n = m := not_not.mp hname
      split at hrun
      · rename_i hlength
        cases hrun
        refine ⟨.stuck hc hdue (.clash hxa hyb nofun nofun ?_) (by simp), nofun⟩
        rintro ⟨hsame⟩
        exact hlength hsame
      · rename_i hlength
        have hlength : as.length = bs.length := not_not.mp hlength
        exact h.args hroot hR hc hdue hlevels hbound (hxa.view_iff.mpr .con)
          (hyb.view_iff.mpr (hlength ▸ .con)) rfl hrun
  · exact h.args hroot hR hc hdue hlevels hbound (hxa.view_iff.mpr .arrow)
      (hyb.view_iff.mpr .arrow) rfl (by simpa [unifyAll] using hrun)
  · rename_i as _ bs
    split at hrun
    · rename_i hlength
      cases hrun
      refine ⟨.stuck hc hdue (.clash hxa hyb nofun nofun ?_) (by simp), nofun⟩
      rintro ⟨⟩
      exact hlength ‹_›
    · rename_i hlength
      have hlength : as.length = bs.length := not_not.mp hlength
      exact h.args hroot hR hc hdue hlevels hbound (hxa.view_iff.mpr .tuple)
        (hyb.view_iff.mpr (hlength ▸ .tuple)) rfl hrun
  · exact h.rows hroot hR hc hdue hlevels hbound hxa hyb rfl rfl hrun
  · exact h.rows hroot hR hc hdue hlevels hbound hxa hyb rfl rfl hrun
  · exact h.rows hroot hR hc hdue hlevels hbound hxa hyb rfl rfl hrun
  · exact h.rows hroot hR hc hdue hlevels hbound hxa hyb rfl rfl hrun
  · rename_i hvar hvar' hcon harrow htuple hrecord _ _ _
    cases hrun
    refine ⟨.stuck hc hdue (.clash hxa hyb (fun v hv => hvar v hv) (fun v hv => hvar' v hv) ?_)
      (by simp), nofun⟩
    rintro (_ | _ | _ | _)
    · exact hcon _ _ _ _ _ _ rfl rfl
    · exact harrow _ _ _ _ _ _ rfl rfl
    · exact htuple _ _ _ _ rfl rfl
    · exact hrecord _ _ _ _ rfl rfl

end Down

theorem keepsCourse_unifyAt (hroot : root ∈ W) (hR : Descends kind W R root bound s₀) (n : Nat) :
    KeepsCourse kind W R root bound s₀ n (unifyAt n) := by
  induction n with
  | zero =>
    intro s s' k x y r hc hdue hlevels hbound hrun
    cases hrun
    exact ⟨.cut hc hdue.tidy hlevels (by omega), nofun⟩
  | succ n ih =>
    intro s s' k x y r hc hdue hlevels hbound hrun
    rcases bind_cases hrun with ⟨e, hget, -⟩ | ⟨_, _, hget, hrun⟩
    · cases hget
    · cases hget
      exact ih.heads hroot hR hc hdue hlevels hbound (head_leads s x) (head_leads s y)
        (fun _ hv => (hdue.tidy.resolvable x hdue.left).head_unlinked hv)
        (fun _ hv => (hdue.tidy.resolvable y hdue.right).head_unlinked hv) hrun

theorem Due.course_unify {a b : Ty} (h : Due kind W R s a b)
    (hR : Descends kind W R a (s.unifyDepth a b) s) :
    Course kind W R a (s.unifyDepth a b) s (unify a b s).1 (unify a b s).2 ∧
      ((unify a b s).1 = .ok () → Unified kind W s [(a, b)] (unify a b s).2) :=
  keepsCourse_unifyAt h.left hR _ .start h .here (Nat.le_refl _) rfl

theorem Tidy.course_unify (h : s.Tidy kind W) {a b : Ty} (ha : a ∈ W) (hb : b ∈ W) :
    Course kind W (fun _ _ => True) a (s.unifyDepth a b) s (unify a b s).1 (unify a b s).2 :=
  (Due.course_unify ⟨h, ha, hb, trivial⟩ descends_true).1

end Store

end Typecase
