import Typecase.Proofs.Types.Resolvable
set_option autoImplicit false

/-!
# Binding a variable

What the steps of a unification do to the store.  A variable is bound, other variables
are at most lowered to another level, and variables may be added.
-/

namespace Typecase

variable {st : VarState}

/-- A level that an unbound variable can have.  Levels are 32-bit integers, of which the least
and the greatest stand for bound and for quantified variables. -/
def Level.Valid (l : Int) : Prop := Level.linked < l ∧ l < Level.generic

theorem Level.Valid.atLevel {l : Int} (h : Level.Valid l) : VarState.atLevel l = .unbound l := by
  obtain ⟨hlow, hhigh⟩ := h
  rw [VarState.atLevel, if_neg (by omega), if_neg (by omega)]

theorem Level.Valid.ofInt {l : Int} (h : Level.Valid l) : Level.ofInt l = l := by
  obtain ⟨hlow, hhigh⟩ := h
  unfold Level.linked at hlow
  unfold Level.generic at hhigh
  unfold Level.ofInt
  rw [Int.bmod_eq_of_le] <;> omega

theorem Level.linked_le_ofInt (n : Int) : Level.linked ≤ Level.ofInt n := by
  unfold Level.linked Level.ofInt
  have h := Int.le_bmod (x := n) (m := 4294967296) (by decide)
  omega

theorem Level.ofInt_le {n : Int} (h : Level.linked ≤ n) : Level.ofInt n ≤ n := by
  unfold Level.linked at h
  unfold Level.ofInt
  by_cases hlt : n < 2147483648
  · rw [Int.bmod_eq_of_le (by omega) (by omega)]
  · have hbound := Int.bmod_lt (x := n) (m := 4294967296) (by decide)
    omega

/-- A variable that may take part in a unification: it is not quantified, and has a proper
level if it is unbound. -/
def VarState.Ready : VarState → Prop
  | .unbound l => Level.Valid l
  | .generic => False
  | .linked _ => True

/-- A variable that has a proper level if it is unbound. -/
def VarState.Leveled : VarState → Prop
  | .unbound l => Level.Valid l
  | .generic => True
  | .linked _ => True

theorem VarState.Ready.leveled (h : st.Ready) : st.Leveled := by
  cases st with
  | unbound l => exact h
  | generic => trivial
  | linked t => trivial

theorem VarState.Leveled.level (h : st.Leveled) (hst : ∀ t, st ≠ .linked t)
    (hgeneric : st ≠ .generic) : Level.Valid st.level := by
  cases st with
  | unbound l => exact h
  | generic => exact absurd rfl hgeneric
  | linked t => exact absurd rfl (hst t)

/-- A variable without a link is above the level of bound variables. -/
theorem VarState.Leveled.range (h : st.Leveled) (hst : ∀ t, st ≠ .linked t) :
    Level.linked < st.level ∧ st.level ≤ Level.generic := by
  cases st with
  | unbound l => exact ⟨h.1, Int.le_of_lt h.2⟩
  | generic => exact ⟨by decide, Int.le_refl _⟩
  | linked t => exact absurd rfl (hst t)

/-- The lower of two levels is proper if the first one is. -/
theorem VarState.Leveled.min {st' : VarState} (h : st.Leveled) (h' : st'.Leveled)
    (hst : ∀ t, st ≠ .linked t) (hst' : ∀ t, st' ≠ .linked t) (hgeneric : st ≠ .generic) :
    Level.Valid (min st.level st'.level) := by
  obtain ⟨hlow, hhigh⟩ := h.level hst hgeneric
  obtain ⟨hlow', -⟩ := h'.range hst'
  exact ⟨by omega, by omega⟩

namespace Store

variable {s s' : Store} {v u : Var} {t : Ty} {level : Int} {β : Type}

/-! ## Changing the state of a variable -/

@[simp] theorem size_setState (s : Store) (v : Var) (st : VarState) :
    (s.setState v st).size = s.size := by
  simp [setState, setCell, size]

theorem state_setState (s : Store) (v : Var) (st : VarState) (u : Var) :
    (s.setState v st).state u = if u = v ∧ v < s.size then st else s.state u := by
  unfold setState setCell state cell size
  by_cases hu : u = v
  · subst hu
    by_cases hlt : u < s.cells.size
    · simp [hlt]
    · simp [hlt]
  · simp [hu, Ne.symm hu]

@[simp] theorem state_record (s : Store) (v u : Var) : (s.record v).state u = s.state u := by
  unfold record
  split <;> rfl

@[simp] theorem size_record (s : Store) (v : Var) : (s.record v).size = s.size := by
  unfold record
  split <;> rfl

theorem lt_size_of_unlinked (h : ∀ t, s.state v ≠ .linked t) : v < s.size := by
  by_contra hlt
  refine h .lost ?_
  unfold state cell
  rw [Array.getD_eq_getD_getElem?, Array.getElem?_eq_none (by simpa [size] using hlt)]
  rfl

theorem resolvable_unlinked (hv : ∀ t, s.state v ≠ .linked t) : s.Resolvable (.var v) := by
  refine .intro ?_ ?_ <;> intro u hu <;> rw [Ty.vars, List.mem_singleton] at hu <;> subst hu
  · exact lt_size_of_unlinked hv
  · exact fun t ht => absurd ht (hv t)

/-! ## Running a unification -/

/-- What is done before the next computation is done whether that succeeds or not. -/
theorem bind_cases {γ : Type} {m : UnifyM β} {f : β → UnifyM γ} {r : Except UnifyError γ}
    (h : (m >>= f) s = (r, s')) :
    (∃ e, m s = (.error e, s') ∧ r = .error e) ∨
      ∃ b s₁, m s = (.ok b, s₁) ∧ f b s₁ = (r, s') := by
  have hrun : (m >>= f) s = ExceptT.bindCont f (m s).1 (m s).2 := rfl
  rw [hrun] at h
  rcases hm : m s with ⟨q, s₁⟩
  rw [hm] at h
  cases q with
  | error e =>
    cases h
    exact Or.inl ⟨e, rfl, rfl⟩
  | ok b => exact Or.inr ⟨b, s₁, rfl, h⟩

theorem bind_ok_iff {γ : Type} {x : UnifyM β} {f : β → UnifyM γ} {c : γ} :
    (x >>= f) s = (.ok c, s') ↔ ∃ b s₁, x s = (.ok b, s₁) ∧ f b s₁ = (.ok c, s') := by
  constructor
  · intro h
    rcases bind_cases h with ⟨e, -, hc⟩ | hok
    · cases hc
    · exact hok
  · rintro ⟨b, s₁, hx, hf⟩
    have hrun : (x >>= f) s = ExceptT.bindCont f (x s).1 (x s).2 := rfl
    rw [hrun, hx]
    exact hf

/-- A rigid row that lacks a field ends the unification. -/
theorem rigid_cases {e : RowEnd} {ls : LabelMap Ty} {error : String → UnifyError}
    {rest : UnifyM Unit} {r : Except UnifyError Unit}
    (h : (match e, ls with
      | .rigid, (label, _) :: _ => do
        throw (error label)
        rest
      | _, _ => rest) s = (r, s')) :
    (e = .rigid ∧ ls ≠ []) ∧ (∃ label, r = .error (error label) ∧ s' = s) ∨
      (e = .rigid → ls = []) ∧ rest s = (r, s') := by
  cases e with
  | flexible v => exact Or.inr ⟨nofun, h⟩
  | rigid =>
    cases ls with
    | nil => exact Or.inr ⟨fun _ => rfl, h⟩
    | cons f ls =>
      cases h
      exact Or.inl ⟨⟨rfl, List.cons_ne_nil _ _⟩, _, rfl, rfl⟩

/-- How a unification of two rows goes. -/
theorem unifyRows_cases {inner : Ty → Ty → UnifyM Unit} {expected found a b : Ty}
    {r : Except UnifyError Unit} (h : unifyRows inner expected found a b s = (r, s')) :
    (s.flattenRow a = none ∨ s.flattenRow b = none) ∧ r = .error .notRow ∧ s' = s ∨
    ∃ fs e gs e', s.flattenRow a = some (fs, e) ∧ s.flattenRow b = some (gs, e') ∧
      ((e = .rigid ∧ LabelMap.without gs fs ≠ [] ∨ e' = .rigid ∧ LabelMap.without fs gs ≠ []) ∧
          (∃ label, r = .error (.mismatch .type expected found label) ∧ s' = s) ∨
        (e = .rigid → LabelMap.without gs fs = []) ∧ (e' = .rigid → LabelMap.without fs gs = []) ∧
        (do
          unifyShared inner gs fs
          unifyEnds expected found (LabelMap.without gs fs) (LabelMap.without fs gs) e e') s =
            (r, s')) := by
  unfold unifyRows at h
  rcases bind_cases h with ⟨e, hget, -⟩ | ⟨_, _, hget, h⟩
  · cases hget
  · cases hget
    cases hfs : s.flattenRow a with
    | none =>
      rw [hfs] at h
      cases h
      exact Or.inl ⟨Or.inl rfl, rfl, rfl⟩
    | some p =>
      obtain ⟨fs, e⟩ := p
      rw [hfs] at h
      cases hgs : s.flattenRow b with
      | none =>
        rw [hgs] at h
        cases h
        exact Or.inl ⟨Or.inr rfl, rfl, rfl⟩
      | some p =>
        obtain ⟨gs, e'⟩ := p
        rw [hgs] at h
        refine Or.inr ⟨fs, e, gs, e', rfl, rfl, ?_⟩
        rcases rigid_cases h with ⟨hlack, herror⟩ | ⟨hlack, h⟩
        · exact Or.inl ⟨Or.inl hlack, herror⟩
        · rcases rigid_cases h with ⟨hlack', herror⟩ | ⟨hlack', h⟩
          · exact Or.inl ⟨Or.inr hlack', herror⟩
          · exact Or.inr ⟨hlack, hlack', h⟩

/-! ## Lowering variables -/

/-- Outside of `vs`, the variables of `s` are kept, up to the levels of unbound ones. -/
structure Tuned (vs : List Var) (s s' : Store) : Prop where
  size_le : s.size ≤ s'.size
  state : ∀ u < s.size, u ∉ vs → s'.state u = s.state u ∨
    (s.state u).isUnbound = true ∧ ∃ l, Level.Valid l ∧ s'.state u = .unbound l

theorem Tuned.refl (s : Store) : Tuned [] s s := ⟨Nat.le_refl _, fun _ _ _ => Or.inl rfl⟩

theorem Tuned.trans {vs ws : List Var} {s'' : Store} (h : Tuned vs s s') (h' : Tuned ws s' s'') :
    Tuned (vs ++ ws) s s'' := by
  refine ⟨Nat.le_trans h.size_le h'.size_le, ?_⟩
  intro u hlt hu
  rw [List.mem_append, not_or] at hu
  rcases h'.state u (Nat.lt_of_lt_of_le hlt h.size_le) hu.2 with hu' | ⟨hunbound, hl⟩
  · rw [hu']
    exact h.state u hlt hu.1
  · refine Or.inr ⟨?_, hl⟩
    rcases h.state u hlt hu.1 with hstate | ⟨hstate, -⟩
    · rwa [hstate] at hunbound
    · exact hstate

section Tuned

variable {vs : List Var} {u : Var}

theorem Tuned.linked (h : Tuned vs s s') (hlt : u < s.size) (hu : u ∉ vs) {t : Ty} :
    s'.state u = .linked t ↔ s.state u = .linked t := by
  rcases h.state u hlt hu with heq | ⟨hunbound, l, -, hl⟩
  · rw [heq]
  · rw [hl]
    cases hstate : s.state u <;> simp_all [VarState.isUnbound]

theorem Tuned.unlinked (h : Tuned vs s s') (hu : u ∉ vs) (hunlinked : ∀ t, s.state u ≠ .linked t) :
    ∀ t, s'.state u ≠ .linked t :=
  fun t ht => hunlinked t ((h.linked (lt_size_of_unlinked hunlinked) hu).mp ht)

theorem Tuned.leveled (h : Tuned vs s s') (hlt : u < s.size) (hu : u ∉ vs)
    (hleveled : (s.state u).Leveled) : (s'.state u).Leveled := by
  rcases h.state u hlt hu with heq | ⟨-, l, hl, heq⟩
  · rwa [heq]
  · rwa [heq]

theorem Tuned.generic_iff (h : Tuned vs s s') (hlt : u < s.size) (hu : u ∉ vs) :
    s'.state u = .generic ↔ s.state u = .generic := by
  rcases h.state u hlt hu with heq | ⟨hunbound, l, -, hl⟩
  · rw [heq]
  · rw [hl]
    cases hstate : s.state u <;> simp_all [VarState.isUnbound]

end Tuned

/-- Only unbound variables are lowered, to the given level. -/
theorem adjust_eq (v : Var) (level : Int) (t : Ty) (u : Var) (s : Store) :
    adjust v level t u s = match s.state u with
      | .generic => (.error .generic, s)
      | .linked _ => (.ok (), s)
      | .unbound l =>
        if u = v then (.error (.mismatch .infinite (.var v) t ""), s)
        else if l > level then (.ok (), s.lower u level) else (.ok (), s) := by
  have hget : ∀ f : Store → UnifyM Unit, (getThe Store >>= f) s = f s s := fun _ => rfl
  rw [adjust, hget]
  cases s.state u with
  | generic => rfl
  | linked => rfl
  | unbound l =>
    simp only
    split
    · rfl
    · split <;> rfl

theorem lower_tuned {l : Int} (hu : s.state u = .unbound l) (hlevel : Level.Valid level) :
    Tuned [] s (s.lower u level) := by
  refine ⟨by simp [lower], ?_⟩
  intro w _ _
  rw [lower, state_setState, hlevel.atLevel]
  split
  · rename_i hw
    obtain ⟨rfl, -⟩ := hw
    exact Or.inr ⟨by simp [hu, VarState.isUnbound], level, hlevel, rfl⟩
  · exact Or.inl (state_record s u w)

theorem adjust_ok (hlevel : Level.Valid level) (hv : ∀ w, s.state v ≠ .linked w)
    (h : adjust v level t u s = (.ok (), s')) : Tuned [] s s' ∧ u ≠ v ∧ s.state u ≠ .generic := by
  rw [adjust_eq] at h
  cases hu : s.state u with
  | generic =>
    rw [hu] at h
    cases h
  | linked w =>
    rw [hu] at h
    cases h
    refine ⟨.refl s, ?_, by simp⟩
    rintro rfl
    exact hv w hu
  | unbound l =>
    rw [hu] at h
    simp only at h
    split at h
    · cases h
    · rename_i hne
      refine ⟨?_, hne, by simp⟩
      split at h <;> cases h
      · exact lower_tuned hu hlevel
      · exact .refl s

theorem forM_adjust_ok {us : List Var} (hlevel : Level.Valid level)
    (hv : ∀ w, s.state v ≠ .linked w) (h : us.forM (adjust v level t) s = (.ok (), s')) :
    Tuned [] s s' ∧ v ∉ us ∧ ∀ u ∈ us, s.state u ≠ .generic := by
  induction us generalizing s with
  | nil =>
    cases h
    exact ⟨.refl _, List.not_mem_nil, fun _ hu => absurd hu List.not_mem_nil⟩
  | cons u us ih =>
    obtain ⟨_, s₁, hu, h⟩ := bind_ok_iff.mp h
    obtain ⟨htuned, hne, hcalm⟩ := adjust_ok hlevel hv hu
    obtain ⟨htuned', hnotin, hcalm'⟩ := ih (htuned.unlinked List.not_mem_nil hv) h
    refine ⟨htuned.trans htuned', ?_, List.forall_mem_cons.mpr ⟨hcalm, ?_⟩⟩
    · rintro hmem
      rcases List.mem_cons.mp hmem with rfl | hmem
      · exact hne rfl
      · exact hnotin hmem
    · intro w hw hgeneric
      have hlt : w < s.size := lt_size_of_unlinked (by simp [hgeneric])
      exact hcalm' w hw ((htuned.generic_iff hlt List.not_mem_nil).mpr hgeneric)

/-! ## Binding -/

/-- `v`, which had no link, is bound to `t`; all else is kept. -/
structure Binds (v : Var) (t : Ty) (s s' : Store) : Prop where
  unlinked : ∀ w, s.state v ≠ .linked w
  linked : s'.state v = .linked t
  tuned : Tuned [v] s s'

/-- A quantified variable is never bound. -/
theorem bind_not_generic (h : bind v t s = (.ok (), s')) : s.state v ≠ .generic := by
  intro hstate
  unfold bind at h
  obtain ⟨s₀, s₁, hget, h⟩ := bind_ok_iff.mp h
  cases hget
  rw [hstate] at h
  cases h

/-- A variable is bound only to a type in which it does not occur. -/
theorem bind_ok (hv : ∀ w, s.state v ≠ .linked w) (hleveled : (s.state v).Leveled)
    (ht : s.Resolvable t) (h : bind v t s = (.ok (), s')) : Binds v t s s' ∧ ¬ s.Reach t v := by
  have hgeneric := bind_not_generic h
  unfold bind at h
  obtain ⟨s₀, s₁, hget, h⟩ := bind_ok_iff.mp h
  cases hget
  cases hstate : s.state v with
  | generic => exact absurd hstate hgeneric
  | linked w => exact absurd hstate (hv w)
  | unbound l =>
    rw [hstate] at hleveled
    simp only [hstate, VarState.isGeneric] at h
    obtain ⟨_, s₁, hadjust, h⟩ := bind_ok_iff.mp h
    obtain ⟨htuned, hnotin, -⟩ := forM_adjust_ok hleveled hv hadjust
    cases h
    have hlt : v < (s₁.record v).size := by
      rw [size_record]
      exact Nat.lt_of_lt_of_le (lt_size_of_unlinked hv) htuned.size_le
    refine ⟨⟨hv, ?_, ⟨?_, ?_⟩⟩, fun hreach => hnotin (ht.mem_reach hreach hv)⟩
    · show ((s₁.record v).setState v (.linked t)).state v = .linked t
      rw [state_setState, if_pos ⟨rfl, hlt⟩]
    · show s.size ≤ ((s₁.record v).setState v (.linked t)).size
      rw [size_setState, size_record]
      exact htuned.size_le
    · intro u hu hne
      have hkeep : ((s₁.record v).setState v (.linked t)).state u = s₁.state u := by
        rw [state_setState, if_neg (fun heq => hne (List.mem_singleton.mpr heq.1)), state_record]
      exact hkeep ▸ htuned.state u hu List.not_mem_nil

/-- A variable is bound only to a type in which no quantified variable occurs. -/
theorem bind_calm (hv : ∀ w, s.state v ≠ .linked w) (hleveled : (s.state v).Leveled)
    (ht : s.Resolvable t) (h : bind v t s = (.ok (), s')) (hu : s.Reach t u) :
    s.state u ≠ .generic := by
  intro hgeneric
  have hlevel := hleveled.level hv (bind_not_generic h)
  have hmem := ht.mem_reach hu (by simp [hgeneric])
  unfold bind at h
  obtain ⟨s₀, s₁, hget, h⟩ := bind_ok_iff.mp h
  cases hget
  split at h
  · cases h
  · obtain ⟨_, s₁, hadjust, -⟩ := bind_ok_iff.mp h
    exact (forM_adjust_ok hlevel hv hadjust).2.2 u hmem hgeneric

/-! ## Binding succeeds -/

theorem adjust_run (hu : s.state u ≠ .generic) (hne : u ≠ v) :
    ∃ s', adjust v level t u s = (.ok (), s') ∧ s'.size = s.size := by
  rw [adjust_eq]
  cases hstate : s.state u with
  | generic => exact absurd hstate hu
  | linked w => exact ⟨s, rfl, rfl⟩
  | unbound l =>
    simp only [if_neg hne]
    split
    · exact ⟨_, rfl, by simp [lower]⟩
    · exact ⟨s, rfl, rfl⟩

theorem forM_adjust_run (t : Ty) (us : List Var) (hlevel : Level.Valid level)
    (hv : ∀ w, s.state v ≠ .linked w) (hus : ∀ u ∈ us, u < s.size ∧ s.state u ≠ .generic ∧ u ≠ v) :
    ∃ s', us.forM (adjust v level t) s = (.ok (), s') ∧ s'.size = s.size := by
  induction us generalizing s with
  | nil => exact ⟨s, rfl, rfl⟩
  | cons u us ih =>
    rw [List.forall_mem_cons] at hus
    obtain ⟨⟨hlt, hgeneric, hne⟩, hrest⟩ := hus
    obtain ⟨s₁, hrun, hsize⟩ := adjust_run hgeneric hne
    obtain ⟨htuned, -⟩ := adjust_ok hlevel hv hrun
    obtain ⟨s', hrun', hsize'⟩ := ih (htuned.unlinked List.not_mem_nil hv) (by
      intro w hw
      obtain ⟨hlt, hgeneric, hne⟩ := hrest w hw
      refine ⟨hsize ▸ hlt, ?_, hne⟩
      rwa [Ne, htuned.generic_iff hlt List.not_mem_nil])
    exact ⟨s', bind_ok_iff.mpr ⟨(), s₁, hrun, hrun'⟩, hsize'.trans hsize⟩

/-- A variable is bound to a type in which neither it nor a quantified variable occurs. -/
theorem bind_run (hv : ∀ w, s.state v ≠ .linked w) (hleveled : (s.state v).Leveled)
    (hgeneric : s.state v ≠ .generic) (ht : s.Resolvable t) (hoccurs : ¬ s.Reach t v)
    (hcalm : ∀ u, s.Reach t u → s.state u ≠ .generic) :
    ∃ s', bind v t s = (.ok (), s') ∧ Binds v t s s' ∧ s'.size = s.size := by
  obtain ⟨s₁, hrun, hsize⟩ := forM_adjust_run t (s.reach t) (hleveled.level hv hgeneric) hv (by
      intro u hu
      have hreach := reach_of_mem_reachAt hu
      refine ⟨ht.reach hreach, hcalm u hreach, ?_⟩
      rintro rfl
      exact hoccurs hreach)
  have hbind : bind v t s = (.ok (), s₁.link v t) := by
    unfold bind
    refine bind_ok_iff.mpr ⟨s, s, rfl, ?_⟩
    have hquantified : (s.state v).isGeneric = false := by
      cases hstate : s.state v with
      | generic => exact absurd hstate hgeneric
      | _ => rfl
    rw [hquantified]
    exact bind_ok_iff.mpr ⟨(), s₁, hrun, rfl⟩
  refine ⟨_, hbind, (bind_ok hv hleveled ht hbind).1, ?_⟩
  rw [link, size_setState, size_record, hsize]

/-! ## Allocating -/

theorem lift_ok_iff {x : StoreM β} {b : β} :
    (liftM x : UnifyM β) s = (.ok b, s') ↔ x s = (b, s') := by
  show ((Except.ok (x s).1 : Except UnifyError β), (x s).2) = (.ok b, s') ↔ _
  rw [Prod.mk.injEq, Except.ok.injEq, Prod.ext_iff]

theorem state_push (s : Store) (c : Cell) (nextId : Nat) (recent : List Var) (u : Var) :
    Store.state { s with cells := s.cells.push c, nextId := nextId, recent := recent } u =
      if u = s.size then c.state else s.state u := by
  unfold state cell size
  by_cases hu : u = s.cells.size
  · subst hu
    simp
  · simp [hu, Array.getElem?_push]

theorem fresh_tuned (level : Int) (s : Store) : Tuned [] s (Ty.fresh level s).2 := by
  refine ⟨?_, ?_⟩
  · show s.size ≤ (fresh level s).2.size
    exact Nat.le_trans (Nat.le_succ _) (Nat.le_of_eq (Array.size_push _).symm)
  · intro u hu _
    refine Or.inl ?_
    show (fresh level s).2.state u = s.state u
    rw [fresh, state_push, if_neg (Nat.ne_of_lt hu)]

/-- A fresh variable is a new one at the given level. -/
theorem fresh_run (hlevel : Level.Valid level) (h : Ty.fresh level s = (t, s')) :
    t = .var s.size ∧ Tuned [] s s' ∧ s'.size = s.size + 1 ∧ s'.state s.size = .unbound level := by
  cases h
  have hstate : ∀ u, (fresh level s).2.state u =
      if u = s.size then .unbound level else s.state u := by
    intro u
    show Store.state _ u = _
    rw [fresh, state_push, hlevel.ofInt, hlevel.atLevel]
  exact ⟨rfl, fresh_tuned level s, Array.size_push _, (hstate s.size).trans (if_pos rfl)⟩

/-- A new variable has no link, at whatever level above that of bound variables. -/
theorem fresh_open (hlow : Level.linked < level) (hhigh : level ≤ Level.generic) (s : Store) :
    ((Ty.fresh level s).2.state s.size).Leveled ∧
      ∀ t, (Ty.fresh level s).2.state s.size ≠ .linked t := by
  have hstate : (Ty.fresh level s).2.state s.size = .atLevel (Level.ofInt level) := by
    show (fresh level s).2.state s.size = _
    rw [fresh, state_push, if_pos rfl]
  by_cases hgeneric : level = Level.generic
  · subst hgeneric
    have hgeneric : VarState.atLevel (Level.ofInt Level.generic) = .generic := by decide
    rw [hstate, hgeneric]
    exact ⟨trivial, nofun⟩
  · have hvalid : Level.Valid level := ⟨hlow, by omega⟩
    rw [hstate, hvalid.ofInt, hvalid.atLevel]
    exact ⟨hvalid, nofun⟩

/-- Fields are put before a row, in a node of their own if there are any. -/
theorem extendRow_run {ls : LabelMap Ty} {r : Ty} (h : Ty.extendRow ls r s = (t, s')) :
    Tuned [] s s' ∧ s'.size = s.size ∧ (ls = [] ∧ t = r ∨ ∃ m, t = .rowExtend m ls r) := by
  unfold Ty.extendRow at h
  split at h
  · rename_i hempty
    cases h
    exact ⟨.refl s, rfl, Or.inl ⟨List.isEmpty_iff.mp hempty, rfl⟩⟩
  · cases h
    exact ⟨⟨Nat.le_refl _, fun _ _ _ => Or.inl rfl⟩, rfl, Or.inr ⟨_, rfl⟩⟩

end Store

end Typecase
