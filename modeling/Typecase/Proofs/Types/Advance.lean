import Typecase.Proofs.Types.Bind
set_option autoImplicit false

/-!
# How the store advances

Whatever is done to a store, the unbound variables that are met from a type never rise: each of
them stands at the level of a variable that was met before, or lower.  This needs no assumption
on the types beyond that their variables exist.
-/

namespace Typecase

namespace Store

variable {s s' s'' : Store} {x t : Ty} {u v w : Var} {n l k : Int} {vs : Finset Var}

/-! ## Variables that are met are reached -/

/-- `w` is met from a type on a way along links that follows none of `vs`. -/
inductive Avoids (s : Store) (vs : Finset Var) : Ty → Var → Prop
  | here {t : Ty} {w : Var} : w ∈ t.vars → Avoids s vs t w
  | step {t u : Ty} {v w : Var} : v ∈ t.vars → v ∉ vs → s.state v = .linked u →
      Avoids s vs u w → Avoids s vs t w

theorem Reach.avoids (h : s.Reach x w) : s.Avoids ∅ x w := by
  induction h with
  | here hmem => exact .here hmem
  | step hmem hlink _ ih => exact .step hmem (Finset.notMem_empty _) hlink ih

/-- From its last visit on, a way avoids a variable. -/
theorem Avoids.last_visit (h : s.Avoids vs x w) (hv : s.state v = .linked t) :
    s.Avoids (insert v vs) x w ∨ s.Avoids (insert v vs) t w := by
  induction h with
  | here hmem => exact Or.inl (.here hmem)
  | @step x u y w hmem hnot hlink _ ih =>
    rcases ih with hrest | hlast
    · by_cases hy : y = v
      · subst hy
        rw [hv] at hlink
        cases hlink
        exact Or.inr hrest
      · refine Or.inl (.step hmem ?_ hlink hrest)
        rw [Finset.mem_insert, not_or]
        exact ⟨hy, hnot⟩
    · exact Or.inr hlast

theorem state_of_size_le (h : s.size ≤ v) : s.state v = .linked .lost := by
  unfold state cell
  rw [Array.getD_eq_getD_getElem?, Array.getElem?_eq_none h]
  rfl

theorem Avoids.lt_size (h : s.Avoids vs t w) (hv : s.state v = .linked t) : v < s.size := by
  by_contra hlt
  have hlost := state_of_size_le (Nat.not_lt.mp hlt)
  rw [hv] at hlost
  cases hlost
  cases h with
  | here hmem => cases hmem
  | step hmem => cases hmem

theorem Avoids.mem_reachAt {k : Nat} (h : s.Avoids vs x w) (hw : ∀ t, s.state w ≠ .linked t)
    (hvs : vs ⊆ Finset.range s.size) (hcard : s.size ≤ k + vs.card) : w ∈ s.reachAt k x := by
  induction k generalizing vs x with
  | zero =>
    cases h with
    | here hmem => exact hmem
    | @step _ t v _ _ hnot hlink hrest =>
      -- no variable is left to pass through
      have hall : vs = Finset.range s.size := by
        refine Finset.eq_of_subset_of_card_le hvs ?_
        rw [Finset.card_range]
        omega
      rw [hall, Finset.mem_range] at hnot
      exact absurd (hrest.lt_size hlink) hnot
  | succ k ih =>
    rw [reachAt, List.mem_flatMap]
    cases h with
    | here hmem =>
      refine ⟨w, hmem, ?_⟩
      cases hstate : s.state w with
      | linked t => exact absurd hstate (hw t)
      | _ => exact List.mem_singleton.mpr rfl
    | @step _ t v _ hmem hnot hlink hrest =>
      refine ⟨v, hmem, ?_⟩
      rw [hlink]
      have hlt := hrest.lt_size hlink
      have hlast : s.Avoids (insert v vs) t w := by
        rcases hrest.last_visit hlink with hlast | hlast <;> exact hlast
      refine ih hlast ?_ ?_
      · exact Finset.insert_subset (Finset.mem_range.mpr hlt) hvs
      · rw [Finset.card_insert_of_notMem hnot]
        omega

/-- Every variable without a link that is met from a type is reached, even if links run in a
circle. -/
theorem Reach.mem_reach (h : s.Reach x w) (hw : ∀ t, s.state w ≠ .linked t) : w ∈ s.reach x :=
  h.avoids.mem_reachAt hw (Finset.empty_subset _) (by simp)

theorem Reach.trans (h : s.Reach x v) (hw : s.Reach (.var v) w) : s.Reach x w := by
  cases hw with
  | here hmem =>
    rw [Ty.vars, List.mem_singleton] at hmem
    exact hmem ▸ h
  | step hmem hlink hrest =>
    rw [Ty.vars, List.mem_singleton] at hmem
    subst hmem
    induction h with
    | here hmem => exact .step hmem hlink hrest
    | step hmem' hlink' _ ih => exact .step hmem' hlink' (ih hlink)

theorem Reach.source (h : s.Reach x w) : ∃ v ∈ x.vars, s.Reach (.var v) w := by
  cases h with
  | here hmem => exact ⟨w, hmem, .here (by simp [Ty.vars])⟩
  | step hmem hlink hrest => exact ⟨_, hmem, .step (by simp [Ty.vars]) hlink hrest⟩

/-! ## Regular stores -/

/-- How many quantified variables the prelude has. -/
def reserved : Nat := 7

/-- How many variables may be allocated before a 32-bit number is given twice.  Every prelude uses
the numbers from `-reserved` to `-1`. -/
def capacity : Nat := 4294967296 - reserved

/-- The variables have been numbered one after the other, in 32-bit integers.  Only quantified
variables have negative numbers, the same ones in every prelude. -/
structure NumberedBy (number : Var → Int) (s : Store) : Prop where
  id : ∀ v < s.size, s.id v = Level.ofInt (number v)
  range : ∀ v < s.size, -reserved ≤ number v ∧ number v < s.nextId
  sign : ∀ v < s.size, s.state v = .generic ∨ 0 ≤ number v
  inj : ∀ u v, u < s.size → v < s.size → 0 ≤ number u → number u = number v → u = v

def Numbered (s : Store) : Prop := ∃ number, s.NumberedBy number

/-- Variables keep their numbers, and none of those that are new is negative. -/
def KeepsNumbers (s s' : Store) : Prop :=
  ∀ number, s.NumberedBy number → ∃ number', s'.NumberedBy number' ∧
    (∀ v < s.size, number' v = number v) ∧ ∀ v, s.size ≤ v → v < s'.size → 0 ≤ number' v

/-- As long as the capacity is not exceeded, a variable that is not quantified shares its number
with no other. -/
theorem Numbered.id_inj (h : s.Numbered) (hcap : s.nextId ≤ capacity) (hu : u < s.size)
    (hgeneric : s.state u ≠ .generic) (hv : v < s.size) (heq : s.id u = s.id v) : u = v := by
  obtain ⟨number, h⟩ := h
  obtain ⟨hlowu, hhighu⟩ := h.range u hu
  obtain ⟨hlowv, hhighv⟩ := h.range v hv
  refine h.inj u v hu hv ((h.sign u hu).resolve_left hgeneric) ?_
  rw [h.id u hu, h.id v hv] at heq
  unfold Level.ofInt at heq
  unfold capacity reserved at *
  have hmod := Int.bmod_eq_bmod_iff_bmod_sub_eq_zero.mp heq
  have hdvd := Int.dvd_of_bmod_eq_zero hmod
  omega

theorem KeepsNumbers.refl (s : Store) : KeepsNumbers s s :=
  fun number h => ⟨number, h, fun _ _ => rfl, fun _ hle hlt => absurd hlt (Nat.not_lt.mpr hle)⟩

theorem KeepsNumbers.trans (h : KeepsNumbers s s') (h' : KeepsNumbers s' s'')
    (hsize : s.size ≤ s'.size) : KeepsNumbers s s'' := by
  intro number hnumber
  obtain ⟨number', hnumber', hold, hnew⟩ := h number hnumber
  obtain ⟨number'', hnumber'', hold', hnew'⟩ := h' number' hnumber'
  refine ⟨number'', hnumber'', ?_, ?_⟩
  · exact fun v hv => (hold' v (Nat.lt_of_lt_of_le hv hsize)).trans (hold v hv)
  · intro v hle hlt
    by_cases hv : v < s'.size
    · exact hold' v hv ▸ hnew v hle hv
    · exact hnew' v (Nat.not_lt.mp hv) hlt

theorem KeepsNumbers.numbered (h : KeepsNumbers s s') (hs : s.Numbered) : s'.Numbered := by
  obtain ⟨number, hnumber⟩ := hs
  obtain ⟨number', hnumber', -⟩ := h number hnumber
  exact ⟨number', hnumber'⟩

/-- All variables of a type exist. -/
def Bounded (s : Store) (x : Ty) : Prop := ∀ v ∈ x.vars, v < s.size

/-- Links lead to variables that exist, and no variable is unbound at the level of bound ones. -/
structure Orderly (s : Store) : Prop where
  closed : ∀ v t, s.state v = .linked t → s.Bounded t
  leveled : ∀ v l, s.state v = .unbound l → Level.linked < l

/-- What holds of every store that arises. -/
structure Regular (s : Store) : Prop where
  closed : ∀ v t, s.state v = .linked t → s.Bounded t
  leveled : ∀ v l, s.state v = .unbound l → Level.linked < l
  numbered : s.Numbered

theorem Regular.orderly (hs : s.Regular) : s.Orderly := ⟨hs.closed, hs.leveled⟩

/-- A variable exists, and the unbound ones that are met from it are at level `n` or lower. -/
def WithinVar (s : Store) (n : Int) (v : Var) : Prop :=
  v < s.size ∧ ∀ u l, s.Reach (.var v) u → s.state u = .unbound l → l ≤ n

/-- All variables of a type lie within level `n`. -/
def Within (s : Store) (n : Int) (x : Ty) : Prop := ∀ v ∈ x.vars, s.WithinVar n v

theorem Within.bounded (h : s.Within n x) : s.Bounded x := fun v hv => (h v hv).1

theorem WithinVar.mono {m : Int} (h : s.WithinVar n v) (hle : n ≤ m) : s.WithinVar m v :=
  ⟨h.1, fun u l hu hl => Int.le_trans (h.2 u l hu hl) hle⟩

theorem Within.follow (hs : s.Orderly) (h : s.Within n x) (hv : v ∈ x.vars)
    (ht : s.state v = .linked t) : s.Within n t := by
  intro u hu
  refine ⟨hs.closed v t ht u hu, ?_⟩
  intro w l hw hl
  exact (h v hv).2 w l (.step (by simp [Ty.vars]) ht (Reach.trans (.here hu) hw)) hl

theorem Within.leads (hs : s.Orderly) (h : s.Within n x) (hlead : s.Leads x t) : s.Within n t := by
  induction hlead with
  | done => exact h
  | link hv _ ih => exact ih (h.follow hs (by simp [Ty.vars]) hv)

theorem Bounded.leads (hs : s.Orderly) (h : s.Bounded x) (hlead : s.Leads x t) : s.Bounded t := by
  induction hlead with
  | done => exact h
  | link hv _ ih => exact ih (hs.closed _ _ hv)

/-! ## Moving and advancing -/

/-- `s'` came after `s`: no unbound variable that is met from a variable of `s` has risen. -/
structure Moves (s s' : Store) : Prop where
  orderly : s'.Orderly
  size_le : s.size ≤ s'.size
  nextId_le : s.nextId ≤ s'.nextId
  numbers : KeepsNumbers s s'
  idle : s.renames = [] → s'.renames = []
  levels : ∀ v w l, v < s.size → s'.Reach (.var v) w → s'.state w = .unbound l →
    ∃ u k, s.Reach (.var v) u ∧ s.state u = .unbound k ∧ l ≤ k

theorem Moves.refl (hs : s.Orderly) : Moves s s where
  orderly := hs
  size_le := Nat.le_refl _
  nextId_le := Nat.le_refl _
  numbers := .refl s
  idle := fun h => h
  levels := fun _ w l _ hw hl => ⟨w, l, hw, hl, Int.le_refl l⟩

theorem Moves.trans (h : Moves s s') (h' : Moves s' s'') : Moves s s'' where
  orderly := h'.orderly
  size_le := Nat.le_trans h.size_le h'.size_le
  nextId_le := Nat.le_trans h.nextId_le h'.nextId_le
  numbers := h.numbers.trans h'.numbers h.size_le
  idle := fun hs => h'.idle (h.idle hs)
  levels := by
    intro v w l hv hw hl
    obtain ⟨u', k', hu', hk', hle'⟩ :=
      h'.levels v w l (Nat.lt_of_lt_of_le hv h.size_le) hw hl
    obtain ⟨u, k, hu, hk, hle⟩ := h.levels v u' k' hv hu' hk'
    exact ⟨u, k, hu, hk, Int.le_trans hle' hle⟩

theorem Bounded.move (hx : s.Bounded x) (h : Moves s s') : s'.Bounded x :=
  fun v hv => Nat.lt_of_lt_of_le (hx v hv) h.size_le

theorem WithinVar.move (hv : s.WithinVar n v) (h : Moves s s') : s'.WithinVar n v := by
  obtain ⟨hlt, hlevel⟩ := hv
  refine ⟨Nat.lt_of_lt_of_le hlt h.size_le, ?_⟩
  intro w l hw hl
  obtain ⟨u, k, hu, hk, hle⟩ := h.levels v w l hlt hw hl
  exact Int.le_trans hle (hlevel u k hu hk)

theorem Within.move (hx : s.Within n x) (h : Moves s s') : s'.Within n x :=
  fun v hv => (hx v hv).move h

/-- `s'` is a regular store that came after `s`: no unbound variable that is met from a variable
of `s` has risen. -/
structure Advances (s s' : Store) : Prop extends Moves s s' where
  regular : s'.Regular

/-- A regular store stays one on every move. -/
theorem Moves.advances (h : Moves s s') (hs : s.Regular) : Advances s s' :=
  ⟨h, h.orderly.closed, h.orderly.leveled, h.numbers.numbered hs.numbered⟩

theorem Advances.refl (hs : s.Regular) : Advances s s := (Moves.refl hs.orderly).advances hs

theorem Advances.trans (h : Advances s s') (h' : Advances s' s'') : Advances s s'' :=
  ⟨h.toMoves.trans h'.toMoves, h'.regular⟩

theorem WithinVar.advance (hv : s.WithinVar n v) (h : Advances s s') : s'.WithinVar n v :=
  hv.move h.toMoves

theorem Within.advance (hx : s.Within n x) (h : Advances s s') : s'.Within n x := hx.move h.toMoves

/-! ## Lowering and quantifying -/

/-- A state that stays, or a variable that was unbound and is now lower, quantified or lost. -/
def VarState.Sinks (st st' : VarState) : Prop :=
  st' = st ∨ ∃ k, st = .unbound k ∧
    (st' = .generic ∨ st' = .linked .lost ∨ ∃ l ≤ k, Level.linked < l ∧ st' = .unbound l)

/-- Variables sink, and all else but marks is kept. -/
structure Lowered (s s' : Store) : Prop where
  size : s'.size = s.size
  nextId : s'.nextId = s.nextId
  idle : s.renames = [] → s'.renames = []
  id : ∀ v, s'.id v = s.id v
  state : ∀ v, VarState.Sinks (s.state v) (s'.state v)

theorem Lowered.refl (s : Store) : Lowered s s :=
  ⟨rfl, rfl, fun h => h, fun _ => rfl, fun _ => Or.inl rfl⟩

theorem Lowered.trans (h : Lowered s s') (h' : Lowered s' s'') : Lowered s s'' where
  size := h'.size.trans h.size
  nextId := h'.nextId.trans h.nextId
  idle := fun hs => h'.idle (h.idle hs)
  id := fun v => (h'.id v).trans (h.id v)
  state := by
    intro v
    rcases h'.state v with heq | ⟨k', hk', hcase⟩
    · rw [heq]
      exact h.state v
    · rcases h.state v with heq | ⟨k, hk, hcase'⟩
      · rw [← heq]
        exact Or.inr ⟨k', hk', hcase⟩
      · refine Or.inr ⟨k, hk, ?_⟩
        rcases hcase' with hgeneric | hlost | ⟨l, hle, -, hl⟩
        · rw [hgeneric] at hk'
          cases hk'
        · rw [hlost] at hk'
          cases hk'
        · rw [hl] at hk'
          cases hk'
          rcases hcase with hgeneric | hlost | ⟨l', hle', hlow, hl'⟩
          · exact Or.inl hgeneric
          · exact Or.inr (Or.inl hlost)
          · exact Or.inr (Or.inr ⟨l', Int.le_trans hle' hle, hlow, hl'⟩)

theorem Lowered.linked (h : Lowered s s') (ht : s'.state v = .linked t) :
    s.state v = .linked t ∨ t = .lost := by
  rcases h.state v with heq | ⟨k, -, hgeneric | hlost | ⟨l, -, -, hl⟩⟩
  · exact Or.inl (heq ▸ ht)
  · rw [hgeneric] at ht
    cases ht
  · rw [hlost] at ht
    cases ht
    exact Or.inr rfl
  · rw [hl] at ht
    cases ht

theorem Lowered.unbound (h : Lowered s s') (hl : s'.state v = .unbound l) :
    ∃ k, s.state v = .unbound k ∧ l ≤ k := by
  rcases h.state v with heq | ⟨k, hk, hgeneric | hlost | ⟨l', hle, -, hl'⟩⟩
  · exact ⟨l, heq ▸ hl, Int.le_refl l⟩
  · rw [hgeneric] at hl
    cases hl
  · rw [hlost] at hl
    cases hl
  · rw [hl'] at hl
    cases hl
    exact ⟨k, hk, hle⟩

theorem Lowered.generic (h : Lowered s s') (hv : s.state v = .generic) : s'.state v = .generic := by
  rcases h.state v with heq | ⟨k, hk, -⟩
  · exact heq.trans hv
  · rw [hv] at hk
    cases hk

theorem not_reach_lost : ¬ s.Reach .lost w := by
  intro h
  cases h with
  | here hmem => cases hmem
  | step hmem => cases hmem

theorem Lowered.reach (h : Lowered s s') (hw : s'.Reach x w) : s.Reach x w := by
  induction hw with
  | here hmem => exact .here hmem
  | step hmem hlink hrest ih =>
    rcases h.linked hlink with hlink | rfl
    · exact .step hmem hlink ih
    · exact absurd hrest not_reach_lost

theorem keepsNumbers_of_id (hsize : s'.size = s.size) (hnext : s'.nextId = s.nextId)
    (hid : ∀ v, s'.id v = s.id v) (hgeneric : ∀ v, s.state v = .generic → s'.state v = .generic) :
    KeepsNumbers s s' := by
  intro number h
  refine ⟨number, ⟨?_, ?_, ?_, ?_⟩, fun _ _ => rfl, ?_⟩
  · exact fun v hv => (hid v).trans (h.id v (hsize ▸ hv))
  · exact fun v hv => hnext ▸ h.range v (hsize ▸ hv)
  · exact fun v hv => (h.sign v (hsize ▸ hv)).imp_left (hgeneric v)
  · exact fun u v hu hv => h.inj u v (hsize ▸ hu) (hsize ▸ hv)
  · exact fun v hle hlt => absurd (hsize ▸ hlt) (Nat.not_lt.mpr hle)

theorem Lowered.moves (h : Lowered s s') (hs : s.Orderly) : Moves s s' where
  orderly := by
    refine ⟨?_, ?_⟩
    · intro v t ht
      rcases h.linked ht with hlink | rfl
      · intro u hu
        rw [h.size]
        exact hs.closed v t hlink u hu
      · intro u hu
        cases hu
    · intro v l hl
      rcases h.state v with heq | ⟨k, -, hgeneric | hlost | ⟨l', -, hlow, hl'⟩⟩
      · exact hs.leveled v l (heq ▸ hl)
      · rw [hgeneric] at hl
        cases hl
      · rw [hlost] at hl
        cases hl
      · rw [hl'] at hl
        cases hl
        exact hlow
  size_le := Nat.le_of_eq h.size.symm
  nextId_le := Nat.le_of_eq h.nextId.symm
  numbers := keepsNumbers_of_id h.size h.nextId h.id fun _ => h.generic
  idle := h.idle
  levels := by
    intro v w l _ hw hl
    obtain ⟨k, hk, hle⟩ := h.unbound hl
    exact ⟨w, k, h.reach hw, hk, hle⟩

theorem Lowered.advances (h : Lowered s s') (hs : s.Regular) : Advances s s' :=
  (h.moves hs.orderly).advances hs

/-- Giving an unbound variable a lower level. -/
theorem sinks_atLevel (hlow : Level.linked ≤ l) (hle : l ≤ k) :
    VarState.Sinks (.unbound k) (.atLevel l) := by
  refine Or.inr ⟨k, rfl, ?_⟩
  unfold VarState.atLevel
  split
  · exact Or.inl rfl
  · split
    · exact Or.inr (Or.inl rfl)
    · exact Or.inr (Or.inr ⟨l, hle, by omega, rfl⟩)

theorem unbound_of_atLevel (h : VarState.atLevel l = .unbound k) : k = l := by
  unfold VarState.atLevel at h
  split at h
  · cases h
  · split at h
    · cases h
    · cases h
      rfl

theorem id_setState (s : Store) (v : Var) (st : VarState) (u : Var) :
    (s.setState v st).id u = s.id u := by
  unfold setState setCell id cell
  by_cases hu : u = v
  · subst hu
    by_cases hlt : u < s.cells.size
    · simp [hlt]
    · simp [hlt]
  · simp [Ne.symm hu]

/-- Changing the state of one variable. -/
theorem lowered_setState {st : VarState} (h : VarState.Sinks (s.state v) st) :
    Lowered s (s.setState v st) where
  size := size_setState s v st
  nextId := rfl
  idle := fun h => h
  id := id_setState s v st
  state := by
    intro u
    rw [state_setState]
    split
    · rename_i hu
      exact hu.1 ▸ h
    · exact Or.inl rfl

theorem lowered_record (s : Store) (v : Var) : Lowered s (s.record v) := by
  unfold record
  split
  · exact ⟨rfl, rfl, fun h => h, fun _ => rfl, fun _ => Or.inl rfl⟩
  · exact .refl s

/-! ## Allocating -/

section Fresh

variable (level : Int) (s)

theorem state_fresh (u : Var) : (Ty.fresh level s).2.state u =
    if u = s.size then .atLevel (Level.ofInt level) else s.state u :=
  state_push s _ _ _ u

theorem size_fresh : (Ty.fresh level s).2.size = s.size + 1 := Array.size_push _

theorem cell_fresh (hu : u ≠ s.size) : (Ty.fresh level s).2.cell u = s.cell u := by
  show Store.cell (fresh level s).2 u = _
  unfold fresh cell size at *
  simp [Array.getElem?_push, hu]

theorem id_fresh : (Ty.fresh level s).2.id s.size = Level.ofInt s.nextId := by
  show Store.id (fresh level s).2 s.size = _
  unfold fresh id cell size
  simp

end Fresh

/-- Variables that exist lead to the same variables in a store that keeps them. -/
theorem Reach.kept (hs : s.Orderly) (hkept : ∀ u < s.size, s'.state u = s.state u)
    (hx : s.Bounded x) (hw : s'.Reach x w) : s.Reach x w ∧ w < s.size := by
  induction hw with
  | here hmem => exact ⟨.here hmem, hx _ hmem⟩
  | step hmem hlink _ ih =>
    rw [hkept _ (hx _ hmem)] at hlink
    obtain ⟨hreach, hlt⟩ := ih (hs.closed _ _ hlink)
    exact ⟨.step hmem hlink hreach, hlt⟩

theorem bounded_var : s.Bounded (.var v) ↔ v < s.size := by
  simp [Bounded, Ty.vars]

theorem linked_lost_of_atLevel (h : VarState.atLevel k = .linked t) : t = .lost := by
  unfold VarState.atLevel at h
  split at h
  · cases h
  · split at h
    · cases h
      rfl
    · cases h

theorem leveled_of_atLevel_ofInt (h : VarState.atLevel (Level.ofInt k) = .unbound l) :
    Level.linked < l := by
  have heq := unbound_of_atLevel h
  subst heq
  have hne : Level.ofInt k ≠ Level.linked := by
    intro heq
    rw [heq] at h
    cases h
  have hlow : -2147483648 ≤ Level.ofInt k := by
    unfold Level.ofInt
    have := @Int.le_bmod k 4294967296 (by decide)
    omega
  unfold Level.linked at hne ⊢
  omega

/-- A new variable has the next number. -/
theorem keepsNumbers_fresh (s : Store) (level : Int) : KeepsNumbers s (Ty.fresh level s).2 := by
  intro number h
  have hnext : (Ty.fresh level s).2.nextId = s.nextId + 1 := rfl
  let number' : Var → Int := fun v => if v = s.size then s.nextId else number v
  have hnew : number' s.size = s.nextId := if_pos rfl
  have hold : ∀ v < s.size, number' v = number v := fun v hv => if_neg (Nat.ne_of_lt hv)
  have hcases : ∀ v < (Ty.fresh level s).2.size, v < s.size ∨ v = s.size := by
    intro v hv
    rw [size_fresh] at hv
    exact Nat.lt_succ_iff_lt_or_eq.mp hv
  have hcell : ∀ v < s.size, (Ty.fresh level s).2.cell v = s.cell v :=
    fun v hv => cell_fresh s level (Nat.ne_of_lt hv)
  refine ⟨number', ⟨?_, ?_, ?_, ?_⟩, hold, ?_⟩
  · intro v hv
    rcases hcases v hv with hv | rfl
    · rw [hold v hv, ← h.id v hv]
      exact congrArg Cell.id (hcell v hv)
    · rw [hnew, id_fresh]
  · intro v hv
    rw [hnext]
    rcases hcases v hv with hv | rfl
    · have hrange := h.range v hv
      rw [hold v hv]
      omega
    · rw [hnew]
      omega
  · intro v hv
    rcases hcases v hv with hv | rfl
    · rw [hold v hv, Store.state, hcell v hv]
      exact h.sign v hv
    · exact Or.inr (hnew ▸ Int.natCast_nonneg _)
  · intro u v hu hv hsign heq
    rcases hcases u hu with hu | rfl <;> rcases hcases v hv with hv | rfl
    · rw [hold u hu] at hsign heq
      rw [hold v hv] at heq
      exact h.inj u v hu hv hsign heq
    · rw [hold u hu, hnew] at heq
      exact absurd heq (Int.ne_of_lt (h.range u hu).2)
    · rw [hold v hv, hnew] at heq
      exact absurd heq.symm (Int.ne_of_lt (h.range v hv).2)
    · rfl
  · intro v hle hlt
    obtain rfl : v = s.size := (hcases v hlt).resolve_left (Nat.not_lt.mpr hle)
    exact hnew ▸ Int.natCast_nonneg _

/-- A store stays orderly if variables are added at some level. -/
theorem Orderly.grow (hs : s.Orderly) (hle : s.size ≤ s'.size)
    (hold : ∀ v < s.size, s'.state v = s.state v)
    (hnew : ∀ v, s.size ≤ v → v < s'.size → ∃ l, s'.state v = .atLevel (Level.ofInt l)) :
    s'.Orderly where
  closed := by
    intro v t ht u hu
    by_cases hv : v < s.size
    · rw [hold v hv] at ht
      exact Nat.lt_of_lt_of_le (hs.closed v t ht u hu) hle
    · by_cases hlt : v < s'.size
      · obtain ⟨l, hl⟩ := hnew v (Nat.not_lt.mp hv) hlt
        rw [hl] at ht
        rw [linked_lost_of_atLevel ht] at hu
        cases hu
      · rw [state_of_size_le (Nat.not_lt.mp hlt)] at ht
        cases ht
        cases hu
  leveled := by
    intro v l hl
    by_cases hv : v < s.size
    · rw [hold v hv] at hl
      exact hs.leveled v l hl
    · obtain ⟨k, hk⟩ := hnew v (Nat.not_lt.mp hv) (lt_size_of_unlinked (by simp [hl]))
      rw [hk] at hl
      exact leveled_of_atLevel_ofInt hl

/-- New variables are allocated, and the states of all others are kept. -/
structure Grows (s s' : Store) : Prop where
  size_le : s.size ≤ s'.size
  speculative : s'.speculative = s.speculative
  trail : s'.trail = s.trail
  idle : s.renames = [] → s'.renames = []
  nextId_le : s.nextId ≤ s'.nextId
  numbers : KeepsNumbers s s'
  old : ∀ v < s.size, s'.state v = s.state v
  new : ∀ v, s.size ≤ v → v < s'.size → ∃ l, s'.state v = .atLevel (Level.ofInt l)

theorem Grows.moves (h : Grows s s') (hs : s.Orderly) : Moves s s' where
  orderly := hs.grow h.size_le h.old h.new
  size_le := h.size_le
  nextId_le := h.nextId_le
  numbers := h.numbers
  idle := h.idle
  levels := by
    intro v w l hv hw hl
    obtain ⟨hreach, hlt⟩ := hw.kept hs h.old (bounded_var.mpr hv)
    rw [h.old w hlt] at hl
    exact ⟨w, l, hreach, hl, Int.le_refl l⟩

theorem fresh_grows (s : Store) (level : Int) : Grows s (Ty.fresh level s).2 where
  size_le := by
    rw [size_fresh]
    exact Nat.le_succ _
  speculative := rfl
  trail := rfl
  idle := fun h => h
  nextId_le := Nat.le_succ s.nextId
  numbers := keepsNumbers_fresh s level
  old := fun v hv => by rw [state_fresh, if_neg (Nat.ne_of_lt hv)]
  new := by
    intro v hv hlt
    rw [size_fresh] at hlt
    refine ⟨level, ?_⟩
    rw [state_fresh, if_pos (Nat.le_antisymm (Nat.le_of_lt_succ hlt) hv)]

theorem fresh_moves (hs : s.Orderly) (level : Int) : Moves s (Ty.fresh level s).2 :=
  (fresh_grows s level).moves hs

theorem fresh_advances (hs : s.Regular) (level : Int) : Advances s (Ty.fresh level s).2 :=
  (fresh_moves hs.orderly level).advances hs

theorem within_var : s.Within n (.var v) ↔ s.WithinVar n v := by
  simp [Within, Ty.vars]

theorem withinVar_list {ts : List Ty} :
    (∀ v ∈ Ty.varsList ts, s.WithinVar n v) ↔ ∀ t ∈ ts, s.Within n t := by
  simp only [Ty.mem_varsList, Within]
  exact ⟨fun h t ht v hv => h v ⟨t, ht, hv⟩, fun h v ⟨t, ht, hv⟩ => h t ht v hv⟩

/-- A variable lies within the level that it was allocated at. -/
theorem withinVar_atLevel (hlevel : 0 ≤ l) (hle : l ≤ n) (hv : v < s.size)
    (hstate : s.state v = .atLevel (Level.ofInt l)) : s.WithinVar n v := by
  refine ⟨hv, ?_⟩
  intro u k hu hk
  cases hu with
  | here hmem =>
    rw [Ty.vars, List.mem_singleton] at hmem
    rw [hmem, hstate] at hk
    rw [unbound_of_atLevel hk]
    unfold Level.ofInt
    rw [Int.bmod_def]
    split <;> omega
  | step hmem hlink hrest =>
    rw [Ty.vars, List.mem_singleton] at hmem
    rw [hmem, hstate] at hlink
    rw [linked_lost_of_atLevel hlink] at hrest
    exact absurd hrest not_reach_lost

theorem withinVar_fresh (hlevel : 0 ≤ l) (hle : l ≤ n) (s : Store) :
    (Ty.fresh l s).2.WithinVar n s.size :=
  withinVar_atLevel hlevel hle (by rw [size_fresh]; exact Nat.lt_succ_self _)
    (by rw [state_fresh, if_pos rfl])

end Store

end Typecase
