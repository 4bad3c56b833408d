import Typecase.Types.Unify
import Mathlib.Data.Finset.Card
import Mathlib.Data.Finset.Range
set_option autoImplicit false

/-!
# Types with a resolved form

All walks along links are cut off at the number of variables.  A type is resolvable if
following links from it comes to an end, at variables that exist.  No variable is then met
twice on the way, so the cut never shows: the walks satisfy the equations that they would
satisfy without it.
-/

namespace Typecase

namespace Ty

/-- Induction on a type, with a hypothesis for each of its parts. -/
theorem induction {P : Ty → Prop} (var : ∀ v, P (.var v))
    (con : ∀ m x ts, (∀ t ∈ ts, P t) → P (.con m x ts))
    (arrow : ∀ m a r, P a → P r → P (.arrow m a r))
    (tuple : ∀ m ts, (∀ t ∈ ts, P t) → P (.tuple m ts)) (record : ∀ m r, P r → P (.record m r))
    (rowExtend : ∀ m ls r, (∀ t ∈ ls.map (·.2), P t) → P r → P (.rowExtend m ls r))
    (rowEmpty : P .rowEmpty) (lost : P .lost) (t : Ty) : P t :=
  @Ty.rec P (fun ts => ∀ t ∈ ts, P t) (fun fs => ∀ t ∈ fs.map (·.2), P t) (fun f => P f.2) var con
    arrow tuple record rowExtend rowEmpty lost nofun
    (fun _ _ ht hts => List.forall_mem_cons.mpr ⟨ht, hts⟩) nofun
    (fun _ _ ht hts => List.forall_mem_cons.mpr ⟨ht, hts⟩) (fun _ _ ht => ht) t

theorem varsList_eq (ts : List Ty) : varsList ts = ts.flatMap vars := by
  induction ts with
  | nil => rfl
  | cons t ts ih => rw [varsList, ih, List.flatMap_cons]

theorem mem_varsList {ts : List Ty} {v : Var} : v ∈ varsList ts ↔ ∃ t ∈ ts, v ∈ t.vars := by
  rw [varsList_eq, List.mem_flatMap]

theorem varsFields_eq (fs : List (String × Ty)) : varsFields fs = varsList (fs.map (·.2)) := by
  induction fs with
  | nil => rfl
  | cons e fs ih => simp [varsFields, varsList, ih]

theorem forall_mem_varsList {P : Var → Prop} {ts : List Ty} :
    (∀ v ∈ varsList ts, P v) ↔ ∀ t ∈ ts, ∀ v ∈ t.vars, P v := by
  rw [varsList_eq, List.forall_mem_flatMap]

theorem mem_varsFields {fs : List (String × Ty)} {v : Var} :
    v ∈ varsFields fs ↔ ∃ e ∈ fs, v ∈ e.2.vars := by
  rw [varsFields_eq, mem_varsList]
  simp only [List.mem_map, exists_exists_and_eq_and]

end Ty

namespace Store

/-- Following links from a type comes to an end, at variables of the store. -/
inductive Resolvable (s : Store) : Ty → Prop
  | intro {t : Ty} : (∀ v ∈ t.vars, v < s.size) →
      (∀ v ∈ t.vars, ∀ u, s.state v = .linked u → Resolvable s u) → Resolvable s t

/-- A variable is met on the way along links from a type. -/
inductive Reach (s : Store) : Ty → Var → Prop
  | here {t : Ty} {v : Var} : v ∈ t.vars → Reach s t v
  | step {t u : Ty} {v w : Var} : w ∈ t.vars → s.state w = .linked u → Reach s u v → Reach s t v

variable {s : Store} {t u : Ty} {v : Var} {n : Nat}

theorem Resolvable.bound (h : s.Resolvable t) (hv : v ∈ t.vars) : v < s.size := by
  cases h with
  | intro hbound _ => exact hbound v hv

theorem Resolvable.follow (h : s.Resolvable t) (hv : v ∈ t.vars) (hu : s.state v = .linked u) :
    s.Resolvable u := by
  cases h with
  | intro _ hlinks => exact hlinks v hv u hu

theorem Resolvable.link (h : s.Resolvable (.var v)) (hu : s.state v = .linked u) : s.Resolvable u :=
  h.follow (by simp [Ty.vars]) hu

/-- A type over variables of a resolvable type is resolvable. -/
theorem Resolvable.mono (h : s.Resolvable t) (hsub : u.vars ⊆ t.vars) : s.Resolvable u :=
  .intro (fun _ hv => h.bound (hsub hv)) (fun _ hv _ hu => h.follow (hsub hv) hu)

theorem Resolvable.lt (h : s.Resolvable (.var v)) : v < s.size :=
  h.bound (by simp [Ty.vars])

theorem Resolvable.tail {m : Mark} {ls : List (String × Ty)} {r : Ty}
    (h : s.Resolvable (.rowExtend m ls r)) : s.Resolvable r :=
  h.mono (by simp [Ty.vars])

theorem Reach.mono (h : s.Reach t v) (hsub : t.vars ⊆ u.vars) : s.Reach u v := by
  cases h with
  | here hv => exact .here (hsub hv)
  | step hw hlink hrest => exact .step (hsub hw) hlink hrest

theorem Reach.link {w : Var} (h : s.Reach t v) (hu : s.state v = .linked u) (hw : w ∈ u.vars) :
    s.Reach t w := by
  induction h with
  | here hv => exact .step hv hu (.here hw)
  | step hx hlink _ ih => exact .step hx hlink (ih hu)

/-- A variable is not met behind its own link. -/
theorem Resolvable.not_reach (h : s.Resolvable u) (hv : s.state v = .linked u) : ¬ s.Reach u v := by
  induction h generalizing v with
  | intro _ _ ih =>
    intro hreach
    cases hreach with
    | here hmem => exact ih v hmem _ hv hv (.here hmem)
    | @step _ t _ w hmem hlink hrest =>
      -- going round once more leads from behind the first link back to its variable
      exact ih w hmem t hlink hlink (hrest.link hv hmem)

theorem Resolvable.reach (h : s.Resolvable t) (hv : s.Reach t v) : v < s.size := by
  induction hv with
  | here hmem => exact h.bound hmem
  | step hmem hlink _ ih => exact ih (h.follow hmem hlink)

/-! ## Enough links -/

/-- At most `n` links are followed on every way from a type. -/
def Settled (s : Store) : Nat → Ty → Prop
  | 0, t => ∀ v ∈ t.vars, ∀ u, s.state v ≠ .linked u
  | n + 1, t => ∀ v ∈ t.vars, ∀ u, s.state v = .linked u → Settled s n u

theorem settled_card (h : s.Resolvable t) (vs : Finset Var)
    (hvs : ∀ v u, s.Reach t v → s.state v = .linked u → v ∈ vs) : s.Settled vs.card t := by
  induction h generalizing vs with
  | @intro t _ hlinks ih =>
    cases hcard : vs.card with
    | zero =>
      intro v hv u hu
      have hmem := hvs v u (.here hv) hu
      rw [Finset.card_eq_zero.mp hcard] at hmem
      exact absurd hmem (Finset.notMem_empty v)
    | succ n =>
      intro v hv u hu
      have hmem := hvs v u (.here hv) hu
      -- the variable itself is used up
      have hrest := ih v hv u hu (vs.erase v) (by
        intro w x hw hx
        refine Finset.mem_erase.mpr ⟨?_, hvs w x (.step hv hu hw) hx⟩
        rintro rfl
        exact (hlinks w hv u hu).not_reach hu hw)
      rwa [Finset.card_erase_of_mem hmem, hcard, Nat.add_sub_cancel] at hrest

/-- The number of variables bounds all ways from a resolvable type. -/
theorem Resolvable.settled (h : s.Resolvable t) : s.Settled s.size t := by
  have hcard := settled_card h (Finset.range s.size) fun v _ hv _ =>
    Finset.mem_range.mpr (h.reach hv)
  rwa [Finset.card_range] at hcard

/-! ## Heads -/

/-- A chain of links leads from one type to another. -/
inductive Leads (s : Store) : Ty → Ty → Prop
  | done {t : Ty} : Leads s t t
  | link {v : Var} {t u : Ty} : s.state v = .linked t → Leads s t u → Leads s (.var v) u

theorem headAt_leads (s : Store) (n : Nat) (t : Ty) : s.Leads t (s.headAt n t) := by
  induction n generalizing t with
  | zero =>
    rw [headAt.eq_def]
    exact .done
  | succ n ih =>
    cases t with
    | var v =>
      rw [headAt]
      cases hv : s.state v with
      | linked u => exact .link hv (ih u)
      | _ => exact .done
    | _ => exact .done

theorem head_leads (s : Store) (t : Ty) : s.Leads t (s.head t) := headAt_leads s s.size t

theorem Settled.headAt (h : s.Settled n t) (hv : s.headAt n t = .var v) :
    ∀ u, s.state v ≠ .linked u := by
  induction n generalizing t with
  | zero =>
    rw [headAt.eq_def] at hv
    have ht : t = .var v := by simpa using hv
    subst ht
    exact h v (by simp [Ty.vars])
  | succ n ih =>
    cases t with
    | var w =>
      rw [Store.headAt] at hv
      cases hw : s.state w with
      | linked u =>
        rw [hw] at hv
        exact ih (h w (by simp [Ty.vars]) u hw) hv
      | _ =>
        rw [hw] at hv
        cases hv
        simp [hw]
    | _ => cases hv

theorem Resolvable.head_unlinked (h : s.Resolvable t) (hv : s.head t = .var v) :
    ∀ u, s.state v ≠ .linked u :=
  h.settled.headAt hv

theorem Resolvable.leads (h : s.Resolvable t) (hlead : s.Leads t u) : s.Resolvable u := by
  induction hlead with
  | done => exact h
  | link hv _ ih => exact ih (h.link hv)

/-- What holds of a type and behind every link holds at the end of a chain of links. -/
theorem Leads.holds {Q : Ty → Prop} (hs : ∀ v t, v < s.size → s.state v = .linked t → Q t)
    (hlead : s.Leads t u) (h : s.Resolvable t) (ht : Q t) : Q u := by
  induction hlead with
  | done => exact ht
  | link hv _ ih => exact ih (h.link hv) (hs _ _ h.lt hv)

/-! ## Variables reached -/

theorem Settled.mem_reachAt (h : s.Settled n t) (hv : s.Reach t v)
    (hunlinked : ∀ u, s.state v ≠ .linked u) : v ∈ s.reachAt n t := by
  induction n generalizing t with
  | zero =>
    cases hv with
    | here hmem => exact hmem
    | step hmem hlink => exact absurd hlink (h _ hmem _)
  | succ n ih =>
    rw [reachAt, List.mem_flatMap]
    cases hv with
    | here hmem =>
      refine ⟨v, hmem, ?_⟩
      cases hstate : s.state v with
      | linked u => exact absurd hstate (hunlinked u)
      | _ => exact List.mem_singleton.mpr rfl
    | @step _ u _ w hmem hlink hrest =>
      refine ⟨w, hmem, ?_⟩
      rw [hlink]
      exact ih (h w hmem u hlink) hrest

/-- Every variable without a link that is met from a resolvable type is reached. -/
theorem Resolvable.mem_reach (h : s.Resolvable t) (hv : s.Reach t v)
    (hunlinked : ∀ u, s.state v ≠ .linked u) : v ∈ s.reach t :=
  h.settled.mem_reachAt hv hunlinked

theorem reach_of_mem_reachAt (h : v ∈ s.reachAt n t) : s.Reach t v := by
  induction n generalizing t with
  | zero => exact .here h
  | succ n ih =>
    rw [reachAt, List.mem_flatMap] at h
    obtain ⟨w, hw, hmem⟩ := h
    cases hstate : s.state w with
    | linked u =>
      rw [hstate] at hmem
      exact .step hw hstate (ih hmem)
    | _ =>
      rw [hstate] at hmem
      exact List.mem_singleton.mp hmem ▸ .here hw

/-! ## Resolved forms -/

section Congr

variable {f f' : Ty → Tree} {g g' : Ty → Option (LabelMap Tree × RowEnd)}

theorem resolveListWith_map (ts : List Ty) :
    s.resolveListWith f g ts = ts.map (s.resolveWith f g) := by
  induction ts with
  | nil => rfl
  | cons t ts ih => rw [resolveListWith, ih, List.map_cons]

theorem resolveFieldsWith_map (fs : List (String × Ty)) :
    s.resolveFieldsWith f g fs = fs.map fun e => (e.1, s.resolveWith f g e.2) := by
  induction fs with
  | nil => rfl
  | cons e fs ih => rw [resolveFieldsWith, ih, List.map_cons]

/-- Two ways to go on behind links have the same results where they agree on the links met. -/
theorem resolveWith_congr (t : Ty)
    (h : ∀ v ∈ t.vars, ∀ u, s.state v = .linked u → f u = f' u ∧ g u = g' u) :
    s.resolveWith f g t = s.resolveWith f' g' t ∧
      s.resolveRowWith f g t = s.resolveRowWith f' g' t := by
  induction t using Ty.induction with
  | var v =>
    rw [resolveWith, resolveWith, resolveRowWith, resolveRowWith]
    cases hv : s.state v with
    | linked u => exact h v (by simp [Ty.vars]) u hv
    | _ => exact ⟨rfl, rfl⟩
  | con _ _ ts ih | tuple _ ts ih =>
    rw [Ty.vars, Ty.forall_mem_varsList] at h
    have hts := List.map_congr_left fun t ht => (ih t ht (h t ht)).1
    simp [resolveWith, resolveRowWith, resolveListWith_map, hts]
  | arrow _ a r iha ihr =>
    rw [Ty.vars, List.forall_mem_append] at h
    simp [resolveWith, resolveRowWith, iha h.1, ihr h.2]
  | record _ r ih => simp [resolveWith, resolveRowWith, ih h]
  | rowExtend _ ls r ihls ihr =>
    rw [Ty.vars, List.forall_mem_append, Ty.varsFields_eq, Ty.forall_mem_varsList] at h
    have hls := List.forall_mem_map.mp fun t ht => (ihls t ht (h.1 t ht)).1
    have hmap : ls.map (fun e => (e.1, s.resolveWith f g e.2)) =
        ls.map fun e => (e.1, s.resolveWith f' g' e.2) :=
      List.map_congr_left fun e he => by rw [hls e he]
    simp [resolveWith, resolveRowWith, ihr h.2, resolveFieldsWith_map, hmap]
  | rowEmpty | lost => simp [resolveWith, resolveRowWith]

end Congr

theorem Settled.resolveAt_eq {k : Nat} (hn : s.Settled n t) (hk : s.Settled k t) :
    s.resolveAt n t = s.resolveAt k t ∧ s.resolveRowAt n t = s.resolveRowAt k t := by
  induction n generalizing k t with
  | zero =>
    cases k with
    | zero => exact ⟨rfl, rfl⟩
    | succ k =>
      rw [resolveAt, resolveAt, resolveRowAt, resolveRowAt]
      exact resolveWith_congr t fun v hv u hu => absurd hu (hn v hv u)
  | succ n ih =>
    cases k with
    | zero =>
      rw [resolveAt, resolveAt, resolveRowAt, resolveRowAt]
      exact resolveWith_congr t fun v hv u hu => absurd hu (hk v hv u)
    | succ k =>
      rw [resolveAt, resolveAt, resolveRowAt, resolveRowAt]
      exact resolveWith_congr t fun v hv u hu => ih (hn v hv u hu) (hk v hv u hu)

/-- The resolved fields and the end of a row. -/
def resolveRow (s : Store) (t : Ty) : Option (LabelMap Tree × RowEnd) := s.resolveRowAt s.size t

/-- Resolving is not cut off. -/
theorem Resolvable.resolve_eq (h : s.Resolvable t) :
    s.resolve t = s.resolveWith s.resolve s.resolveRow t ∧
      s.resolveRow t = s.resolveRowWith s.resolve s.resolveRow t := by
  have hsettled := h.settled
  unfold resolve resolveRow
  cases hsize : s.size with
  | zero =>
    rw [hsize] at hsettled
    rw [resolveAt, resolveRowAt]
    exact resolveWith_congr t fun v hv u hu => absurd hu (hsettled v hv u)
  | succ n =>
    rw [hsize] at hsettled
    rw [resolveAt, resolveRowAt]
    refine resolveWith_congr t fun v hv u hu => ?_
    have hu' := (h.follow hv hu).settled
    rw [hsize] at hu'
    exact (hsettled v hv u hu).resolveAt_eq hu'

theorem resolveListWith_eq {ts : List Ty} (h : ∀ t ∈ ts, s.Resolvable t) :
    s.resolveListWith s.resolve s.resolveRow ts = ts.map s.resolve := by
  rw [resolveListWith_map]
  exact List.map_congr_left fun t ht => ((h t ht).resolve_eq.1).symm

theorem resolveFieldsWith_eq {fs : List (String × Ty)} (h : ∀ e ∈ fs, s.Resolvable e.2) :
    s.resolveFieldsWith s.resolve s.resolveRow fs = fs.map fun e => (e.1, s.resolve e.2) := by
  rw [resolveFieldsWith_map]
  exact List.map_congr_left fun e he => by rw [← (h e he).resolve_eq.1]

theorem Resolvable.resolve_link (h : s.Resolvable (.var v)) (ht : s.state v = .linked t) :
    s.resolve (.var v) = s.resolve t ∧ s.resolveRow (.var v) = s.resolveRow t := by
  obtain ⟨hresolve, hrow⟩ := h.resolve_eq
  rw [hresolve, hrow, resolveWith, resolveRowWith, ht]
  exact ⟨rfl, rfl⟩

end Store

end Typecase
