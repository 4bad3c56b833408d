import Typecase.Proofs.Types.Advance
import Typecase.Types.Instance
set_option autoImplicit false

/-!
# How instances are constructed

An instance is a copy of a type.  While it is constructed, only variables and marks are allocated.
A copy shares the types that are not generic, replaces the quantified variables by what is known
for their numbers, goes on behind links, and makes a node of its own for every other one.
-/

namespace Typecase

namespace Store

variable {n : Int} {given known known' known'' : Renaming} {s s' s'' : Store} {t x : Ty} {v : Var}
  {i : Int} {α β : Type}

theorem rename_eq (level : Int) (v : Var) (known : Renaming) (s : Store) :
    rename level v known s = match known.lookup (s.id v) with
      | some t => ((t, known), s)
      | none => ((.var s.size, (s.id v, .var s.size) :: known), (Ty.fresh level s).2) := by
  show (match known.lookup (s.id v) with
    | some t => pure t
    | none => do
      let t ← Ty.fresh level
      modify ((s.id v, t) :: ·)
      return t : InstanceM Ty) known s = _
  cases known.lookup (s.id v) <;> rfl

theorem instantiateFrom_eq (n : Int) (known : Renaming) (t : Ty) (s : Store) :
    instantiateFrom n known t s = if s.isGeneric (s.head t) = some true then
      ((copyAt n s.size (s.head t) (known ++ s.renames) s).1.1,
        (copyAt n s.size (s.head t) (known ++ s.renames) s).2.clearRenaming)
      else (s.head t, s) := by
  show (if s.isGeneric (s.head t) = some true then _ else _ : StoreM Ty) s = _
  split <;> rfl

/-! ## States of the construction -/

/-- Since the store `s` with the renaming `known`, only marks and variables at level `n` were
allocated: a variable of its own for every number that has become known. -/
structure Supplied (n : Int) (known : Renaming) (s : Store) (known' : Renaming) (s' : Store) :
    Prop where
  size_le : s.size ≤ s'.size
  speculative : s'.speculative = s.speculative
  trail : s'.trail = s.trail
  idle : s.renames = [] → s'.renames = []
  nextId_le : s.nextId ≤ s'.nextId
  numbers : KeepsNumbers s s'
  cells : ∀ v < s.size, s'.cell v = s.cell v
  fresh : ∀ v, s.size ≤ v → v < s'.size → s'.state v = .atLevel (Level.ofInt n)
  marks_le : s.marks.size ≤ s'.marks.size
  marks : ∀ m, s'.isMarked m = s.isMarked m
  kept : ∀ i t, known.lookup i = some t → known'.lookup i = some t
  new : ∃ origin : Var → Int, ∀ i t, known.lookup i = none → known'.lookup i = some t →
    ∃ w, t = .var w ∧ s.size ≤ w ∧ w < s'.size ∧ origin w = i

theorem Supplied.state (h : Supplied n known s known' s') (hv : v < s.size) :
    s'.state v = s.state v :=
  congrArg Cell.state (h.cells v hv)

theorem Supplied.id (h : Supplied n known s known' s') (hv : v < s.size) : s'.id v = s.id v :=
  congrArg Cell.id (h.cells v hv)

theorem Supplied.grows (h : Supplied n known s known' s') : Grows s s' :=
  ⟨h.size_le, h.speculative, h.trail, h.idle, h.nextId_le, h.numbers, fun _ hv => h.state hv,
    fun v hv hlt => ⟨n, h.fresh v hv hlt⟩⟩

/-- No variables are allocated. -/
theorem supplied_of_cells (hcells : s'.cells = s.cells) (hspec : s'.speculative = s.speculative)
    (htrail : s'.trail = s.trail) (hidle : s.renames = [] → s'.renames = [])
    (hnext : s'.nextId = s.nextId) (hle : s.marks.size ≤ s'.marks.size)
    (hmarks : ∀ m, s'.isMarked m = s.isMarked m) : Supplied n known s known s' := by
  have hcell : ∀ v, s'.cell v = s.cell v := fun v => by rw [cell, cell, hcells]
  have hsize : s'.size = s.size := congrArg Array.size hcells
  refine ⟨Nat.le_of_eq hsize.symm, hspec, htrail, hidle, Nat.le_of_eq hnext.symm,
    keepsNumbers_of_id hsize hnext (fun v => congrArg Cell.id (hcell v))
      fun v hv => (congrArg Cell.state (hcell v)).trans hv, fun v _ => hcell v,
    fun v hv hlt => absurd hlt (hsize ▸ Nat.not_lt.mpr hv), hle, hmarks, fun _ _ h => h,
    fun _ => 0, fun _ _ hnone hsome => by simp [hnone] at hsome⟩

theorem Supplied.refl (n : Int) (known : Renaming) (s : Store) : Supplied n known s known s :=
  supplied_of_cells rfl rfl rfl (fun h => h) rfl (Nat.le_refl _) fun _ => rfl

theorem supplied_clearRenaming (n : Int) (known : Renaming) (s : Store) :
    Supplied n known s known s.clearRenaming :=
  supplied_of_cells rfl rfl rfl (fun _ => rfl) rfl (Nat.le_refl _) fun m => by cases m <;> rfl

theorem supplied_newMark (n : Int) (known : Renaming) (s : Store) :
    Supplied n known s known (newMark s).2 := by
  refine supplied_of_cells rfl rfl rfl (fun h => h) rfl (by simp [newMark]) fun m => ?_
  cases m with
  | node k =>
    show (s.marks.push false).getD k false = s.marks.getD k false
    rw [Array.getD_eq_getD_getElem?, Array.getD_eq_getD_getElem?, Array.getElem?_push]
    split
    · rename_i hk
      rw [hk, Array.getElem?_eq_none (Nat.le_refl _)]
      rfl
    · rfl
  | _ => rfl

theorem lookup_renaming (known : Renaming) (i j : Int) (t : Ty) :
    ((i, t) :: known).lookup j = if j = i then some t else known.lookup j := by
  rw [List.lookup_cons]
  split <;> simp_all

theorem supplied_fresh (hi : known.lookup i = none) :
    Supplied n known s ((i, .var s.size) :: known) (Ty.fresh n s).2 :=
  have h := fresh_grows s n
  { h with
    cells := fun v hv => cell_fresh s n (Nat.ne_of_lt hv)
    fresh := by
      intro v hv hlt
      rw [size_fresh] at hlt
      rw [state_fresh, if_pos (Nat.le_antisymm (Nat.le_of_lt_succ hlt) hv)]
    marks_le := Nat.le_refl _
    marks := fun _ => rfl
    kept := by
      intro j t hj
      rwa [lookup_renaming, if_neg fun heq => by simp [heq, hi] at hj]
    new := by
      refine ⟨fun _ => i, fun j t hj hsome => ?_⟩
      rw [lookup_renaming, hj] at hsome
      split at hsome
      · rename_i heq
        cases hsome
        exact ⟨s.size, rfl, Nat.le_refl _, by rw [size_fresh]; exact Nat.lt_succ_self _, heq.symm⟩
      · cases hsome }

theorem Supplied.trans (h : Supplied n known s known' s') (h' : Supplied n known' s' known'' s'') :
    Supplied n known s known'' s'' where
  size_le := Nat.le_trans h.size_le h'.size_le
  speculative := h'.speculative.trans h.speculative
  trail := h'.trail.trans h.trail
  idle := fun hs => h'.idle (h.idle hs)
  nextId_le := Nat.le_trans h.nextId_le h'.nextId_le
  numbers := h.numbers.trans h'.numbers h.size_le
  cells := fun v hv => (h'.cells v (Nat.lt_of_lt_of_le hv h.size_le)).trans (h.cells v hv)
  fresh := by
    intro v hv hlt
    by_cases hv' : v < s'.size
    · rw [h'.state hv']
      exact h.fresh v hv hv'
    · exact h'.fresh v (Nat.not_lt.mp hv') hlt
  marks_le := Nat.le_trans h.marks_le h'.marks_le
  marks := fun m => (h'.marks m).trans (h.marks m)
  kept := fun i t hi => h'.kept i t (h.kept i t hi)
  new := by
    obtain ⟨origin, hnew⟩ := h.new
    obtain ⟨origin', hnew'⟩ := h'.new
    refine ⟨fun w => if w < s'.size then origin w else origin' w, fun i t hnone hsome => ?_⟩
    cases hi : known'.lookup i with
    | some y =>
      obtain rfl : y = t := Option.some.inj ((h'.kept i y hi).symm.trans hsome)
      obtain ⟨w, rfl, hw, hlt, horigin⟩ := hnew i y hnone hi
      exact ⟨w, rfl, hw, Nat.lt_of_lt_of_le hlt h'.size_le, (if_pos hlt).trans horigin⟩
    | none =>
      obtain ⟨w, rfl, hw, hlt, horigin⟩ := hnew' i t hi hsome
      exact ⟨w, rfl, Nat.le_trans h.size_le hw, hlt,
        (if_neg (Nat.not_lt.mpr hw)).trans horigin⟩

/-- What is known was given, or a variable was allocated for it. -/
theorem Supplied.lookup_cases (h : Supplied n known s known' s') (hi : known'.lookup i = some t) :
    (∃ e ∈ known, e.2 = t) ∨ ∃ w, t = .var w ∧ s.size ≤ w ∧ w < s'.size := by
  cases hk : known.lookup i with
  | none =>
    obtain ⟨origin, hnew⟩ := h.new
    obtain ⟨w, ht, hw, hlt, -⟩ := hnew i t hk hi
    exact .inr ⟨w, ht, hw, hlt⟩
  | some y =>
    obtain rfl : y = t := Option.some.inj ((h.kept i y hk).symm.trans hi)
    obtain ⟨l₁, l₂, rfl, -⟩ := List.lookup_eq_some_iff.mp hk
    exact .inl ⟨(i, y), by simp, rfl⟩

/-! ## Steps of the construction -/

/-- From every state that is reached from `s`, `m` goes on to a later one, and its result has the
property `P` in that and all later states. -/
def Gives (n : Int) (given : Renaming) (s : Store) (m : InstanceM α)
    (P : α → Renaming → Store → Prop) : Prop :=
  ∀ known s₁, Supplied n given s known s₁ →
    Supplied n known s₁ (m known s₁).1.2 (m known s₁).2 ∧
      ∀ known' s', Supplied n (m known s₁).1.2 (m known s₁).2 known' s' →
        P (m known s₁).1.1 known' s'

variable {P : α → Renaming → Store → Prop} {Q : β → Renaming → Store → Prop} {m : InstanceM α}

theorem Gives.pure {a : α} (h : ∀ known' s', Supplied n given s known' s' → P a known' s') :
    Gives n given s (pure a) P :=
  fun known s₁ h₁ => ⟨.refl n known s₁, fun known' s' h' => h known' s' (h₁.trans h')⟩

theorem Gives.bind {f : α → InstanceM β} (hm : Gives n given s m P)
    (hf : ∀ a, Gives n given s (f a) fun b known' s' => P a known' s' → Q b known' s') :
    Gives n given s (m >>= f) Q := by
  intro known s₁ h₁
  obtain ⟨hstep, hP⟩ := hm known s₁ h₁
  obtain ⟨hrest, hQ⟩ := hf _ _ _ (h₁.trans hstep)
  exact ⟨hstep.trans hrest, fun known' s' h' => hQ known' s' h' (hP known' s' (hrest.trans h'))⟩

theorem Gives.imp {P' : α → Renaming → Store → Prop} (hm : Gives n given s m P)
    (h : ∀ a known' s', P a known' s' → P' a known' s') : Gives n given s m P' := by
  intro known s₁ h₁
  obtain ⟨hstep, hP⟩ := hm known s₁ h₁
  exact ⟨hstep, fun known' s' h' => h _ known' s' (hP known' s' h')⟩

theorem Gives.later (hm : Gives n given s m P) (hs : Supplied n given s known s') :
    Gives n known s' m P :=
  fun known' s₁ h₁ => hm known' s₁ (hs.trans h₁)

theorem Gives.getStore {f : Store → InstanceM α}
    (hf : ∀ known s₁, Supplied n given s known s₁ → Gives n known s₁ (f s₁) P) :
    Gives n given s (getThe Store >>= f) P :=
  fun known s₁ h₁ => hf known s₁ h₁ known s₁ (.refl n known s₁)

/-- A mark that has been made since. -/
def NewMark (s s' : Store) (m : Mark) : Prop := ∃ k, m = .node k ∧ s.marks.size ≤ k ∧ k < s'.marks.size

theorem gives_newMark :
    Gives n given s (newMark : InstanceM Mark) fun m _ s' => NewMark s s' m := by
  intro known s₁ h₁
  refine ⟨supplied_newMark n known s₁, fun _ s' h' => ⟨s₁.marks.size, rfl, h₁.marks_le, ?_⟩⟩
  refine Nat.lt_of_lt_of_le ?_ h'.marks_le
  show s₁.marks.size < (s₁.marks.push false).size
  simp

theorem gives_rename (hv : v < s.size) :
    Gives n given s (rename n v) fun t known' _ => known'.lookup (s.id v) = some t := by
  intro known s₁ h₁
  rw [rename_eq, h₁.id hv]
  cases hlookup : known.lookup (s.id v) with
  | some t => exact ⟨.refl n known s₁, fun known' s' h' => h'.kept _ t hlookup⟩
  | none =>
    refine ⟨supplied_fresh hlookup, fun known' s' h' => h'.kept _ _ ?_⟩
    rw [lookup_renaming, if_pos rfl]

/-! ## Copies -/

theorem head_of_mark? {m : Mark} (h : x.mark? = some m) : s.head x = x := by
  have hlead := head_leads s x
  generalize s.head x = y at hlead
  cases hlead with
  | done => rfl
  | link => cases h

theorem head_unlinked (hv : ∀ u, s.state v ≠ .linked u) : s.head (.var v) = .var v := by
  have hlead := head_leads s (.var v)
  generalize s.head (.var v) = y at hlead
  cases hlead with
  | done => rfl
  | link hu => exact absurd hu (hv _)

theorem isGeneric_of_head {m : Mark} (h : (s.head x).mark? = some m) :
    s.isGeneric x = some (s.isMarked m) := by
  rw [isGeneric]
  cases hx : s.head x <;> rw [hx] at h <;> cases h <;> rfl

theorem isGeneric_of_mark? {m : Mark} (h : x.mark? = some m) :
    s.isGeneric x = some (s.isMarked m) :=
  isGeneric_of_head (by rwa [head_of_mark? h])

section Copies

variable (n given s) (behind : Ty → Ty → Prop) (known : Renaming) (s' : Store)

/-- In the state `known`, `s'` of a construction that began with `given` and `s`, the second types
are copies of the first.  What is found behind links has copies that are described by `behind`. -/
inductive Copies : List Ty → List Ty → Prop
  | nil : Copies [] []
  | shared {known₁ : Renaming} {s₁ : Store} {t : Ty} {ts ts' : List Ty} :
      Supplied n given s known₁ s₁ → s₁.isGeneric t ≠ some true → Copies ts ts' →
      Copies (t :: ts) (t :: ts')
  | known {known₁ : Renaming} {s₁ : Store} {v : Var} {t : Ty} {ts ts' : List Ty} :
      Supplied n given s known₁ s₁ → s₁.state v = .generic → known.lookup (s₁.id v) = some t →
      Copies ts ts' → Copies (.var v :: ts) (t :: ts')
  | link {known₁ : Renaming} {s₁ : Store} {v : Var} {u t : Ty} {ts ts' : List Ty} :
      Supplied n given s known₁ s₁ → s₁.state v = .linked u → behind u t → Copies ts ts' →
      Copies (.var v :: ts) (t :: ts')
  | con {m m' : Mark} {name : String} {args args' ts ts' : List Ty} : NewMark s s' m' →
      Copies args args' → Copies ts ts' →
      Copies (.con m name args :: ts) (.con m' name args' :: ts')
  | arrow {m m' : Mark} {a a' r r' : Ty} {ts ts' : List Ty} : NewMark s s' m' →
      Copies [a, r] [a', r'] → Copies ts ts' →
      Copies (.arrow m a r :: ts) (.arrow m' a' r' :: ts')
  | tuple {m m' : Mark} {es es' ts ts' : List Ty} : NewMark s s' m' → Copies es es' →
      Copies ts ts' → Copies (.tuple m es :: ts) (.tuple m' es' :: ts')
  | record {m m' : Mark} {r r' : Ty} {ts ts' : List Ty} : NewMark s s' m' → Copies [r] [r'] →
      Copies ts ts' → Copies (.record m r :: ts) (.record m' r' :: ts')
  | rowExtend {m m' : Mark} {ls ls' : List (String × Ty)} {r r' : Ty} {ts ts' : List Ty} :
      NewMark s s' m' → ls'.map (·.1) = ls.map (·.1) → Copies (ls.map (·.2)) (ls'.map (·.2)) →
      Copies [r] [r'] → Copies ts ts' →
      Copies (.rowExtend m ls r :: ts) (.rowExtend m' ls' r' :: ts')

end Copies

section Copying

variable {behind : Renaming → Store → Ty → Ty → Prop} {follow : Ty → InstanceM Ty}

theorem Copies.append {R : Ty → Ty → Prop} {ts ts' us us' : List Ty}
    (h : Copies n given s R known s' ts ts') (h' : Copies n given s R known s' us us') :
    Copies n given s R known s' (ts ++ us) (ts' ++ us') := by
  induction h with
  | nil => exact h'
  | shared hs ht _ ih => exact .shared hs ht ih
  | known hs hv ht _ ih => exact .known hs hv ht ih
  | link hs hv ht _ ih => exact .link hs hv ht ih
  | con hm hargs _ _ ih => exact .con hm hargs ih
  | arrow hm hparts _ _ ih => exact .arrow hm hparts ih
  | tuple hm hes _ _ ih => exact .tuple hm hes ih
  | record hm hr _ _ ih => exact .record hm hr ih
  | rowExtend hm hlabels hls hr _ _ _ ih => exact .rowExtend hm hlabels hls hr ih

/-- Fields of which none is generic are shared. -/
theorem copies_shared {R : Ty → Ty → Prop} {known₁ : Renaming} {s₁ : Store}
    (h₁ : Supplied n given s known₁ s₁) {fs : List (String × Ty)}
    (hnot : ¬ (fs.any fun e => s₁.isGeneric e.2 = some true) = true) :
    Copies n given s R known s' (fs.map (·.2)) (fs.map (·.2)) := by
  induction fs with
  | nil => exact .nil
  | cons e fs ih =>
    rw [List.any_cons, Bool.or_eq_true, not_or, decide_eq_true_iff] at hnot
    exact .shared h₁ hnot.1 (ih hnot.2)

/-- A node is copied if it is marked. -/
theorem gives_marked {m : Mark} {copied : Store → InstanceM Ty} (hm : t.mark? = some m)
    (hcopied : ∀ known s₁, Supplied n given s known s₁ → Gives n given s (copied s₁)
      fun t' known s' => Copies n given s (behind known s') known s' [t] [t']) :
    Gives n given s (getThe Store >>= fun s₁ => if s₁.isMarked m then copied s₁ else pure t)
      fun t' known s' => Copies n given s (behind known s') known s' [t] [t'] := by
  refine .getStore fun known s₁ h₁ => ?_
  split
  · exact (hcopied known s₁ h₁).later h₁
  · rename_i hnot
    refine .pure fun _ _ _ => .shared h₁ ?_ .nil
    rwa [isGeneric_of_mark? hm, ne_eq, Option.some.injEq]

mutual

theorem gives_copyWith
    (hf : ∀ u, Gives n given s (follow u) fun t known s' => behind known s' u t) :
    (t : Ty) → Gives n given s (copyWith n follow t) fun t' known s' =>
      Copies n given s (behind known s') known s' [t] [t']
  | .var v => by
    rw [copyWith]
    refine .getStore fun known s₁ h₁ => ?_
    cases hv : s₁.state v with
    | linked u => exact ((hf u).later h₁).imp fun t _ _ ht => .link h₁ hv ht .nil
    | generic =>
      exact (gives_rename (lt_size_of_unlinked (by simp [hv]))).imp
        fun t _ _ ht => .known h₁ hv ht .nil
    | unbound l =>
      refine .pure fun _ _ _ => .shared h₁ ?_ .nil
      rw [isGeneric, head_unlinked (by simp [hv])]
      simp [hv, VarState.isGeneric]
  | .con m name args => by
    rw [copyWith]
    refine gives_marked rfl fun _ _ _ => (gives_copyListWith hf args).bind fun args' =>
      gives_newMark.bind fun m' => .pure fun known' s' _ hm hargs => ?_
    exact .con hm hargs .nil
  | .arrow m a r => by
    rw [copyWith]
    refine gives_marked rfl fun _ _ _ => (gives_copyWith hf a).bind fun a' =>
      (gives_copyWith hf r).bind fun r' => gives_newMark.bind fun m' =>
        .pure fun known' s' _ hm hr ha => ?_
    exact .arrow hm (ha.append hr) .nil
  | .tuple m es => by
    rw [copyWith]
    refine gives_marked rfl fun _ _ _ => (gives_copyListWith hf es).bind fun es' =>
      gives_newMark.bind fun m' => .pure fun known' s' _ hm hes => ?_
    exact .tuple hm hes .nil
  | .record m r => by
    rw [copyWith]
    refine gives_marked rfl fun _ _ _ => (gives_copyWith hf r).bind fun r' =>
      gives_newMark.bind fun m' => .pure fun known' s' _ hm hr => ?_
    exact .record hm hr .nil
  | .rowExtend m ls r => by
    rw [copyWith]
    refine gives_marked rfl fun _ s₁ h₁ => (gives_copyFieldsWith hf ls).bind fun copied =>
      (gives_copyWith hf r).bind fun r' => gives_newMark.bind fun m' =>
        .pure fun known' s' _ hm hr hls => ?_
    split
    · exact .rowExtend hm hls.1 hls.2 hr .nil
    · rename_i hnot
      exact .rowExtend hm rfl (copies_shared h₁ hnot) hr .nil
  | .rowEmpty | .lost => by
    rw [copyWith]
    refine .pure fun known s₁ h₁ => .shared h₁ ?_ .nil
    cases hsize : s₁.size <;> simp [isGeneric, head, headAt, hsize, Ty.mark?]

theorem gives_copyListWith
    (hf : ∀ u, Gives n given s (follow u) fun t known s' => behind known s' u t) :
    (ts : List Ty) → Gives n given s (copyListWith n follow ts) fun ts' known s' =>
      Copies n given s (behind known s') known s' ts ts'
  | [] => by
    rw [copyListWith]
    exact .pure fun _ _ _ => .nil
  | t :: ts => by
    rw [copyListWith]
    exact (gives_copyWith hf t).bind fun t' => (gives_copyListWith hf ts).bind fun ts' =>
      .pure fun _ _ _ hts ht => ht.append hts

theorem gives_copyFieldsWith
    (hf : ∀ u, Gives n given s (follow u) fun t known s' => behind known s' u t) :
    (fs : List (String × Ty)) → Gives n given s (copyFieldsWith n follow fs) fun fs' known s' =>
      fs'.map (·.1) = fs.map (·.1) ∧
        Copies n given s (behind known s') known s' (fs.map (·.2)) (fs'.map (·.2))
  | [] => by
    rw [copyFieldsWith]
    exact .pure fun _ _ _ => ⟨rfl, .nil⟩
  | (l, t) :: fs => by
    rw [copyFieldsWith]
    refine (gives_copyWith hf t).bind fun t' => (gives_copyFieldsWith hf fs).bind fun fs' =>
      .pure fun _ _ _ hfs ht => ⟨?_, ht.append hfs.2⟩
    exact congrArg (l :: ·) hfs.1

end

/-- A copy of a type with at most `k` links followed on every branch. -/
def CopyAt (n : Int) (given : Renaming) (s : Store) : Nat → Renaming → Store → Ty → Ty → Prop
  | 0, _, _ => Eq
  | k + 1, known, s' =>
    fun t t' => Copies n given s (CopyAt n given s k known s') known s' [t] [t']

theorem gives_copyAt (n : Int) (given : Renaming) (s : Store) (k : Nat) (t : Ty) :
    Gives n given s (copyAt n k t) fun t' known s' => CopyAt n given s (k + 1) known s' t t' := by
  induction k generalizing t with
  | zero => exact gives_copyWith (fun u => .pure fun _ _ _ => rfl) t
  | succ k ih => exact gives_copyWith ih t

/-- An instance is a copy of the type behind the links. -/
theorem instantiateFrom_copyAt (n : Int) (given : Renaming) (t : Ty) (s : Store) :
    ∃ known, Supplied n (given ++ s.renames) s known (instantiateFrom n given t s).2 ∧
      CopyAt n (given ++ s.renames) s (s.size + 1) known (instantiateFrom n given t s).2 (s.head t)
        (instantiateFrom n given t s).1 := by
  have hrefl := Supplied.refl n (given ++ s.renames) s
  rw [instantiateFrom_eq]
  split
  · obtain ⟨hcopy, hresult⟩ := gives_copyAt n _ s s.size (s.head t) _ s hrefl
    have hclear := supplied_clearRenaming n (copyAt n s.size (s.head t) (given ++ s.renames) s).1.2
      (copyAt n s.size (s.head t) (given ++ s.renames) s).2
    exact ⟨_, hcopy.trans hclear, hresult _ _ hclear⟩
  · rename_i hnot
    exact ⟨_, hrefl, .shared hrefl hnot .nil⟩

end Copying

end Store

end Typecase
