import Typecase.Prelude
import Typecase.Proofs.Elaborate.Scopes
set_option autoImplicit false

/-!
# Preludes

A prelude may be built in any store, also in one that holds the variables of other preludes and
of programs.  It adds quantified variables, under the numbers that are reserved for them, and
leaves all that is there as it is.  Its constructors stand under their own names.
-/

namespace Typecase

namespace Store

variable {s s' s'' : Store} {t : Ty} {u v : Var} {n : Int}

/-! ## Laying variables -/

/-- Quantified variables under reserved numbers have been added, and those before are kept. -/
structure Lays (s s' : Store) : Prop where
  size_le : s.size ≤ s'.size
  nextId : s'.nextId = s.nextId
  old : ∀ v < s.size, s'.cell v = s.cell v
  new : ∀ v, s.size ≤ v → v < s'.size →
    s'.state v = .generic ∧ -reserved ≤ s'.id v ∧ s'.id v < 0

theorem lays_of_cells (hcells : s'.cells = s.cells) (hnext : s'.nextId = s.nextId) : Lays s s' where
  size_le := by simp [size, hcells]
  nextId := hnext
  old := fun v _ => by simp [cell, hcells]
  new := fun v hle hlt => by
    simp only [size, hcells] at hlt
    exact absurd hlt (Nat.not_lt.mpr hle)

theorem Lays.trans (h : Lays s s') (h' : Lays s' s'') : Lays s s'' where
  size_le := Nat.le_trans h.size_le h'.size_le
  nextId := h'.nextId.trans h.nextId
  old := fun v hv => (h'.old v (Nat.lt_of_lt_of_le hv h.size_le)).trans (h.old v hv)
  new := by
    intro v hle hlt
    by_cases hv : v < s'.size
    · have hnew := h.new v hle hv
      unfold state id at hnew ⊢
      rwa [h'.old v hv]
    · exact h'.new v (Nat.not_lt.mp hv) hlt

theorem Lays.state (h : Lays s s') {v : Var} (hv : v < s.size) : s'.state v = s.state v :=
  congrArg Cell.state (h.old v hv)

theorem Lays.generic (h : Lays s s') (hv : s.state v = .generic) : s'.state v = .generic :=
  (h.state (lt_size_of_unlinked (by simp [hv]))).trans hv

theorem Lays.orderly (h : Lays s s') (hs : s.Orderly) : s'.Orderly :=
  hs.grow h.size_le (fun _ => h.state) fun v hle hlt => ⟨Level.generic, (h.new v hle hlt).1⟩

theorem Lays.numbered (h : Lays s s') (hs : s.Numbered) : s'.Numbered := by
  obtain ⟨number, hnumber⟩ := hs
  -- a new variable goes by the number that it has
  refine ⟨fun v => if v < s.size then number v else s'.id v, ?_, ?_, ?_, ?_⟩
  · intro v hv
    by_cases hold : v < s.size
    · rw [if_pos hold, ← hnumber.id v hold]
      exact congrArg Cell.id (h.old v hold)
    · obtain ⟨-, hlow, hhigh⟩ := h.new v (Nat.not_lt.mp hold) hv
      rw [if_neg hold]
      unfold Level.ofInt reserved at *
      rw [Int.bmod_eq_of_le] <;> omega
  · intro v hv
    by_cases hold : v < s.size
    · rw [if_pos hold, h.nextId]
      exact hnumber.range v hold
    · obtain ⟨-, hlow, hhigh⟩ := h.new v (Nat.not_lt.mp hold) hv
      rw [if_neg hold]
      omega
  · intro v hv
    by_cases hold : v < s.size
    · rw [if_pos hold, h.state hold]
      exact hnumber.sign v hold
    · exact Or.inl (h.new v (Nat.not_lt.mp hold) hv).1
  · intro u v hu hv hsign heq
    have hold : ∀ w < s'.size, 0 ≤ (if w < s.size then number w else s'.id w) → w < s.size := by
      intro w hw hnonneg
      by_contra hnew
      have hhigh := (h.new w (Nat.not_lt.mp hnew) hw).2.2
      rw [if_neg hnew] at hnonneg
      omega
    have holdu := hold u hu hsign
    have holdv := hold v hv (heq ▸ hsign)
    rw [if_pos holdu] at hsign
    rw [if_pos holdu, if_pos holdv] at heq
    exact hnumber.inj u v holdu holdv hsign heq

theorem Lays.regular (h : Lays s s') (hs : s.Regular) : s'.Regular :=
  have horderly := h.orderly hs.orderly
  ⟨horderly.closed, horderly.leveled, h.numbered hs.numbered⟩

theorem WithinVar.lay (hv : s.WithinVar n v) (h : Lays s s') (hs : s.Orderly) :
    s'.WithinVar n v := by
  refine ⟨Nat.lt_of_lt_of_le hv.1 h.size_le, fun u l hu hl => ?_⟩
  obtain ⟨hreach, hlt⟩ := hu.kept hs (fun _ => h.state) (bounded_var.mpr hv.1)
  exact hv.2 u l hreach (h.state hlt ▸ hl)

/-- Only the variables of a type are met from it if they are quantified. -/
theorem mem_vars_of_reach (ht : ∀ v ∈ t.vars, s.state v = .generic) (hu : s.Reach t u) :
    u ∈ t.vars := by
  cases hu with
  | here hmem => exact hmem
  | step hmem hlink =>
    rw [ht _ hmem] at hlink
    cases hlink

theorem withinVar_of_generic (hv : s.state v = .generic) : s.WithinVar n v := by
  refine ⟨lt_size_of_unlinked (by simp [hv]), fun u l hu hl => ?_⟩
  have hmem := mem_vars_of_reach (by simpa [Ty.vars] using hv) hu
  rw [Ty.vars, List.mem_singleton] at hmem
  rw [hmem, hv] at hl
  cases hl

theorem lays_allocate (s : Store) {i : Int} (hlow : -reserved ≤ i) (hhigh : i < 0) :
    Lays s (allocate i .generic s).2 where
  size_le := by simp [size, allocate]
  nextId := rfl
  old := fun v hv => by
    have hne : v ≠ s.cells.size := Nat.ne_of_lt hv
    simp [cell, allocate, Array.getElem?_push, hne]
  new := by
    intro v hle hlt
    obtain rfl : v = s.cells.size := by
      simp only [size, allocate, Array.size_push] at hle hlt
      exact Nat.le_antisymm (Nat.le_of_lt_succ hlt) hle
    simp [state, id, cell, allocate, hlow, hhigh]

/-- If the variables of a type are quantified, it is as general as can be. -/
theorem generalize_of_generic (ht : ∀ v ∈ t.vars, s.state v = .generic) (n : Int) :
    (generalize n t s).1.type = t ∧ Lays s (generalize n t s).2 := by
  have hhead : s.head t = t := by
    unfold head
    cases t with
    | var v =>
      have hv : s.state v = .generic := ht v (by simp [Ty.vars])
      cases s.size <;> simp [headAt, hv]
    | _ => cases s.size <;> rfl
  have hquantify : (s.reach t).foldl (quantify n) s = s := by
    refine List.foldlRecOn (s.reach t) (quantify n) (motive := (· = s)) rfl ?_
    rintro _ rfl v hv
    have hmem := mem_vars_of_reach ht (reach_of_mem_reachAt hv)
    simp only [quantify, ht v hmem]
  unfold generalize
  simp only [hhead, hquantify]
  obtain ⟨hcells, hnext, -⟩ := foldl_markGeneric_cells (s.nodes t) s
  exact ⟨trivial, lays_of_cells hcells hnext⟩

end Store

namespace Prelude

variable {α β : Type} {c c' : Nat} {vs : List Var} {x name : String} {v : ValueEntry}

/-! ## Entries of a prelude -/

/-- The type schemes of the standard constructors.  Lists have the parameter `a`. -/
def standardSchemes (a : Var) (k k' : Mark) : LabelMap Scheme :=
  let list := .con .generic "list" [.var a]
  let pair := .tuple k [.var a, .con k' "list" [.var a]]
  [("nil", ⟨[a], list⟩), ("::", ⟨[a], .arrow .generic pair list⟩), ("true", .mono Ty.bool),
    ("false", .mono Ty.bool)]

/-- A type scheme that a prelude may give to a name. -/
def Standard (x : String) (σ : Scheme) : Prop :=
  ∃ a k k', ∀ τ, (standardSchemes a k k').lookup x = some τ → σ = τ

theorem standard_of_none (h : (standardSchemes 0 .plain .plain).lookup x = none) (σ : Scheme) :
    Standard x σ := by
  refine ⟨0, .plain, .plain, fun τ hτ => ?_⟩
  rw [h] at hτ
  cases hτ

/-- An entry of a prelude.  A constructor stands under its own name. -/
structure Entry (x : String) (v : ValueEntry) : Prop where
  name : ∀ con, v.con? = some con → con.name = x
  scheme : Standard x v.scheme

/-! ## Building -/

/-- A computation that goes on with a draft and adds `c` variables.  The variables of the draft and
`vs` must be quantified; so are then those of the result, to which `R` applies. -/
structure Builds (c : Nat) (vs : List Var) (m : DraftM α) (f : α → List Var) (R : α → Prop) :
    Prop where
  result : ∀ p s, R (m p s).1.1
  entries : ∀ p s, p.env.All Entry (fun _ _ => True) → (m p s).1.2.env.All Entry fun _ _ => True
  quantifiers : ∀ p s, (m p s).1.2.quantifiers = p.quantifiers + c
  store : ∀ p s, p.quantifiers + c ≤ Store.reserved →
    (∀ v ∈ p.env.vars ++ vs, s.state v = .generic) → s.Lays (m p s).2 ∧
      ∀ v ∈ (m p s).1.2.env.vars ++ f (m p s).1.1, (m p s).2.state v = .generic

/-- A computation without a result. -/
abbrev Goes (c : Nat) (vs : List Var) (m : DraftM Unit) : Prop :=
  Builds c vs m (fun _ => []) fun _ => True

section Rules

variable {m : DraftM α} {k : α → DraftM β} {f : α → List Var} {g : β → List Var} {R : α → Prop}
  {T : β → Prop}

theorem Builds.pure {a : α} (hvs : f a ⊆ vs) (ha : R a) : Builds 0 vs (pure a) f R where
  result := fun _ _ => ha
  entries := fun _ _ h => h
  quantifiers := fun _ _ => rfl
  store := fun _ _ _ hs => ⟨Store.lays_of_cells rfl rfl, fun v hv => hs v <|
    (List.mem_append.mp hv).elim (List.mem_append_left _) fun h => List.mem_append_right _ (hvs h)⟩

theorem Builds.bind (hm : Builds c vs m f R) (hk : ∀ a, R a → Builds c' (f a ++ vs) (k a) g T) :
    Builds (c' + c) vs (m >>= k) g T := by
  have hrun : ∀ p s, (m >>= k) p s = k (m p s).1.1 (m p s).1.2 (m p s).2 := fun _ _ => rfl
  refine ⟨?_, ?_, ?_, ?_⟩
  · intro p s
    exact (hk _ (hm.result p s)).result _ _
  · intro p s hentries
    exact (hk _ (hm.result p s)).entries _ _ (hm.entries p s hentries)
  · intro p s
    rw [hrun, (hk _ (hm.result p s)).quantifiers, hm.quantifiers]
    omega
  · intro p s hc hs
    have hquantifiers := hm.quantifiers p s
    obtain ⟨hlays, hs'⟩ := hm.store p s (by omega) hs
    obtain ⟨hlays', hs''⟩ := (hk _ (hm.result p s)).store (m p s).1.2 (m p s).2 (by omega) (by
      simp only [List.forall_mem_append] at hs hs' ⊢
      exact ⟨hs'.1, hs'.2, fun v hv => hlays.generic (hs.2 v hv)⟩)
    exact ⟨hlays.trans hlays', hs''⟩

theorem Builds.discard (hm : Builds c vs m f R) : Goes c vs (discard m) where
  result := fun _ _ => trivial
  entries := hm.entries
  quantifiers := hm.quantifiers
  store := by
    intro p s hc hs
    obtain ⟨hlays, hs'⟩ := hm.store p s hc hs
    refine ⟨hlays, fun v hv => hs' v (List.mem_append_left _ ?_)⟩
    rwa [List.append_nil] at hv

theorem Goes.forM {k : α → DraftM Unit} (xs : List α) (hk : ∀ x ∈ xs, Goes c vs (k x)) :
    Goes (xs.length * c) vs (xs.forM k) := by
  induction xs with
  | nil => exact Nat.zero_mul c ▸ .pure (List.nil_subset _) trivial
  | cons x xs ih =>
    rw [List.forall_mem_cons] at hk
    rw [List.length_cons, Nat.succ_mul]
    exact .bind hk.1 fun _ _ => ih hk.2

/-- A computation that uses the store only. -/
theorem builds_lift {m : StoreM α} (hresult : ∀ s, R (m s).1)
    (hm : ∀ s, (∀ v ∈ vs, s.state v = .generic) → s.Lays (m s).2 ∧ f (m s).1 ⊆ vs) :
    Builds 0 vs (liftM m : DraftM α) f R where
  result := fun _ s => hresult s
  entries := fun _ _ h => h
  quantifiers := fun _ _ => rfl
  store := by
    intro p s _ hs
    rw [List.forall_mem_append] at hs
    obtain ⟨hlays, hvars⟩ := hm s hs.2
    refine ⟨hlays, List.forall_mem_append.mpr ⟨?_, ?_⟩⟩
    · exact fun v hv => hlays.generic (hs.1 v hv)
    · exact fun v hv => hlays.generic (hs.2 v (hvars hv))

end Rules

theorem builds_quantified : Builds 1 vs quantified (fun a => [a]) fun _ => True where
  result := fun _ _ => trivial
  entries := fun _ _ h => h
  quantifiers := fun _ _ => rfl
  store := by
    intro p s hc hs
    have hlays := Store.lays_allocate s
      (i := -((p.quantifiers + 1 : Nat) : Int)) (by omega) (by omega)
    refine ⟨hlays, List.forall_mem_append.mpr ⟨fun v hv => ?_, List.forall_mem_singleton.mpr ?_⟩⟩
    · exact hlays.generic (hs v (List.mem_append_left _ hv))
    · exact (hlays.new s.size (Nat.le_refl _) (by simp [Store.size, Store.allocate])).1

/-- A type is built around a mark of its own. -/
theorem builds_node (g : Mark → Ty) (hg : ∀ k, (g k).vars ⊆ vs) :
    Builds 0 vs (liftM (do return g (← Store.newMark) : StoreM Ty)) Ty.vars fun t => ∃ k, t = g k :=
  builds_lift (fun _ => ⟨_, rfl⟩) fun _ _ => ⟨Store.lays_of_cells rfl rfl, hg _⟩

theorem builds_generalize {t : Ty} (ht : t.vars ⊆ vs) :
    Builds 0 vs (liftM (Store.generalize 0 t)) (fun σ => σ.type.vars) fun _ => True := by
  refine builds_lift (fun _ => trivial) fun s hs => ?_
  obtain ⟨htype, hlays⟩ := Store.generalize_of_generic (fun v hv => hs v (ht hv)) 0
  exact ⟨hlays, by rwa [htype]⟩

theorem goes_bindType {meaning : TypeMeaning} (ht : TypeEntry.vars ⟨name, meaning⟩ ⊆ vs) :
    Goes 0 vs (bindType name meaning) where
  result := fun _ _ => trivial
  entries := fun _ _ h => h.bindType trivial
  quantifiers := fun _ _ => rfl
  store := by
    intro p s _ hs
    rw [List.forall_mem_append] at hs
    refine ⟨Store.lays_of_cells rfl rfl, ?_⟩
    rw [List.append_nil]
    exact Env.forall_mem_vars.mpr ((Env.forall_mem_vars.mp hs.1).bindType fun v hv =>
      hs.2 v (ht hv))

theorem goes_bindValue (hv : v.scheme.type.vars ⊆ vs) (hentry : Entry name v) :
    Goes 0 vs (bindValue name v) where
  result := fun _ _ => trivial
  entries := fun _ _ h => h.bindValue hentry
  quantifiers := fun _ _ => rfl
  store := by
    intro p s _ hs
    rw [List.forall_mem_append] at hs
    refine ⟨Store.lays_of_cells rfl rfl, ?_⟩
    rw [List.append_nil]
    exact Env.forall_mem_vars.mpr ((Env.forall_mem_vars.mp hs.1).bindValue fun u hu =>
      hs.2 u (hv hu))

theorem goes_value {t : Ty} (ht : t.vars ⊆ vs)
    (hname : (standardSchemes 0 .plain .plain).lookup name = none) : Goes 0 vs (value name t) := by
  refine .bind (builds_generalize ht) fun σ _ => goes_bindValue ?_ ⟨nofun, standard_of_none hname _⟩
  exact List.subset_append_left _ _

theorem goes_functions {names : List String} {arg result : Ty} (harg : arg.vars ⊆ vs)
    (hresult : result.vars ⊆ vs)
    (hnames : ∀ name ∈ names, (standardSchemes 0 .plain .plain).lookup name = none) :
    Goes 0 vs (functions names arg result) := by
  refine Goes.forM (c := 0) names fun name hname => .bind
    (builds_node (fun k => .arrow k arg result) fun _ => List.append_subset.mpr ⟨harg, hresult⟩) ?_
  rintro t -
  exact goes_value (List.subset_append_left _ _) (hnames name hname)

theorem foldl_add (constructors : List (String × Option Ty)) (d : Datatype) :
    (constructors.foldl (fun d c => d.add c.1 c.2) d).params = d.params ∧
    (constructors.foldl (fun d c => d.add c.1 c.2) d).name = d.name ∧
    ∀ c ∈ (constructors.foldl (fun d c => d.add c.1 c.2) d).constructors,
      c ∈ d.constructors ∨ (c.name, c.arg) ∈ constructors := by
  induction constructors generalizing d with
  | nil => exact ⟨rfl, rfl, fun c hc => Or.inl hc⟩
  | cons first rest ih =>
    obtain ⟨hparams, hname, hrest⟩ := ih (d.add first.1 first.2)
    refine ⟨hparams, hname, fun c hc => ?_⟩
    rcases hrest c hc with hadded | hmem
    · rcases List.mem_append.mp hadded with hmem | hfirst
      · exact Or.inl hmem
      · rw [List.mem_singleton] at hfirst
        exact Or.inr (List.mem_cons.mpr (Or.inl (by rw [hfirst])))
    · exact Or.inr (List.mem_cons_of_mem first hmem)

theorem goes_declare {d : Datatype} {constructors : List (String × Option Ty)}
    (hd : d.constructors = []) (hparams : d.params ⊆ vs)
    (hargs : ∀ c ∈ constructors, ∀ t ∈ c.2, t.vars ⊆ vs)
    (hschemes : ∀ c ∈ constructors, Standard c.1 (d.scheme ⟨c.1, 0, c.2⟩)) :
    Goes 0 vs (declare d constructors) := by
  obtain ⟨hparams', hname', hmem⟩ := foldl_add constructors d
  have hargs' : Goes 0 vs
      (constructors.forM fun c => c.2.forM fun t => discard (Store.generalize 0 t)) := by
    refine Goes.forM (c := 0) constructors fun c hc => ?_
    cases harg : c.2 with
    | none => exact .pure (List.nil_subset _) trivial
    | some t => exact (builds_generalize (hargs c hc t harg)).discard
  refine .bind hargs' fun _ _ => .bind (goes_bindType ?_) fun _ _ => ?_
  · show (constructors.foldl (fun d c => d.add c.1 c.2) d).params ⊆ vs
    rwa [hparams']
  refine Goes.forM (c := 0) _ fun c hc => ?_
  have hc' : (c.name, c.arg) ∈ constructors := (hmem c hc).resolve_left (by simp [hd])
  have hscheme : (constructors.foldl (fun d c => d.add c.1 c.2) d).scheme c =
      d.scheme ⟨c.name, 0, c.arg⟩ := by
    unfold Datatype.scheme Datatype.type
    rw [hparams', hname']
  refine goes_bindValue ?_ ⟨?_, ?_⟩
  · refine List.Subset.trans (Datatype.vars_scheme _ c) (List.append_subset.mpr ⟨?_, ?_⟩)
    · rw [hparams']
      exact hparams
    · intro v hv
      obtain ⟨t, ht, hv⟩ := List.mem_flatMap.mp hv
      exact hargs _ hc' t (Option.mem_toList.mp ht) hv
  · rintro con hcon
    cases hcon
    rfl
  · rw [hscheme]
    exact hschemes _ hc'

theorem goes_exception {exn : Datatype} {arg : Option Ty} (hexn : exn.params ⊆ vs)
    (harg : arg.toList.flatMap Ty.vars ⊆ vs)
    (hname : (standardSchemes 0 .plain .plain).lookup name = none) :
    Goes 0 vs (exception exn name arg) := by
  have hbind : ∀ tag, Goes 0 vs (bindValue name ⟨exn.scheme ⟨name, tag, arg⟩,
      .exception (exn.con ⟨name, tag, arg⟩ false)⟩) := by
    intro tag
    refine goes_bindValue ?_ ⟨?_, standard_of_none hname _⟩
    · exact List.Subset.trans (Datatype.vars_scheme _ _) (List.append_subset.mpr ⟨hexn, harg⟩)
    · rintro con hcon
      cases hcon
      rfl
  exact ⟨fun _ _ => trivial, fun p => (hbind p.exceptions).entries { p with exceptions := _ },
    fun _ _ => rfl, fun p => (hbind p.exceptions).store { p with exceptions := _ }⟩

/-! ## The whole prelude -/

theorem builds_types : Builds 3 [] types (fun exn => exn.params) fun _ => True := by
  unfold types
  refine .bind (Goes.forM (c := 0) _ fun name _ => goes_bindType (List.nil_subset _)) fun _ _ => ?_
  refine .bind (goes_bindType (List.nil_subset _)) fun _ _ => ?_
  refine .bind (goes_declare rfl (List.nil_subset _) (by simp) (by simp)) fun _ _ => ?_
  refine .bind (goes_declare rfl (List.nil_subset _) (by simp) ?_) fun _ _ => ?_
  · simp only [List.forall_mem_cons]
    refine ⟨⟨0, .plain, .plain, ?_⟩, ⟨0, .plain, .plain, ?_⟩, nofun⟩ <;> rintro _ ⟨⟩ <;> rfl
  refine .bind builds_quantified fun a _ => ?_
  refine .bind (builds_node (fun k => .con k "list" [.var a]) ?_) ?_
  · simp [Ty.vars, Ty.varsList]
  rintro _ ⟨k', rfl⟩
  refine .bind (builds_node (fun k => .tuple k [.var a, .con k' "list" [.var a]]) ?_) ?_
  · simp [Ty.vars, Ty.varsList]
  rintro _ ⟨k, rfl⟩
  refine .bind (goes_declare rfl (by simp [Ty.vars, Ty.varsList]) (by simp [Ty.vars, Ty.varsList])
    ?_) fun _ _ => ?_
  · simp only [List.forall_mem_cons]
    refine ⟨⟨a, k, k', ?_⟩, ⟨a, k, k', ?_⟩, nofun⟩ <;> rintro _ ⟨⟩ <;> rfl
  refine .bind builds_quantified fun b _ => ?_
  refine .bind (goes_declare rfl (by simp) (by simp [Ty.vars]) ?_) fun _ _ => ?_
  · exact List.forall_mem_singleton.mpr (standard_of_none rfl _)
  refine .bind builds_quantified fun c _ => ?_
  refine .bind (goes_declare rfl (by simp) (by simp [Ty.vars]) ?_) fun _ _ => ?_
  · simp only [List.forall_mem_cons]
    exact ⟨standard_of_none (by decide) _, standard_of_none (by decide) _, nofun⟩
  refine .bind (goes_declare rfl (List.nil_subset _) (by simp) ?_) fun _ _ => ?_
  · simp only [List.forall_mem_cons]
    exact ⟨standard_of_none (by decide) _, standard_of_none (by decide) _,
      standard_of_none (by decide) _, nofun⟩
  exact .pure (List.nil_subset _) trivial

theorem goes_exceptions {exn : Datatype} (hexn : exn.params ⊆ vs) : Goes 0 vs (exceptions exn) := by
  iterate 3 refine .bind (goes_exception hexn (List.nil_subset _) (by decide)) fun _ _ => ?_
  exact goes_exception hexn (List.nil_subset _) (by decide)

theorem goes_operators : Goes 4 vs operators := by
  have hclosed : ∀ {us : List Var} {names : List String} (arg result : Ty), arg.vars = [] →
      result.vars = [] → (∀ name ∈ names, (standardSchemes 0 .plain .plain).lookup name = none) →
      Goes 0 us (functions names arg result) := by
    intro us names arg result harg hresult
    exact goes_functions (by simp [harg]) (by simp [hresult])
  unfold operators
  refine .bind (builds_node (fun k => .tuple k [Ty.int, Ty.int]) fun _ => List.nil_subset _) ?_
  rintro _ ⟨k, rfl⟩
  iterate 4 refine .bind (hclosed _ _ rfl rfl (by decide)) fun _ _ => ?_
  refine .bind (c := 2) (Goes.forM (c := 1) ["=", "<>"] fun name hname => ?_) fun _ _ => ?_
  · refine .bind builds_quantified fun a _ => ?_
    refine .bind (builds_node (fun k => .tuple k [.var a, .var a]) (by simp [Ty.vars, Ty.varsList]))
      ?_
    rintro _ ⟨k, rfl⟩
    refine goes_functions (List.subset_append_left _ _) (List.nil_subset _) ?_
    rw [List.forall_mem_singleton]
    revert name
    decide
  refine .bind (builds_node (fun k => .tuple k [Ty.string, Ty.string]) fun _ => List.nil_subset _)
    ?_
  rintro _ ⟨k, rfl⟩
  iterate 6 refine .bind (hclosed _ _ rfl rfl (by decide)) fun _ _ => ?_
  refine .bind builds_quantified fun a _ => ?_
  refine .bind (builds_node (fun k => .con k "ref" [.var a]) (by simp [Ty.vars, Ty.varsList])) ?_
  rintro _ ⟨k, rfl⟩
  refine .bind (goes_functions (by simp) (by simp [Ty.vars]) (by decide)) fun _ _ => ?_
  refine .bind builds_quantified fun b _ => ?_
  refine .bind (builds_node (fun k => .con k "ref" [.var b]) (by simp [Ty.vars, Ty.varsList])) ?_
  rintro _ ⟨k, rfl⟩
  refine .bind (builds_node (fun k' => .tuple k' [.con k "ref" [.var b], .var b])
    (by simp [Ty.vars, Ty.varsList])) ?_
  rintro _ ⟨k', rfl⟩
  exact goes_functions (by simp) (List.nil_subset _) (by decide)

theorem goes_build : Goes 7 [] build := by
  refine .bind builds_types fun exn _ => .bind (goes_exceptions ?_) fun _ _ => goes_operators
  exact List.subset_append_left _ _

end Prelude

namespace Env

open Prelude in
theorem initial_eq (s : Store) : Env.initial s = ((build {} s).1.2.env, (build {} s).2) := by
  have hrun : ∀ m : DraftM Unit, (m.run {} >>= fun r => pure r.2.env : StoreM Env) s =
      ((m {} s).1.2.env, (m {} s).2) := fun _ => rfl
  exact hrun build

/-- In every prelude, constructors stand under their own names. -/
theorem entries_initial (s : Store) : (Env.initial s).1.All Prelude.Entry fun _ _ => True := by
  have hbuild := Prelude.goes_build
  rw [initial_eq]
  -- what the parts come to is not to be evaluated
  generalize Prelude.build = m at hbuild
  exact hbuild.entries {} s ⟨by simp [frames, Env.empty], by simp [frames, Env.empty]⟩

theorem lays_initial (s : Store) : s.Lays (Env.initial s).2 ∧
    ∀ v ∈ (Env.initial s).1.vars, (Env.initial s).2.state v = .generic := by
  have hbuild := Prelude.goes_build
  rw [initial_eq]
  generalize Prelude.build = m at hbuild
  obtain ⟨hlays, hvars⟩ := hbuild.store {} s (by decide) (by simp [vars, frames, Env.empty])
  exact ⟨hlays, fun v hv => hvars v (List.mem_append_left _ hv)⟩

theorem within_initial (s : Store) (n : Int) : (Env.initial s).1.Within (Env.initial s).2 n :=
  within_iff.mpr (Store.keeps_upTo.mpr fun v hv =>
    Store.withinVar_of_generic ((lays_initial s).2 v hv))

/-- A regular store stays one when a prelude is built in it, and environments keep their level. -/
theorem regular_initial {s : Store} (hs : s.Regular) : (Env.initial s).2.Regular ∧
    ∀ env n, Within s n env → Within (Env.initial s).2 n env := by
  obtain ⟨hlays, -⟩ := lays_initial s
  refine ⟨hlays.regular hs, fun env n henv => ?_⟩
  rw [within_iff, Store.keeps_upTo] at henv ⊢
  exact fun v hv => (henv v hv).lay hlays hs.orderly

end Env

end Typecase
