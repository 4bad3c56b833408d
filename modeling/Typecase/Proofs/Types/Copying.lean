import Typecase.Proofs.Types.Expansion
set_option autoImplicit false

/-!
# Copies of types

The copy of a type for an instance of a scheme is the type with other variables for the quantified
ones.  It shares the parts that hold none.
-/

namespace Typecase

namespace Store

variable {n : Int} {known known' : Renaming} {s s' : Store} {t t' u x : Ty} {v w : Var} {k : Nat}

/-- A type over the variables that were there looks the same. -/
theorem Supplied.looks (h : Supplied n known s known' s') (ht : s.Resolvable t) :
    s'.Resolvable t ∧ s'.expand t = s.expand t ∧ ∀ x, x ∈ s'.nodes t ↔ x ∈ s.nodes t :=
  ht.expand_of_links h.size_le fun v hv u => by rw [h.state hv]

/-! ## What is copied -/

/-- Links from the type come to an end after at most `k` of them, and the composite types in it and
behind them are marked if they hold quantified variables. -/
structure Copyable (s : Store) (k : Nat) (t : Ty) : Prop where
  ends : s.Resolvable t
  settled : s.Settled k t
  marked : ∀ x ∈ s.nodes t, s.holdsGeneric x = true → s.isGeneric x = some true

theorem Copyable.var (h : s.Copyable k t) (hv : v ∈ t.vars) : s.Copyable k (.var v) where
  ends := h.ends.var hv
  settled := by
    have hmem : ∀ w ∈ (Ty.var v).vars, w ∈ t.vars := fun w hw => List.mem_singleton.mp hw ▸ hv
    cases k with
    | zero | succ k => exact fun w hw => h.settled w (hmem w hw)
  marked := fun x hx => h.marked x (h.ends.mem_nodes_vars.mpr (.inr ⟨v, hv, hx⟩))

theorem copyable_of_parts (hvars : ∀ v ∈ t.vars, s.Copyable k (.var v))
    (hnodes : ∀ x ∈ t.nodes, s.holdsGeneric x = true → s.isGeneric x = some true) :
    s.Copyable k t where
  ends := resolvable_of_vars fun v hv => (hvars v hv).ends
  settled := by
    cases k with
    | zero | succ k => exact fun v hv => (hvars v hv).settled v (List.mem_singleton_self v)
  marked := by
    intro x hx
    have ht : s.Resolvable t := resolvable_of_vars fun v hv => (hvars v hv).ends
    rcases ht.mem_nodes_vars.mp hx with hx | ⟨v, hv, hx⟩
    · exact hnodes x hx
    · exact (hvars v hv).marked x hx

theorem Copyable.link (h : s.Copyable (k + 1) (.var v)) (hu : s.state v = .linked u) :
    s.Copyable k u where
  ends := h.ends.link hu
  settled := h.settled v (List.mem_singleton_self v) u hu
  marked := fun x hx =>
    h.marked x (h.ends.mem_nodes.mpr (.inr ⟨v, List.mem_singleton_self v, u, hu, hx⟩))

/-- A type that holds quantified variables is seen to be generic. -/
theorem Copyable.isGeneric (h : s.Copyable k t) (hs : Supplied n known s known' s')
    (hholds : s.holdsGeneric t = true) : s'.isGeneric t = some true := by
  obtain ⟨ht', hexpand, hnodes⟩ := hs.looks h.ends
  have hlead := head_leads s' t
  have hend := ht'.leads hlead
  obtain ⟨v, hv, hgeneric⟩ := holdsGeneric_iff.mp hholds
  rw [← hexpand, ← ht'.expand_leads hlead] at hv
  cases hm : (s'.head t).mark? with
  | some m =>
    have hmem : s'.head t ∈ s.nodes t := by
      rw [← hnodes, ht'.nodes_leads hlead, hend.mem_nodes]
      exact .inl (Ty.mem_nodes_self hm)
    rw [(hs.looks (h.ends.of_mem_nodes hmem).1).2.1] at hv
    have hmarked : s.isGeneric (s'.head t) = some true :=
      h.marked _ hmem (holdsGeneric_iff.mpr ⟨v, hv, hgeneric⟩)
    rwa [isGeneric_of_head hm, hs.marks, ← isGeneric_of_mark? hm]
  | none =>
    rw [hend.expand_eq] at hv
    cases hhead : s'.head t with
    | var w =>
      rw [hhead, Ty.fill, ending_unlinked (ht'.head_unlinked hhead), Ty.vars,
        List.mem_singleton] at hv
      subst hv
      rw [Store.isGeneric, hhead]
      show some (s'.state v).isGeneric = some true
      rw [hs.state (lt_size_of_unlinked (by simp [hgeneric])), hgeneric, VarState.isGeneric]
    | rowEmpty | lost => simp [hhead, Ty.fill, Ty.vars] at hv
    | _ => simp [hhead, Ty.mark?] at hm

/-! ## What a copy is -/

/-- What stands for `v` in a copy: what is known for its number, if it is quantified. -/
def stand (s : Store) (known : Renaming) (s' : Store) (v : Var) : Ty :=
  if s.state v = .generic then ((known.lookup (s.id v)).map s'.expand).getD (.var v) else .var v

/-- What the place of `v` shows in a copy. -/
def replaced (s : Store) (known : Renaming) (s' : Store) (v : Var) : Ty :=
  (s.ending v).fill (s.stand known s')

/-- `ts'` show what `ts` show with `θ` instead of `η` for their variables.  The variables of `ts'`
are among `P`, and their composite parts among `N`. -/
structure Assembled (η θ : Var → Ty) (P : Var → Prop) (N : Ty → Prop) (ts ts' : List Ty) :
    Prop where
  fill : Ty.fillList η ts' = Ty.fillList θ ts
  vars : ∀ v ∈ Ty.varsList ts', P v
  nodes : ∀ x ∈ Ty.nodesList ts', N x

section Assembled

variable {η θ : Var → Ty} {P : Var → Prop} {N : Ty → Prop} {ts ts' us us' : List Ty}

theorem Assembled.append (h : Assembled η θ P N ts ts') (h' : Assembled η θ P N us us') :
    Assembled η θ P N (ts ++ us) (ts' ++ us') where
  fill := by rw [Ty.fillList_append, Ty.fillList_append, h.fill, h'.fill]
  vars := by
    rw [Ty.varsList_append]
    exact List.forall_mem_append.mpr ⟨h.vars, h'.vars⟩
  nodes := by
    rw [Ty.nodesList_append]
    exact List.forall_mem_append.mpr ⟨h.nodes, h'.nodes⟩

theorem assembled_single : Assembled η θ P N [t] [t'] ↔
    t'.fill η = t.fill θ ∧ (∀ v ∈ t'.vars, P v) ∧ ∀ x ∈ t'.nodes, N x := by
  constructor
  · rintro ⟨hfill, hvars, hnodes⟩
    simp only [Ty.fillList, Ty.varsList, Ty.nodesList, List.append_nil] at hfill hvars hnodes
    exact ⟨(List.cons.inj hfill).1, hvars, hnodes⟩
  · rintro ⟨hfill, hvars, hnodes⟩
    constructor <;> simp only [Ty.fillList, Ty.varsList, Ty.nodesList, List.append_nil]
    · rw [hfill]
    · exact hvars
    · exact hnodes

/-- Copies are put together from what is shared, known, and found behind links, in nodes that are
new. -/
theorem Copies.assembled {given : Renaming} {behind : Ty → Ty → Prop}
    (h : Copies n given s behind known s' ts ts') (V : Var → Prop) (M : Ty → Prop)
    (hshared : ∀ known₁ s₁ t, Supplied n given s known₁ s₁ → s₁.isGeneric t ≠ some true →
      (∀ v ∈ t.vars, V v) → (∀ x ∈ t.nodes, M x) → Assembled η θ P N [t] [t])
    (hknown : ∀ known₁ s₁ v t, Supplied n given s known₁ s₁ → s₁.state v = .generic →
      known.lookup (s₁.id v) = some t → V v → Assembled η θ P N [.var v] [t])
    (hlink : ∀ known₁ s₁ v u t, Supplied n given s known₁ s₁ → s₁.state v = .linked u →
      behind u t → V v → Assembled η θ P N [.var v] [t])
    (hnew : ∀ t m, t.mark? = some m → NewMark s s' m → N t)
    (hvars : ∀ v ∈ Ty.varsList ts, V v) (hnodes : ∀ x ∈ Ty.nodesList ts, M x) :
    Assembled η θ P N ts ts' := by
  induction h with
  | nil => exact ⟨rfl, by simp [Ty.varsList], by simp [Ty.nodesList]⟩
  | shared h₁ hnot _ ih =>
    obtain ⟨hv, hvars⟩ := List.forall_mem_append.mp hvars
    obtain ⟨hx, hnodes⟩ := List.forall_mem_append.mp hnodes
    exact (hshared _ _ _ h₁ hnot hv hx).append (ih hvars hnodes)
  | known h₁ hstate hlookup _ ih =>
    obtain ⟨hv, hvars⟩ := List.forall_mem_append.mp hvars
    exact (hknown _ _ _ _ h₁ hstate hlookup (hv _ (List.mem_singleton_self _))).append
      (ih hvars hnodes)
  | link h₁ hstate hcopy _ ih =>
    obtain ⟨hv, hvars⟩ := List.forall_mem_append.mp hvars
    exact (hlink _ _ _ _ _ h₁ hstate hcopy (hv _ (List.mem_singleton_self _))).append
      (ih hvars hnodes)
  | con hm _ _ ihparts ih | tuple hm _ _ ihparts ih =>
    obtain ⟨hv, hvars⟩ := List.forall_mem_append.mp hvars
    obtain ⟨hx, hnodes⟩ := List.forall_mem_append.mp hnodes
    have hparts := ihparts hv (List.forall_mem_cons.mp hx).2
    refine (assembled_single.mpr ?_).append (ih hvars hnodes)
    refine ⟨?_, hparts.vars, ?_⟩
    · rw [Ty.fill, Ty.fill, hparts.fill]
    · exact List.forall_mem_cons.mpr ⟨hnew _ _ rfl hm, hparts.nodes⟩
  | arrow hm _ _ ihparts ih | record hm _ _ ihparts ih =>
    obtain ⟨hv, hvars⟩ := List.forall_mem_append.mp hvars
    obtain ⟨hx, hnodes⟩ := List.forall_mem_append.mp hnodes
    simp only [Ty.varsList, Ty.nodesList, List.append_nil] at ihparts
    obtain ⟨hfill, hpv, hpx⟩ := ihparts hv (List.forall_mem_cons.mp hx).2
    simp only [Ty.fillList, Ty.varsList, Ty.nodesList, List.append_nil, List.cons.injEq,
      and_true] at hfill hpv hpx
    refine (assembled_single.mpr ?_).append (ih hvars hnodes)
    refine ⟨?_, hpv, ?_⟩
    · simp only [Ty.fill, hfill]
    · exact List.forall_mem_cons.mpr ⟨hnew _ _ rfl hm, hpx⟩
  | rowExtend hm hlabels _ _ _ ihls ihr ih =>
    obtain ⟨hv, hvars⟩ := List.forall_mem_append.mp hvars
    obtain ⟨hx, hnodes⟩ := List.forall_mem_append.mp hnodes
    obtain ⟨hvl, hvr⟩ := List.forall_mem_append.mp hv
    obtain ⟨hxl, hxr⟩ := List.forall_mem_append.mp (List.forall_mem_cons.mp hx).2
    rw [Ty.varsFields_eq] at hvl
    rw [Ty.nodesFields_eq] at hxl
    simp only [Ty.varsList, Ty.nodesList, List.append_nil] at ihr
    have hls := ihls hvl hxl
    obtain ⟨hfill, hrv, hrx⟩ := assembled_single.mp (ihr hvr hxr)
    refine (assembled_single.mpr ⟨?_, ?_, ?_⟩).append (ih hvars hnodes)
    · rw [Ty.fill, Ty.fill, Ty.fillFields_eq, Ty.fillFields_eq, hlabels, hls.fill, hfill]
    · exact List.forall_mem_append.mpr ⟨Ty.varsFields_eq _ ▸ hls.vars, hrv⟩
    · exact List.forall_mem_cons.mpr ⟨hnew _ _ rfl hm,
        List.forall_mem_append.mpr ⟨Ty.nodesFields_eq _ ▸ hls.nodes, hrx⟩⟩

end Assembled

/-- `t'` is a copy of `t` for which nothing was given: its variables are new, or lead to no
quantified variables, and its composite parts are new, or over variables that were there. -/
abbrev CopyOf (n : Int) (s : Store) (known : Renaming) (s' : Store) (t t' : Ty) : Prop :=
  Assembled s'.ending (s.replaced known s')
    (fun w => s.size ≤ w ∧ s'.state w = .unbound n ∨
      s.Resolvable (.var w) ∧ s.holdsGeneric (.var w) = false)
    (fun x => s.Resolvable x ∨ ∃ k, x.mark? = some (.node k) ∧ s.marks.size ≤ k) [t] [t']

/-- Variables that lead to no quantified variables are shared. -/
theorem replaced_shared (hs : Supplied n known' s known s') (hv : s.Resolvable (.var v))
    (hplain : s.holdsGeneric (.var v) = false) : s'.ending v = s.replaced known s' v := by
  have hending : ∀ {s : Store}, s.Resolvable (.var v) → s.expand (.var v) = s.ending v :=
    fun h => h.expand_eq
  obtain ⟨hv', hexpand, -⟩ := hs.looks hv
  rw [replaced, ← hending hv', hexpand, ← hending hv]
  have hkeep : (s.expand (.var v)).fill (s.stand known s') = (s.expand (.var v)).fill .var := by
    refine Ty.fill_congr _ fun w hw => ?_
    rw [stand, if_neg fun hgeneric => ?_]
    have hholds := holdsGeneric_iff.mpr ⟨w, hw, hgeneric⟩
    rw [hplain] at hholds
    cases hholds
  rw [hkeep, expand, expandAt_fill_var]

/-- A type that holds no quantified variables is a copy of itself. -/
theorem copyOf_shared (h : s.Resolvable t) (hs : Supplied n known' s known s')
    (hplain : s.holdsGeneric t = false) : CopyOf n s known s' t t := by
  have hvars : ∀ v ∈ t.vars, s.holdsGeneric (.var v) = false := fun v hv => h.plain_var hplain hv
  refine assembled_single.mpr ⟨?_, ?_, ?_⟩
  · exact Ty.fill_congr t fun v hv => replaced_shared hs (h.var hv) (hvars v hv)
  · exact fun v hv => .inr ⟨h.var hv, hvars v hv⟩
  · exact fun x hx => .inl (h.mono (Ty.part_of_mem_nodes t hx).1)

/-- What is known for the number of a quantified variable is a copy of the variable. -/
theorem copyOf_known (hn : Level.Valid n) (hs : Supplied n [] s known s')
    (hv : s.state v = .generic) (ht : known.lookup (s.id v) = some t) :
    CopyOf n s known s' (.var v) t := by
  rcases hs.lookup_cases ht with ⟨e, he, -⟩ | ⟨w, rfl, hw, hlt⟩
  · cases he
  have hstate : s'.state w = .unbound n := by rw [hs.fresh w hw hlt, hn.ofInt, hn.atLevel]
  have hend : s'.Resolvable (.var w) := resolvable_unlinked (by simp [hstate])
  refine assembled_single.mpr ⟨?_, ?_, by simp [Ty.nodes]⟩
  · rw [← hend.expand_eq, Ty.fill, replaced, ending_unlinked (by simp [hv]), Ty.fill, stand,
      if_pos hv, ht]
    rfl
  · intro x hx
    obtain rfl : x = w := by simpa [Ty.vars] using hx
    exact .inl ⟨hw, hstate⟩

theorem copyOf_link (h : s.Resolvable (.var v)) (hu : s.state v = .linked u)
    (ht : CopyOf n s known s' u t) : CopyOf n s known s' (.var v) t := by
  obtain ⟨hfill, hvars, hnodes⟩ := assembled_single.mp ht
  refine assembled_single.mpr ⟨hfill.trans ?_, hvars, hnodes⟩
  rw [Ty.fill, replaced, ending_linked hu, (h.link hu).expand_eq, Ty.fill_fill]
  rfl

theorem Copies.copyOf {behind : Ty → Ty → Prop} (h : Copies n [] s behind known s' [t] [t'])
    (hn : Level.Valid n) (hs : Supplied n [] s known s')
    (hlink : ∀ v u t', s.state v = .linked u → behind u t' → s.Copyable k (.var v) →
      CopyOf n s known s' u t')
    (ht : s.Copyable k t) : CopyOf n s known s' t t' := by
  refine h.assembled (fun v => s.Copyable k (.var v))
    (fun x => s.holdsGeneric x = true → s.isGeneric x = some true) ?_ ?_ ?_ ?_ ?_ ?_
  · intro known₁ s₁ t h₁ hnot hvars hnodes
    have ht := copyable_of_parts hvars hnodes
    refine copyOf_shared ht.ends hs (Bool.eq_false_iff.mpr fun hholds => ?_)
    exact hnot (ht.isGeneric h₁ hholds)
  · intro known₁ s₁ v t h₁ hstate hlookup hv
    rw [h₁.state hv.ends.lt] at hstate
    rw [h₁.id hv.ends.lt] at hlookup
    exact copyOf_known hn hs hstate hlookup
  · intro known₁ s₁ v u t h₁ hstate hcopy hv
    rw [h₁.state hv.ends.lt] at hstate
    exact copyOf_link hv.ends hstate (hlink v u t hstate hcopy hv)
  · rintro t m ht ⟨k, rfl, hk, -⟩
    exact .inr ⟨k, ht, hk⟩
  · simpa [Ty.varsList] using fun v hv => ht.var hv
  · simpa [Ty.nodesList] using fun x hx =>
      ht.marked x (ht.ends.mem_nodes_vars.mpr (.inl hx))

theorem CopyAt.copyOf (h : CopyAt n [] s (k + 1) known s' t t') (hn : Level.Valid n)
    (hs : Supplied n [] s known s') (ht : s.Copyable k t) : CopyOf n s known s' t t' := by
  induction k generalizing t t' with
  | zero =>
    refine Copies.copyOf h hn hs (fun v u t' hu _ hv => ?_) ht
    exact absurd hu (hv.settled v (List.mem_singleton_self v) u)
  | succ k ih => exact Copies.copyOf h hn hs (fun v u t' hu hcopy hv => ih hcopy (hv.link hu)) ht

/-- A copy is the type with its quantified variables replaced. -/
theorem CopyOf.expand (h : CopyOf n s known s' t t') (hs : Supplied n [] s known s')
    (ht : s.Resolvable t) :
    s'.Resolvable t' ∧ s'.expand t' = (s.expand t).fill (s.stand known s') := by
  obtain ⟨hfill, hvars, -⟩ := assembled_single.mp h
  have ht' : s'.Resolvable t' := by
    refine resolvable_of_vars fun w hw => ?_
    rcases hvars w hw with ⟨-, hstate⟩ | ⟨hold, -⟩
    · exact resolvable_unlinked (by simp [hstate])
    · exact (hs.looks hold).1
  refine ⟨ht', ?_⟩
  rw [ht'.expand_eq, hfill, ht.expand_eq, Ty.fill_fill]
  rfl

/-- Instantiating makes a copy of the type. -/
theorem instantiateType_copies (hn : Level.Valid n) (hidle : s.renames = []) (ht : s.Resolvable t)
    (hmarked : ∀ x ∈ s.nodes t, s.holdsGeneric x = true → s.isGeneric x = some true) :
    ∃ known, Supplied n [] s known (instantiateType n t s).2 ∧
      CopyOf n s known (instantiateType n t s).2 (s.head t) (instantiateType n t s).1 ∧
      (instantiateType n t s).2.renames = [] := by
  obtain ⟨known, hs, hcopy⟩ := instantiateFrom_copyAt n [] t s
  rw [hidle, List.nil_append] at hs hcopy
  have hhead := ht.leads (head_leads s t)
  have hcopyable : s.Copyable s.size (s.head t) :=
    ⟨hhead, hhead.settled, fun x hx => hmarked x ((ht.nodes_leads (head_leads s t)).mpr hx)⟩
  exact ⟨known, hs, hcopy.copyOf hn hs hcopyable, hs.idle hidle⟩

end Store

end Typecase
