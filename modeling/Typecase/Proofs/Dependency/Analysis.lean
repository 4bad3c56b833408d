import Typecase.Proofs.Dependency.References
import Typecase.Proofs.LabelMap
set_option autoImplicit false

/-!
# What the analysis of a recursive group records

Analyzing an expression leaves the meanings of all names and the stack of hidden meanings as
they were, and records an edge from each function of the group that is free in the
expression to the function whose clauses are being analyzed.  A declaration leaves its names
hidden; taking back as many names as it reports restores what they stood for.
-/

namespace Typecase.Graph

theorem hasEdge_addEdge {g : Graph} {v w : Nat} (hv : v < g.size) (i j : Nat) :
    (g.addEdge v w).hasEdge i j = true ↔ g.hasEdge i j = true ∨ (i = v ∧ j = w) := by
  unfold addEdge
  split
  case isTrue h =>
    constructor
    · exact .inl
    · rintro (hij | ⟨rfl, rfl⟩)
      · exact hij
      · exact h
  case isFalse h =>
    have hsize : v < g.successors.size := hv
    unfold hasEdge succ
    simp only [Array.getD_eq_getD_getElem?, Array.getElem?_modify]
    by_cases hiv : v = i
    · subst hiv
      simp [hsize]
    · simp [hiv, Ne.symm hiv]

end Typecase.Graph

namespace Typecase.Dependency

open Source

namespace Analysis

variable {a b c : Analysis} {names : List String} {n : Nat}

/-- What a name stands for. -/
def meaning (a : Analysis) (x : String) : Option Meaning := LabelMap.find? a.scopes x

/-- Every function in scope is a vertex of the graph. -/
def InRange (a : Analysis) : Prop := ∀ x i, a.meaning x = some (.member i) → i < a.graph.size

/-- The two states agree on every name and on the stack of hidden meanings. -/
structure Agrees (a b : Analysis) : Prop where
  stash : b.stash = a.stash
  meaning : ∀ x, b.meaning x = a.meaning x

/-- From `a` to `a'` the edges are recorded that lead from functions in scope in `a` with a
name for which `occurs` holds to the current function. -/
structure Records (occurs : String → Prop) (a a' : Analysis) : Prop where
  current : a'.current = a.current
  size_graph : a'.graph.size = a.graph.size
  edges : ∀ i j, a'.graph.hasEdge i j = true ↔ a.graph.hasEdge i j = true ∨
    (j = a.current ∧ ∃ x, a.meaning x = some (.member i) ∧ occurs x)

/-- The step from `a` to `a'` hides `names`; taking back `n` names undoes that. -/
structure Hides (names : List String) (n : Nat) (a a' : Analysis) : Prop where
  meaning : ∀ x, a'.meaning x = if x ∈ names then some .hidden else a.meaning x
  restored : ∀ b, a'.Agrees b → a.Agrees (b.unbindAll n)

/-! ## Binding and taking back -/

theorem meaning_bind (a : Analysis) (x y : String) :
    (a.bind x).meaning y = if y = x then some .hidden else a.meaning y :=
  LabelMap.lookup_set a.scopes x y .hidden

theorem graph_unbind (a : Analysis) : a.unbind.graph = a.graph ∧ a.unbind.current = a.current := by
  unfold unbind
  split <;> exact ⟨rfl, rfl⟩

theorem graph_unbindAll (n : Nat) (a : Analysis) :
    (a.unbindAll n).graph = a.graph ∧ (a.unbindAll n).current = a.current := by
  induction n generalizing a with
  | zero => exact ⟨rfl, rfl⟩
  | succ n ih =>
    obtain ⟨hgraph, hcurrent⟩ := ih a.unbind
    exact ⟨hgraph.trans (graph_unbind a).1, hcurrent.trans (graph_unbind a).2⟩

theorem unbindAll_add (n m : Nat) (a : Analysis) :
    a.unbindAll (n + m) = (a.unbindAll m).unbindAll n := by
  induction m generalizing a with
  | zero => rfl
  | succ m ih => exact ih a.unbind

theorem agrees_unbind {x : String} (h : (a.bind x).Agrees b) : a.Agrees b.unbind := by
  have hstash : b.stash = (x, a.meaning x) :: a.stash := h.stash
  unfold unbind
  rw [hstash]
  have hb : ∀ y, y ≠ x → b.meaning y = a.meaning y := by
    intro y hy
    rw [h.meaning y, meaning_bind, if_neg hy]
  cases hx : a.meaning x with
  | none =>
    refine ⟨rfl, fun y => ?_⟩
    refine (LabelMap.lookup_erase b.scopes x y).trans ?_
    by_cases hy : y = x
    · rw [if_pos hy, hy, hx]
    · rw [if_neg hy]
      exact hb y hy
  | some meaning =>
    refine ⟨rfl, fun y => ?_⟩
    refine (LabelMap.lookup_set b.scopes x y meaning).trans ?_
    by_cases hy : y = x
    · rw [if_pos hy, hy, hx]
    · rw [if_neg hy]
      exact hb y hy

theorem Hides.refl (a : Analysis) : Hides [] 0 a a :=
  ⟨fun _ => rfl, fun _ h => h⟩

theorem Hides.trans {names' : List String} {n' : Nat} (h : Hides names n a b)
    (h' : Hides names' n' b c) : Hides (names ++ names') (n + n') a c where
  meaning x := by
    rw [h'.meaning, h.meaning]
    by_cases hx : x ∈ names <;> by_cases hx' : x ∈ names' <;> simp [hx, hx']
  restored d hd := by
    rw [unbindAll_add]
    exact h.restored _ (h'.restored d hd)

theorem hides_bind (a : Analysis) (x : String) : Hides [x] 1 a (a.bind x) where
  meaning y := by
    rw [meaning_bind]
    simp
  restored _ h := agrees_unbind h

theorem hides_bindAll (names : List String) (a : Analysis) :
    Hides names names.length a (a.bindAll names) := by
  induction names generalizing a with
  | nil => exact .refl a
  | cons x names ih =>
    have h := (hides_bind a x).trans (ih (a.bind x))
    rwa [Nat.add_comm] at h

theorem graph_bindAll (names : List String) (a : Analysis) :
    (a.bindAll names).graph = a.graph ∧ (a.bindAll names).current = a.current := by
  induction names generalizing a with
  | nil => exact ⟨rfl, rfl⟩
  | cons x names ih => exact ih (a.bind x)

theorem Hides.keep (h : Hides names n a b) (hc : b.Agrees c) : Hides names n a c where
  meaning x := by rw [hc.meaning, h.meaning]
  restored d hd := by
    refine h.restored d ⟨?_, ?_⟩
    · rw [hd.stash, hc.stash]
    · intro x
      rw [hd.meaning, hc.meaning]

theorem Hides.after (hb : a.Agrees b) (h : Hides names n b c) : Hides names n a c where
  meaning x := by rw [h.meaning, hb.meaning]
  restored d hd := by
    have hd' := h.restored d hd
    refine ⟨?_, ?_⟩
    · rw [hd'.stash, hb.stash]
    · intro x
      rw [hd'.meaning, hb.meaning]

theorem Agrees.refl (a : Analysis) : a.Agrees a := ⟨rfl, fun _ => rfl⟩

theorem Agrees.trans (h : a.Agrees b) (h' : b.Agrees c) : a.Agrees c :=
  ⟨h'.stash.trans h.stash, fun x => (h'.meaning x).trans (h.meaning x)⟩

/-! ## Recorded edges -/

theorem records_none {a' : Analysis} (hgraph : a'.graph = a.graph)
    (hcurrent : a'.current = a.current) : Records (fun _ => False) a a' where
  current := hcurrent
  size_graph := by rw [hgraph]
  edges i j := by simp [hgraph]

/-- Records behind hidden names come from the other names only. -/
theorem Records.hidden {P Q : String → Prop} (hP : Records P a b) (hb : Hides names n a b)
    (hQ : Records Q b c) : Records (fun x => P x ∨ (x ∉ names ∧ Q x)) a c where
  current := hQ.current.trans hP.current
  size_graph := hQ.size_graph.trans hP.size_graph
  edges i j := by
    have hscope : (∃ x, b.meaning x = some (.member i) ∧ Q x) ↔
        ∃ x, a.meaning x = some (.member i) ∧ x ∉ names ∧ Q x := by
      refine exists_congr fun x => ?_
      rw [hb.meaning]
      by_cases hx : x ∈ names <;> simp [hx]
    rw [hQ.edges, hP.edges, hP.current, hscope]
    constructor
    · rintro ((h | ⟨hj, x, hx, hocc⟩) | ⟨hj, x, hx, hocc⟩)
      · exact .inl h
      · exact .inr ⟨hj, x, hx, .inl hocc⟩
      · exact .inr ⟨hj, x, hx, .inr hocc⟩
    · rintro (h | ⟨hj, x, hx, hocc | hocc⟩)
      · exact .inl (.inl h)
      · exact .inl (.inr ⟨hj, x, hx, hocc⟩)
      · exact .inr ⟨hj, x, hx, hocc⟩

theorem Records.congr {P Q : String → Prop} (h : Records P a b) (hPQ : ∀ x, P x ↔ Q x) :
    Records Q a b := by
  have heq : P = Q := funext fun x => propext (hPQ x)
  rwa [← heq]

end Analysis

open Analysis

/-- The outcome of analyzing something without names of its own in which the names with
`occurs` are free. -/
structure Analyzed (occurs : String → Prop) (a a' : Analysis) : Prop where
  agrees : a.Agrees a'
  records : a.InRange → Records occurs a a'

/-- The outcome of analyzing declarations that bind `names` and report `n`. -/
structure Declared (names : List String) (occurs : String → Prop) (a : Analysis)
    (r : Nat × Analysis) : Prop where
  hides : Hides names r.1 a r.2
  records : a.InRange → Records occurs a r.2

section Outcomes

variable {P Q : String → Prop} {a b c : Analysis} {names names' : List String} {n n' : Nat}

theorem Analysis.Agrees.hides (h : a.Agrees b) : Hides [] 0 a b :=
  ⟨fun x => by rw [h.meaning]; rfl, fun _ hd => h.trans hd⟩

theorem Analysis.InRange.hides (ha : a.InRange) (h : Hides names n a b)
    (hsize : b.graph.size = a.graph.size) : b.InRange := by
  intro x i hx
  rw [h.meaning] at hx
  by_cases hmem : x ∈ names
  · simp [hmem] at hx
  · rw [if_neg hmem] at hx
    rw [hsize]
    exact ha x i hx

theorem Analyzed.inRange (h : Analyzed P a b) (ha : a.InRange) : b.InRange :=
  ha.hides h.agrees.hides (h.records ha).size_graph

theorem Declared.inRange (h : Declared names P a (n, b)) (ha : a.InRange) : b.InRange :=
  ha.hides h.hides (h.records ha).size_graph

theorem analyzed_refl (a : Analysis) : Analyzed (fun _ => False) a a :=
  ⟨.refl a, fun _ => records_none rfl rfl⟩

theorem Analyzed.trans (h : Analyzed P a b) (h' : Analyzed Q b c) :
    Analyzed (fun x => P x ∨ Q x) a c where
  agrees := h.agrees.trans h'.agrees
  records ha := ((h.records ha).hidden h.agrees.hides (h'.records (h.inRange ha))).congr
    fun x => by simp

theorem declared_bindAll (names : List String) (a : Analysis) :
    Declared names (fun _ => False) a (names.length, a.bindAll names) where
  hides := hides_bindAll names a
  records _ := records_none (graph_bindAll names a).1 (graph_bindAll names a).2

/-- What is analyzed behind a declaration sees the names that it does not bind. -/
theorem Declared.analyze (h : Declared names P a (n, b)) (h' : Analyzed Q b c) :
    Declared names (fun x => P x ∨ (x ∉ names ∧ Q x)) a (n, c) where
  hides := h.hides.keep h'.agrees
  records ha := (h.records ha).hidden h.hides (h'.records (h.inRange ha))

theorem Analyzed.declare (h : Analyzed P a b) (h' : Declared names Q b (n, c)) :
    Declared names (fun x => P x ∨ Q x) a (n, c) where
  hides := .after h.agrees h'.hides
  records ha := ((h.records ha).hidden h.agrees.hides (h'.records (h.inRange ha))).congr
    fun x => by simp

theorem Declared.trans (h : Declared names P a (n, b)) (h' : Declared names' Q b (n', c)) :
    Declared (names ++ names') (fun x => P x ∨ (x ∉ names ∧ Q x)) a (n + n', c) where
  hides := h.hides.trans h'.hides
  records ha := (h.records ha).hidden h.hides (h'.records (h.inRange ha))

/-- Once its names are taken back, a declaration leaves only its records. -/
theorem Declared.unbind (h : Declared names P a (n, b)) : Analyzed P a (b.unbindAll n) where
  agrees := h.hides.restored b (.refl b)
  records ha := by
    obtain ⟨hgraph, hcurrent⟩ := graph_unbindAll n b
    refine ⟨hcurrent.trans (h.records ha).current, ?_, ?_⟩
    · rw [hgraph]
      exact (h.records ha).size_graph
    · rw [hgraph]
      exact (h.records ha).edges

/-- A scope: names are bound, something is analyzed behind them, they are taken back. -/
theorem Analyzed.scope (h : Analyzed Q (a.bindAll names) b) :
    Analyzed (fun x => x ∉ names ∧ Q x) a (b.unbindAll names.length) := by
  have hdecl := ((declared_bindAll names a).analyze h).unbind
  exact ⟨hdecl.agrees, fun ha => (hdecl.records ha).congr fun x => by simp⟩

theorem Analyzed.congr (h : Analyzed P a b) (hPQ : ∀ x, P x ↔ Q x) : Analyzed Q a b :=
  ⟨h.agrees, fun ha => (h.records ha).congr hPQ⟩

theorem Declared.congr {r : Nat × Analysis} (h : Declared names P a r) (hPQ : ∀ x, P x ↔ Q x) :
    Declared names Q a r :=
  ⟨h.hides, fun ha => (h.records ha).congr hPQ⟩

theorem analyzed_reference (a : Analysis) (y : String) :
    Analyzed (fun x => y = x) a (a.reference y) := by
  unfold reference
  split
  case h_1 n hn =>
    have hy : a.meaning y = some (.member n) := hn
    refine ⟨⟨rfl, fun _ => rfl⟩, fun ha => ⟨rfl, Graph.size_addEdge _ _ _, fun i j => ?_⟩⟩
    rw [Graph.hasEdge_addEdge (ha y n hy)]
    refine or_congr Iff.rfl ?_
    constructor
    · rintro ⟨rfl, rfl⟩
      exact ⟨rfl, y, hy, rfl⟩
    · rintro ⟨hj, x, hx, rfl⟩
      rw [hy] at hx
      cases hx
      exact ⟨rfl, hj⟩
  case h_2 hnot =>
    refine ⟨.refl a, fun _ => ⟨rfl, rfl, fun i j => ?_⟩⟩
    constructor
    · exact .inl
    · rintro (h | ⟨-, x, hx, rfl⟩)
      · exact h
      · exact absurd hx (hnot i)

end Outcomes

/-! ## Expressions and declarations -/

mutual

theorem analyzeExpr_analyzed : (e : Expr) → (a : Analysis) →
    Analyzed (fun x => Occurs true x e) a (analyzeExpr e a)
  | .literal .., a | .selector .., a => analyzed_refl a
  | .var _ y, a => analyzed_reference a y
  | .app _ f e, a | .andalso _ f e, a | .orelse _ f e, a =>
    (analyzeExpr_analyzed f a).trans (analyzeExpr_analyzed e _)
  | .fn _ rs, a => analyzeRules_analyzed rs a
  | .case _ e rs, a | .handle _ e rs, a =>
    (analyzeExpr_analyzed e a).trans (analyzeRules_analyzed rs _)
  | .letIn _ ds e, a => ((analyzeDecls_declared ds a).analyze (analyzeExpr_analyzed e _)).unbind
  | .tuple _ es, a | .list _ es, a | .seq _ es, a => analyzeExprs_analyzed es a
  | .record _ fs, a => analyzeFields_analyzed fs a
  | .cond _ c e e', a => by
    have hboth := (analyzeExpr_analyzed c a).trans (analyzeExpr_analyzed e _)
    exact (hboth.trans (analyzeExpr_analyzed e' _)).congr fun x => or_assoc
  | .raise _ e, a | .annot _ e _, a => analyzeExpr_analyzed e a

theorem analyzeExprs_analyzed : (es : List Expr) → (a : Analysis) →
    Analyzed (fun x => OccursExprs true x es) a (analyzeExprs es a)
  | [], a => analyzed_refl a
  | e :: es, a => (analyzeExpr_analyzed e a).trans (analyzeExprs_analyzed es _)

theorem analyzeFields_analyzed : (fs : List (String × Expr)) → (a : Analysis) →
    Analyzed (fun x => OccursFields true x fs) a (analyzeFields fs a)
  | [], a => analyzed_refl a
  | (_, e) :: fs, a => (analyzeExpr_analyzed e a).trans (analyzeFields_analyzed fs _)

theorem analyzeRules_analyzed : (rs : List Rule) → (a : Analysis) →
    Analyzed (fun x => OccursRules true x rs) a (analyzeRules rs a)
  | [], a => analyzed_refl a
  | ⟨_, p, none, e⟩ :: rs, a =>
    (analyzeExpr_analyzed e (a.bindAll (namesOf p))).scope.trans (analyzeRules_analyzed rs _)
  | ⟨_, p, some g, e⟩ :: rs, a => by
    have hg := analyzeExpr_analyzed g (a.bindAll (namesOf p))
    exact (hg.trans (analyzeExpr_analyzed e _)).scope.trans (analyzeRules_analyzed rs _)

theorem analyzeDecl_declared : (d : Decl) → (a : Analysis) →
    Declared (binders true d) (fun x => OccursDecl true x d) a (analyzeDecl d a)
  | .val _ true p e, a => by
    have hdecl := (declared_bindAll (namesOf p) a).analyze (analyzeExpr_analyzed e _)
    exact hdecl.congr fun x => iff_of_eq (false_or _)
  | .val _ false p e, a => by
    have hdecl := (analyzeExpr_analyzed e a).declare (declared_bindAll (namesOf p) _)
    exact hdecl.congr fun x => iff_of_eq (or_false _)
  | .functions _ bs, a => by
    have hdecl := (declared_bindAll (bs.map (·.name)) a).analyze (analyzeBindings_analyzed bs _)
    exact hdecl.congr fun x => iff_of_eq (false_or _)
  | .datatypes _ bs, a => declared_bindAll _ a
  | .abbreviation .., a => declared_bindAll [] a
  | .exceptions _ bs, a => declared_bindAll _ a
  | .localIn _ ds body, a => (analyzeDecls_declared ds a).trans (analyzeDecls_declared body _)

theorem analyzeDecls_declared : (ds : List Decl) → (a : Analysis) →
    Declared (bindersList true ds) (fun x => OccursDecls true x ds) a (analyzeDecls ds a)
  | [], a => declared_bindAll [] a
  | d :: ds, a => (analyzeDecl_declared d a).trans (analyzeDecls_declared ds _)

theorem analyzeBindings_analyzed : (bs : List FunBinding) → (a : Analysis) →
    Analyzed (fun x => OccursBindings true x bs) a (analyzeBindings bs a)
  | [], a => analyzed_refl a
  | ⟨_, _, cs⟩ :: bs, a => (analyzeClauses_analyzed cs a).trans (analyzeBindings_analyzed bs _)

theorem analyzeClauses_analyzed : (cs : List FunClause) → (a : Analysis) →
    Analyzed (fun x => OccursClauses true x cs) a (analyzeClauses cs a)
  | [], a => analyzed_refl a
  | ⟨_, params, _, e⟩ :: cs, a =>
    (analyzeExpr_analyzed e (a.bindAll (params.flatMap namesOf))).scope.trans
      (analyzeClauses_analyzed cs _)

end

end Typecase.Dependency
