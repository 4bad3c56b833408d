import Typecase.Proofs.Dependency.Analysis
import Typecase.Proofs.Graph.Components
import Mathlib.Data.List.Induction
set_option autoImplicit false

/-!
# The order of recursive groups

The components of a recursive group partition it; each refers only to itself and to earlier
components, and two functions share a component exactly if each leads to the other.  The
references that count are those that are free if the names before the `in` of a `local` stay
bound to the end of the scope around it.  For a group whose functions are never bound there
these are the free references of the language; where they are, a reference can be missed.
-/

namespace Typecase.Graph

variable {g : Graph} {cs : List (List Nat)}

theorem mem_flatten_mergeSort (cs : List (List Nat)) (v : Nat) :
    v ∈ (cs.map (·.mergeSort)).flatten ↔ v ∈ cs.flatten := by
  induction cs with
  | nil => simp
  | cons c cs ih => simp only [List.map_cons, List.flatten_cons, List.mem_append, ih,
      List.mem_mergeSort]

/-- The order inside the components does not matter. -/
theorem Layered.mergeSort (h : g.Layered cs) : g.Layered (cs.map (·.mergeSort)) := by
  induction cs with
  | nil => trivial
  | cons c cs ih =>
    obtain ⟨⟨hnodup, hne⟩, hapart, hmutual, hedges, hrest⟩ := h
    refine ⟨⟨(List.mergeSort_perm c _).nodup_iff.mpr hnodup, ?_⟩, ?_, ?_, ?_, ih hrest⟩
    · intro hnil
      have hlen : (c.mergeSort).length = 0 := congrArg List.length hnil
      rw [List.length_mergeSort] at hlen
      exact hne (List.length_eq_zero_iff.mp hlen)
    · intro v hv
      rw [mem_flatten_mergeSort]
      exact hapart v (List.mem_mergeSort.mp hv)
    · intro v hv w
      rw [List.mem_mergeSort]
      exact hmutual v (List.mem_mergeSort.mp hv) w
    · intro v hv w he
      rw [mem_flatten_mergeSort, List.mem_mergeSort]
      exact hedges v (List.mem_mergeSort.mp hv) w he

end Typecase.Graph

namespace Typecase.Dependency

open Source Analysis

/-- The components of a graph whose edges lead from numbers to those that refer to them. -/
theorem sorted_sortedComponents {g : Graph} {refers : Nat → Nat → Prop}
    (hrange : ∀ i j, refers j i → i < g.size ∧ j < g.size)
    (hedges : ∀ i j, g.hasEdge i j = true ↔ refers j i) :
    Sorted g.size refers g.sortedComponents := by
  have hedge : ∀ i j, g.Edge i j ↔ refers j i := by
    intro i j
    rw [← hedges i j]
    unfold Graph.Edge Graph.hasEdge
    simp
  have hreaches : ∀ i j, g.Reaches i j ↔ Relation.ReflTransGen refers j i := by
    intro i j
    have heq : g.Edge = Function.swap refers := by
      funext v w
      exact propext (hedge v w)
    unfold Graph.Reaches
    rw [heq]
    exact Relation.reflTransGen_swap
  obtain ⟨hlayered, hall⟩ := Graph.components_layered (g := g)
    fun i j he => (hrange i j ((hedge i j).mp he)).2
  have hsorted : g.Layered g.sortedComponents := hlayered.mergeSort
  have hmem : ∀ v, v ∈ g.sortedComponents.flatten ↔ v < g.size := by
    intro v
    exact (Graph.mem_flatten_mergeSort g.components v).trans (hall v)
  constructor
  case partition =>
    rw [List.perm_ext_iff_of_nodup hsorted.nodup List.nodup_range]
    intro v
    rw [List.mem_range]
    exact hmem v
  case nonempty => exact hsorted.ne_nil
  case earlier =>
    intro i j hij
    exact hsorted.edge_le ((hmem i).mpr (hrange i j hij).1) ((hedge i j).mpr hij)
  case together =>
    intro i j hi hj
    rw [← hreaches i j, ← hreaches j i]
    constructor
    · rintro ⟨c, hc, hic, hjc⟩
      exact ((hsorted.mutual_iff hc hic j).mp hjc).symm
    · intro hij
      obtain ⟨c, hc, hic⟩ := List.mem_flatten.mp ((hmem i).mpr hi)
      exact ⟨c, hc, hic, (hsorted.mutual_iff hc hic j).mpr hij.symm⟩

/-! ## The analysis of a whole group -/

/-- The name `x` is free in a clause. -/
def OccursClause (x : String) (clause : List Source.Pattern × Expr) : Prop :=
  x ∉ clause.1.flatMap namesOf ∧ Occurs true x clause.2

theorem analyzeClause_analyzed (clause : List Source.Pattern × Expr) (a : Analysis) :
    Analyzed (OccursClause · clause) a (analyzeClause a clause) :=
  (analyzeExpr_analyzed clause.2 _).scope

theorem foldl_analyzeClause (clauses : List (List Source.Pattern × Expr)) (a : Analysis) :
    Analyzed (fun x => ∃ clause ∈ clauses, OccursClause x clause) a
      (clauses.foldl analyzeClause a) := by
  induction clauses generalizing a with
  | nil => exact (analyzed_refl a).congr fun x => by simp
  | cons clause clauses ih =>
    exact ((analyzeClause_analyzed clause a).trans (ih _)).congr fun x => by simp

theorem foldl_agrees (bs : List (Binding × Nat)) (a : Analysis) : a.Agrees
    (bs.foldl (fun a e => e.1.clauses.foldl analyzeClause { a with current := e.2 }) a) := by
  induction bs generalizing a with
  | nil => exact .refl a
  | cons e bs ih =>
    have he := (foldl_analyzeClause e.1.clauses { a with current := e.2 }).agrees
    exact Agrees.trans ⟨he.stash, he.meaning⟩ (ih _)

/-- Function by function, the edges lead to the function that is analyzed. -/
theorem foldl_analyze (bs : List (Binding × Nat)) {a : Analysis} (ha : a.InRange) :
    let a' := bs.foldl (fun a e => e.1.clauses.foldl analyzeClause { a with current := e.2 }) a
    a'.graph.size = a.graph.size ∧ ∀ i j, a'.graph.hasEdge i j = true ↔
      a.graph.hasEdge i j = true ∨ ∃ b, (b, j) ∈ bs ∧
        ∃ x, a.meaning x = some (.member i) ∧ ∃ clause ∈ b.clauses, OccursClause x clause := by
  induction bs generalizing a with
  | nil => simp
  | cons e bs ih =>
    obtain ⟨b, k⟩ := e
    have hb := foldl_analyzeClause b.clauses { a with current := k }
    have hrecords := hb.records ha
    obtain ⟨hsize, hedges⟩ := ih (hb.inRange ha)
    refine ⟨hsize.trans hrecords.size_graph, fun i j => ?_⟩
    rw [List.foldl_cons, hedges i j, hrecords.edges i j]
    have hmeaning : ∀ x,
        Analysis.meaning (b.clauses.foldl analyzeClause { a with current := k }) x = a.meaning x :=
      hb.agrees.meaning
    simp only [hmeaning, List.mem_cons, Prod.mk.injEq]
    constructor
    · rintro ((h | ⟨rfl, x, hx, hocc⟩) | ⟨c, hc, hx⟩)
      · exact .inl h
      · exact .inr ⟨b, .inl ⟨rfl, rfl⟩, x, hx, hocc⟩
      · exact .inr ⟨c, .inr hc, hx⟩
    · rintro (h | ⟨c, ⟨rfl, rfl⟩ | hc, x, hx, hocc⟩)
      · exact .inl (.inl h)
      · exact .inl (.inr ⟨rfl, x, hx, hocc⟩)
      · exact .inr ⟨c, hc, x, hx, hocc⟩

section Group

variable {bindings : List Binding}

/-- The last function of a group with the name `x` is the one with the number `i`. -/
def IsLast (bindings : List Binding) (x : String) (i : Nat) : Prop :=
  (∃ b, bindings[i]? = some b ∧ b.name = x) ∧
    ∀ j b, i < j → bindings[j]? = some b → b.name ≠ x

theorem isLast_append (bs : List Binding) (b : Binding) (x : String) (i : Nat) :
    IsLast (bs ++ [b]) x i ↔ if x = b.name then i = bs.length else IsLast bs x i := by
  unfold IsLast
  constructor
  · rintro ⟨⟨c, hc, rfl⟩, hlater⟩
    have hi : i < bs.length ∨ i = bs.length ∧ b = c := by grind
    split
    · rename_i hname
      refine hi.elim (fun hlt => ?_) (·.1)
      exact absurd hname.symm (hlater bs.length b hlt (by simp))
    · rename_i hname
      have hlt : i < bs.length := hi.elim id fun h => absurd (congrArg _ h.2.symm) hname
      exact ⟨⟨c, by grind, rfl⟩, fun j d hj hd => hlater j d hj (by grind)⟩
  · grind

theorem meaning_start_iff (bindings : List Binding) (x : String) (m : Meaning) :
    (start bindings).meaning x = some m ↔ ∃ i, m = .member i ∧ IsLast bindings x i := by
  have hlookup : (start bindings).meaning x =
      ((bindings.zipIdx.map fun e => (e.1.name, Meaning.member e.2)).reverse.lookup x) := by
    refine (LabelMap.lookup_extend [] _ x).trans ?_
    rw [List.lookup_nil, Option.or_none]
  rw [hlookup]
  clear hlookup
  induction bindings using List.reverseRecOn with
  | nil => simp [IsLast]
  | append_singleton bs b ih =>
    simp only [isLast_append, List.zipIdx_append, List.map_append, List.reverse_append]
    by_cases hx : x = b.name
    · simp [hx, eq_comm]
    · simpa [hx, List.lookup_cons, beq_false_of_ne hx] using ih

theorem meaning_start (hnames : (bindings.map (·.name)).Nodup) (x : String) (i : Nat) :
    (start bindings).meaning x = some (.member i) ↔
      ∃ b, bindings[i]? = some b ∧ b.name = x := by
  rw [meaning_start_iff]
  constructor
  · rintro ⟨_, ⟨⟩, hfound, -⟩
    exact hfound
  · rintro ⟨b, hb, rfl⟩
    refine ⟨i, rfl, ⟨b, hb, rfl⟩, fun j c hj hc hname => Nat.ne_of_lt hj ?_⟩
    have hi : i < (bindings.map (·.name)).length := by grind
    exact (List.getElem?_inj hi hnames).mp (by simp [hb, hc, hname])

theorem hasEdge_analyze (hnames : (bindings.map (·.name)).Nodup) :
    (analyze bindings).graph.size = bindings.length ∧
      ∀ i j, (analyze bindings).graph.hasEdge i j = true ↔ Refers true bindings j i := by
  have hsize : (start bindings).graph.size = bindings.length := Graph.size_empty _
  have hrange : (start bindings).InRange := by
    intro x i hx
    obtain ⟨b, hb, -⟩ := (meaning_start hnames x i).mp hx
    rw [hsize]
    exact (List.getElem?_eq_some_iff.mp hb).1
  have hempty : ∀ i j, (start bindings).graph.hasEdge i j = false := by
    intro i j
    simp only [start, Graph.empty, Graph.hasEdge, Graph.succ, Array.getD_eq_getD_getElem?,
      Array.getElem?_replicate]
    split <;> rfl
  obtain ⟨hsize', hedges⟩ := foldl_analyze bindings.zipIdx hrange
  refine ⟨hsize'.trans hsize, fun i j => ?_⟩
  refine (hedges i j).trans ?_
  rw [hempty]
  constructor
  · rintro (h | ⟨b, hb, x, hx, clause, hclause, hocc⟩)
    · cases h
    · obtain ⟨c, hc, rfl⟩ := (meaning_start hnames x i).mp hx
      exact ⟨b, c, List.mem_zipIdx_iff_getElem?.mp hb, hc, clause, hclause, hocc⟩
  · rintro ⟨b, c, hb, hc, clause, hclause, hocc⟩
    exact .inr ⟨b, List.mem_zipIdx_iff_getElem?.mpr hb, c.name,
      (meaning_start hnames c.name i).mpr ⟨c, hc, rfl⟩, clause, hclause, hocc⟩

/-- The components are sorted by the references that the analysis finds. -/
theorem sorted_components (hnames : (bindings.map (·.name)).Nodup) :
    Sorted bindings.length (Refers true bindings) (components bindings) := by
  obtain ⟨hsize, hedges⟩ := hasEdge_analyze hnames
  rw [← hsize]
  refine sorted_sortedComponents ?_ hedges
  rintro i j ⟨b, c, hb, hc, -⟩
  rw [hsize]
  exact ⟨(List.getElem?_eq_some_iff.mp hc).1, (List.getElem?_eq_some_iff.mp hb).1⟩

end Group

/-- The components of a group of functions with different names are sorted by the references
that remain if private names stay bound, and by the references of the language if no
function of the group is bound before the `in` of a `local`. -/
theorem components_sorted (bindings : List Binding) (hnames : (bindings.map (·.name)).Nodup) :
    Sorted bindings.length (Refers true bindings) (components bindings) ∧
      (MembersNotPrivate bindings →
        Sorted bindings.length (Refers false bindings) (components bindings)) := by
  have hsorted := sorted_components hnames
  refine ⟨hsorted, fun hprivate => ?_⟩
  rw [← refers_kept hprivate]
  exact hsorted

/-- `fun even n = odd n and odd n = let local val k = 1 in val m = k end in even m end`: the
functions refer to each other, and the `local` hides neither of them. -/
def evenOdd : List Binding :=
  let p : Pos := ⟨1, 1⟩
  [⟨"even", [([.var p "n"], .app p (.var p "odd") (.var p "n"))]⟩,
    ⟨"odd", [([.var p "n"],
      .letIn p [.localIn p [.val p false (.var p "k") (.literal p ⟨.int, "1"⟩)]
        [.val p false (.var p "m") (.var p "k")]] (.app p (.var p "even") (.var p "m")))]⟩]

theorem components_sorted_evenOdd :
    (evenOdd.map (·.name)).Nodup ∧ MembersNotPrivate evenOdd ∧
      Sorted 2 (Refers false evenOdd) (components evenOdd) := by
  have hnames : (evenOdd.map (·.name)).Nodup := by decide
  have hprivate : MembersNotPrivate evenOdd := by
    simp [MembersNotPrivate, evenOdd, NotPrivate, NotPrivateDecls, NotPrivateDecl, bindersList,
      binders, namesOf, Source.Pattern.names]
  exact ⟨hnames, hprivate, (components_sorted evenOdd hnames).2 hprivate⟩

/-- `fun g y = y and f x = let local val g = 1 in val h = 2 end in g x end`: the body of the
`let` refers to the function `g`. -/
def privateName : List Binding :=
  let p : Pos := ⟨1, 1⟩
  [⟨"g", [([.var p "y"], .var p "y")]⟩,
    ⟨"f", [([.var p "x"],
      .letIn p [.localIn p [.val p false (.var p "g") (.literal p ⟨.int, "1"⟩)]
        [.val p false (.var p "h") (.literal p ⟨.int, "2"⟩)]] (.app p (.var p "g") (.var p "x")))]⟩]

/-- The reference is missed, and `f` comes before `g`. -/
theorem privateName_not_sorted :
    ¬ Sorted privateName.length (Refers false privateName) (components privateName) := by
  intro h
  have hrefers : Refers false privateName 1 0 := by
    refine ⟨_, _, rfl, rfl, _, List.mem_singleton.mpr rfl, by decide, ?_⟩
    simp [Occurs, OccursDecls, OccursDecl, bindersList, binders, namesOf, Source.Pattern.names]
  have hcomponents : components privateName = [[1], [0]] := by decide +kernel
  obtain ⟨k, m, c, d, hk, hm, hc, hd, hle⟩ := h.earlier 0 1 hrefers
  rw [hcomponents] at hk hm
  have hk' : k = 1 := by
    match k, hk with
    | 0, hk =>
      obtain rfl : [1] = c := by simpa using hk
      simp at hc
    | 1, _ => rfl
  have hm' : m = 0 := by
    match m, hm with
    | 0, _ => rfl
    | 1, hm =>
      obtain rfl : [0] = d := by simpa using hm
      simp at hd
  omega

/-! ## Balanced scopes -/

theorem mem_foldl_erase {es m : LabelMap Meaning} {e : String × Meaning}
    (h : e ∈ es.foldl (fun m e => LabelMap.erase m e.1) m) : e ∈ m ∧ ∀ e' ∈ es, e.1 ≠ e'.1 := by
  induction es generalizing m with
  | nil => exact ⟨h, nofun⟩
  | cons e' es ih =>
    obtain ⟨hmem, hrest⟩ := ih h
    obtain ⟨hm, hne⟩ := List.mem_filter.mp hmem
    exact ⟨hm, List.forall_mem_cons.mpr ⟨by simpa using hne, hrest⟩⟩

/-- An analysis that served before is as good as a new one. -/
theorem snd_components (bindings : List Binding) (a : Analysis) :
    (a.components bindings).2 = analyze bindings := by
  have hscopes : a.reset.scopes = [] := by
    refine List.eq_nil_iff_forall_not_mem.mpr fun e he => ?_
    obtain ⟨hmem, hne⟩ := mem_foldl_erase he
    exact hne e hmem rfl
  simp only [Analysis.components, hscopes]
  rfl

/-- An expression leaves what names stand for and the stack as they were, and so does a
declaration once its names are taken back.  After a group nothing is left on the stack, each name
of the group stands for its last function, nothing else is in scope, and the components are those
that a new analysis finds. -/
theorem scopes_balanced :
    (∀ (e : Expr) (a : Analysis), a.Agrees (analyzeExpr e a)) ∧
    (∀ (d : Decl) (a : Analysis), a.Agrees ((analyzeDecl d a).2.unbindAll (analyzeDecl d a).1)) ∧
    ∀ (bindings : List Binding) (a : Analysis),
      (a.components bindings).2.stash = [] ∧
      (∀ x m, (a.components bindings).2.meaning x = some m ↔
        ∃ i, m = .member i ∧ IsLast bindings x i) ∧
      (a.components bindings).1 = components bindings := by
  refine ⟨fun e a => (analyzeExpr_analyzed e a).agrees,
    fun d a => (analyzeDecl_declared d a).unbind.agrees, fun bindings a => ?_⟩
  have hagrees : (start bindings).Agrees (a.components bindings).2 := by
    rw [snd_components]
    exact foldl_agrees bindings.zipIdx (start bindings)
  refine ⟨hagrees.stash, fun x m => ?_, ?_⟩
  · rw [hagrees.meaning, meaning_start_iff]
  · show (a.components bindings).2.graph.sortedComponents = _
    rw [snd_components]
    rfl

end Typecase.Dependency
