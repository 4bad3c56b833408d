import Typecase.Proofs.Elaborate.Exports
import Typecase.Proofs.Elaborate.Steps
set_option autoImplicit false

/-!
# Datatypes of different names never meet

Types are compared by the names of their constructors.  If no two datatypes of a program share a
name, constructors whose result types can be unified belong to the same datatype, wherever in the
program they are in scope; and a pattern tests values of the datatype of its constructor only.
-/

namespace Typecase

open Source

namespace Elaborate

variable {cfg : Config} {w : Watch} {W : World} {env : Env}

theorem mem_decls_self (d : Decl) : d ∈ d.decls := by
  cases d <;> exact List.mem_cons_self

/-! ## The prelude -/

theorem knows_exceptionsOf (env : Env) : env.Knows (exceptionsOf env) := by
  refine ⟨?_, fun _ _ _ _ => trivial⟩
  intro f hf e he con hcon
  refine List.mem_flatMap.mpr ⟨f, hf, List.mem_filterMap.mpr ⟨e, he, ?_⟩⟩
  rw [hcon]

/-- The constructors of the prelude belong to datatypes that the prelude has names for. -/
theorem known_prelude (w : Watch) :
    ∃ R E, (R.map (·.name)).Sublist ((datatypesOf (Env.initial {}).1).map (·.name)) ∧
      (Env.initial {}).1.Known w ⟨R, E⟩ := by
  have hregistered := registered_prelude w.strict
  have hsub : (preludeClosed.map (·.name)).Sublist
      ((datatypesOf (Env.initial {}).1).map (·.name)) := List.filter_sublist.map _
  have hknows := knows_exceptionsOf (Env.initial {}).1
  -- the prelude stays closed, or it would be evaluated
  generalize exceptionsOf (Env.initial {}).1 = E at hknows
  generalize preludeClosed = R at hregistered hsub
  exact ⟨R, E, hsub, fun _ => hregistered, hknows⟩

/-! ## Programs -/

theorem known_poison (henv : env.Known w W) (names : List String) (s : State)
    (hnames : w.strict → ∀ x ∈ names, standard.lookup x = none) :
    (poison env names s).1.Known w W ∧ (poison env names s).2.exceptions = s.exceptions := by
  induction names generalizing env s with
  | nil => exact ⟨henv, rfl⟩
  | cons x names ih =>
    refine ih (henv.bind fun hstrict => hnames hstrict x List.mem_cons_self) _ ?_
    exact fun hstrict y hy => hnames hstrict y (List.mem_cons_of_mem x hy)

/-- The names that a declaration would bind are no standard names, wherever it stands. -/
theorem admissible_declNames (henv : env.Known w W) {d : Decl} (h : Admissible w d.decls)
    (hstrict : w.strict) {x : String} (hx : x ∈ declNames env d) : standard.lookup x = none := by
  cases hlookup : standard.lookup x with
  | none => rfl
  | some t =>
    have hcon := (henv.registered (w.tracked_of_strict hstrict)).standard_isConstructor hstrict
      hlookup
    have hmem : x ∈ declNames (Env.initial {}).1 d := mem_declNames_mono (fun _ => hcon) d hx
    rw [(h d (mem_decls_self d)).2 hstrict x hmem] at hlookup
    cases hlookup

/-- One declaration of a program.  If it fails, the names that it would bind stand for values, and
the exceptions that it introduces are counted all the same. -/
theorem declares_step (cfg : Config) (p : Progress) (d : Decl) (s : State) (henv : p.env.Known w W)
    (htests : AllTested w (Typed.declsTests p.decls) W) (h : Admissible w d.decls) :
    let events := if s.isStopped cfg then [] else eventsDecl cfg p.env 0 d s
    ∃ R', (R'.map (·.name)).Subperm (datatypeNames d.decls) ∧
      Continued s (exceptionsAmong events) (step cfg p d s).2 ∧
      (∀ env ∈ pointsAmong events, env.Known w (W.add R' (exceptionsAmong events))) ∧
      (step cfg p d s).1.env.Known w (W.add R' (exceptionsAmong events)) ∧
      AllTested w (Typed.declsTests (step cfg p d s).1.decls)
        (W.add R' (exceptionsAmong events)) := by
  rw [step_run]
  by_cases hstopped : s.isStopped cfg = true
  · simp only [if_pos hstopped]
    refine ⟨[], List.nil_subperm, ⟨rfl, rfl⟩, fun _ hmem => absurd hmem List.not_mem_nil, ?_⟩
    rw [exceptionsAmong_nil, World.add_nil]
    exact ⟨henv, htests⟩
  · have hdecl : Declares cfg _ w W (elaborateDecl p.env 0 d) (eventsDecl cfg p.env 0 d) (Made w) :=
      declares_elaborateDecl henv d h
    obtain ⟨R', hnames, hcontinued, hpoints, hmade⟩ := hdecl s
    simp only [if_neg hstopped]
    refine ⟨R', hnames, ?_⟩
    rcases hrun : elaborateDecl p.env 0 d cfg s with ⟨r, s'⟩
    rw [hrun] at hcontinued
    have hbefore : AllTested w (Typed.declsTests p.decls)
        (W.add R' (exceptionsAmong (eventsDecl cfg p.env 0 d s))) := htests.mono World.le_add
    cases r with
    | ok made =>
      obtain ⟨hmadeEnv, hmadeTests⟩ := hmade made s' hrun
      refine ⟨hcontinued, hpoints, hmadeEnv, ?_⟩
      rw [Typed.declsTests_append]
      exact hbefore.append hmadeTests
    | error stop =>
      cases stop with
      | crashed => exact ⟨hcontinued, hpoints, henv.mono World.le_add, hbefore⟩
      | failed e =>
        obtain ⟨hpoison, hcount⟩ := known_poison (henv.mono World.le_add) (declNames p.env d)
          (report e s').2 fun hstrict x hx => admissible_declNames henv h hstrict hx
        exact ⟨⟨hcontinued.1, hcount.trans hcontinued.2⟩, hpoints, hpoison, hbefore⟩

/-- All declarations of a program. -/
theorem declares_program (cfg : Config) (w : Watch) (program : Program) (p : Progress) (s : State)
    (henv : p.env.Known w W) (htests : AllTested w (Typed.declsTests p.decls) W)
    (h : Admissible w (declsDecls program)) :
    let events := eventsFrom cfg p program s
    ∃ R', (R'.map (·.name)).Subperm (datatypeNames (declsDecls program)) ∧
      Continued s (exceptionsAmong events) (steps cfg p program s).2 ∧
      (∀ env ∈ pointsAmong events, env.Known w (W.add R' (exceptionsAmong events))) ∧
      (steps cfg p program s).1.env.Known w (W.add R' (exceptionsAmong events)) ∧
      AllTested w (Typed.declsTests (steps cfg p program s).1.decls)
        (W.add R' (exceptionsAmong events)) := by
  induction program generalizing p s W with
  | nil =>
    refine ⟨[], List.nil_subperm, ⟨rfl, rfl⟩, ?_⟩
    unfold eventsFrom
    rw [show exceptionsAmong [.point p.env] = [] from rfl, World.add_nil]
    exact ⟨List.forall_mem_singleton.mpr henv, henv, htests⟩
  | cons d ds ih =>
    obtain ⟨R₁, hnames₁, hcontinued₁, hpoints₁, henv₁, htests₁⟩ :=
      declares_step cfg p d s henv htests h.append.1
    obtain ⟨R₂, hnames₂, hcontinued₂, hpoints₂, hrest⟩ :=
      ih _ (step cfg p d s).2 henv₁ htests₁ h.append.2
    unfold eventsFrom
    simp only [steps_cons, pointsAmong_append, exceptionsAmong_append]
    rw [World.add_add] at hpoints₂ hrest
    refine ⟨R₁ ++ R₂, ?_, hcontinued₁.append hcontinued₂, ?_, hrest⟩
    · rw [List.map_append, declsDecls, datatypeNames_append]
      exact hnames₁.append hnames₂
    · refine List.forall_mem_append.mpr ⟨fun env' henv' => ?_, hpoints₂⟩
      rw [← World.add_add]
      exact (hpoints₁ env' henv').mono World.le_add

/-! ## Generativity -/

/-- The type of the values that an instance of a constructor builds. -/
def resultType (level : Int) (v : ValueEntry) (s : Store) : Ty :=
  match (Store.instantiate level v.scheme s).1 with
  | .arrow _ _ result => result
  | t => t

/-- Two types can be unified in some store. -/
def CanMeet (a b : Ty) : Prop := ∃ s : Store, (Store.unify a b s).1 = .ok ()

/-- A constructor of a closed datatype is in scope under a name. -/
def InScope (env : Env) (x : String) (v : ValueEntry) (con : Con) : Prop :=
  env.value? x = some v ∧ v.con? = some con ∧ con.isOpen = false

/-- Two constructors belong to one datatype. -/
def SameDatatype (con con' : Con) : Prop :=
  ∃ d : Datatype, ∃ c ∈ d.constructors, ∃ c' ∈ d.constructors,
    con = d.con c false ∧ con' = d.con c' false

theorem resultType_con {v : ValueEntry} {d : Datatype} {c : Constructor}
    (hv : v.scheme = d.scheme c) (level : Int) (s : Store) :
    ∃ m args, resultType level v s = .con m d.name args := by
  have hinstance := d.instantiate_scheme c level s
  unfold resultType
  rw [hv]
  cases harg : c.arg with
  | none =>
    rw [harg] at hinstance
    obtain ⟨m, args, heq⟩ := hinstance
    rw [heq]
    exact ⟨m, args, rfl⟩
  | some t =>
    rw [harg] at hinstance
    obtain ⟨m, a, m', args, heq⟩ := hinstance
    rw [heq]
    exact ⟨m', args, rfl⟩

/-- Types that are made by different names cannot be unified. -/
theorem CanMeet.con_eq {m m' : Mark} {n n' : String} {args args' : List Ty}
    (h : CanMeet (.con m n args) (.con m' n' args')) : n = n' := by
  obtain ⟨s, hs⟩ := h
  by_contra hne
  have hrun : ∀ k, (Store.unifyAt k (.con m n args) (.con m' n' args') s).1 ≠ .ok () := by
    intro k hk
    cases k with
    | zero => cases hk
    | succ k =>
      have hheads : (Store.unifyHeads (Store.unifyAt k) (s.head (.con m n args))
          (s.head (.con m' n' args')) s).1 = .ok () := hk
      rw [Store.head_con, Store.head_con] at hheads
      unfold Store.unifyHeads at hheads
      rw [if_neg (by simp [hne])] at hheads
      simp only [ne_eq, hne, not_false_eq_true, if_true] at hheads
      cases hheads
  exact hrun _ hs

/-- The datatypes of a program have different names. -/
theorem eq_of_names {R R' : List Datatype} {ns ns' : List String} (hR : (R.map (·.name)).Sublist ns)
    (hR' : (R'.map (·.name)).Subperm ns') (hnodup : (ns ++ ns').Nodup) {d d' : Datatype}
    (hd : d ∈ R ++ R') (hd' : d' ∈ R ++ R') (heq : d.name = d'.name) : d = d' := by
  have hall : ((R ++ R').map (·.name)).Nodup := by
    rw [List.map_append]
    obtain ⟨ms, hperm, hms⟩ := hR.subperm.append hR'
    exact hperm.nodup_iff.mp (hnodup.sublist hms)
  exact List.inj_on_of_nodup_map hall hd hd' heq

/-- Datatype declarations are generative, provided that no two datatypes of the program and the
prelude share a name.  Constructors of closed datatypes, in scope at any two points of the
program, belong to the same datatype if their result types can be unified.  If moreover the
names that programs use implicitly are not bound anew, no pattern of the outcome tests a
constructor at a type that can be met by what a constructor of another datatype builds. -/
theorem datatypes_generative (cfg : Config) (program : Program) (s : State)
    (hnames : ((datatypesOf (Env.initial {}).1).map (·.name) ++
      datatypeNames (declsDecls program)).Nodup) :
    (∀ env ∈ points cfg program (Env.initial {}).1 s,
      ∀ env' ∈ points cfg program (Env.initial {}).1 s,
      ∀ x v con x' v' con', InScope env x v con → InScope env' x' v' con' →
        ∀ level s₁ level' s₂, CanMeet (resultType level v s₁) (resultType level' v' s₂) →
          SameDatatype con con') ∧
    ((∀ d ∈ declsDecls program, ∀ x ∈ declNames (Env.initial {}).1 d,
        standard.lookup x = none) →
      ∀ test ∈ Typed.declsTests (elaborateProgram cfg program (Env.initial {}).1 s).1.decls,
        test.2.isOpen = false →
        ∀ env ∈ points cfg program (Env.initial {}).1 s, ∀ x v con, InScope env x v con →
          ∀ level s₁, CanMeet test.1 (resultType level v s₁) → SameDatatype test.2 con) := by
  have hexn : ∀ d ∈ declsDecls program, "exn" ∉ d.datatypeNames := by
    intro d hd hmem
    exact List.disjoint_of_nodup_append hnames prelude_entries.2.2.1 (List.mem_flatMap.mpr ⟨d, hd, hmem⟩)
  constructor
  · intro env henv env' henv' x v con x' v' con' hin hin' level s₁ level' s₂ hmeet
    obtain ⟨R, E, hsub, hprelude⟩ := known_prelude ⟨True, False, fun _ => trivial⟩
    obtain ⟨R', hR', -, hpoints, -⟩ := declares_program cfg _ program
      { env := (Env.initial {}).1.scope } s.reset hprelude.scope (fun h => h.elim)
      fun d hd => ⟨fun _ => hexn d hd, fun h => h.elim⟩
    obtain ⟨d, hd, c, hc, rfl, hv⟩ :=
      (((hpoints env henv).registered trivial).entries.value? hin.1).1 con hin.2.1 hin.2.2
    obtain ⟨d', hd', c', hc', rfl, hv'⟩ :=
      (((hpoints env' henv').registered trivial).entries.value? hin'.1).1 con' hin'.2.1 hin'.2.2
    obtain ⟨m, args, heq⟩ := resultType_con hv level s₁
    obtain ⟨m', args', heq'⟩ := resultType_con hv' level' s₂
    rw [heq, heq'] at hmeet
    have hdd : d = d' := eq_of_names hsub hR' hnames hd hd' hmeet.con_eq
    subst hdd
    exact ⟨d, c, hc, c', hc', rfl, rfl⟩
  · intro hstandard test htest hclosed env henv x v con hin level s₁ hmeet
    obtain ⟨R, E, hsub, hprelude⟩ := known_prelude ⟨True, True, id⟩
    obtain ⟨R', hR', -, hpoints, -, htests⟩ := declares_program cfg _ program
      { env := (Env.initial {}).1.scope } s.reset hprelude.scope
      (fun _ _ h => absurd h List.not_mem_nil)
      fun d hd => ⟨fun _ => hexn d hd, fun _ => hstandard d hd⟩
    obtain ⟨d, hd, c, hc, hcon, m, args, heq⟩ := htests trivial test htest hclosed
    obtain ⟨d', hd', c', hc', rfl, hv'⟩ :=
      (((hpoints env henv).registered trivial).entries.value? hin.1).1 con hin.2.1 hin.2.2
    obtain ⟨m', args', heq'⟩ := resultType_con hv' level s₁
    rw [heq, heq'] at hmeet
    have hdd : d = d' := eq_of_names hsub hR' hnames hd hd' hmeet.con_eq
    subst hdd
    exact ⟨d, c, hc, c', hc', hcon, rfl⟩

/-- `datatype t = A | B of int val n = case A of A => 0 | B k => k` -/
def twoConstructors : Program :=
  let p := Pos.none
  [.datatypes p [⟨p, [], "t", [⟨p, "A", none⟩, ⟨p, "B", some (.con p "int" [])⟩]⟩],
    .val p false (.var p "n") (.case p (.var p "A")
      [⟨p, .var p "A", none, .literal p ⟨.int, "0"⟩⟩,
        ⟨p, .con p "B" (some (.var p "k")), none, .var p "k"⟩])]

theorem datatypes_generative_twoConstructors :
    SameDatatype ⟨6, "t", some [("A", false), ("B", true)], "A", 0, false, false⟩
      ⟨6, "t", some [("A", false), ("B", true)], "B", 1, true, false⟩ ∧
    ∀ test ∈ Typed.declsTests
        (elaborateProgram {} twoConstructors (Env.initial {}).1 preludeState).1.decls,
      SameDatatype test.2 ⟨6, "t", some [("A", false), ("B", true)], "A", 0, false, false⟩ := by
  let t : Ty := .con .plain "t" []
  let con : Con := ⟨6, "t", some [("A", false), ("B", true)], "A", 0, false, false⟩
  let con' : Con := ⟨6, "t", some [("A", false), ("B", true)], "B", 1, true, false⟩
  let v : ValueEntry := ⟨⟨[], t⟩, .constructor con⟩
  let v' : ValueEntry := ⟨⟨[], .arrow .plain Ty.int t⟩, .constructor con'⟩
  have hlast : ∃ env ∈ points {} twoConstructors (Env.initial {}).1 preludeState,
      env.value? "A" = some v ∧ env.value? "B" = some v' := by
    decide +kernel
  have htests : ∀ test ∈ Typed.declsTests
      (elaborateProgram {} twoConstructors (Env.initial {}).1 preludeState).1.decls,
      test.1 = t ∧ test.2.isOpen = false := by
    decide +kernel
  have hnew : ∀ d ∈ declsDecls twoConstructors, ∀ x ∈ declNames (Env.initial {}).1 d,
      standard.lookup x = none := by
    decide +kernel
  obtain ⟨env, henv, hA, hB⟩ := hlast
  obtain ⟨hsame, hcase⟩ := datatypes_generative {} twoConstructors preludeState (by decide +kernel)
  refine ⟨?_, ?_⟩
  · exact hsame env henv env henv "A" v con "B" v' con' ⟨hA, rfl, rfl⟩ ⟨hB, rfl, rfl⟩ 1 {} 1 {}
      ⟨{}, rfl⟩
  · intro test htest
    obtain ⟨htype, hclosed⟩ := htests test htest
    refine hcase hnew test htest hclosed env henv "A" v con ⟨hA, rfl, rfl⟩ 1 {} ?_
    rw [htype]
    exact ⟨{}, rfl⟩

/-- `datatype t = A val a = A datatype t = B of int val n = case a of B k => k` -/
def redeclared : Program :=
  let p := Pos.none
  [.datatypes p [⟨p, [], "t", [⟨p, "A", none⟩]⟩],
    .val p false (.var p "a") (.var p "A"),
    .datatypes p [⟨p, [], "t", [⟨p, "B", some (.con p "int" [])⟩]⟩],
    .val p false (.var p "n") (.case p (.var p "a")
      [⟨p, .con p "B" (some (.var p "k")), none, .var p "k"⟩])]

/-- `datatype t = nil val n = case [1] of [] => 0` -/
def ownNil : Program :=
  let p := Pos.none
  [.datatypes p [⟨p, [], "t", [⟨p, "nil", none⟩]⟩],
    .val p false (.var p "n") (.case p (.list p [.literal p ⟨.int, "1"⟩])
      [⟨p, .list p [], none, .literal p ⟨.int, "0"⟩⟩])]

theorem not_sameDatatype {con con' : Con} (h : con.datatype ≠ con'.datatype) :
    ¬ SameDatatype con con' := by
  rintro ⟨d, c, -, c', -, rfl, rfl⟩
  exact h rfl

/-- Both conditions are needed.  Datatypes that share a name are taken for each other, and a list
pattern tests whatever constructor has the name `nil`; neither is reported. -/
theorem redeclared_not_generative :
    ((elaborateProgram {} redeclared (Env.initial {}).1 preludeState).1.diagnostics = [] ∧
      ∃ env ∈ points {} redeclared (Env.initial {}).1 preludeState, ∃ v con s₁,
        InScope env "A" v con ∧
        ∃ test ∈ Typed.declsTests
            (elaborateProgram {} redeclared (Env.initial {}).1 preludeState).1.decls,
          CanMeet test.1 (resultType 1 v s₁) ∧ ¬ SameDatatype test.2 con) ∧
    ((elaborateProgram {} ownNil (Env.initial {}).1 preludeState).1.diagnostics = [] ∧
      ∃ env ∈ points {} ownNil (Env.initial {}).1 preludeState, ∃ v con s₁,
        InScope env "::" v con ∧
        ∃ test ∈ Typed.declsTests
            (elaborateProgram {} ownNil (Env.initial {}).1 preludeState).1.decls,
          CanMeet test.1 (resultType 1 v s₁) ∧ ¬ SameDatatype test.2 con) := by
  let t : Ty := .con .plain "t" []
  let a : Con := ⟨6, "t", some [("A", false)], "A", 0, false, false⟩
  let cons : Con := ⟨2, "list", some [("nil", false), ("::", true)], "::", 1, true, false⟩
  let pair : Ty := .tuple (.node 1) [.var 0, .con (.node 0) "list" [.var 0]]
  let list : Scheme := ⟨[0], .arrow .generic pair (.con .generic "list" [.var 0])⟩
  let s := (elaborateProgram {} ownNil (Env.initial {}).1 preludeState).2.store
  have hredeclared :
      (elaborateProgram {} redeclared (Env.initial {}).1 preludeState).1.diagnostics = [] ∧
      ∃ env ∈ points {} redeclared (Env.initial {}).1 preludeState,
        env.value? "A" = some ⟨⟨[], t⟩, .constructor a⟩ ∧
        ∃ test ∈ Typed.declsTests
            (elaborateProgram {} redeclared (Env.initial {}).1 preludeState).1.decls,
          test.1 = t ∧ test.2.datatype ≠ a.datatype := by
    decide +kernel
  have hnil : (elaborateProgram {} ownNil (Env.initial {}).1 preludeState).1.diagnostics = [] ∧
      ∃ env ∈ points {} ownNil (Env.initial {}).1 preludeState,
        env.value? "::" = some ⟨list, .constructor cons⟩ ∧
        ∃ test ∈ Typed.declsTests
            (elaborateProgram {} ownNil (Env.initial {}).1 preludeState).1.decls,
          (Store.unify test.1 (resultType 1 ⟨list, .constructor cons⟩ s)
            (Store.instantiate 1 list s).2).1 = .ok () ∧ test.2.datatype ≠ cons.datatype := by
    decide +kernel
  refine ⟨⟨hredeclared.1, ?_⟩, ⟨hnil.1, ?_⟩⟩
  · obtain ⟨env, henv, hA, test, htest, htype, hne⟩ := hredeclared.2
    refine ⟨env, henv, _, a, {}, ⟨hA, rfl, rfl⟩, test, htest, ?_, not_sameDatatype hne⟩
    rw [htype]
    exact ⟨{}, rfl⟩
  · obtain ⟨env, henv, hcons, test, htest, hmeet, hne⟩ := hnil.2
    exact ⟨env, henv, _, cons, s, ⟨hcons, rfl, rfl⟩, test, htest, ⟨_, hmeet⟩, not_sameDatatype hne⟩

end Elaborate

end Typecase
