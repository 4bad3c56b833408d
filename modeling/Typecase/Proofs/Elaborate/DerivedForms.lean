import Typecase.Proofs.Elaborate.Generalization
import Typecase.Proofs.Elaborate.Registry
import Typecase.Proofs.Types.Expansion
set_option autoImplicit false

/-!
# Constructors in derived forms

Lists and conditionals stand for constructors that the program does not write.  The constructors
are looked up by name where the form stands, but they are used at the types of lists and of truth
values.  These are their own types as long as the names mean what they mean in the prelude.
-/

namespace Typecase

/-- The type `t` is the type of `σ` with types in the place of the quantified variables. -/
def Scheme.HasInstance (σ : Scheme) (t : Ty) : Prop :=
  ∃ θ : Var → Ty, (∀ v, v ∉ σ.bound → θ v = .var v) ∧ t.fill .var = σ.type.fill θ

/-- The type of what a constructor makes. -/
def Scheme.result (σ : Scheme) : Scheme :=
  match σ.type with
  | .arrow _ _ r => ⟨σ.bound, r⟩
  | _ => σ

theorem Scheme.hasInstance_type (σ : Scheme) : σ.HasInstance σ.type :=
  ⟨.var, fun _ _ => rfl, rfl⟩

namespace Elaborate

open Source Prelude

variable {cfg : Config} {env : Env} {level : Int} {pos : Pos}

/-! ## The constructors of the prelude -/

/-- The name `x` stands for the constructor `con`.  If it means what it means in a prelude, `t`
is an instance of the given part of the constructor's type. -/
def UsedAsOwn (env : Env) (part : Scheme → Scheme) (x : String) (con : Con) (t : Ty) : Prop :=
  ∃ v, env.value? x = some v ∧ v.con? = some con ∧
    ((∃ s, env.value? x = (Env.initial s).1.value? x) → (part v.scheme).HasInstance t)

theorem scheme_standard {x : String} {v : ValueEntry} (hv : env.value? x = some v)
    (hsame : ∃ s, env.value? x = (Env.initial s).1.value? x) : Standard x v.scheme := by
  obtain ⟨s, hsame⟩ := hsame
  exact ((Env.entries_initial s).value? (hsame ▸ hv)).scheme

theorem usedAsOwn_of_standard {part : Scheme → Scheme} {x : String} {con : Con} {t : Ty}
    {τ : Scheme} (hcon : ∃ v, env.value? x = some v ∧ v.con? = some con ∧ v.scheme = τ)
    (ht : ∀ a k k', ∃ σ, (standardSchemes a k k').lookup x = some σ ∧ (part σ).HasInstance t) :
    UsedAsOwn env part x con t := by
  obtain ⟨v, hv, hcon, -⟩ := hcon
  refine ⟨v, hv, hcon, fun hsame => ?_⟩
  obtain ⟨a, k, k', hscheme⟩ := scheme_standard hv hsame
  obtain ⟨σ, hσ, hinstance⟩ := ht a k k'
  exact hscheme σ hσ ▸ hinstance

/-- The type that stands for the parameter `a` of lists. -/
def atElement (elem : Ty) (a v : Var) : Ty := if v = a then elem.fill .var else .var v

theorem atElement_self (elem : Ty) (a : Var) : atElement elem a a = elem.fill .var := if_pos rfl

theorem atElement_of_ne (elem : Ty) (a v : Var) (hv : v ∉ [a]) : atElement elem a v = .var v :=
  if_neg (by simpa using hv)

theorem hasInstance_list (elem : Ty) (a : Var) (j m : Mark) :
    Scheme.HasInstance ⟨[a], .con j "list" [.var a]⟩ (.con m "list" [elem]) :=
  ⟨atElement elem a, atElement_of_ne elem a, by simp [Ty.fill, Ty.fillList, atElement_self]⟩

/-! ## Lists -/

theorem yields_mkList (elem : Ty) : Yields cfg (liftStore (Ty.mkList elem)) fun list =>
    ∃ m, list = .con m "list" [elem] :=
  .liftStore fun _ => ⟨_, rfl⟩

theorem yields_listExpr (elements : Ty → ElaborateM (List Typed.Expr)) :
    Yields cfg (listExpr env level pos elements) fun e =>
      ∃ nil cons list pair func es, e = listOf pos nil cons list pair func es ∧
        UsedAsOwn env id "nil" nil list ∧ UsedAsOwn env id "::" cons func := by
  refine .bind (yields_constructor "nil") ?_
  rintro ⟨nil, _⟩ hnil
  refine .bind (yields_constructor "::") ?_
  rintro ⟨cons, _⟩ hcons
  refine .then fun elem => .bind (yields_mkList elem) ?_
  rintro _ ⟨m, rfl⟩
  refine .then fun es => .bind (P := fun pair => ∃ k, pair = .tuple k [elem, .con m "list" [elem]])
    (.liftStore fun _ => ⟨_, rfl⟩) ?_
  rintro _ ⟨k, rfl⟩
  refine .bind (P := fun func => ∃ j, func =
      .arrow j (.tuple k [elem, .con m "list" [elem]]) (.con m "list" [elem]))
    (.liftStore fun _ => ⟨_, rfl⟩) ?_
  rintro _ ⟨j, rfl⟩
  refine .pure ⟨nil, cons, _, _, _, es, rfl, ?_, ?_⟩
  · exact usedAsOwn_of_standard hnil fun a k k' => ⟨_, rfl, hasInstance_list elem a _ m⟩
  · refine usedAsOwn_of_standard hcons fun a k k' => ⟨_, rfl, atElement elem a, ?_, ?_⟩
    · exact atElement_of_ne elem a
    · simp [Ty.fill, Ty.fillList, atElement_self]

/-- The list pattern with the given elements, of type `list`. -/
inductive ListPattern (pos : Pos) (nil cons : Con) (list : Ty) :
    List (Pattern Note) → Pattern Note → Prop where
  | nil : ListPattern pos nil cons list [] (.con ⟨pos, list⟩ nil none)
  | cons {p : Pattern Note} {ps : List (Pattern Note)} {tail : Pattern Note} {pair : Note} :
    ListPattern pos nil cons list ps tail →
    ListPattern pos nil cons list (p :: ps) (.con ⟨p.pos, list⟩ cons (some (.tuple pair [p, tail])))

theorem yields_listPattern_form (nil cons : Con) (elem list : Ty) (ps : List (Pattern Note)) :
    Yields cfg (listPattern pos nil cons elem list ps) (ListPattern pos nil cons list ps) := by
  induction ps with
  | nil => exact .pure .nil
  | cons p ps ih => exact .bind ih fun tail htail => .then fun pair => .pure (.cons htail)

/-- A computation that collects variables and whose result has the property `P`. -/
def CollectYields {α : Type} (cfg : Config) (m : PatternM α) (P : α → Prop) : Prop :=
  ∀ vars, Yields cfg (m vars) fun r => P r.1

theorem CollectYields.lift {α : Type} {m : ElaborateM α} {P : α → Prop} (hm : Yields cfg m P) :
    CollectYields cfg (liftM m) P :=
  fun _ => .bind hm fun _ ha => .pure ha

theorem CollectYields.bind {α β : Type} {m : PatternM α} {k : α → PatternM β} {P : α → Prop}
    {Q : β → Prop} (hm : CollectYields cfg m P) (hk : ∀ a, P a → CollectYields cfg (k a) Q) :
    CollectYields cfg (m >>= k) Q :=
  fun vars => .bind (hm vars) fun r hr => hk r.1 hr r.2

theorem CollectYields.then {α β : Type} {m : PatternM α} {k : α → PatternM β} {Q : β → Prop}
    (hk : ∀ a, CollectYields cfg (k a) Q) : CollectYields cfg (m >>= k) Q :=
  .bind (P := fun _ => True) (fun _ _ _ _ _ => trivial) fun a _ => hk a

theorem collectYields_list (ps : List Source.Pattern) :
    CollectYields cfg (elaboratePattern env level (.list pos ps)) fun p =>
      ∃ nil cons list ps, ListPattern pos nil cons list ps p ∧
        UsedAsOwn env .result "nil" nil list ∧ UsedAsOwn env .result "::" cons list := by
  rw [elaboratePattern]
  refine .bind (.lift (yields_constructor "nil")) ?_
  rintro ⟨nil, _⟩ hnil
  refine .bind (.lift (yields_constructor "::")) ?_
  rintro ⟨cons, _⟩ hcons
  refine .then fun elem => .bind (.lift (yields_mkList elem)) ?_
  rintro _ ⟨m, rfl⟩
  refine .then fun typed vars s r s' h => ⟨nil, cons, _, typed,
    CollectYields.lift (yields_listPattern_form nil cons elem _ typed) vars s r s' h, ?_, ?_⟩
  · exact usedAsOwn_of_standard hnil fun a k k' => ⟨_, rfl, hasInstance_list elem a _ m⟩
  · exact usedAsOwn_of_standard hcons fun a k k' => ⟨_, rfl, hasInstance_list elem a _ m⟩

/-! ## Conditionals -/

/-- A case analysis of a truth value, which tests the given constructors. -/
def IsConditional (env : Env) (ct cf : Con) (a b e : Typed.Expr) : Prop :=
  ∃ note c p q m, e = .case note c [⟨.con ⟨p, Ty.bool⟩ ct none, none, a⟩,
      ⟨.con ⟨q, Ty.bool⟩ cf none, none, b⟩] m ∧
    UsedAsOwn env .result "true" ct Ty.bool ∧ UsedAsOwn env .result "false" cf Ty.bool

theorem yields_conditional {test whenTrue whenFalse : Part} {P Q : Typed.Expr → Prop}
    (htrue : Yields cfg whenTrue.elaborate P) (hfalse : Yields cfg whenFalse.elaborate Q) :
    Yields cfg (conditional env pos test whenTrue whenFalse) fun e =>
      ∃ ct cf a b, P a ∧ Q b ∧ IsConditional env ct cf a b e := by
  refine .bind (yields_constructor "true") ?_
  rintro ⟨ct, _⟩ hct
  refine .bind (yields_constructor "false") ?_
  rintro ⟨cf, _⟩ hcf
  refine .then fun c => .then fun _ => .bind htrue fun a ha => .bind hfalse fun b hb => ?_
  refine .then fun _ => .then fun m => .pure ⟨ct, cf, a, b, ha, hb, _, c, _, _, m, rfl, ?_, ?_⟩
  · exact usedAsOwn_of_standard hct fun _ _ _ => ⟨_, rfl, Scheme.hasInstance_type _⟩
  · exact usedAsOwn_of_standard hcf fun _ _ _ => ⟨_, rfl, Scheme.hasInstance_type _⟩

/-- An identifier that the program does not write, for a truth value. -/
def IsTruthValue (env : Env) (pos : Pos) (x : String) (con : Con) (e : Typed.Expr) : Prop :=
  ∃ t, e = .var ⟨pos, t⟩ x (some con) ∧ UsedAsOwn env id x con t

theorem yields_truthValue {x : String}
    (hx : ∀ a k k', (standardSchemes a k k').lookup x = some (.mono Ty.bool)) :
    Yields cfg (identifier env level pos x) fun e =>
      ∀ con t, UsedAsOwn env .result x con t → IsTruthValue env pos x con e := by
  unfold identifier
  cases hv : env.value? x with
  | none => exact .fail
  | some v =>
    refine .bind (P := fun t => v.scheme = .mono Ty.bool → t = Ty.bool)
      (.then fun _ => .liftStore fun s hbool => by rw [hbool]; rfl) fun t ht => .pure ?_
    rintro con _ ⟨w, hw, hcon, -⟩
    obtain rfl : v = w := Option.some.inj (hv.symm.trans hw)
    refine ⟨t, by rw [hcon], v, hv, hcon, fun hsame => ?_⟩
    obtain ⟨a, k, k', hscheme⟩ := scheme_standard hv hsame
    have hbool := hscheme _ (hx a k k')
    rw [id, ht hbool, hbool]
    exact Scheme.hasInstance_type (.mono Ty.bool)

/-- Whenever a list, a list pattern or a conditional elaborates, in whatever environment, each
constructor that it brings in is the one of that name in the environment.  Where the name means
what it means in a prelude, the constructor is used at an instance of its own type scheme, and
tested at an instance of the type of what it makes. -/
theorem derived_constructors_at_own_types (cfg : Config) (env : Env) (level : Int) (pos : Pos) :
    (∀ es, Yields cfg (elaborateExpr env level (.list pos es)) fun e =>
      ∃ nil cons list pair func es, e = listOf pos nil cons list pair func es ∧
        UsedAsOwn env id "nil" nil list ∧ UsedAsOwn env id "::" cons func) ∧
    (∀ ps vars, Yields cfg (elaboratePattern env level (.list pos ps) vars) fun r =>
      ∃ nil cons list ps, ListPattern pos nil cons list ps r.1 ∧
        UsedAsOwn env .result "nil" nil list ∧ UsedAsOwn env .result "::" cons list) ∧
    (∀ c a b, Yields cfg (elaborateExpr env level (.cond pos c a b)) fun e =>
      ∃ ct cf a b, IsConditional env ct cf a b e) ∧
    (∀ a b, Yields cfg (elaborateExpr env level (.andalso pos a b)) fun e =>
      ∃ ct cf a b, IsTruthValue env pos "false" cf b ∧ IsConditional env ct cf a b e) ∧
    (∀ a b, Yields cfg (elaborateExpr env level (.orelse pos a b)) fun e =>
      ∃ ct cf a b, IsTruthValue env pos "true" ct a ∧ IsConditional env ct cf a b e) := by
  have hany : ∀ e, Yields cfg (elaborateExpr env level e) fun _ => True := fun _ _ _ _ _ => trivial
  refine ⟨fun es => ?_, fun ps vars => ?_, fun c a b => ?_, fun a b => ?_, fun a b => ?_⟩
  · rw [elaborateExpr]
    exact yields_listExpr _
  · exact collectYields_list ps vars
  · rw [elaborateExpr]
    intro s e s' h
    obtain ⟨ct, cf, a, b, -, -, he⟩ := yields_conditional (hany a) (hany b) s e s' h
    exact ⟨ct, cf, a, b, he⟩
  · rw [elaborateExpr]
    intro s e s' h
    obtain ⟨ct, cf, a, b, -, hb, he⟩ := yields_conditional (hany b)
      (yields_truthValue fun _ _ _ => rfl) s e s' h
    obtain ⟨-, -, -, -, -, -, -, hcf⟩ := id he
    exact ⟨ct, cf, a, b, hb cf _ hcf, he⟩
  · rw [elaborateExpr]
    intro s e s' h
    obtain ⟨ct, cf, a, b, ha, -, he⟩ := yields_conditional
      (yields_truthValue fun _ _ _ => rfl) (hany b) s e s' h
    obtain ⟨-, -, -, -, -, -, hct, -⟩ := id he
    exact ⟨ct, cf, a, b, ha ct _ hct, he⟩

/-- `datatype t = nil  val x = []` -/
def emptyOfOwn : Program :=
  let p := Pos.none
  [.datatypes p [⟨p, [], "t", [⟨p, "nil", none⟩]⟩], .val p false (.var p "x") (.list p [])]

/-- The constructor that a declaration binds a name to, with the type at which it is used. -/
def boundConstructor : Typed.Decl → Option (Con × Ty)
  | .val _ _ (.var note _ con) _ _ => con.map fun con => (con, note.type)
  | _ => none

/-- Where `nil` is declared anew, the empty list is the new constructor, but has the type of a
list, which is no instance of the new constructor's type. -/
theorem empty_list_not_at_own_type :
    let made := (elaborateProgram {} emptyOfOwn (Env.initial {}).1 preludeState).1
    made.diagnostics = [] ∧ ∃ con t σ, made.decls.filterMap boundConstructor = [(con, t)] ∧
      made.env.value? "nil" = some ⟨σ, .constructor con⟩ ∧ ¬ σ.HasInstance t := by
  intro made
  let con : Con := ⟨6, "t", some [("nil", false)], "nil", 0, false, false⟩
  let t : Ty := .con (.node 30) "list" [.var 7]
  let σ : Scheme := ⟨[], .con .plain "t" []⟩
  have hmade : made.diagnostics = [] ∧ made.decls.filterMap boundConstructor = [(con, t)] ∧
      made.env.value? "nil" = some ⟨σ, .constructor con⟩ := by
    decide +kernel
  refine ⟨hmade.1, con, t, σ, hmade.2.1, hmade.2.2, ?_⟩
  rintro ⟨θ, -, hθ⟩
  simp [t, σ, Ty.fill] at hθ

end Elaborate

end Typecase
