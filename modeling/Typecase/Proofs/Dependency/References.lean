import Typecase.Dependency
import Mathlib.Logic.Relation
import Mathlib.Tactic.Tauto
set_option autoImplicit false

/-!
# Free references

Which names an expression refers to that are bound outside of it.  Parameters and the
patterns of rules bind in their clauses, declarations in the declarations after them and in
the body of their `let`, and recursive declarations also in themselves.

The names that stand before the `in` of a `local` are visible inside of it only.  With
`kept` they stay bound until the scope around the `local` ends, which is how the analysis of
recursive groups treats them.
-/

namespace Typecase.Dependency

open Source

mutual

/-- The names that a declaration binds for what comes after it. -/
def binders (kept : Bool) : Decl → List String
  | .val _ _ p _ => namesOf p
  | .functions _ bs => bs.map (·.name)
  | .datatypes _ bs => bs.flatMap fun b => b.constructors.map (·.name)
  | .abbreviation _ _ _ _ => []
  | .exceptions _ bs => bs.map (·.name)
  | .localIn _ ds body => (if kept then bindersList kept ds else []) ++ bindersList kept body

/-- The names that declarations bind for what comes after them. -/
def bindersList (kept : Bool) : List Decl → List String
  | [] => []
  | d :: ds => binders kept d ++ bindersList kept ds

end

mutual

/-- The name `x` is free in an expression. -/
def Occurs (kept : Bool) (x : String) : Expr → Prop
  | .literal _ _ => False
  | .var _ y => y = x
  | .app _ f e => Occurs kept x f ∨ Occurs kept x e
  | .fn _ rs => OccursRules kept x rs
  | .case _ e rs => Occurs kept x e ∨ OccursRules kept x rs
  | .letIn _ ds e => OccursDecls kept x ds ∨ (x ∉ bindersList kept ds ∧ Occurs kept x e)
  | .tuple _ es => OccursExprs kept x es
  | .record _ fs => OccursFields kept x fs
  | .selector _ _ => False
  | .list _ es | .seq _ es => OccursExprs kept x es
  | .cond _ c e e' => Occurs kept x c ∨ Occurs kept x e ∨ Occurs kept x e'
  | .andalso _ e e' | .orelse _ e e' => Occurs kept x e ∨ Occurs kept x e'
  | .raise _ e => Occurs kept x e
  | .handle _ e rs => Occurs kept x e ∨ OccursRules kept x rs
  | .annot _ e _ => Occurs kept x e

/-- The name `x` is free in one of the expressions. -/
def OccursExprs (kept : Bool) (x : String) : List Expr → Prop
  | [] => False
  | e :: es => Occurs kept x e ∨ OccursExprs kept x es

/-- The name `x` is free in one of the fields. -/
def OccursFields (kept : Bool) (x : String) : List (String × Expr) → Prop
  | [] => False
  | (_, e) :: fs => Occurs kept x e ∨ OccursFields kept x fs

/-- The name `x` is free in one of the rules. -/
def OccursRules (kept : Bool) (x : String) : List Rule → Prop
  | [] => False
  | ⟨_, p, none, e⟩ :: rs => (x ∉ namesOf p ∧ Occurs kept x e) ∨ OccursRules kept x rs
  | ⟨_, p, some g, e⟩ :: rs =>
    (x ∉ namesOf p ∧ (Occurs kept x g ∨ Occurs kept x e)) ∨ OccursRules kept x rs

/-- The name `x` is free in a declaration. -/
def OccursDecl (kept : Bool) (x : String) : Decl → Prop
  | .val _ true p e => x ∉ namesOf p ∧ Occurs kept x e
  | .val _ false _ e => Occurs kept x e
  | .functions _ bs => x ∉ bs.map (·.name) ∧ OccursBindings kept x bs
  | .datatypes _ _ => False
  | .abbreviation _ _ _ _ => False
  | .exceptions _ _ => False
  | .localIn _ ds body =>
    OccursDecls kept x ds ∨ (x ∉ bindersList kept ds ∧ OccursDecls kept x body)

/-- The name `x` is free in a sequence of declarations. -/
def OccursDecls (kept : Bool) (x : String) : List Decl → Prop
  | [] => False
  | d :: ds => OccursDecl kept x d ∨ (x ∉ binders kept d ∧ OccursDecls kept x ds)

/-- The name `x` is free in the clauses of one of the functions. -/
def OccursBindings (kept : Bool) (x : String) : List FunBinding → Prop
  | [] => False
  | ⟨_, _, cs⟩ :: bs => OccursClauses kept x cs ∨ OccursBindings kept x bs

/-- The name `x` is free in one of the clauses. -/
def OccursClauses (kept : Bool) (x : String) : List FunClause → Prop
  | [] => False
  | ⟨_, params, _, e⟩ :: cs =>
    (x ∉ params.flatMap namesOf ∧ Occurs kept x e) ∨ OccursClauses kept x cs

end

mutual

/-- No `local` inside an expression binds `x` before its `in`. -/
def NotPrivate (x : String) : Expr → Prop
  | .literal _ _ => True
  | .var _ _ => True
  | .app _ f e => NotPrivate x f ∧ NotPrivate x e
  | .fn _ rs => NotPrivateRules x rs
  | .case _ e rs => NotPrivate x e ∧ NotPrivateRules x rs
  | .letIn _ ds e => NotPrivateDecls x ds ∧ NotPrivate x e
  | .tuple _ es => NotPrivateExprs x es
  | .record _ fs => NotPrivateFields x fs
  | .selector _ _ => True
  | .list _ es | .seq _ es => NotPrivateExprs x es
  | .cond _ c e e' => NotPrivate x c ∧ NotPrivate x e ∧ NotPrivate x e'
  | .andalso _ e e' | .orelse _ e e' => NotPrivate x e ∧ NotPrivate x e'
  | .raise _ e => NotPrivate x e
  | .handle _ e rs => NotPrivate x e ∧ NotPrivateRules x rs
  | .annot _ e _ => NotPrivate x e

/-- No `local` inside the expressions binds `x` before its `in`. -/
def NotPrivateExprs (x : String) : List Expr → Prop
  | [] => True
  | e :: es => NotPrivate x e ∧ NotPrivateExprs x es

/-- No `local` inside the fields binds `x` before its `in`. -/
def NotPrivateFields (x : String) : List (String × Expr) → Prop
  | [] => True
  | (_, e) :: fs => NotPrivate x e ∧ NotPrivateFields x fs

/-- No `local` inside the rules binds `x` before its `in`. -/
def NotPrivateRules (x : String) : List Rule → Prop
  | [] => True
  | ⟨_, _, none, e⟩ :: rs => NotPrivate x e ∧ NotPrivateRules x rs
  | ⟨_, _, some g, e⟩ :: rs => NotPrivate x g ∧ NotPrivate x e ∧ NotPrivateRules x rs

/-- No `local` inside a declaration, itself included, binds `x` before its `in`. -/
def NotPrivateDecl (x : String) : Decl → Prop
  | .val _ _ _ e => NotPrivate x e
  | .functions _ bs => NotPrivateBindings x bs
  | .datatypes _ _ => True
  | .abbreviation _ _ _ _ => True
  | .exceptions _ _ => True
  | .localIn _ ds body =>
    x ∉ bindersList false ds ∧ NotPrivateDecls x ds ∧ NotPrivateDecls x body

/-- No `local` inside the declarations binds `x` before its `in`. -/
def NotPrivateDecls (x : String) : List Decl → Prop
  | [] => True
  | d :: ds => NotPrivateDecl x d ∧ NotPrivateDecls x ds

/-- No `local` inside the functions binds `x` before its `in`. -/
def NotPrivateBindings (x : String) : List FunBinding → Prop
  | [] => True
  | ⟨_, _, cs⟩ :: bs => NotPrivateClauses x cs ∧ NotPrivateBindings x bs

/-- No `local` inside the clauses binds `x` before its `in`. -/
def NotPrivateClauses (x : String) : List FunClause → Prop
  | [] => True
  | ⟨_, _, _, e⟩ :: cs => NotPrivate x e ∧ NotPrivateClauses x cs

end

/-- A clause of function `j` of a group refers to its function `i`. -/
def Refers (kept : Bool) (bindings : List Binding) (j i : Nat) : Prop :=
  ∃ b c, bindings[j]? = some b ∧ bindings[i]? = some c ∧
    ∃ clause ∈ b.clauses, c.name ∉ clause.1.flatMap namesOf ∧ Occurs kept c.name clause.2

/-- Numbers below `n`, sorted into classes by a relation: each number stands in one class,
what a number refers to stands in its own class or an earlier one, and a class holds the
numbers that lead to each other. -/
structure Sorted (n : Nat) (refers : Nat → Nat → Prop) (classes : List (List Nat)) : Prop where
  partition : classes.flatten.Perm (List.range n)
  nonempty : [] ∉ classes
  earlier : ∀ i j, refers j i → ∃ (k m : Nat) (c d : List Nat),
    classes[k]? = some c ∧ classes[m]? = some d ∧ i ∈ c ∧ j ∈ d ∧ k ≤ m
  together : ∀ i j, i < n → j < n → ((∃ c ∈ classes, i ∈ c ∧ j ∈ c) ↔
    Relation.ReflTransGen refers i j ∧ Relation.ReflTransGen refers j i)

/-! ## Names that are never private

For such a name both treatments of `local` agree. -/

mutual

theorem mem_binders {x : String} : (d : Decl) → NotPrivateDecl x d →
    (x ∈ binders true d ↔ x ∈ binders false d)
  | .val .., _ | .functions .., _ | .datatypes .., _ | .abbreviation .., _
  | .exceptions .., _ => Iff.rfl
  | .localIn _ ds body, h => by
    obtain ⟨hnot, hds, hbody⟩ := h
    have ihds := mem_bindersList ds hds
    have ihbody := mem_bindersList body hbody
    simp only [binders, if_true, Bool.false_eq_true, if_false, List.nil_append, List.mem_append]
    tauto

theorem mem_bindersList {x : String} : (ds : List Decl) → NotPrivateDecls x ds →
    (x ∈ bindersList true ds ↔ x ∈ bindersList false ds)
  | [], _ => Iff.rfl
  | d :: ds, h => by
    have ihd := mem_binders d h.1
    have ihds := mem_bindersList ds h.2
    simp only [bindersList, List.mem_append, ihd, ihds]

end

mutual

theorem occurs_kept {x : String} : (e : Expr) → NotPrivate x e →
    (Occurs true x e ↔ Occurs false x e)
  | .literal .., _ | .var .., _ | .selector .., _ => Iff.rfl
  | .app _ f e, h => or_congr (occurs_kept f h.1) (occurs_kept e h.2)
  | .fn _ rs, h => occursRules_kept rs h
  | .case _ e rs, h => or_congr (occurs_kept e h.1) (occursRules_kept rs h.2)
  | .letIn _ ds e, h =>
    or_congr (occursDecls_kept ds h.1)
      (and_congr (not_congr (mem_bindersList ds h.1)) (occurs_kept e h.2))
  | .tuple _ es, h | .list _ es, h | .seq _ es, h => occursExprs_kept es h
  | .record _ fs, h => occursFields_kept fs h
  | .cond _ c e e', h =>
    or_congr (occurs_kept c h.1) (or_congr (occurs_kept e h.2.1) (occurs_kept e' h.2.2))
  | .andalso _ e e', h | .orelse _ e e', h => or_congr (occurs_kept e h.1) (occurs_kept e' h.2)
  | .raise _ e, h | .annot _ e _, h => occurs_kept e h
  | .handle _ e rs, h => or_congr (occurs_kept e h.1) (occursRules_kept rs h.2)

theorem occursExprs_kept {x : String} : (es : List Expr) → NotPrivateExprs x es →
    (OccursExprs true x es ↔ OccursExprs false x es)
  | [], _ => Iff.rfl
  | e :: es, h => or_congr (occurs_kept e h.1) (occursExprs_kept es h.2)

theorem occursFields_kept {x : String} : (fs : List (String × Expr)) → NotPrivateFields x fs →
    (OccursFields true x fs ↔ OccursFields false x fs)
  | [], _ => Iff.rfl
  | (_, e) :: fs, h => or_congr (occurs_kept e h.1) (occursFields_kept fs h.2)

theorem occursRules_kept {x : String} : (rs : List Rule) → NotPrivateRules x rs →
    (OccursRules true x rs ↔ OccursRules false x rs)
  | [], _ => Iff.rfl
  | ⟨_, _, none, e⟩ :: rs, h =>
    or_congr (and_congr Iff.rfl (occurs_kept e h.1)) (occursRules_kept rs h.2)
  | ⟨_, _, some g, e⟩ :: rs, h =>
    or_congr (and_congr Iff.rfl (or_congr (occurs_kept g h.1) (occurs_kept e h.2.1)))
      (occursRules_kept rs h.2.2)

theorem occursDecl_kept {x : String} : (d : Decl) → NotPrivateDecl x d →
    (OccursDecl true x d ↔ OccursDecl false x d)
  | .val _ true _ e, h => and_congr Iff.rfl (occurs_kept e h)
  | .val _ false _ e, h => occurs_kept e h
  | .functions _ bs, h => and_congr Iff.rfl (occursBindings_kept bs h)
  | .datatypes .., _ | .abbreviation .., _ | .exceptions .., _ => Iff.rfl
  | .localIn _ ds body, h =>
    or_congr (occursDecls_kept ds h.2.1)
      (and_congr (not_congr (mem_bindersList ds h.2.1)) (occursDecls_kept body h.2.2))

theorem occursDecls_kept {x : String} : (ds : List Decl) → NotPrivateDecls x ds →
    (OccursDecls true x ds ↔ OccursDecls false x ds)
  | [], _ => Iff.rfl
  | d :: ds, h =>
    or_congr (occursDecl_kept d h.1)
      (and_congr (not_congr (mem_binders d h.1)) (occursDecls_kept ds h.2))

theorem occursBindings_kept {x : String} : (bs : List FunBinding) → NotPrivateBindings x bs →
    (OccursBindings true x bs ↔ OccursBindings false x bs)
  | [], _ => Iff.rfl
  | ⟨_, _, cs⟩ :: bs, h => or_congr (occursClauses_kept cs h.1) (occursBindings_kept bs h.2)

theorem occursClauses_kept {x : String} : (cs : List FunClause) → NotPrivateClauses x cs →
    (OccursClauses true x cs ↔ OccursClauses false x cs)
  | [], _ => Iff.rfl
  | ⟨_, _, _, e⟩ :: cs, h =>
    or_congr (and_congr Iff.rfl (occurs_kept e h.1)) (occursClauses_kept cs h.2)

end

/-- No clause of a group binds one of its functions before the `in` of a `local`. -/
def MembersNotPrivate (bindings : List Binding) : Prop :=
  ∀ b ∈ bindings, ∀ c ∈ bindings, ∀ clause ∈ b.clauses, NotPrivate c.name clause.2

theorem refers_kept {bindings : List Binding} (h : MembersNotPrivate bindings) :
    Refers true bindings = Refers false bindings := by
  funext j i
  apply propext
  constructor
  all_goals
    rintro ⟨b, c, hb, hc, clause, hclause, hparam, hoccurs⟩
    have hnot := h b (List.mem_of_getElem? hb) c (List.mem_of_getElem? hc) clause hclause
    refine ⟨b, c, hb, hc, clause, hclause, hparam, ?_⟩
  · exact (occurs_kept _ hnot).mp hoccurs
  · exact (occurs_kept _ hnot).mpr hoccurs

end Typecase.Dependency
