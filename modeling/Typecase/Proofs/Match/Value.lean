import Typecase.Match.Compile
import Mathlib.Data.List.Forall2
import Mathlib.Order.Bounds.Defs
set_option autoImplicit false

/-!
# What a match means

Values, the patterns that accept them, and the clause that a value selects.  This is
the meaning that a decision tree is held against: a tree is walked from its root, each
test looks at one part of the value, and a guard may send the walk on.
-/

namespace Typecase

/-- Finite values. -/
inductive Val where
  /-- A constant. -/
  | literal (l : Literal)
  /-- A constructor, with the value that it carries. -/
  | con (c : Con) (arg : Option Val)
  | tuple (elems : List Val)
  | record (fields : List (String × Val))
  /-- A value without parts, such as a function. -/
  | atom (n : Nat)
  deriving Repr, Inhabited

namespace Val

/-- The part of a value that one step leads to. -/
def step? : Val → Step → Option Val
  | .tuple vs, .component i => vs[i]?
  | .record fs, .field l => fs.lookup l
  | .con c (some w), .arg d => if c = d then some w else none
  | _, _ => none

/-- The part of a value at a path. -/
def at? (v : Val) (path : Path) : Option Val := path.foldlM step? v

/-- What a test finds at a value. -/
def tag? : Val → Option Tag
  | .literal l => some (.literal l)
  | .con c _ => some (.con c)
  | _ => none

@[simp] theorem at?_nil (v : Val) : v.at? [] = some v := rfl

/-- A path that goes one step further looks at a part of the part. -/
theorem at?_snoc {v w : Val} {path : Path} (h : v.at? path = some w) (step : Step) :
    v.at? (path ++ [step]) = w.step? step := by
  unfold at? at h ⊢
  rw [List.foldlM_append, h]
  simp

end Val

namespace Pattern

variable {α : Type}

mutual

/-- Whether a pattern accepts a value. -/
def accepts : Pattern α → Val → Bool
  | .wildcard _, _ => true
  | .var _ _, _ => true
  | .omitted, _ => true
  | .layered _ _ p, v => accepts p v
  | .literal _ l, v => v.tag? = some (.literal l)
  | .con _ c none, v => v.tag? = some (.con c)
  | .con _ c (some p), v =>
    match v with
    | .con d (some w) => c = d && accepts p w
    | _ => false
  | .tuple _ ps, v =>
    match v with
    | .tuple vs => acceptsAll ps vs
    | _ => false
  | .record _ fs _, v =>
    match v with
    | .record ws => acceptsFields fs (.record ws)
    | _ => false

/-- Whether each pattern accepts the value in its place. -/
def acceptsAll : List (Pattern α) → List Val → Bool
  | [], [] => true
  | p :: ps, v :: vs => accepts p v && acceptsAll ps vs
  | _, _ => false

/-- Whether the patterns of all fields accept the fields of a value. -/
def acceptsFields : List (String × Pattern α) → Val → Bool
  | [], _ => true
  | (l, p) :: fs, v => ((v.step? (.field l)).any (accepts p)) && acceptsFields fs v

end

theorem acceptsAll_iff {ps : List (Pattern α)} {vs : List Val} :
    acceptsAll ps vs = true ↔ List.Forall₂ (fun p v => accepts p v = true) ps vs := by
  induction ps generalizing vs with
  | nil => cases vs <;> simp [acceptsAll]
  | cons p ps ih => cases vs <;> simp [acceptsAll, ih]

/-- A record pattern accepts a value whose fields are accepted one by one. -/
theorem acceptsFields_iff {fs : List (String × Pattern α)} {v : Val} :
    acceptsFields fs v = true ↔
      ∀ l p, (l, p) ∈ fs → ∃ w, v.step? (.field l) = some w ∧ accepts p w = true := by
  induction fs with
  | nil => simp [acceptsFields]
  | cons f fs ih =>
    obtain ⟨l, p⟩ := f
    rw [acceptsFields, Bool.and_eq_true, ih, Option.any_eq_true]
    constructor
    · rintro ⟨hhead, hrest⟩ l' p' hmem
      rcases List.mem_cons.mp hmem with heq | hmem
      · cases heq
        exact hhead
      · exact hrest l' p' hmem
    · intro h
      exact ⟨h l p List.mem_cons_self, fun l' p' hmem => h l' p' (List.mem_cons_of_mem _ hmem)⟩

theorem accepts_of_isWild {p : Pattern α} (h : p.isWild = true) (v : Val) : p.accepts v = true := by
  cases p <;> simp_all [isWild, accepts]

theorem acceptsAll_wilds {n : Nat} {ws : List Val} (h : ws.length = n) :
    acceptsAll (Match.wilds n : List (Pattern α)) ws = true := by
  subst h
  induction ws with
  | nil => rfl
  | cons w ws ih => simpa [Match.wilds, List.replicate_succ, acceptsAll, accepts] using ih

end Pattern

namespace Match

variable {α : Type}

/-- Whether a clause takes a value: its pattern accepts the value, and its guard, if it
has one, holds. -/
def Selects (clauses : List (Clause α)) (guard : Nat → Bool) (v : Val) (i : Nat) : Prop :=
  ∃ c, clauses[i]? = some c ∧ c.pattern.accepts v = true ∧ (c.guarded = false ∨ guard i = true)

end Match

/-- How the walk through a decision tree ends. -/
inductive Outcome where
  /-- At a leaf, which selects a clause and binds names to parts of the value. -/
  | selected (clause : Nat) (bindings : List (String × Path))
  /-- Where no clause matches. -/
  | failed
  deriving DecidableEq, Repr, Inhabited

namespace Decision

mutual

/-- Walk through a decision tree.  There is no outcome when the walk gets stuck: a test
looks at a part that the value does not have, or finds a tag that has no branch. -/
def walk (guard : Nat → Bool) (v : Val) : Decision → Option Outcome
  | .fail => some .failed
  | .leaf clause bindings none => some (.selected clause bindings)
  | .leaf clause bindings (some d) =>
    if guard clause then some (.selected clause bindings) else walk guard v d
  | .switch path cases none =>
    match (v.at? path).bind Val.tag? with
    | none => none
    | some tag => (walkCases guard v tag cases).getD none
  | .switch path cases (some d) =>
    match (v.at? path).bind Val.tag? with
    | none => none
    | some tag => (walkCases guard v tag cases).getD (walk guard v d)

/-- Walk through the case of a tag, if there is one. -/
def walkCases (guard : Nat → Bool) (v : Val) (tag : Tag) :
    List (Tag × Decision) → Option (Option Outcome)
  | [] => none
  | (t, d) :: cases => if t = tag then some (walk guard v d) else walkCases guard v tag cases

end

end Decision

end Typecase
