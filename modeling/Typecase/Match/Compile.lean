import Typecase.Match.Witness
import Typecase.Types.Row
set_option autoImplicit false

/-!
# Compiling matches

An ordered list of clauses becomes a decision tree that selects the first clause whose
pattern matches and whose guard holds.

The compiler works on a matrix with one row per clause and one column per part of the
scrutinee that is still of interest.  Tuples and records are replaced by their
components in place.  The leftmost column that the first row tests is tested next;
every constructor or literal that occurs in the column gets a matrix of the rows that
may match it, and the rows that do not test the column form the default.
-/

namespace Typecase.Match

variable {α : Type}

/-- A clause: a pattern, and whether a guard follows it. -/
structure Clause (α : Type) where
  pattern : Pattern α
  guarded : Bool
  deriving Repr, Inhabited

/-- Clauses that cannot be compiled. -/
inductive Fault where
  | noClauses
  /-- The type of the scrutinee is not given. -/
  | noScrutinee
  | noPattern (clause : Nat)
  /-- One value is matched against patterns of different forms. -/
  | mixedPatterns
  /-- A component of an example lies outside of its tuple.  The compiler breaks down. -/
  | outOfRange
  deriving DecidableEq, Repr, Inhabited

/-- The wording of a fault. -/
def Fault.message : Fault → String
  | .noClauses => "Pattern match has no clauses"
  | .noScrutinee => "Pattern match has no scrutinee type"
  | .noPattern i => "Clause " ++ toString i ++ " has no pattern"
  | .mixedPatterns => "Patterns of incompatible shapes were matched against the same value"
  | .outOfRange => "index out of range"

/-- The outcome of compiling clauses. -/
structure Result where
  tree : Decision
  clauses : Nat
  /-- For every end of the tree without a clause, an example of the values that lead
  there. -/
  witnesses : List Witness
  deriving Repr, Inhabited

namespace Result

/-- Whether every value is matched. -/
def exhaustive (r : Result) : Bool := !r.tree.canFail

/-- The clauses that are never selected. -/
def unreachable (r : Result) : List Nat :=
  let selected := r.tree.clauses
  (List.range r.clauses).filter fun i => !selected.contains i

/-- Examples of values that no clause matches, as text. -/
def missing (r : Result) : List String :=
  (r.witnesses.map (Witness.render false)).eraseDups

end Result

/-! ## The matrix -/

/-- A clause, as far as it is still to be matched. -/
structure Row (α : Type) where
  clause : Nat
  /-- Whether the clause has a guard. -/
  guarded : Bool
  /-- The names bound so far. -/
  bindings : List (String × Path)
  /-- The patterns that are still to be matched, by column. -/
  patterns : List (Pattern α)
  deriving Repr, Inhabited

/-- A pattern matrix.  Every column belongs to a part of the scrutinee. -/
structure Matrix (α : Type) where
  paths : List Path
  rows : List (Row α)
  deriving Repr, Inhabited

/-- Replace an element by the given ones. -/
def splice {β : Type} (xs : List β) (i : Nat) (ys : List β) : List β :=
  xs.take i ++ ys ++ xs.drop (i + 1)

namespace Row

/-- The pattern in a column. -/
def pat (r : Row α) (col : Nat) : Pattern α := r.patterns.getD col .omitted

/-- Replace a column by the given patterns. -/
def splice (r : Row α) (col : Nat) (ps : List (Pattern α)) : Row α :=
  { r with patterns := Match.splice r.patterns col ps }

/-- The names that a pattern binds to the whole value at `path`, and what is left of
the pattern. -/
def strip (path : Path) : Pattern α → List (String × Path) × Pattern α
  | .var _ x => ([(x, path)], .omitted)
  | .layered _ x p =>
    let (bindings, p) := strip path p
    ((x, path) :: bindings, p)
  | p => ([], p)

/-- Move the names bound in a column to the bindings of the row. -/
def bind (r : Row α) (col : Nat) (path : Path) : Row α :=
  let (bindings, p) := strip path (r.pat col)
  { r.splice col [p] with bindings := r.bindings ++ bindings }

end Row

/-- Patterns for `n` values of no interest. -/
def wilds (n : Nat) : List (Pattern α) := List.replicate n .omitted

/-- The shape of a column, with one more pattern in it. -/
def joinShape (sh : Option Shape) (p : Pattern α) : Except Fault (Option Shape) :=
  match p, sh with
  | .tuple _ ps, none => .ok (some (.tuple ps.length))
  | .tuple _ ps, some (.tuple n) =>
    if n = ps.length then .ok sh else .error .mixedPatterns
  | .tuple _ _, some (.record _) => .error .mixedPatterns
  | .record _ fs _, none => .ok (some (.record (fs.map (·.1)).eraseDups))
  | .record _ fs _, some (.record ls) => .ok (some (.record (ls ++ fs.map (·.1)).eraseDups))
  | .record _ _ _, some (.tuple _) => .error .mixedPatterns
  | _, _ => .ok sh

/-- The shape of a column: that of its tuple or record patterns, if it has any. -/
def columnShape (rows : List (Row α)) (col : Nat) : Except Fault (Option Shape) :=
  rows.foldlM (fun sh r => joinShape sh (r.pat col)) none

/-- The patterns for the components of a value of the given shape. -/
def components (sh : Shape) (p : Pattern α) : List (Pattern α) :=
  match sh, p with
  | .tuple _, .tuple _ ps => ps
  | .tuple n, _ => wilds n
  | .record ls, .record _ fs _ => ls.map fun l => (fs.reverse.lookup l).getD .omitted
  | .record ls, _ => wilds ls.length

/-- The steps to the components. -/
def Shape.steps : Shape → List Step
  | .tuple n => (List.range n).map .component
  | .record ls => ls.map .field

/-- Replace a column by the columns of its components. -/
def Matrix.expand (m : Matrix α) (col : Nat) (path : Path) (sh : Shape) : Matrix α where
  paths := splice m.paths col ((Shape.steps sh).map fun step => path ++ [step])
  rows := m.rows.map fun r => r.splice col (components sh (r.pat col))

/-! ## Tests -/

/-- What a pattern tests first. -/
def headTag : Pattern α → Option Tag
  | .con _ c _ => some (.con c)
  | .literal _ l => some (.literal l)
  | _ => none

/-- The different tags of a column in order of appearance, which have to be
compatible. -/
def columnTags (rows : List (Row α)) (col : Nat) : Except Fault (List Tag) :=
  let tags := rows.filterMap fun r => headTag (r.pat col)
  match tags with
  | [] => .ok []
  | first :: _ =>
    if tags.all first.compatible then .ok tags.eraseDups else .error .mixedPatterns

/-- Whether every value has one of the tags.  Literals are never complete. -/
def isComplete : List Tag → Bool
  | .con c :: rest => c.siblings.any fun all => all.length == rest.length + 1
  | _ => false

/-- An example of a head that is not among the tags, and whether it carries a value.
The head is empty where there is no telling example. -/
def missingHead (tags : List Tag) : String × Bool :=
  match tags with
  | .con c :: _ =>
    let used := tags.filterMap fun
      | .con d => if d.isExtension then none else some d.tag
      | .literal _ => none
    let candidates := ((c.siblings.getD []).zipIdx).filter fun e => !used.contains e.2
    match candidates with
    | ((name, hasArg), _) :: _ => (name, hasArg)
    | [] => ("", false)
  | .literal ⟨.int, _⟩ :: _ =>
    let unused (n : Nat) : Bool := !tags.contains (.literal ⟨.int, toString n⟩)
    (((List.range (tags.length + 1)).find? unused).elim "" toString, false)
  | _ => ("", false)

/-- The rows that may match `tag`, with the column replaced by the value that the tag
carries, if any. -/
def Matrix.specialize (m : Matrix α) (col : Nat) (path : Path) (tag : Tag) : Matrix α where
  paths := splice m.paths col (match tag with
    | .con c => if c.hasArg then [path ++ [.arg c]] else []
    | .literal _ => [])
  rows := m.rows.filterMap fun r =>
    let p := r.pat col
    let arity := if tag.hasArg then 1 else 0
    if p.isWild then some (r.splice col (wilds arity))
    else if headTag p = some tag then
      match p with
      | .con _ _ (some arg) => some (r.splice col (if tag.hasArg then [arg] else []))
      | _ => some (r.splice col (wilds arity))
    else none

/-- The rows that do not test the column, without it. -/
def Matrix.default (m : Matrix α) (col : Nat) : Matrix α where
  paths := splice m.paths col []
  rows := (m.rows.filter fun r => (r.pat col).isWild).map fun r => r.splice col []

/-! ## The compiler -/

/-- What is learned in the course of a compilation. -/
structure State where
  /-- The shapes of parts of the scrutinee, by the text of their path. -/
  shapes : LabelMap Shape
  /-- Examples of values that are not matched. -/
  witnesses : List Witness
  deriving Repr, Inhabited

/-- Compilations. -/
abbrev CompileM := StateT State (Except Fault)

/-- Note the shape of a part. -/
def learn (path : Path) (sh : Shape) : CompileM Unit :=
  modify fun st => { st with shapes := LabelMap.set st.shapes path.render sh }

/-- Normalize the matrix from column `col` on: bind names, and expand tuples and
records.  The first argument bounds the number of columns that are looked at. -/
def normalizeAt : Nat → Nat → Matrix α → CompileM (Matrix α)
  | 0, _, m => return m
  | n + 1, col, m =>
    match m.paths[col]? with
    | none => return m
    | some path => do
      let m := { m with rows := m.rows.map (·.bind col path) }
      match ← columnShape m.rows col with
      | none => normalizeAt n (col + 1) m
      | some sh =>
        learn path sh
        normalizeAt n col (m.expand col path sh)

/-- The size of all patterns. -/
def Matrix.size (m : Matrix α) : Nat :=
  m.rows.foldr (fun r n => Pattern.sizeList r.patterns + n) 0

/-- Bind the names of the matrix and expand its tuples and records.  A column that an
expansion adds belongs to a component of some pattern, so the columns to look at are at
most those of the matrix and one for each of its pattern nodes. -/
def normalize (m : Matrix α) : CompileM (Matrix α) :=
  normalizeAt (m.paths.length + m.size) 0 m

/-- End a branch on which no row is left, with an example of the values that lead there. -/
def giveUp (facts : List Fact) : CompileM Decision := do
  let st ← get
  match Witness.ofFacts (fun p => LabelMap.find? st.shapes p.render) facts with
  | some w =>
    set { st with witnesses := st.witnesses ++ [w] }
    return .fail
  | none => throw .outOfRange

/-- The decision tree of a matrix whose branch is known to satisfy `facts`.  The first
argument bounds the depth of the tree. -/
def compileAt : Nat → List Fact → Matrix α → CompileM Decision
  | 0, _, _ => return .fail
  | n + 1, facts, m =>
    if m.rows.isEmpty then giveUp facts
    else do
      let m ← normalize m
      match m.rows with
      | [] => return .fail
      | first :: rest =>
        match first.patterns.findIdx? (!·.isWild) with
        | none =>
          if first.guarded then
            let fallback ← compileAt n facts { m with rows := rest }
            return .leaf first.clause first.bindings (some fallback)
          else return .leaf first.clause first.bindings none
        | some col =>
          let path := m.paths.getD col []
          let tags ← columnTags m.rows col
          let cases ← tags.mapM fun tag => do
            let fact := ⟨path, tag.render, tag.hasArg⟩
            return (tag, ← compileAt n (facts ++ [fact]) (m.specialize col path tag))
          if isComplete tags then return .switch path cases none
          else
            let (head, hasArg) := missingHead tags
            let rest ← compileAt n (facts ++ [⟨path, head, hasArg⟩]) (m.default col)
            return .switch path cases (some rest)

/-- The shape of the values of a type, if they have components. -/
def shapeOf (s : Store) (t : Ty) : Option Shape :=
  match s.head t with
  | .tuple _ (_ :: es) => some (.tuple (es.length + 1))
  | .record _ row =>
    match s.flattenRow row with
    | some (e :: es, _) => some (.record ((e :: es).map (·.1)))
    | _ => none
  | _ => none

/-- The matrix of some clauses, with a column for the value. -/
def Matrix.ofClauses (clauses : List (Clause α)) : Matrix α where
  paths := [[]]
  rows := clauses.zipIdx.map fun e => ⟨e.2, e.1.guarded, [], [e.1.pattern]⟩

/-- Compile clauses that are matched against a value of type `scrutinee`.  Every level
of the tree uses up a pattern node or a clause. -/
def compile (s : Store) (clauses : List (Clause α)) (scrutinee : Option Ty) :
    Except Fault Result := do
  if clauses.isEmpty then throw .noClauses
  let some t := scrutinee | throw .noScrutinee
  if let some i := clauses.findIdx? fun c => c.pattern matches .omitted then throw (.noPattern i)
  let shapes := match shapeOf s t with
    | some sh => [(Path.render [], sh)]
    | none => []
  let m := Matrix.ofClauses clauses
  let (tree, st) ← (compileAt (m.size + clauses.length + 1) [] m).run ⟨shapes, []⟩
  return ⟨tree, clauses.length, st.witnesses⟩

end Typecase.Match
