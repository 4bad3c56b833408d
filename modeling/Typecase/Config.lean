import Typecase.LabelMap
import Typecase.Log
import Typecase.Yaml.Value
set_option autoImplicit false

/-!
# Configuration

The settings of a run, and how they are read from a document.  Settings that are absent
or empty have their defaults.
-/

namespace Typecase

/-- What a match that leaves out some values counts as. -/
inductive NonExhaustive where
  | warn
  | error
  deriving DecidableEq, Repr, Inhabited

/-- What happens to a clause that is never selected. -/
inductive Redundant where
  | warn
  | ignore
  deriving DecidableEq, Repr, Inhabited

/-- The settings of a run. -/
structure Config where
  nonExhaustive : NonExhaustive := .warn
  redundant : Redundant := .warn
  /-- Elaboration stops after so many errors; zero means no limit. -/
  maxErrors : Nat := 0
  /-- The least level of log records, as it was written. -/
  logLevel : String := "off"
  logFormat : Log.Format := .text
  checkGeneralization : Bool := false
  deriving DecidableEq, Repr, Inhabited

namespace Config

/-- The name of the setting for matches that leave out values. -/
def nonExhaustiveName (c : Config) : String :=
  match c.nonExhaustive with
  | .warn => "warn"
  | .error => "error"

/-- The name of the setting for clauses never selected. -/
def redundantName (c : Config) : String :=
  match c.redundant with
  | .warn => "warn"
  | .ignore => "ignore"

/-- The level from which on records are kept; none are kept if there is none. -/
def threshold (c : Config) : Option Log.Level := Log.Level.ofText? c.logLevel

/-! ## Reading settings -/

/-- Why a configuration cannot be used. -/
inductive Fault where
  /-- The document is malformed or does not have the form of a configuration. -/
  | document
  | nonExhaustive (found : String)
  | redundant (found : String)
  | negativeLimit
  | level (found : String)
  | format (found : String)
  deriving DecidableEq, Repr, Inhabited

/-- The wording of a fault in the configuration of the given name. -/
def Fault.message (path : String) : Fault → String
  | .document => "parsing " ++ path ++ ": yaml: malformed document"
  | .nonExhaustive found =>
    path ++ ": match.non_exhaustive: expected warn or error, found " ++ Text.quote found
  | .redundant found =>
    path ++ ": match.redundant: expected warn or ignore, found " ++ Text.quote found
  | .negativeLimit => path ++ ": diagnostics.max_errors must not be negative"
  | .level found => path ++ ": log.level: unknown level " ++ Text.quote found
  | .format found => path ++ ": log.format: expected text or json, found " ++ Text.quote found

open Yaml

/-- Whether two keys are written alike. -/
def sameKey (a b : Node) : Bool :=
  match a, b with
  | .scalar _ s _, .scalar _ t _ => s == t
  | .reference _ s _ _, .reference _ t _ _ => s == t
  | .sequence .., .sequence .. => true
  | .mapping .., .mapping .. => true
  | _, _ => false

/-- Whether a key occurs twice. -/
def hasRepeatedKey : List (Node × Node) → Bool
  | [] => false
  | (k, _) :: es => es.any (fun e => sameKey k e.1) || hasRepeatedKey es

/-- Whether a key stands for the entries of other mappings. -/
def isMergeKey : Node → Bool
  | .scalar _ "<<" .plain => true
  | .scalar _ "<<" (.tagged tag) => Value.shortTag tag == "!!merge"
  | _ => false

/-- Settings as they are written, empty where they are absent. -/
structure Draft where
  nonExhaustive : String := ""
  redundant : String := ""
  maxErrors : Int := 0
  level : String := ""
  format : String := ""
  generalization : Bool := false
  deriving DecidableEq, Repr, Inhabited

/-- How far a document has been read. -/
structure Progress where
  draft : Draft := {}
  /-- The number of nodes read, counted anew for every reference to them. -/
  nodes : Nat := 0
  /-- How many of these nodes were read by way of references. -/
  referred : Nat := 0
  deriving DecidableEq, Repr, Inhabited

/-- Readers of settings.  They fail if the document does not have the form of a
configuration. -/
abbrev DraftM := StateT Progress Option

/-- Whether a document consists of references nearly without end: it has more than a
thousand nodes, and more than 99 in 100 of them are read by way of references. -/
def Progress.isExcessive (p : Progress) : Bool :=
  p.referred > 100 && p.nodes > 1000 && 100 * p.referred > 99 * p.nodes

def count (referred : Bool) : DraftM Unit := do
  modify fun p => { p with
    nodes := p.nodes + 1
    referred := if referred then p.referred + 1 else p.referred }
  if (← get).isExcessive then failure

/-- The node that a node stands for, the anchored one for a reference, and whether it is
reached by way of a reference. -/
def follow (doc : Document) (referred : Bool) (n : Node) : DraftM (Node × Bool) := do
  count referred
  match n with
  | .reference _ _ anchor _ =>
    count true
    return (← doc.anchored[anchor]?, true)
  | n => return (n, referred)

/-- What a node stands for that has to be a scalar, with its text. -/
def scalarValue (doc : Document) (referred : Bool) (n : Node) : DraftM (Value × String) := do
  match (← follow doc referred n).1 with
  | .scalar _ text style => return (← Value.ofScalar? text style, text)
  | _ => failure

/-- The text of a value. -/
def textOf (v : Value × String) : String :=
  match v.1 with
  | .null => ""
  | .text s => s
  | _ => v.2

/-- The name that a key stands for; there may be none. -/
def keyName (doc : Document) (referred : Bool) (n : Node) : DraftM (Option String) := do
  let v ← scalarValue doc referred n
  return if v.1 == .null then none else some (textOf v)

/-- How the settings of a group are read, by name. -/
abbrev Settings := List (String × (Bool → Node → DraftM Unit))

/-- Read the entries of a group.  Where `shadowed` is given, the group is merged into
another one, and names among `shadowed` do not count; otherwise no setting may be given
twice.  The names that do not count from now on are returned. -/
def readEntries (doc : Document) (settings : Settings) (referred merged : Bool) :
    (shadowed : List String) → List (Node × Node) → DraftM (List String)
  | shadowed, [] => return shadowed
  | shadowed, (k, v) :: es => do
    if isMergeKey k then readEntries doc settings referred merged shadowed es
    else
      match ← keyName doc referred k with
      | none => readEntries doc settings referred merged shadowed es
      | some name =>
        match shadowed.contains name, settings.lookup name with
        | false, some read => read referred v
        | true, some _ => unless merged do failure
        | _, none => pure ()
        readEntries doc settings referred merged (name :: shadowed) es

/-- The groups that are to be merged: one mapping, or a sequence of them. -/
def mergeSources (doc : Document) (n : Node) : DraftM (List Node) :=
  let isMapping (n : Node) : Bool :=
    match n with
    | .reference _ _ anchor _ => doc.anchored[anchor]?.any Node.isMapping
    | n => n.isMapping
  let sources := match n with
    | .sequence _ items => items
    | n => [n]
  if sources.all isMapping then return sources else failure

/-- Read a group of settings and the groups that are merged into it.  Its own entries come
first, and of the merged groups the earlier ones; no key may be given twice.  The first
argument bounds the nesting of merged groups; a group that is merged into itself exceeds
any bound. -/
def readGroup (doc : Document) (settings : Settings) :
    Nat → (referred merged : Bool) → (shadowed : List String) → Node → DraftM (List String)
  | 0, _, _, _, _ => failure
  | n + 1, referred, merged, shadowed, node => do
    let (node, referred) ← follow doc referred node
    match node with
    | .scalar _ text style =>
      if Value.ofScalar? text style == some .null then return shadowed else failure
    | .mapping _ entries =>
      guard (!hasRepeatedKey entries)
      let names ← readEntries doc settings referred merged shadowed entries
      match entries.find? fun e => isMergeKey e.1 with
      | none => return names
      | some (_, sources) =>
        unless merged do
          entries.forM fun e => do
            let _ ← scalarValue doc referred e.1
        (← mergeSources doc sources).foldlM
          (fun names source => readGroup doc settings n referred true names source) names
    | _ => failure

def group (doc : Document) (settings : Settings) (referred : Bool) (n : Node) : DraftM Unit := do
  let _ ← readGroup doc settings doc.mergeBound referred false [] n

/-- A setting that is a text. -/
def textSetting (doc : Document) (store : String → Draft → Draft) (referred : Bool) (n : Node) :
    DraftM Unit := do
  let v ← scalarValue doc referred n
  modify fun p => { p with draft := store (textOf v) p.draft }

/-- A setting that is an integer. -/
def integerSetting (doc : Document) (store : Int → Draft → Draft) (referred : Bool) (n : Node) :
    DraftM Unit := do
  let k ← (← scalarValue doc referred n).1.toInteger?
  modify fun p => { p with draft := store k p.draft }

/-- A setting that is a truth value. -/
def truthSetting (doc : Document) (store : Bool → Draft → Draft) (referred : Bool) (n : Node) :
    DraftM Unit := do
  let b ← (← scalarValue doc referred n).1.toTruth?
  modify fun p => { p with draft := store b p.draft }

/-- The settings by group. -/
def groups (doc : Document) : Settings :=
  [("match", group doc [
      ("non_exhaustive", textSetting doc fun s d => { d with nonExhaustive := s }),
      ("redundant", textSetting doc fun s d => { d with redundant := s })]),
   ("diagnostics", group doc [
      ("max_errors", integerSetting doc fun n d => { d with maxErrors := n })]),
   ("log", group doc [
      ("level", textSetting doc fun s d => { d with level := s }),
      ("format", textSetting doc fun s d => { d with format := s })]),
   ("check", group doc [
      ("generalization", truthSetting doc fun b d => { d with generalization := b })])]

/-- The draft that a document describes. -/
def Draft.ofDocument? (doc : Document) : Option Draft :=
  ((group doc (groups doc) false doc.root).run { nodes := 1 }).map (·.2.draft)

/-- The settings that a draft stands for. -/
def ofDraft (d : Draft) : Except Fault Config := do
  let nonExhaustive ← match d.nonExhaustive with
    | "" | "warn" => pure .warn
    | "error" => pure .error
    | found => throw (.nonExhaustive found)
  let redundant ← match d.redundant with
    | "" | "warn" => pure .warn
    | "ignore" => pure .ignore
    | found => throw (.redundant found)
  if d.maxErrors < 0 then throw .negativeLimit
  let level := if d.level = "" then "off" else d.level
  if (Log.Level.ofText? level).isNone && level != "off" then throw (.level level)
  let format ← match d.format with
    | "" | "text" => pure Log.Format.text
    | "json" => pure .json
    | found => throw (.format found)
  return {
    nonExhaustive, redundant, maxErrors := d.maxErrors.toNat
    logLevel := level, logFormat := format, checkGeneralization := d.generalization }

/-- Read a configuration. -/
def parse (text : String) : Except Fault Config :=
  match Yaml.parseDocument text with
  | .error _ => .error .document
  | .ok none => ofDraft {}
  | .ok (some doc) =>
    match Draft.ofDocument? doc with
    | none => .error .document
    | some draft => ofDraft draft

end Config

end Typecase
