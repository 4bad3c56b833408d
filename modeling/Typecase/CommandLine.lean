import Typecase.Dump.Decode
import Typecase.Elaborate.Program
import Typecase.Report
set_option autoImplicit false

/-!
# The command line

Programs are read from files, elaborated in order, and reported.  Each file sees the
bindings of the files before it.  The status is 1 if there are errors in a program, and 2
if a file or the configuration cannot be read or the arguments are wrong.

A flag is written with one or two dashes; its value follows it or an equals sign.  The
first argument that is no flag ends the flags, and so does `--`.
-/

namespace Typecase.CommandLine

/-- The settings that the arguments make. -/
structure Options where
  config : String := ""
  color : String := "auto"
  verbose : Bool := false
  files : List String := []
  deriving DecidableEq, Repr, Inhabited

/-- Why the arguments are not accepted. -/
inductive Fault where
  | help
  | malformed (argument : String)
  | unknown (flag : String)
  | needsValue (flag : String)
  | notBoolean (flag value : String)
  deriving DecidableEq, Repr, Inhabited

/-- The wording of a fault. -/
def Fault.message : Fault → String
  | .help => ""
  | .malformed arg => "bad flag syntax: " ++ arg ++ "\n"
  | .unknown flag => "flag provided but not defined: -" ++ flag ++ "\n"
  | .needsValue flag => "flag needs an argument: -" ++ flag ++ "\n"
  | .notBoolean flag value =>
    "invalid boolean value " ++ Text.quote value ++ " for -" ++ flag ++ ": parse error\n"

/-- How the program is used. -/
def usage : String :=
  "usage: elab [flags] file.yaml...\n" ++
  "  -color string\n" ++
  "    \tcolor diagnostics: auto, always or never (default \"auto\")\n" ++
  "  -config string\n" ++
  "    \tpath to a YAML configuration file\n" ++
  "  -v\tlog elaboration steps to stderr\n"

/-! ## Flags -/

/-- What an argument is. -/
inductive Argument where
  /-- The name of a file. -/
  | operand
  | terminator
  | malformed
  | flag (name : String) (value : Option String)
  deriving DecidableEq, Repr, Inhabited

/-- Split the text of a flag at the first equals sign behind its first character. -/
def Argument.ofFlag (cs : List Char) : Argument :=
  match cs with
  | [] | '-' :: _ | '=' :: _ => .malformed
  | c :: cs =>
    let name := String.ofList (c :: cs.takeWhile (· != '='))
    match cs.dropWhile (· != '=') with
    | [] => .flag name none
    | _ :: value => .flag name (some (String.ofList value))

/-- What an argument looks like. -/
def Argument.classify (arg : String) : Argument :=
  match arg.toList with
  | ['-', '-'] => .terminator
  | '-' :: '-' :: cs => .ofFlag cs
  | ['-'] => .operand
  | '-' :: cs => .ofFlag cs
  | _ => .operand

/-- The truth value that a text stands for. -/
def boolean? (s : String) : Option Bool :=
  if ["1", "t", "T", "true", "TRUE", "True"].contains s then some true
  else if ["0", "f", "F", "false", "FALSE", "False"].contains s then some false
  else none

/-- Set an option that holds a text. -/
def Options.setText (o : Options) (flag value : String) : Options :=
  if flag = "config" then { o with config := value } else { o with color := value }

/-- Read arguments on top of the settings so far.  `pending` is a flag that waits for its
value. -/
def readArguments : Option String → Options → List String → Except Fault Options
  | none, o, [] => .ok o
  | some flag, _, [] => .error (.needsValue flag)
  | some flag, o, value :: rest => readArguments none (o.setText flag value) rest
  | none, o, arg :: rest =>
    match Argument.classify arg with
    | .operand => .ok { o with files := arg :: rest }
    | .terminator => .ok { o with files := rest }
    | .malformed => .error (.malformed arg)
    | .flag "v" none => readArguments none { o with verbose := true } rest
    | .flag "v" (some value) =>
      match boolean? value with
      | some b => readArguments none { o with verbose := b } rest
      | none => .error (.notBoolean "v" value)
    | .flag name value =>
      if name = "config" || name = "color" then
        match value with
        | some value => readArguments none (o.setText name value) rest
        | none => readArguments (some name) o rest
      else if name = "h" || name = "help" then .error .help
      else .error (.unknown name)

/-- The options that arguments stand for. -/
def Options.ofArguments (args : List String) : Except Fault Options := readArguments none {} args

/-! ## Runs -/

/-- What a run has written so far, its status, and whether it broke down. -/
structure Output where
  status : Nat := 0
  stdout : String := ""
  stderr : String := ""
  crashed : Bool := false
  deriving DecidableEq, Repr, Inhabited

namespace Output

/-- Write to the standard output. -/
def print (o : Output) (text : String) : Output := { o with stdout := o.stdout ++ text }

/-- Write to the standard error output. -/
def complain (o : Output) (text : String) : Output := { o with stderr := o.stderr ++ text }

/-- End a run that cannot go on. -/
def abort (o : Output) (text : String) : Output :=
  { o.complain ("elab: " ++ text ++ "\n") with status := 2 }

/-- Break down. -/
def crash (o : Output) : Output := { o with status := 2, crashed := true }

end Output

/-- The texts of the files that there are. -/
abbrev Files := String → Option String

/-- That a file does not exist. -/
def missingFile (path : String) : String := "open " ++ path ++ ": no such file or directory"

/-- The configuration of a run. -/
def loadConfig (files : Files) (o : Options) : Except String Config := do
  let cfg ← if o.config = "" then pure {} else
    match files o.config with
    | none => throw ("reading config " ++ o.config ++ ": " ++ missingFile o.config)
    | some text =>
      match Config.parse text with
      | .ok cfg => pure cfg
      | .error fault => throw (fault.message o.config)
  return if o.verbose then { cfg with logLevel := "debug" } else cfg

/-- Read the program in a file. -/
def loadProgram (files : Files) (path : String) : Except String Source.Program :=
  match files path with
  | none => .error ("reading " ++ path ++ ": " ++ missingFile path)
  | some text =>
    match Yaml.parse text with
    | .error _ => .error ("decoding " ++ path ++ ": yaml: malformed document")
    | .ok n =>
      match Dump.decodeProgram Yaml.Node.isTrue n with
      | .error fault => .error ("decoding " ++ path ++ ": " ++ fault.message)
      | .ok program => .ok program

/-- Elaborate files one after the other. -/
def runFiles (files : Files) (cfg : Config) (colored : Bool) :
    List String → Env → Elaborate.State → Output → Output
  | [], _, _, o => o
  | path :: paths, env, s, o =>
    match loadProgram files path with
    | .error message => o.abort message
    | .ok program =>
      let decoded : Log.Record :=
        ⟨.debug, "decoded", [("file", .text path), ("decls", .number program.length)]⟩
      let (r, s) := Elaborate.elaborateProgram cfg program env { s with records := [] }
      if s.crashed then o.crash else
      let o := o.complain (Log.render cfg.threshold cfg.logFormat (decoded :: s.records))
      let o := o.complain (Report.diagnostics colored path r.diagnostics)
      let o := o.print (Report.bindings s.store (r.bindings.map fun b => (b.name, b.scheme)))
      let o := if r.diagnostics.any Diagnostic.isError then { o with status := 1 } else o
      runFiles files cfg colored paths r.env s o

/-- Run with the given options. -/
def runWith (files : Files) (o : Options) : Output :=
  if o.files.isEmpty then { status := 2, stderr := usage }
  else
    match ColorMode.ofName? o.color with
    | none => Output.abort {} ("unknown color mode " ++ Text.quote o.color)
    | some mode =>
      match loadConfig files o with
      | .error message => Output.abort {} message
      | .ok cfg =>
        let (env, s) := Elaborate.startEnv none {}
        runFiles files cfg mode.isColored o.files env s {}

/-- Run with the given arguments. -/
def run (files : Files) (args : List String) : Output :=
  match Options.ofArguments args with
  | .error fault => { status := 2, stderr := fault.message ++ usage }
  | .ok o => runWith files o

/-- The files that a run with arguments may read. -/
def inputs (args : List String) : List String :=
  match Options.ofArguments args with
  | .error _ => []
  | .ok o => o.config :: o.files

end Typecase.CommandLine
