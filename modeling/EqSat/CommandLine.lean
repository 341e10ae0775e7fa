import EqSat.Arguments
import EqSat.Log
import EqSat.Rule.Loading
import EqSat.Text.Integer
import EqSat.Text.Line

/-!
# The command line

    starling simplify [options] [term]      simplify a term, or each line of the input
    starling rules [options]                list the rules

The exit status is 0 on success, 1 for terms or rules that cannot be read, and 2 when the
rules prove two different constants equal or the arguments are refused.  A rule file at a
path that no file can have ends the program without an outcome, and so does an option
without a value when the value is needed.
-/

namespace EqSat.CommandLine

/-- How terms are printed. -/
inductive TermFormat where
  | sexpr
  | infixForm
deriving DecidableEq, Repr

inductive Command where
  | simplify
  | rules
deriving DecidableEq, Repr

abbrev Positive := { n : Nat // 0 < n }

/-- What the arguments ask for.  Where an option was given without a value, it is missing. -/
structure Settings where
  verbose : Bool
  logFormat : Log.Format
  command : Command
  term : Option String
  format : TermFormat
  trace : Bool
  ruleFiles : List (Option String)
  groups : Option (List (Option String))
  groupsOnly : Bool
  iterations : Option Positive
  nodes : Option Positive

def Settings.default : Settings where
  verbose := false
  logFormat := .console
  command := .simplify
  term := none
  format := .infixForm
  trace := false
  ruleFiles := []
  groups := none
  groupsOnly := false
  iterations := some ⟨Limits.default.iterations, Limits.default.iterations_pos⟩
  nodes := some ⟨Limits.default.nodes, Limits.default.nodes_pos⟩

/-- The limits, if neither of them is missing. -/
def Settings.limits? (s : Settings) : Option Limits :=
  match s.iterations, s.nodes with
  | some i, some n => some ⟨i, n, i.2, n.2⟩
  | _, _ => none

/-! ## The grammars -/

def program : String := "starling"

def version : String := "0.1.0"

/-- One of several words; without any it is `standard`. -/
def choice {α : Type} (words : List (String × α)) (standard : α)
    (change : α → Settings → Settings) : Effect Settings :=
  .value fun name value s =>
    match value with
    | none => .ok (change standard s)
    | some word =>
      match words.lookup word with
      | some a => .ok (change a s)
      | none => .error (.invalidChoice name word (words.map Prod.fst))

/-- A positive integer. -/
def positive (change : Option Positive → Settings → Settings) : Effect Settings :=
  .value fun name value s =>
    match value with
    | none => .ok (change none s)
    | some text =>
      match Text.integer? text with
      | none => .error (.invalidValue name "positive_int" text)
      | some n =>
        if h : 0 < n then .ok (change (some ⟨n.toNat, by omega⟩) s)
        else .error (.notPositive name n)

def helpSwitch : Switch Settings := ⟨["-h", "--help"], .stop .help⟩

def groupSwitch : Switch Settings :=
  ⟨["-g", "--group"], .value fun _ value s => .ok { s with groups := s.groups.getD [] ++ [value] }⟩

def rulesSwitch : Switch Settings :=
  ⟨["-r", "--rules"], .value fun _ value s => .ok { s with ruleFiles := s.ruleFiles ++ [value] }⟩

def simplifyGrammar : Grammar Settings where
  program := program ++ " simplify"
  switches := [helpSwitch,
    ⟨["-f", "--format"], choice [("sexpr", .sexpr), ("infix", .infixForm)] .sexpr
      fun format s => { s with format := format }⟩,
    ⟨["-t", "--trace"], .flag fun s => { s with trace := true }⟩,
    rulesSwitch,
    groupSwitch,
    ⟨["--iter-limit"], positive fun n s => { s with iterations := n }⟩,
    ⟨["--node-limit"], positive fun n s => { s with nodes := n }⟩]
  operand := .optional fun term s => { s with term := some term }

def rulesGrammar : Grammar Settings where
  program := program ++ " rules"
  switches := [helpSwitch, groupSwitch, rulesSwitch,
    ⟨["--groups"], .flag fun s => { s with groupsOnly := true }⟩]
  operand := .none

/-- Read the arguments of a command. -/
def readCommand (word : String) (args : List String) (s : Settings) :
    Except Stop (Settings × List String) :=
  if word = "rules" then rulesGrammar.readSome args { s with command := .rules }
  else simplifyGrammar.readSome args { s with command := .simplify }

def grammar : Grammar Settings where
  program := program
  switches := [helpSwitch,
    ⟨["--version"], .stop .version⟩,
    ⟨["-v", "--verbose"], .flag fun s => { s with verbose := true }⟩,
    ⟨["--log-format"], choice [("console", .console), ("json", .object)] .console
      fun format s => { s with logFormat := format }⟩]
  operand := .command "COMMAND" ["simplify", "rules"] readCommand

/-! ## Running -/

/-- What a command leaves behind. -/
structure Outcome where
  exit : Nat
  stdout : String
  stderr : String
deriving DecidableEq, Repr

def exitOk : Nat := 0

def exitUsage : Nat := 1

def exitInconsistent : Nat := 2

/-- Lines as text, each of them ended. -/
def endLines (lines : List String) : String := String.join (lines.map (· ++ "\n"))

/-- Why a command cannot be run. -/
inductive RunError where
  | load (cause : LoadError)
  | noGroup
  | noFile
  | noLimit

def RunError.message : RunError → String
  | load cause => cause.message
  | noGroup => "a group has no name"
  | noFile => "a rule file has no path"
  | noLimit => "a limit has no number"

/-- The report of an error, except of those that end the program. -/
def RunError.outcome? : RunError → Option Outcome
  | load (.file .unusable) => none
  | load cause => some ⟨exitUsage, "", endLines ["Error loading rules: " ++ cause.message]⟩
  | _ => none

/-- The value of an option, which must not be missing. -/
def needed {α : Type} (e : RunError) : Option α → Except RunError α
  | some a => .ok a
  | none => .error e

/-- The built-in rules, perhaps only some groups of them, and those of the files. -/
def loadRules (fs : FileSet) (s : Settings) : Except RunError (List Rule) := do
  let groups ← s.groups.mapM fun names => names.mapM (needed .noGroup)
  let loaded ← s.ruleFiles.mapM fun file => do
    let path ← needed .noFile file
    (Rule.loadFile fs path).mapError .load
  .ok (Rule.defaultsIn groups ++ loaded.flatten)

def logLines (s : Settings) (es : List Log.Event) : List String :=
  Log.lines s.logFormat (if s.verbose then .debug else .warning) es

def limitValue : Option Positive → Log.Value
  | some n => .number n.1
  | none => .missing

/-- The event at the start of the command. -/
def startEvent (s : Settings) (rules : List Rule) : Log.Event where
  level := .debug
  system := "cli"
  name := "simplify_start"
  fields := [("rules", .number rules.length), ("iter_limit", limitValue s.iterations),
    ("node_limit", limitValue s.nodes)]

def printTerm (format : TermFormat) (t : Term) : String :=
  match format with
  | .sexpr => t.text
  | .infixForm => t.infixText

/-- Simplify one term and print it.  The limits are needed once the term is read. -/
def simplifyOne (s : Settings) (rules : List Rule) (source : String) : Except RunError Outcome :=
  match Term.read source with
  | .error e => .ok ⟨exitUsage, "", endLines ["Error: " ++ e.message]⟩
  | .ok t => do
    let limits ← needed .noLimit s.limits?
    let (result, r) := t.simplifyWith rules limits
    let log := logLines s (Log.ofRun result r)
    let trace := if s.trace then r.report.lines else []
    match result with
    | .ok best => .ok ⟨exitOk, endLines [printTerm s.format best], endLines (log ++ trace)⟩
    | .error (.conflict e) =>
      .ok ⟨exitInconsistent, "", endLines (log ++ ["Error: " ++ e.message])⟩
    | .error e => .ok ⟨exitUsage, "", endLines (log ++ ["Error: " ++ e.message])⟩

/-- Simplify each line that is neither blank nor a comment, up to the first that fails. -/
def simplifyLines (s : Settings) (rules : List Rule) : List String → Except RunError Outcome
  | [] => .ok ⟨exitOk, "", ""⟩
  | line :: rest =>
    let source := Text.stripped line
    if source.isEmpty || source.toList.head? == some '#' then simplifyLines s rules rest
    else do
      let first ← simplifyOne s rules source
      if first.exit = exitOk then
        let more ← simplifyLines s rules rest
        .ok ⟨more.exit, first.stdout ++ more.stdout, first.stderr ++ more.stderr⟩
      else .ok first

def runSimplify (s : Settings) (rules : List Rule) (stdin : String) : Except RunError Outcome := do
  let start := endLines (logLines s [startEvent s rules])
  let outcome ← match s.term with
    | some source => simplifyOne s rules source
    | none => simplifyLines s rules (Rule.linesOf stdin)
  .ok { outcome with stderr := start ++ outcome.stderr }

def runRules (s : Settings) (rules : List Rule) : Outcome :=
  if s.groupsOnly then ⟨exitOk, "\n".intercalate (Rule.groups rules) ++ "\n", ""⟩
  else ⟨exitOk, Rule.listing rules, ""⟩

/-- Run the command that the settings ask for. -/
def runSettings (fs : FileSet) (s : Settings) (stdin : String) : Except RunError Outcome :=
  match loadRules fs s with
  | .error e => needed e e.outcome?
  | .ok rules =>
    match s.command with
    | .rules => .ok (runRules s rules)
    | .simplify => runSimplify s rules stdin

/-- The report of refused arguments, one line even if an argument holds several. -/
def refusal (prog : String) (cause : ArgumentError) : String :=
  String.ofList (Text.lastLine (prog ++ ": error: " ++ cause.message).toList)

/-- The outcome of arguments that run no command. -/
def stopOutcome : Stop → Outcome
  | .help => ⟨exitOk, "", ""⟩
  | .version => ⟨exitOk, endLines [program ++ " " ++ version], ""⟩
  | .refused prog cause => ⟨2, "", endLines [refusal prog cause]⟩

/-- Run the program on its arguments, its input, and the files there are. -/
def run (fs : FileSet) (args : List String) (stdin : String) : Except RunError Outcome :=
  match grammar.read args .default with
  | .error stop => .ok (stopOutcome stop)
  | .ok s => runSettings fs s stdin

/-- The rule files that the arguments name. -/
def namedFiles (args : List String) : List Path :=
  match grammar.read args .default with
  | .error _ => []
  | .ok s => s.ruleFiles.filterMap fun file => file.map Path.ofString

/-- The terms are to be read from the input. -/
def readsInput (args : List String) : Bool :=
  match grammar.read args .default with
  | .error _ => false
  | .ok s => s.command == .simplify && s.term.isNone

end EqSat.CommandLine
