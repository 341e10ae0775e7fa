import EqSat.Text.Digit
import EqSat.Text.Quoted

/-!
# Command line arguments

A grammar says which options a command has and what it takes besides.  Long options may be
shortened to what tells them apart and carry a value behind `=`; short ones may be run
together, a value at the end.  What is attached to a short option that takes no value must
therefore start with the letter of another one.  What looks like a negative number is no
option.  After `--` there are no more options; attached to an option, it is no value.

Arguments are read from left to right, each of them changing the settings `σ`.
-/

namespace EqSat

/-- Why arguments are refused. -/
inductive ArgumentError where
  | ambiguous (given : String) (candidates : List String)
  | noValue (option : String)
  | needlessValue (option value : String)
  | invalidChoice (name value : String) (choices : List String)
  | invalidValue (option kind value : String)
  | notPositive (option : String) (value : Int)
  | missing (name : String)
  | unrecognized (args : List String)
deriving DecidableEq, Repr

def ArgumentError.message : ArgumentError → String
  | ambiguous given candidates =>
    "ambiguous option: " ++ given ++ " could match " ++ ", ".intercalate candidates
  | noValue option => "argument " ++ option ++ ": expected one argument"
  | needlessValue option value =>
    "argument " ++ option ++ ": ignored explicit argument " ++ Text.quoted value
  | invalidChoice name value choices =>
    "argument " ++ name ++ ": invalid choice: " ++ Text.quoted value ++ " (choose from " ++
      ", ".intercalate (choices.map Text.quoted) ++ ")"
  | invalidValue option kind value =>
    "argument " ++ option ++ ": invalid " ++ kind ++ " value: " ++ Text.quoted value
  | notPositive option value =>
    "argument " ++ option ++ ": must be positive, got " ++ toString value
  | missing name => "the following arguments are required: " ++ name
  | unrecognized args => "unrecognized arguments: " ++ " ".intercalate args

/-- Why reading the arguments ends early. -/
inductive Stop where
  | help
  | version
  | refused (program : String) (cause : ArgumentError)
deriving DecidableEq, Repr

/-- What an option does with the settings; `name` is how errors name the option.  The value
is missing if `--` stands in its place. -/
inductive Effect (σ : Type) where
  | flag (change : σ → σ)
  | value (change : (name : String) → (value : Option String) → σ → Except ArgumentError σ)
  | stop (reason : Stop)

/-- An option: its names, and what it does. -/
structure Switch (σ : Type) where
  names : List String
  effect : Effect σ

/-- What a command takes besides options. -/
inductive Operand (σ : Type) where
  | none
  | optional (change : String → σ → σ)
  | command (metavar : String) (choices : List String)
      (run : String → List String → σ → Except Stop (σ × List String))

structure Grammar (σ : Type) where
  program : String
  switches : List (Switch σ)
  operand : Operand σ

namespace Switch

variable {σ : Type}

/-- All names, as errors show them. -/
def title (s : Switch σ) : String := "/".intercalate s.names

end Switch

/-- An option as it was given: under which name, and with which text attached to it. -/
structure Given (σ : Type) where
  switch : Switch σ
  name : String
  attached : Option String

/-- The name is one letter. -/
def Given.isShort {σ : Type} (given : Given σ) : Bool := given.name.length == 2

/-- What an argument is. -/
inductive ArgumentKind (σ : Type) where
  | operand
  | separator
  | unknown
  | option (g : Given σ)

namespace Grammar

variable {σ : Type}

/-! ## Telling options from operands -/

/-- Every name of an option with the option. -/
def names (g : Grammar σ) : List (String × Switch σ) :=
  g.switches.flatMap fun s => s.names.map fun name => (name, s)

def find? (g : Grammar σ) (name : String) : Option (Switch σ) := g.names.lookup name

/-- The text before the first `=`, and the text after it if there is one. -/
def splitValue (arg : String) : String × Option String :=
  let cs := arg.toList
  (String.ofList (cs.takeWhile (· != '=')),
    match cs.dropWhile (· != '=') with
    | _ :: value => some (String.ofList value)
    | [] => none)

/-- The options that a shortened or run-together argument can mean. -/
def candidates (g : Grammar σ) (arg : String) : List (Given σ) :=
  match arg.toList with
  | '-' :: '-' :: _ =>
    let (start, value) := splitValue arg
    g.names.filterMap fun (name, s) =>
      if start.toList.isPrefixOf name.toList then some ⟨s, name, value⟩
      else none
  | c :: d :: rest =>
    g.names.filterMap fun (name, s) =>
      if name = String.ofList [c, d] then some ⟨s, name, some (String.ofList rest)⟩
      else if arg.toList.isPrefixOf name.toList then some ⟨s, name, none⟩
      else none
  | _ => []

/-- A minus, then digits, perhaps with a point among or before them. -/
def looksNegative (arg : String) : Bool :=
  let isDecimal (c : Char) : Bool := (Text.decimalValue? c).isSome
  match arg.toList with
  | '-' :: cs =>
    let cs := if cs.getLast? == some '\n' then cs.dropLast else cs
    match cs.dropWhile isDecimal with
    | [] => !cs.isEmpty
    | '.' :: after => !after.isEmpty && after.all isDecimal
    | _ => false
  | _ => false

def classify (g : Grammar σ) (arg : String) : Except ArgumentError (ArgumentKind σ) :=
  if arg.toList.head? != some '-' then .ok .operand
  else match g.find? arg with
    | some s => .ok (.option ⟨s, arg, none⟩)
    | none =>
      if arg.length = 1 then .ok .operand
      else
        let (name, value) := splitValue arg
        match g.find? name, value with
        | some s, some v => .ok (.option ⟨s, name, some v⟩)
        | _, _ =>
          match g.candidates arg with
          | [one] => .ok (.option one)
          | [] => .ok (if looksNegative arg || arg.toList.contains ' ' then .operand else .unknown)
          | several => .error (.ambiguous arg (several.map (·.name)))

def classifyAll (g : Grammar σ) :
    List String → Except ArgumentError (List (String × ArgumentKind σ))
  | [] => .ok []
  | arg :: args =>
    if arg = "--" then .ok ((arg, .separator) :: args.map fun a => (a, .operand))
    else do
      let kind ← g.classify arg
      let rest ← g.classifyAll args
      .ok ((arg, kind) :: rest)

/-! ## Options run together -/

/-- The value that a text attached to an option is. -/
def valueOf (text : String) : Option String := if text = "--" then none else some text

/-- What an argument made of options asks for: the options in order with their values, and
the one at the end that still needs a value. -/
structure Cluster (σ : Type) where
  effects : List (Switch σ × Option String)
  needy : Option (Switch σ)

/-- An option with nothing attached to it. -/
def Cluster.single {σ : Type} (s : Switch σ) : Cluster σ :=
  match s.effect with
  | .value _ => ⟨[], some s⟩
  | _ => ⟨[(s, none)], none⟩

/-- Options run together: the text attached to a short option is its value or, if it takes
none, starts with the letter of the next option. -/
def cluster (g : Grammar σ) (s : Switch σ) : List Char → Except ArgumentError (Cluster σ)
  | [] => .ok (.single s)
  | c :: cs =>
    let text := String.ofList (c :: cs)
    match s.effect with
    | .value _ => .ok ⟨[(s, valueOf text)], none⟩
    | _ =>
      match g.find? (String.ofList ['-', c]) with
      | none => .error (.needlessValue s.title text)
      | some next => (g.cluster next cs).map fun more =>
          { more with effects := (s, none) :: more.effects }

/-- What an option asks for as it was given.  Only a short one can have others behind it. -/
def clusterOf (g : Grammar σ) (given : Given σ) : Except ArgumentError (Cluster σ) :=
  match given.attached, given.switch.effect with
  | none, _ => .ok (.single given.switch)
  | some text, .value _ => .ok ⟨[(given.switch, valueOf text)], none⟩
  | some text, _ =>
    if given.isShort && !text.isEmpty then g.cluster given.switch text.toList
    else .error (.needlessValue given.switch.title text)

/-- Have the effect of an option. -/
def perform (g : Grammar σ) (s : σ) : Switch σ × Option String → Except Stop σ
  | (switch, value) =>
    match switch.effect with
    | .flag change => .ok (change s)
    | .stop reason => .error reason
    | .value change => (change switch.title value s).mapError (.refused g.program)

/-! ## Reading -/

/-- Read the classified arguments, `operand` being what the command can still take; gives
the settings and the arguments that nothing takes. -/
def readKinds (g : Grammar σ) :
    List (String × ArgumentKind σ) → Operand σ → σ → List String → Except Stop (σ × List String)
  | [], operand, s, extra =>
    match operand with
    | .command metavar _ _ => .error (.refused g.program (.missing metavar))
    | _ => .ok (s, extra)
  | (arg, .unknown) :: rest, operand, s, extra => g.readKinds rest operand s (extra ++ [arg])
  | (_, .option given) :: rest, operand, s, extra =>
    match g.clusterOf given with
    | .error cause => .error (.refused g.program cause)
    | .ok c =>
      match c.needy, rest with
      | none, rest =>
        match c.effects.foldlM g.perform s with
        | .ok s => g.readKinds rest operand s extra
        | .error stop => .error stop
      | some switch, (value, .operand) :: rest =>
        match (c.effects ++ [(switch, some value)]).foldlM g.perform s with
        | .ok s => g.readKinds rest operand s extra
        | .error stop => .error stop
      | some switch, _ => .error (.refused g.program (.noValue switch.title))
  | (arg, .operand) :: rest, operand, s, extra =>
    match operand, rest with
    | .none, rest => g.readKinds rest .none s (extra ++ [arg])
    | .optional change, (_, .separator) :: rest => g.readKinds rest .none (change arg s) extra
    | .optional change, rest => g.readKinds rest .none (change arg s) extra
    | .command metavar choices run, rest =>
      if arg ∈ choices then
        (run arg (rest.map Prod.fst) s).map fun (s, more) => (s, extra ++ more)
      else .error (.refused g.program (.invalidChoice metavar arg choices))
  | (arg, .separator) :: rest, operand, s, extra =>
    match operand, rest with
    | .none, rest => g.readKinds rest .none s (extra ++ [arg])
    | .optional change, (value, .operand) :: rest => g.readKinds rest .none (change value s) extra
    | .optional _, rest => g.readKinds rest .none s extra
    | .command metavar _ _, [] => .error (.refused g.program (.missing metavar))
    | .command metavar choices _, _ =>
      .error (.refused g.program (.invalidChoice metavar arg choices))

/-- Read the arguments; gives the settings and the arguments that nothing takes. -/
def readSome (g : Grammar σ) (args : List String) (s : σ) : Except Stop (σ × List String) := do
  let kinds ← (g.classifyAll args).mapError (.refused g.program)
  g.readKinds kinds g.operand s []

/-- Read the arguments, all of which must be taken. -/
def read (g : Grammar σ) (args : List String) (s : σ) : Except Stop σ := do
  match ← g.readSome args s with
  | (s, []) => .ok s
  | (_, extra) => .error (.refused g.program (.unrecognized extra))

end Grammar

end EqSat
