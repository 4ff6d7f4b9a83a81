import Formula.Calculation
import Formula.Json

/-!
# The command line

`readArguments` reads the arguments of the program, and `run` answers them. Both are pure: an
answer is an exit code with the texts for the two output streams.
-/

namespace Formula.CommandLine

/-! ## Requests -/

/-- What is to be done with an expression. -/
inductive Action where
  | simplify
  | eval
  | bounds
deriving DecidableEq

/-- The action of a command word. -/
def Action.ofWord? : String → Option Action
  | "simplify" => some .simplify
  | "eval" => some .eval
  | "bounds" => some .bounds
  | _ => none

/-- What can be explained. -/
inductive Topic where
  | program
  | command (action : Action)
  /-- The command that asks for explanations. -/
  | help
deriving DecidableEq

/-- The topic of a command word. -/
def Topic.ofWord? (word : String) : Option Topic :=
  if word = "help" then some .help else (Action.ofWord? word).map .command

/-- What the arguments ask for. -/
inductive Request where
  | calculate (action : Action) (expression : String) (point : Float) (exact json : Bool)
  | explain (topic : Topic)
  | version

/-- Why the arguments cannot be followed. -/
inductive UsageError where
  | unknownArgument (argument : String)
  | unknownCommand (word : String)
  | repeatedFlag (flag : String)
  | missingValue (flag : String)
  | unexpectedValue (flag : String)
  | invalidNumber (value : String)
  | missingCommand
  | missingExpression
  | surplusArgument (argument : String)

/-- The options that every command has. -/
structure Flags where
  exact : Bool := false
  json : Bool := false

/-- Sets a flag by its name, if there is such a flag. -/
def Flags.set? (flags : Flags) (flag : String) : Option (Except UsageError Flags) :=
  if flag = "exact" then
    some (if flags.exact then .error (.repeatedFlag flag) else .ok { flags with exact := true })
  else if flag = "json" then
    some (if flags.json then .error (.repeatedFlag flag) else .ok { flags with json := true })
  else none

/-! ## Arguments -/

/-- How an argument looks. -/
inductive Shape where
  /-- Two dashes: what follows is no option. -/
  | separator
  /-- Two dashes and a name, possibly with a value behind an equals sign. -/
  | long (name : String) (value : Option String)
  /-- A dash and letters. -/
  | short (letters : List Char)
  | plain
deriving DecidableEq

/-- How an argument looks. A single dash is plain. -/
def Shape.of (argument : String) : Shape :=
  match argument.toList with
  | ['-', '-'] => .separator
  | '-' :: '-' :: rest =>
    match Digits.cut '=' rest with
    | some (name, value) => .long (String.ofList name) (some (String.ofList value))
    | none => .long (String.ofList rest) none
  | '-' :: c :: rest => .short (c :: rest)
  | _ => .plain

/-- The letters that set off an exponent. -/
def isExponentMark (c : Char) : Bool :=
  c == 'e' || c == 'E'

/-- Whether what follows a dash looks like a number: digits, at most one point among them and at
most one exponent mark behind them, neither of them first and the mark not last. -/
def looksLikeNumber (text : List Char) : Bool :=
  let mantissa := text.takeWhile (!isExponentMark ·)
  let digitsWithPoint :=
    match Digits.cut '.' mantissa with
    | some (whole, decimals) =>
      !whole.isEmpty && whole.all Char.isDigit && decimals.all Char.isDigit
    | none => mantissa.all Char.isDigit
  digitsWithPoint &&
    match text.dropWhile (!isExponentMark ·) with
    | [] => true
    | _ :: exponent => !mantissa.isEmpty && !exponent.isEmpty && exponent.all Char.isDigit

/-- Whether an argument can be the value of an option that allows negative numbers. -/
def canBeValue (argument : String) : Bool :=
  match Shape.of argument with
  | .plain => true
  | .short letters => looksLikeNumber letters
  | _ => false

/-- The number an option is given. -/
def readNumber (value : String) : Except UsageError Float :=
  match Floating.read? value.toList with
  | some x => .ok x
  | none => .error (.invalidNumber value)

/-! ## Reading the arguments of a command -/

/-- What has been read of a command. -/
structure Progress where
  flags : Flags := {}
  point : Option Float := none
  expression : Option String := none

/-- Takes an argument for the expression. -/
def Progress.addExpression (p : Progress) (argument : String) : Except UsageError Progress :=
  match p.expression with
  | none => .ok { p with expression := some argument }
  | some _ => .error (.surplusArgument argument)

/-- Takes a value for the point. -/
def Progress.addPoint (p : Progress) (value : String) : Except UsageError Progress :=
  match p.point with
  | some _ => .error (.repeatedFlag "at")
  | none => (readNumber value).map fun x => { p with point := some x }

/-- Takes all arguments for expressions. -/
def Progress.addPlain (p : Progress) : List String → Except UsageError Progress
  | [] => .ok p
  | argument :: rest =>
    match p.addExpression argument with
    | .ok p => p.addPlain rest
    | .error e => .error e

/-- Reads the arguments behind a command word; `none` if they ask for help. -/
def readCommand (action : Action) : Progress → List String → Except UsageError (Option Progress)
  | p, [] => .ok (some p)
  | p, argument :: rest =>
    match Shape.of argument with
    | .separator => (p.addPlain rest).map some
    | .plain =>
      match p.addExpression argument with
      | .ok p => readCommand action p rest
      | .error e => .error e
    | .short letters =>
      if letters.head? = some 'h' then .ok none else .error (.unknownArgument argument)
    | .long name value =>
      if name = "at" ∧ action = .eval then
        match value, rest with
        | some value, rest =>
          match p.addPoint value with
          | .ok p => readCommand action p rest
          | .error e => .error e
        | none, value :: rest =>
          if canBeValue value then
            match p.addPoint value with
            | .ok p => readCommand action p rest
            | .error e => .error e
          else .error (.missingValue name)
        | none, [] => .error (.missingValue name)
      else if name = "help" then
        if value.isSome then .error (.unexpectedValue name) else .ok none
      else
        match p.flags.set? name with
        | none => .error (.unknownArgument argument)
        | some result =>
          if value.isSome then .error (.unexpectedValue name)
          else
            match result with
            | .ok flags => readCommand action { p with flags } rest
            | .error e => .error e

/-- The request of a command whose arguments are read. The flags before the command word count as
well. -/
def requestOf (before : Flags) (action : Action) : Option Progress → Except UsageError Request
  | none => .ok (.explain (.command action))
  | some p =>
    match p.expression with
    | none => .error .missingExpression
    | some expression =>
      .ok (.calculate action expression (p.point.getD 0) (before.exact || p.flags.exact)
        (before.json || p.flags.json))

/-- Reads what is to be explained. No topic has topics of its own. -/
def readTopic : List String → Except UsageError Request
  | [] => .ok (.explain .program)
  | word :: rest =>
    match Topic.ofWord? word, rest with
    | none, _ => .error (.unknownCommand word)
    | some _, argument :: _ => .error (.unknownCommand argument)
    | some topic, [] => .ok (.explain topic)

/-- Reads the arguments of the program, with the flags given so far. -/
def readArguments : Flags → List String → Except UsageError Request
  | _, [] => .error .missingCommand
  | flags, argument :: rest =>
    match Shape.of argument with
    | .separator =>
      match rest with
      | [] => .error .missingCommand
      | argument :: _ => .error (.unknownArgument argument)
    | .plain =>
      if argument = "help" then readTopic rest
      else
        match Action.ofWord? argument with
        | none => .error (.unknownCommand argument)
        | some action =>
          match readCommand action {} rest with
          | .ok progress => requestOf flags action progress
          | .error e => .error e
    | .short letters =>
      if letters.head? = some 'h' then .ok (.explain .program)
      else if letters.head? = some 'V' then .ok .version
      else .error (.unknownArgument argument)
    | .long name value =>
      if name = "help" ∨ name = "version" then
        if value.isSome then .error (.unexpectedValue name)
        else .ok (if name = "help" then .explain .program else .version)
      else
        match flags.set? name with
        | none => .error (.unknownArgument argument)
        | some result =>
          if value.isSome then .error (.unexpectedValue name)
          else
            match result with
            | .ok flags => readArguments flags rest
            | .error e => .error e

/-! ## Answers -/

/-- What the program prints and returns. -/
structure Answer where
  code : Nat
  output : String := ""
  error : String := ""

/-- A value with its kind. -/
def valueJson (v : Value) : Json :=
  .object [("kind", .text v.kind.name), ("value", .text v.text)]

/-- Both ends of an interval. -/
def boundsJson (b : Bounds) : Json :=
  .object [("max", valueJson b.max), ("min", valueJson b.min)]

/-- The line that answers a calculation. -/
def calculate (action : Action) (expression : String) (x : Float) (exact json : Bool) :
    Option (Except CalcError String) :=
  match action with
  | .simplify =>
    (interpret expression exact).map <| Except.map fun result =>
      if json then (Json.object [("input", .text expression), ("result", .text result)]).render
      else result
  | .eval =>
    (evaluateAt expression exact x).map <| Except.map fun v =>
      if json then
        (Json.object [("at", .number x), ("input", .text expression),
          ("result", valueJson v)]).render
      else v.text
  | .bounds =>
    (boundsOf expression exact).map <| Except.map fun b =>
      if json then
        (Json.object [("bounds", boundsJson b), ("input", .text expression)]).render
      else "[" ++ b.min.text ++ ", " ++ b.max.text ++ "]"

/-- The name and the version of the program. -/
def versionText : String := "symcalc 0.1.0"

/-- The options that every command has, with a column of the given width for their names. -/
def flagLines (width : Nat) : List String :=
  let line (name description : String) :=
    name ++ String.ofList (List.replicate (width - name.length) ' ') ++ "  " ++ description
  [line "      --exact" "Read numeric literals as exact fractions",
   line "      --json" "Print results as JSON",
   line "  -h, --help" "Print help"]

/-- What a command does. -/
def Action.summary : Action → String
  | simplify => "Simplify an expression and print the result"
  | eval => "Evaluate an expression at a value of x"
  | bounds => "Print the interval an expression's value is known to lie in"

/-- The word of a command. -/
def Action.word : Action → String
  | simplify => "simplify"
  | eval => "eval"
  | bounds => "bounds"

/-- What the command does that asks for explanations. -/
def helpSummary : String :=
  "Print this message or the help of the given subcommand(s)"

/-- The explanation of a command. -/
def commandHelp (action : Action) : List String :=
  let purpose :=
    match action with
    | .simplify => "simplify"
    | .eval => "evaluate"
    | .bounds => "bound"
  [action.summary, "", "Usage: symcalc " ++ action.word ++ " [OPTIONS] <EXPRESSION>", "",
   "Arguments:", "  <EXPRESSION>  The expression to " ++ purpose, "", "Options:"] ++
  (if action = .eval then
    "      --at <AT>  Value substituted for x [default: 0]" :: flagLines 15
  else flagLines 13)

/-- The explanation of the program. -/
def programHelp : List String :=
  ["Single-variable computer-algebra core: parse, simplify, evaluate and bound expressions", "",
   "Usage: symcalc [OPTIONS] <COMMAND>", "", "Commands:",
   "  simplify  " ++ Action.summary .simplify,
   "  eval      " ++ Action.summary .eval,
   "  bounds    " ++ Action.summary .bounds,
   "  help      " ++ helpSummary, "", "Options:"] ++
  flagLines 15 ++ ["  -V, --version  Print version"]

/-- The explanation of a topic. -/
def Topic.explanation : Topic → List String
  | program => programHelp
  | command action => commandHelp action
  | help =>
    [helpSummary, "", "Usage: symcalc help [COMMAND]...", "", "Arguments:",
     "  [COMMAND]...  Print help for the subcommand(s)"]

/-- Text of whole lines. -/
def linesText (lines : List String) : String :=
  String.join (lines.map (· ++ "\n"))

/-- The message about arguments that cannot be followed. -/
def UsageError.message : UsageError → String
  | unknownArgument argument => "unexpected argument '" ++ argument ++ "' found"
  | unknownCommand word => "unrecognized subcommand '" ++ word ++ "'"
  | repeatedFlag flag => "the argument '--" ++ flag ++ "' cannot be used multiple times"
  | missingValue flag => "a value is required for '--" ++ flag ++ "' but none was supplied"
  | unexpectedValue flag => "unexpected value for '--" ++ flag ++ "' found; no more were expected"
  | invalidNumber value => "invalid value '" ++ value ++ "' for '--at <AT>': invalid float literal"
  | missingCommand => "a subcommand is required but one was not provided"
  | missingExpression => "the following required arguments were not provided: <EXPRESSION>"
  | surplusArgument argument => "unexpected argument '" ++ argument ++ "' found"

/-- The answer to the arguments of the program: code 1 if the calculation fails, code 2 if the
arguments cannot be followed, and code 101 if an operation overflows. -/
def run (arguments : List String) : Answer :=
  match readArguments {} arguments with
  | .error e => { code := 2, error := linesText ["error: " ++ e.message] }
  | .ok .version => { code := 0, output := linesText [versionText] }
  | .ok (.explain topic) => { code := 0, output := linesText topic.explanation }
  | .ok (.calculate action expression x exact json) =>
    match calculate action expression x exact json with
    | some (.ok line) => { code := 0, output := linesText [line] }
    | some (.error e) => { code := 1, error := linesText ["Error: " ++ e.message] }
    | none => { code := 101 }

end Formula.CommandLine
