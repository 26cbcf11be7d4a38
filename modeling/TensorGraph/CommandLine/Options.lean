import TensorGraph.Formula.InputSpec

/-!
# Command line options

Arguments are read from left to right. Options have a long name, and some also a letter; letters
can be joined, as in `-pr`. The value of an option is the rest of its argument, with an equals sign
after a long name and an optional one after a letter, or else the next argument. After `--` there
are no options.
-/

namespace TensorGraph.CommandLine

/-- An option without a value. -/
inductive Switch where
  | printGraph | run | timing | verbose | json | help
deriving DecidableEq, Repr

/-- An option with a value. -/
inductive Setting where
  | input | mode | including | excluding | dim
deriving DecidableEq, Repr

inductive OptionKind where
  | switch (s : Switch)
  | setting (s : Setting)
deriving DecidableEq, Repr

/-- The options by their long names and letters. -/
def optionNames : List (String × Option Char × OptionKind) :=
  [("input", some 'i', .setting .input), ("mode", some 'm', .setting .mode),
    ("including", none, .setting .including), ("excluding", none, .setting .excluding),
    ("dim", some 'd', .setting .dim), ("print", some 'p', .switch .printGraph),
    ("run", some 'r', .switch .run), ("timing", some 't', .switch .timing),
    ("verbose", some 'v', .switch .verbose), ("json", none, .switch .json),
    ("help", some 'h', .switch .help)]

def longOption? (name : String) : Option OptionKind :=
  (optionNames.find? (·.1 == name)).map (·.2.2)

def letterOption? (c : Char) : Option OptionKind :=
  (optionNames.find? (·.2.1 == some c)).map (·.2.2)

/-- What an argument means. -/
inductive Item where
  | positional (text : String)
  | switch (s : Switch)
  | setting (s : Setting) (value : String)
  /-- Nothing, for the given reason. -/
  | invalid (message : String)
deriving DecidableEq, Repr

/-- What one argument means by itself. -/
inductive Reading where
  | items (items : List Item)
  /-- The last option of the argument takes the next argument as its value. -/
  | awaiting (items : List Item) (s : Setting)
  /-- There are no options after this argument. -/
  | terminator
deriving DecidableEq, Repr

def unknownOption (name : String) : Item := .invalid ("invalid option '" ++ name ++ "'")

def unexpectedValue (name : String) : Item := .invalid ("unexpected argument for option '" ++ name ++ "'")

/-- The value of a letter, whose argument goes on with the given characters. -/
def letterValue : List Char → String
  | '=' :: rest | rest => String.ofList rest

/-- Reads joined letters. An equals sign cannot follow a letter that takes no value. -/
def readLetters : List Char → Reading
  | [] => .items []
  | c :: rest =>
    let name := "-" ++ c.toString
    match letterOption? c, rest with
    | none, _ => .items [unknownOption name]
    | some (.setting s), [] => .awaiting [] s
    | some (.setting s), rest => .items [.setting s (letterValue rest)]
    | some (.switch s), '=' :: _ => .items [.switch s, unexpectedValue name]
    | some (.switch s), rest => match readLetters rest with
      | .items items => .items (.switch s :: items)
      | .awaiting items setting => .awaiting (.switch s :: items) setting
      | .terminator => .terminator

/-- Reads a long option, after the dashes. -/
def readLong (text : List Char) : Reading :=
  let (name, value) := match cutAtChar? '=' text with
    | some (name, value) => (String.ofList name, some (String.ofList value))
    | none => (String.ofList text, none)
  match longOption? name, value with
  | none, _ => .items [unknownOption ("--" ++ name)]
  | some (.setting s), some value => .items [.setting s value]
  | some (.setting s), none => .awaiting [] s
  | some (.switch s), none => .items [.switch s]
  | some (.switch s), some _ => .items [.switch s, unexpectedValue ("--" ++ name)]

/-- Reads one argument. A single dash is no option. -/
def readArgument (arg : String) : Reading :=
  match arg.toList with
  | ['-', '-'] => .terminator
  | '-' :: '-' :: text => readLong text
  | ['-'] => .items [.positional arg]
  | '-' :: letters => readLetters letters
  | _ => .items [.positional arg]

/-- Reads all arguments. What follows an invalid item has no meaning. -/
def scan : List String → List Item
  | [] => []
  | [arg] => match readArgument arg with
    | .terminator => []
    | .items items => items
    | .awaiting items _ => items ++ [.invalid "missing argument at end of command"]
  | arg :: next :: args => match readArgument arg with
    | .terminator => (next :: args).map .positional
    | .items items => items ++ scan (next :: args)
    | .awaiting items s => items ++ .setting s next :: scan args

/-- What the user asks for. -/
structure Options where
  /-- The formula. -/
  expr : String := ""
  inputs : List InputSpec := []
  mode : Option String := none
  including : List String := []
  excluding : List String := []
  /-- Sizes of named dimensions, for sample inputs. -/
  dimSizes : List DimSize := []
  printGraph : Bool := false
  run : Bool := false
  timing : Bool := false
  verbose : Bool := false
  json : Bool := false

/-- Why options are not taken. -/
inductive Interruption where
  /-- The user asks for help. -/
  | help
  | invalid (message : String)
deriving DecidableEq, Repr

namespace Options

def setSwitch (o : Options) : Switch → Except Interruption Options
  | .printGraph => .ok { o with printGraph := true }
  | .run => .ok { o with run := true }
  | .timing => .ok { o with timing := true }
  | .verbose => .ok { o with verbose := true }
  | .json => .ok { o with json := true }
  | .help => .error .help

def set (o : Options) (s : Setting) (value : String) : Except Interruption Options :=
  let orInvalid {α : Type} (r : Except SpecError α) : Except Interruption α :=
    r.mapError fun e => .invalid e.message
  match s with
  | .input => do
    let spec ← orInvalid (InputSpec.ofString? value)
    return { o with inputs := o.inputs ++ [spec] }
  | .mode => .ok { o with mode := some value }
  | .including => .ok { o with including := o.including ++ [value] }
  | .excluding => .ok { o with excluding := o.excluding ++ [value] }
  | .dim => do
    let size ← orInvalid (DimSize.ofString? value)
    return { o with dimSizes := o.dimSizes ++ [size] }

/-- Takes the items one after the other. Only the first positional argument counts. -/
def ofItems : List Item → Options → Option String → Except Interruption Options
  | [], o, some expr => .ok { o with expr, dimSizes := DimSize.sortedByName o.dimSizes }
  | [], _, none => .error (.invalid "missing <expr> arg")
  | .positional text :: items, o, expr => ofItems items o (expr <|> some text)
  | .switch s :: items, o, expr => do ofItems items (← o.setSwitch s) expr
  | .setting s value :: items, o, expr => do ofItems items (← o.set s value) expr
  | .invalid message :: _, _, _ => .error (.invalid message)

def ofArguments (args : List String) : Except Interruption Options := ofItems (scan args) {} none

end Options

end TensorGraph.CommandLine
