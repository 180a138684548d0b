import CodeCompletion.Text.CharClass
import CodeCompletion.Text.Position

/-! The arguments of the command line. Options may stand before or after the command, those of a
command only after it, and each at most once in either place; after the command wins. The value of
an option follows it as the next argument or after an equals sign. After two hyphens alone all
arguments are plain. -/
namespace CodeCompletion.CommandLine

inductive OutputFormat where
  | text
  | json
deriving DecidableEq

inductive CommandName where
  | complete
  | context
  | scope
deriving DecidableEq

def CommandName.text : CommandName → String
  | complete => "complete"
  | context => "context"
  | scope => "scope"

def CommandName.ofText? (text : String) : Option CommandName :=
  [complete, context, scope].find? (·.text = text)

inductive HelpTopic where
  | program
  | command (name : CommandName)
  | help
deriving DecidableEq

def HelpTopic.ofText? (text : String) : Option HelpTopic :=
  if text = "help" then some help else (CommandName.ofText? text).map command

inductive OptionName where
  | output
  | quiet
  | config
  | line
  | column
  | noSandbox
  | noKeywords
  | help
  | version
deriving DecidableEq

namespace OptionName

def text : OptionName → String
  | output => "output"
  | quiet => "quiet"
  | config => "config"
  | line => "line"
  | column => "column"
  | noSandbox => "no-sandbox"
  | noKeywords => "no-keywords"
  | help => "help"
  | version => "version"

def letter? : OptionName → Option Char
  | help => some 'h'
  | version => some 'V'
  | _ => none

def takesValue : OptionName → Bool
  | output | config | line | column => true
  | _ => false

def general : List OptionName := [output, quiet, config, help, version]

def ofCommand : CommandName → List OptionName
  | .complete => [line, column, noSandbox, noKeywords, output, quiet, config, help]
  | .context | .scope => [line, column, output, quiet, config, help]

def known (command : Option CommandName) : List OptionName :=
  command.elim general ofCommand

end OptionName

inductive UsageError where
  | unknownCommand (text : String)
  | unknownArgument (text : String)
  | repeated (name : OptionName)
  | missingValue (name : OptionName)
  | unexpectedValue (name : OptionName)
  | invalidValue (name : OptionName) (value : String)
  | missingCommand
  | missingFile
  | missingOption (name : OptionName)

def UsageError.message : UsageError → String
  | unknownCommand text => "unrecognized subcommand '" ++ text ++ "'"
  | unknownArgument text => "unexpected argument '" ++ text ++ "' found"
  | repeated name => "the argument '--" ++ name.text ++ "' cannot be used multiple times"
  | missingValue name => "a value is required for '--" ++ name.text ++ "'"
  | unexpectedValue name => "no value is expected for '--" ++ name.text ++ "'"
  | invalidValue name value =>
    "invalid value '" ++ value ++ "' for '--" ++ name.text ++ "'"
  | missingCommand => "a subcommand is required"
  | missingFile => "a file is required"
  | missingOption name => "the argument '--" ++ name.text ++ "' is required"

/-- A decimal number, which may have a plus sign. -/
def count? (text : String) : Option Nat :=
  let digits :=
    match text.toList with
    | '+' :: digits => digits
    | digits => digits
  if digits.isEmpty then none else digitsValue? 10 digits

/-- A line or column, counted from one. -/
def coordinate? (text : String) : Option Nat :=
  (count? text).filter fun n => 1 ≤ n ∧ n ≤ 0xffffffff

def format? (text : String) : Option OutputFormat :=
  if text = "text" then some .text else if text = "json" then some .json else none

def isValidFor (text : String) : OptionName → Bool
  | .output => (format? text).isSome
  | .line | .column => (coordinate? text).isSome
  | .config => !text.isEmpty
  | _ => true

abbrev Given := List (OptionName × String)

structure Scan where
  command : Option CommandName := none
  /-- Options given before the command. -/
  before : Given := []
  /-- Options given since the command, or since the start if there is none yet. -/
  given : Given := []
  file : Option String := none
  /-- Whether only plain arguments can follow. -/
  plainOnly : Bool := false

structure Invocation where
  command : CommandName
  file : String
  caret : Position
  output : OutputFormat
  quiet : Bool
  config : Option String
  noSandbox : Bool
  noKeywords : Bool

inductive Request where
  | version
  | help (topic : HelpTopic)
  | run (invocation : Invocation)

namespace Scan

def give (s : Scan) (name : OptionName) (value : String) : Except UsageError Scan :=
  if s.given.any (·.1 = name) then .error (.repeated name)
  else if isValidFor value name then .ok { s with given := (name, value) :: s.given }
  else .error (.invalidValue name value)

/-- Takes a plain argument after the command: the file, once. -/
def addFile (s : Scan) (text : String) : Except UsageError Scan :=
  if s.command.isNone ∨ s.file.isSome ∨ text.isEmpty then .error (.unknownArgument text)
  else .ok { s with file := some text }

def value? (s : Scan) (name : OptionName) : Option String :=
  (s.given.lookup name).or (s.before.lookup name)

def isGiven (s : Scan) (name : OptionName) : Bool :=
  (s.value? name).isSome

def coordinate (s : Scan) (name : OptionName) : Except UsageError Nat :=
  ((s.value? name).bind coordinate?).elim (.error (.missingOption name)) .ok

def finish (s : Scan) : Except UsageError Request := do
  let some command := s.command | .error .missingCommand
  let some file := s.file | .error .missingFile
  let line ← s.coordinate .line
  let column ← s.coordinate .column
  return .run
    { command
      file
      caret := ⟨line - 1, column - 1⟩
      output := ((s.value? .output).bind format?).getD .text
      quiet := s.isGiven .quiet
      config := s.value? .config
      noSandbox := s.isGiven .noSandbox
      noKeywords := s.isGiven .noKeywords }

/-- A request for help on the program or on one topic. No topic has topics of its own. -/
def helpFor : List String → Except UsageError Request
  | [] => .ok (.help .program)
  | text :: rest =>
    match HelpTopic.ofText? text, rest with
    | none, _ => .error (.unknownCommand text)
    | some topic, [] => .ok (.help topic)
    | some _, extra :: _ => .error (.unknownCommand extra)

def immediate? (s : Scan) : OptionName → Option Request
  | .help => some (.help (s.command.elim .program .command))
  | .version => some .version
  | _ => none

end Scan

inductive Argument where
  | plain
  | endOfOptions
  | letters (first : Char)
  | long (name : String) (value : Option String)

def Argument.ofText (text : String) : Argument :=
  match text.toList with
  | ['-', '-'] => .endOfOptions
  | '-' :: '-' :: rest =>
    let name := String.ofList (rest.takeWhile (· ≠ '='))
    match rest.dropWhile (· ≠ '=') with
    | [] => .long name none
    | _ :: value => .long name (some (String.ofList value))
  | '-' :: c :: _ => .letters c
  | _ => .plain

/-- Whether an argument can be the value of the option before it. -/
def Argument.isPlain : Argument → Bool
  | .plain => true
  | _ => false

/-- Reads arguments from left to right; the first fault ends the reading. -/
def scan (s : Scan) : List String → Except UsageError Request
  | [] => s.finish
  | text :: rest =>
    if s.plainOnly then do scan (← s.addFile text) rest
    else
      match Argument.ofText text with
      | .endOfOptions => scan { s with plainOnly := true } rest
      | .plain =>
        if s.command.isSome then do scan (← s.addFile text) rest
        else if text = "help" then Scan.helpFor rest
        else
          match CommandName.ofText? text with
          | some command => scan { command := some command, before := s.given } rest
          | none => .error (.unknownCommand text)
      | .letters c =>
        let found := (OptionName.known s.command).find? (·.letter? = some c)
        (found.bind s.immediate?).elim (.error (.unknownArgument text)) .ok
      | .long name value =>
        match (OptionName.known s.command).find? (·.text = name) with
        | none => .error (.unknownArgument text)
        | some option =>
          if option.takesValue then
            match value with
            | some value => do scan (← s.give option value) rest
            | none =>
              match rest with
              | [] => .error (.missingValue option)
              | value :: rest =>
                if (Argument.ofText value).isPlain then do scan (← s.give option value) rest
                else .error (.missingValue option)
          else if value.isSome then .error (.unexpectedValue option)
          else
            match s.immediate? option with
            | some request => .ok request
            | none => do scan (← s.give option "") rest

def readArguments (arguments : List String) : Except UsageError Request :=
  scan {} arguments

end CodeCompletion.CommandLine
