import IncrementalLR.Automaton.Mode
import IncrementalLR.Text.Lines

namespace IncrementalLR.CommandLine

inductive OptionName where
  | grammar
  | mode
  | whitespace
  | states
  | input
  | output
  | changed
  | script
deriving DecidableEq, Repr

namespace OptionName

def all : List OptionName := [grammar, mode, whitespace, states, input, output, changed, script]

def display : OptionName → String
  | grammar => "--grammar"
  | mode => "--mode"
  | whitespace => "--whitespace"
  | states => "--states"
  | input => "--input"
  | output => "--output"
  | changed => "--changed"
  | script => "--script"

def takesValue : OptionName → Bool
  | whitespace | states | changed => false
  | grammar | mode | input | output | script => true

-- One letter stands for an option that takes a value.
def short? (option : OptionName) : Option String :=
  if option.takesValue then some (String.ofList (option.display.toList.drop 1 |>.take 2)) else none

def ofArgument? (argument : String) : Option OptionName :=
  all.find? fun option => argument == option.display || some argument == option.short?

end OptionName

inductive ArgumentError where
  | missingCommand
  | unknownCommand (name : String)
  | unexpected (argument : String)
  | missingValue (option : OptionName)
  | missingOption (option : OptionName)
  | unknownMode (text : String)
deriving DecidableEq, Repr

def ArgumentError.message : ArgumentError → String
  | missingCommand => "expected one of the commands table, dot, json, parse, replay"
  | unknownCommand name => "unknown command " ++ name
  | unexpected argument => "unexpected argument " ++ argument
  | missingValue option => option.display ++ " needs a value"
  | missingOption option => option.display ++ " is required"
  | unknownMode text => Mode.unknownMessage text

-- What is done with a grammar.
inductive Job where
  | table (states : Bool)
  | dot (input output : Option String)
  | json (output : Option String)
  | parse (input : String) (changed : Bool)
  | replay (script : String)
deriving DecidableEq, Repr

structure Request where
  grammar : String
  mode : Mode
  whitespace : Bool
  job : Job
deriving DecidableEq, Repr

abbrev Values := List (OptionName × String)

-- The options of a command with their values.
def readValues (allowed : List OptionName) : List String → Except ArgumentError Values
  | [] => .ok []
  | argument :: rest =>
      match OptionName.ofArgument? argument with
      | none => .error (.unexpected argument)
      | some option =>
          if !allowed.contains option then .error (.unexpected argument)
          else if !option.takesValue then (readValues allowed rest).map ((option, "") :: ·)
          else
            match rest with
            | [] => .error (.missingValue option)
            | value :: rest => (readValues allowed rest).map ((option, value) :: ·)

-- An option and its value may stand in one argument with an equals sign between.
def splitArgument (argument : String) : List String :=
  match Text.splitAtFirst (· == '=') argument.toList with
  | some (option, value) =>
      if Text.startsWith ['-'] option then [String.ofList option, String.ofList value] else [argument]
  | none => [argument]

def need (values : Values) (option : OptionName) : Except ArgumentError String :=
  match values.lookup option with
  | some value => .ok value
  | none => .error (.missingOption option)

def has (values : Values) (option : OptionName) : Bool := (values.lookup option).isSome

def jobOf (values : Values) : String → Except ArgumentError Job
  | "table" => .ok (.table (has values .states))
  | "dot" => .ok (.dot (values.lookup .input) (values.lookup .output))
  | "json" => .ok (.json (values.lookup .output))
  | "parse" => do return .parse (← need values .input) (has values .changed)
  | "replay" => (need values .script).map .replay
  | name => .error (.unknownCommand name)

-- The options that a command has of its own.
def optionsOf : String → List OptionName
  | "table" => [.states]
  | "dot" => [.input, .output]
  | "json" => [.output]
  | "parse" => [.input, .changed]
  | "replay" => [.script]
  | _ => OptionName.all

def readMode (text : String) : Except ArgumentError Mode :=
  match Mode.parse? text with
  | some mode => .ok mode
  | none => .error (.unknownMode text)

def readRequest : List String → Except ArgumentError Request
  | [] => .error .missingCommand
  | command :: arguments => do
      let allowed := [OptionName.grammar, .mode, .whitespace] ++ optionsOf command
      let values ← readValues allowed (arguments.flatMap splitArgument)
      let job ← jobOf values command
      let grammar ← need values .grammar
      let mode ← readMode ((values.lookup .mode).getD "lr1")
      return ⟨grammar, mode, has values .whitespace, job⟩

end IncrementalLR.CommandLine
