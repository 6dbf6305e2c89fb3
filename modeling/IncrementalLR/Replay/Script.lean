import IncrementalLR.Text.Blank
import IncrementalLR.Text.Lines
import IncrementalLR.Text.Number
import IncrementalLR.Text.Quoted

namespace IncrementalLR.Replay

open Text

-- Where text goes in: before all tokens, or behind one of them.
inductive Anchor where
  | start
  | token (index : Nat)
deriving DecidableEq, Repr, Inhabited

-- Tokens are named by their index in the document.
inductive Command where
  | insert (after : Anchor) (text : String)
  | remove (index : Nat)
  | replace (index : Nat) (text : String)
  | parse
  | reparse
  | commit
  | undo (version : Nat)
  | redo (version : Nat)
  | text
  | tree
  | ast
deriving DecidableEq, Repr, Inhabited

inductive CommandError where
  | tokenIndex (found : List Char)
  | version (found : List Char)
  | missingText (verb : List Char)
  | unknown (verb : List Char)
deriving DecidableEq, Repr

def CommandError.message : CommandError → String
  | tokenIndex found => "expected a token index, found " ++ quoted (String.ofList found)
  | version found => "expected a version, found " ++ quoted (String.ofList found)
  | missingText verb => "`" ++ String.ofList verb ++ "` needs a position and text"
  | unknown verb => "unknown command `" ++ String.ofList verb ++ "`"

-- A line that is no command. Lines count from one.
structure ScriptError where
  line : Nat
  error : CommandError
deriving DecidableEq, Repr

def ScriptError.message (error : ScriptError) : String :=
  "script line " ++ toString error.line ++ ": " ++ error.error.message

def readIndex (text : List Char) : Except CommandError Nat :=
  match readNumber? bound64 text with
  | some index => .ok index
  | none => .error (.tokenIndex text)

def readVersion (text : List Char) : Except CommandError Nat :=
  match readNumber? bound64 (trim text) with
  | some version => .ok version
  | none => .error (.version text)

def readAnchor (text : List Char) : Except CommandError Anchor :=
  if text = ['^'] then .ok .start else (readIndex text).map .token

-- A position and the text behind the first space after it.
def readPosition (verb rest : List Char) : Except CommandError (List Char × String) :=
  match splitAtFirst (· == ' ') rest with
  | some (position, text) => .ok (position, String.ofList text)
  | none => .error (.missingText verb)

-- Only some commands have arguments, and what follows the others is ignored.
def readCommand (line : List Char) : Except CommandError Command :=
  let (verb, rest) := (splitAtFirst (· == ' ') line).getD (line, [])
  match String.ofList verb with
  | "insert" => do
      let (position, text) ← readPosition verb rest
      return .insert (← readAnchor position) text
  | "replace" => do
      let (position, text) ← readPosition verb rest
      return .replace (← readIndex position) text
  | "remove" => (readIndex (trim rest)).map .remove
  | "parse" => .ok .parse
  | "reparse" => .ok .reparse
  | "commit" => .ok .commit
  | "undo" => (readVersion rest).map .undo
  | "redo" => (readVersion rest).map .redo
  | "text" => .ok .text
  | "tree" => .ok .tree
  | "ast" => .ok .ast
  | _ => .error (.unknown verb)

-- A number sign behind a space begins a comment.
def dropComment : List Char → List Char
  | [] => []
  | c :: rest => if startsWith [' ', '#'] (c :: rest) then [] else c :: dropComment rest

-- The part of a line that is a command, if it has one. Behind the blanks at its
-- start a line may be all comment.
def commandText? (line : List Char) : Option (List Char) :=
  match trim (dropComment line) with
  | [] => none
  | '#' :: _ => none
  | text => some text

def readLines (line : Nat) : List (List Char) → Except ScriptError (List Command)
  | [] => .ok []
  | text :: rest =>
      match commandText? text with
      | none => readLines (line + 1) rest
      | some text =>
          match readCommand text with
          | .error error => .error ⟨line, error⟩
          | .ok command => (readLines (line + 1) rest).map (command :: ·)

-- The commands of a script, of which each has a line of its own.
def readScript (script : String) : Except ScriptError (List Command) :=
  readLines 1 (lines script.toList)

end IncrementalLR.Replay
