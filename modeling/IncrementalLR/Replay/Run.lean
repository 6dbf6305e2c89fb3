import IncrementalLR.Lexer.Basic
import IncrementalLR.Parse.Basic
import IncrementalLR.Replay.Script
import IncrementalLR.Tree.Render

namespace IncrementalLR

-- A document under scripted edits with its lexer, its parser and its store.
structure Replay where
  lexer : Lexer
  parser : Parser
  store : Store
  document : Document

namespace Replay

inductive RunError where
  | tokenOutOfRange (index count : Nat)
  | unmatchedText (error : LexerError) (text : String)
  | notOneToken (text : String) (count : Nat)
  | noVersionToUndo (version : Nat)
  | noVersionToRedo (version : Nat)
  | fault (error : Fault)
deriving DecidableEq, Repr

def RunError.message : RunError → String
  | tokenOutOfRange index count =>
      "token " ++ toString index ++ " out of range, the document has " ++ toString count
  | unmatchedText error text => error.message ++ " in " ++ Text.quoted text
  | notOneToken text count =>
      Text.quoted text ++ " is " ++ toString count ++ " tokens, expected one"
  | noVersionToUndo version => "no version " ++ toString version ++ " to undo to"
  | noVersionToRedo version => "cannot redo to version " ++ toString version
  | fault error => error.message

-- A document of some tokens, for a grammar and a table of it.
def ofTokens (source : GrammarSource) (table : SyntaxTable) (lexer : Lexer) (tokens : List Token) :
    Replay :=
  let (store, document) := Document.ofTokens .empty tokens
  ⟨lexer, .ofTable table source.options.passThrough true false, store, document⟩

-- An empty document.
def start (source : GrammarSource) (table : SyntaxTable) : Except GrammarError Replay := do
  return ofTokens source table (← Lexer.ofGrammar source) []

-- The tokens of a text, also where no rule of the lexer matches.
def ofText (source : GrammarSource) (table : SyntaxTable) (text : String) :
    Except GrammarError Replay := do
  let lexer ← Lexer.ofGrammar source
  return ofTokens source table lexer (lexer.tokenize text).tokens

variable (replay : Replay)

def token (index : Nat) : Except RunError Nat :=
  let tokens := replay.document.tokens replay.store
  match tokens[index]? with
  | some node => .ok node
  | none => .error (.tokenOutOfRange index tokens.length)

def anchor : Anchor → Except RunError Nat
  | .start => .ok replay.document.bos
  | .token index => replay.token index

-- The tokens of a text that the lexer matches from end to end.
def lex (text : String) : Except RunError (List Token) :=
  let lexed := replay.lexer.tokenizeFragment text
  match lexed.errors with
  | error :: _ => .error (.unmatchedText error text)
  | [] => .ok lexed.tokens

def lexOne (text : String) : Except RunError Token := do
  match ← replay.lex text with
  | [token] => return token
  | tokens => throw (.notOneToken text tokens.length)

-- What follows a command: the replay after it, and its output.
abbrev Step := Replay × Except RunError String

def failed (error : RunError) : Step := (replay, .error error)

def silent (store : Store) : Step := ({ replay with store := store }, .ok "")

def insert (after : Anchor) (text : String) : Step :=
  match replay.anchor after, replay.lex text with
  | .error error, _ => replay.failed error
  | .ok _, .error error => replay.failed error
  | .ok anchor, .ok tokens =>
      match replay.document.insertTokensAfter replay.store anchor tokens with
      | (store, .ok _) => replay.silent store
      | (store, .error fault) => ({ replay with store := store }, .error (.fault fault))

def remove (index : Nat) : Step :=
  match replay.token index with
  | .error error => replay.failed error
  | .ok node =>
      match replay.document.removeToken replay.store node with
      | .ok store => replay.silent store
      | .error fault => replay.failed (.fault fault)

def replace (index : Nat) (text : String) : Step :=
  match replay.token index, replay.lexOne text with
  | .error error, _ => replay.failed error
  | .ok _, .error error => replay.failed error
  | .ok node, .ok token =>
      replay.silent (Document.replaceToken replay.store node token.rule token.text)

-- A rejection is output too. None if the fuel does not last.
def parse (fuel : Nat) (reparse : Bool) : Option Step :=
  (replay.parser.parse fuel replay.store replay.document reparse).map fun (parser, store, result) =>
    let replay := { replay with parser := parser, store := store }
    match result, parser.error with
    | .error fault, _ => replay.failed (.fault fault)
    | .ok _, none => (replay, .ok "accepted\n")
    | .ok _, some error =>
        (replay, .ok (error.report (replay.document.text store) none ++ "\n"))

def travel (error : RunError) : Option Store → Step
  | some store => replay.silent store
  | none => replay.failed error

-- The abstract values below the root, each on a line.
def abstractSyntaxes : String :=
  let values := (replay.store.node replay.document.root).children.filterMap fun child =>
    (replay.store.node child).alternate
  if values.isEmpty then "no abstract syntax\n"
  else String.join (values.map fun value => value.display replay.store ++ "\n")

-- Runs one command. None if the fuel of a parse does not last.
def run (fuel : Nat) : Command → Option Step
  | .insert after text => replay.insert after text
  | .remove index => replay.remove index
  | .replace index text => replay.replace index text
  | .parse => replay.parse fuel false
  | .reparse => replay.parse fuel true
  | .commit =>
      let store := replay.store.commit
      some ({ replay with store := store }, .ok ("version " ++ toString store.version ++ "\n"))
  | .undo version =>
      replay.travel (.noVersionToUndo version) (replay.document.undoTo? replay.store version)
  | .redo version =>
      replay.travel (.noVersionToRedo version) (replay.document.redoTo? replay.store version)
  | .text => some (replay, .ok (replay.document.text replay.store ++ "\n"))
  | .tree =>
      let style : RenderStyle := { (default : RenderStyle) with states := false, changed := true }
      some (replay, .ok (replay.store.render style replay.document.root))
  | .ast => some (replay, .ok replay.abstractSyntaxes)

-- Runs commands up to the first that fails. The outputs of those before it are
-- kept.
def runEach (fuel : Nat) : List Command → Replay → Option (Replay × List String × Option RunError)
  | [], replay => some (replay, [], none)
  | command :: rest, replay => do
      match ← replay.run fuel command with
      | (replay, .error error) => some (replay, [], some error)
      | (replay, .ok output) =>
          let (replay, outputs, error) ← runEach fuel rest replay
          some (replay, output :: outputs, error)

-- The output of all commands, or the error of the first that fails.
def runAll (fuel : Nat) (commands : List Command) : Option Step :=
  (runEach fuel commands replay).map fun (replay, outputs, error) =>
    match error with
    | some error => (replay, .error error)
    | none => (replay, .ok (String.join outputs))

end Replay

end IncrementalLR
