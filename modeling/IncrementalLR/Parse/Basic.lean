import IncrementalLR.Diagnostic.SyntaxError
import IncrementalLR.Grammar.Source.Basic
import IncrementalLR.Parse.Run

namespace IncrementalLR

-- A parser for one document with what its last parse left behind. With exact
-- errors a rejection that follows on a subtree taken back is checked by parsing
-- all of the document anew.
structure Parser where
  table : SyntaxTable
  passThrough : List String
  exactErrors : Bool
  reparse : Bool
  accepted : Bool
  error : Option SyntaxError
  metrics : Metrics

inductive ParseStatus where
  | accepted
  | rejected (node : Nat)
deriving DecidableEq, Repr

namespace Parser

def ofTable (table : SyntaxTable) (passThrough : List String) (exactErrors reparse : Bool) :
    Parser :=
  ⟨table, passThrough, exactErrors, reparse, false, none, default⟩

-- The terminals that the grammar passes through are added to the given ones.
def ofSource (source : GrammarSource) (mode : Mode) (passThrough : List String)
    (exactErrors reparse : Bool) : Parser :=
  ofTable (.ofGrammar source.grammar mode) (passThrough ++ source.options.passThrough)
    exactErrors reparse

variable (parser : Parser)

def setting (document : Document) (reparse : Bool) : Setting :=
  ⟨parser.table, parser.passThrough, document, reparse⟩

-- The bytes of the tokens before a node.
def offsetOf (store : Store) (document : Document) (node : Nat) : Nat :=
  ((store.thread document.bos).takeWhile (· != node)).foldl
    (fun offset terminal => offset + Text.byteLength (store.text terminal).toList) 0

def syntaxError (store : Store) (document : Document) (node state : Nat) : SyntaxError :=
  let start := offsetOf store document node
  { node := node
    found := (store.node node).key
    expected := parser.table.expectedSymbols state
    start := start
    stop := start + Text.byteLength (store.text node).toList }

-- The first attempt, and a second one without reuse where exact errors ask for
-- it.
def attempts (fuel : Nat) (store : Store) (document : Document) (reparse : Bool) :
    Option (Store × Metrics × Except Fault Outcome) := do
  let reparse := reparse || parser.reparse
  let (store, metrics, outcome) ← (parser.setting document reparse).attempt fuel store default
  match outcome with
  | .ok (.rejected _ _ true) =>
      if parser.exactErrors then (parser.setting document true).attempt fuel store metrics
      else some (store, metrics, outcome)
  | _ => some (store, metrics, outcome)

-- Parses a document over its previous tree. Unless it is accepted the tree stays
-- as it was. None if the fuel does not last.
def parse (fuel : Nat) (store : Store) (document : Document) (reparse : Bool) :
    Option (Parser × Store × Except Fault ParseStatus) :=
  (parser.attempts fuel store document reparse).map fun (store, metrics, outcome) =>
    match outcome with
    | .error fault => ({ parser with metrics := metrics }, store, .error fault)
    | .ok .accepted =>
        ({ parser with metrics := metrics, accepted := true, error := none }, store, .ok .accepted)
    | .ok (.rejected node state _) =>
        let error := parser.syntaxError store document node state
        ({ parser with metrics := metrics, accepted := false, error := some error }, store,
          .ok (.rejected node))

end Parser

end IncrementalLR
