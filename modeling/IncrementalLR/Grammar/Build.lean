import IncrementalLR.Grammar.Error
import IncrementalLR.Grammar.FirstFollow

namespace IncrementalLR

-- Rules with the sets computed from them.
structure Grammar extends Rules where
  sets : FirstFollow
  sets_eq : sets = toRules.firstFollow

def Rules.toGrammar (rules : Rules) : Grammar := ⟨rules, rules.firstFollow, rfl⟩

instance : Inhabited Grammar := ⟨Rules.toGrammar default⟩

namespace Grammar

variable (grammar : Grammar)

def first (id : Nat) : SymbolSet := FirstFollow.setOf grammar.sets.first id

def follow (id : Nat) : SymbolSet := FirstFollow.setOf grammar.sets.follow id

def nullable (id : Nat) : Bool := decide (id ∈ grammar.sets.nullable)

def heads (sequence : List Nat) : SymbolSet :=
  FirstFollow.heads grammar.sets.nullable grammar.sets.first sequence

-- FIRST of a sequence, which holds the empty word if all of it is nullable.
def firstOfSequence (sequence : List Nat) : SymbolSet :=
  let heads := grammar.heads sequence
  if sequence.all grammar.nullable then heads.insert epsilonId else heads

-- FIRST of a sequence with one symbol of the lookahead behind it.
def firstWithLookahead (sequence : List Nat) (lookahead : SymbolSet) : SymbolSet :=
  let heads := grammar.heads sequence
  if sequence.all grammar.nullable then heads ∪ lookahead else heads

-- The same rules from another nonterminal.
def withStart (start : Symbol) : Except GrammarError Grammar :=
  match grammar.symbolId? start with
  | none => .error (.undefinedStart start.name)
  | some id =>
      if !start.isNonterminal || (grammar.alternatives id).isEmpty then
        .error (.undefinedStart start.name)
      else if id = grammar.start then .ok grammar
      else
        let first : Production := { grammar.production startProduction with right := [id] }
        .ok (Rules.toGrammar
          { grammar.toRules with
            start := id
            productions := grammar.productions.setIfInBounds startProduction first })

end Grammar

-- What tells grammars apart for the tables built from them.
structure Fingerprint where
  symbols : Array Symbol
  productions : Array Production
  precedences : Array (Option Precedence)
deriving DecidableEq

def Rules.fingerprint (rules : Rules) : Fingerprint :=
  ⟨rules.symbols, rules.productions, rules.precedences⟩

-- A right side as it is declared, with the name of the terminal whose
-- precedence it takes.
structure Alternative where
  symbols : List Symbol
  tag : Option String
  template : Option String
deriving DecidableEq, Inhabited

-- Rules by name in the order of their declaration. Each line of precedences
-- binds tighter than the lines before it.
structure Declarations where
  start : Option String
  rules : List (String × Alternative)
  precedences : List (Assoc × List String)
deriving DecidableEq, Inhabited

namespace Declarations

def ruleSymbols (rule : String × Alternative) : List Symbol :=
  .nonterminal rule.1 ::
    (rule.2.symbols.filter (· != .epsilon) ++ (rule.2.tag.map Symbol.terminal).toList)

def precedenceTerminals (declarations : Declarations) : List Symbol :=
  declarations.precedences.flatMap fun line => line.2.map Symbol.terminal

-- Symbols are numbered by their first occurrence.
def vocabulary (declarations : Declarations) (start : String) : List Symbol :=
  (.finish :: .epsilon :: .nonterminal start ::
    (declarations.rules.flatMap ruleSymbols ++ declarations.precedenceTerminals)).eraseDups

def productionOf (vocabulary : List Symbol) (rule : String × Alternative) :
    Except GrammarError Production := do
  let idOf (symbol : Symbol) : Nat := vocabulary.idxOf symbol
  let template ←
    match rule.2.template with
    | none => pure none
    | some text =>
        match Template.parse text with
        | .ok template => pure (some template)
        | .error error => throw (.malformedTemplate rule.1 error)
  return {
    left := some (idOf (.nonterminal rule.1))
    right := (rule.2.symbols.filter (· != .epsilon)).map idOf
    tag := rule.2.tag.map fun name => idOf (.terminal name)
    template := template }

-- A terminal declared twice keeps its later precedence.
def precedenceTable (declarations : Declarations) (vocabulary : List Symbol) :
    Array (Option Precedence) :=
  declarations.precedences.zipIdx.foldl
    (fun table ((assoc, names), index) =>
      names.foldl
        (fun table name =>
          table.setIfInBounds (vocabulary.idxOf (.terminal name)) (some ⟨index + 1, assoc⟩))
        table)
    (Array.replicate vocabulary.length none)

end Declarations

-- The first nonterminal that a right side uses and no rule defines.
def Rules.undefined? (rules : Rules) : Option GrammarError :=
  rules.declared.findSome? fun production =>
    production.right.findSome? fun id =>
      if (rules.symbol id).isNonterminal && (rules.alternatives id).isEmpty then
        some (.undefinedNonterminal (rules.symbol id).name
          ((production.left.map fun left => (rules.symbol left).name).getD ""))
      else none

-- The start symbol is that of the first rule unless another one is named.
def Declarations.build (declarations : Declarations) : Except GrammarError Grammar :=
  match declarations.rules with
  | [] => .error .empty
  | (firstLeft, _) :: _ => do
      let start := declarations.start.getD firstLeft
      let vocabulary := declarations.vocabulary start
      let productions ← declarations.rules.mapM (productionOf vocabulary)
      let startId := vocabulary.idxOf (.nonterminal start)
      let rules : Rules := {
        symbols := vocabulary.toArray
        productions := (⟨none, [startId], none, none⟩ :: productions).toArray
        start := startId
        precedences := declarations.precedenceTable vocabulary }
      if (rules.alternatives startId).isEmpty then throw (.undefinedStart start)
      match rules.undefined? with
      | some error => throw error
      | none => return rules.toGrammar

end IncrementalLR
