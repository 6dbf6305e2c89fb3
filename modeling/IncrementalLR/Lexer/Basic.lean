import IncrementalLR.Grammar.Source.Basic
import IncrementalLR.Lexer.Layout
import IncrementalLR.Pattern.Match
import IncrementalLR.Pattern.Parser
import IncrementalLR.Text.Quoted

namespace IncrementalLR

open Source Text

-- What a rule matches at the start of a text: so many characters, and one at least.
structure Matcher where
  matchLength? : List Char → Option Nat
  length_pos : ∀ {text length}, matchLength? text = some length → 0 < length
  length_le : ∀ {text length}, matchLength? text = some length → length ≤ text.length

namespace Matcher

-- A match without characters counts as none.
def ofMatch (matchEnd? : List Char → Option Nat)
    (hle : ∀ {text length}, matchEnd? text = some length → length ≤ text.length) : Matcher where
  matchLength? text := (matchEnd? text).filter (0 < ·)
  length_pos h := by simpa using (Option.filter_eq_some_iff.mp h).2
  length_le h := hle (Option.filter_eq_some_iff.mp h).1

-- A fixed text.
def literal (start : List Char) : Matcher :=
  ofMatch (fun text => if start.isPrefixOf text then some start.length else none) fun h => by
    split at h
    · rename_i hp
      exact Option.some.inj h ▸ (List.isPrefixOf_iff_prefix.mp hp).length_le
    · cases h

-- The first match of a pattern.
def regular (expr : Pattern) : Matcher := ofMatch expr.matchEnd? Pattern.length_le_of_matchEnd?

end Matcher

-- Literals of the grammar have no name.
structure LexRule where
  name : Option String
  matcher : Matcher

def LexRule.matchLength? (rule : LexRule) (text : List Char) : Option Nat := rule.matcher.matchLength? text

structure Lexer where
  rules : List LexRule
  indentation : Bool
deriving Inhabited

-- Text that no rule matches, with its byte range.
structure LexerError where
  start : Nat
  stop : Nat
  text : String
deriving DecidableEq, Repr, Inhabited

def LexerError.message (error : LexerError) : String := "no token matches " ++ quoted error.text

structure Lexed where
  tokens : List Token
  errors : List LexerError
deriving DecidableEq, Repr, Inhabited

namespace Lexer

-- A pattern is one group at the start of the text.
def ruleOf (rule : LexerRule) : Except GrammarError LexRule :=
  match Pattern.parse? ("^(?:".toList ++ rule.pattern.toList ++ [')']) with
  | some expr => .ok ⟨some rule.name, .regular expr⟩
  | none => .error (.invalidPattern rule.name)

def ofRules (rules : List LexerRule) : Except GrammarError Lexer := do
  return ⟨← rules.mapM ruleOf, false⟩

-- The terminals of a grammar that no lexer rule is named after, in order. The
-- terminals of the layout are not matched when the layout makes them.
def literals (source : GrammarSource) : List String :=
  let names := source.grammar.terminals.filterMap fun id =>
    match source.grammar.symbol id with
    | .terminal name => if name.isEmpty then none else some name
    | _ => none
  let unnamed := names.filter fun name =>
    !source.lexerRules.any (·.name == name) &&
      !(source.options.indentation && Layout.terminals.contains name)
  (unnamed.mergeSort fun left right => !(right < left)).eraseReps

-- Literals come before the named rules.
def ofGrammar (source : GrammarSource) : Except GrammarError Lexer := do
  let named ← ofRules source.lexerRules
  let rules := (literals source).map fun text => ⟨none, .literal text.toList⟩
  return ⟨rules ++ named.rules, source.options.indentation⟩

-- The rule with the longest match, and the first of those.
def longest? (text : List Char) : List LexRule → Option (LexRule × Nat)
  | [] => none
  | rule :: rest =>
      match rule.matchLength? text, longest? text rest with
      | none, other => other
      | some length, none => some (rule, length)
      | some length, some (other, otherLength) =>
          if length < otherLength then some (other, otherLength) else some (rule, length)

-- A token for the characters that were skipped before an offset.
def skippedToken (skipped : List Char) (stop : Nat) : List Token :=
  if skipped.isEmpty then []
  else [.unmatched (String.ofList skipped) (stop - byteLength skipped) stop]

def scan (rules : List LexRule) (start : Nat) (skipped : List Char) (text : List Char) :
    List Token :=
  match text with
  | [] => skippedToken skipped start
  | c :: rest =>
      match longest? (c :: rest) rules with
      | none => scan rules (start + c.utf8Size) (skipped ++ [c]) rest
      | some (rule, length) =>
          let body := c :: rest.take (length - 1)
          let stop := start + byteLength body
          skippedToken skipped start ++
            .matched rule.name (String.ofList body) start stop ::
              scan rules stop [] (rest.drop (length - 1))
termination_by text.length
decreasing_by all_goals simp only [List.length_cons, List.length_drop]; omega

def errorOf (token : Token) : Option LexerError :=
  if token.origin = .unmatched then some ⟨token.start, token.stop, token.text⟩ else none

-- Tokens without those of the layout, for text that is put into a document.
def tokenizeFragment (lexer : Lexer) (text : String) : Lexed :=
  let tokens := scan lexer.rules 0 [] text.toList
  ⟨tokens, tokens.filterMap errorOf⟩

def tokenize (lexer : Lexer) (text : String) : Lexed :=
  let lexed := lexer.tokenizeFragment text
  if lexer.indentation then ⟨Layout.insert lexed.tokens, lexed.errors⟩ else lexed

end Lexer

end IncrementalLR
