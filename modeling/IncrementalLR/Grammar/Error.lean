import IncrementalLR.Template.Parser

namespace IncrementalLR

-- What a rule reader was looking for.
inductive ExpectedPart where
  | rule
  | ruleName
  | symbol
  | tagTerminal
deriving DecidableEq, Repr

-- What was opened and never closed.
inductive OpenPart where
  | terminal
  | magicTerminal
  | template
deriving DecidableEq, Repr

-- Lines count from one.
inductive GrammarError where
  | empty
  | undefinedStart (name : String)
  | undefinedNonterminal (name usedIn : String)
  | missingMapping (line : Nat) (name : String)
  | unexpectedToken (line : Nat) (found : String) (expected : ExpectedPart)
  | unterminated (line : Nat) (part : OpenPart)
  | unsupported (line : Nat) (construct : String)
  | malformedOption (line : Nat) (directive : String)
  | malformedLexerRule (line : Nat) (rule : String)
  | malformedTemplate (rule : String) (error : TemplateError)
  | invalidPattern (rule : String)
deriving DecidableEq, Repr

def ExpectedPart.display : ExpectedPart → String
  | rule => "a rule"
  | ruleName => "a rule name"
  | symbol => "a symbol"
  | tagTerminal => "a terminal after %prec"

def OpenPart.display : OpenPart → String
  | terminal => "terminal"
  | magicTerminal => "magic terminal"
  | template => "annotation"

namespace GrammarError

-- The line that an error speaks of.
def line? : GrammarError → Option Nat
  | missingMapping line _ | unexpectedToken line _ _ | unterminated line _ | unsupported line _
  | malformedOption line _ | malformedLexerRule line _ => some line
  | _ => none

def body : GrammarError → String
  | empty => "grammar has no rules"
  | undefinedStart name => "start symbol `" ++ name ++ "` has no rule"
  | undefinedNonterminal name usedIn =>
      "nonterminal `" ++ name ++ "` is used in `" ++ usedIn ++ "` but never defined"
  | missingMapping _ name => "expected `::=` after `" ++ name ++ "`"
  | unexpectedToken _ found expected => "unexpected `" ++ found ++ "`, expected " ++ expected.display
  | unterminated _ part => "unterminated " ++ part.display
  | unsupported _ construct =>
      "`" ++ construct ++ "` is not supported, write the rule out in plain alternatives"
  | malformedOption _ directive => "malformed directive `%" ++ directive ++ "`"
  | malformedLexerRule _ rule => "malformed lexer rule `" ++ rule ++ "`, expected NAME:\"regex\""
  | malformedTemplate rule error =>
      "annotation of a `" ++ rule ++ "` alternative is malformed: " ++ error.message
  | invalidPattern rule => "lexer rule `" ++ rule ++ "` has an invalid pattern"

def message (error : GrammarError) : String :=
  match error.line? with
  | some line => "line " ++ toString line ++ ": " ++ error.body
  | none => error.body

end GrammarError

end IncrementalLR
