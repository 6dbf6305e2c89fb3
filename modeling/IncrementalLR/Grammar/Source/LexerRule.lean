import IncrementalLR.Grammar.Error
import IncrementalLR.Text.Lines

namespace IncrementalLR.Source

open Text

-- A named pattern and the line it is written on.
structure LexerRule where
  name : String
  pattern : String
  line : Nat
deriving DecidableEq, Repr, Inhabited

-- A name, a colon and a pattern between double quotes, neither of them empty.
def readLexerRule? (line : Nat) (text : List Char) : Option LexerRule :=
  match splitAtFirst (· == ':') text with
  | none => none
  | some (name, pattern) =>
      match unquote? (trim pattern) with
      | none => none
      | some pattern =>
          let name := trim name
          if name.isEmpty || pattern.isEmpty then none
          else some ⟨String.ofList name, String.ofList pattern, line⟩

def readLexerRules (line : Nat) : List (List Char) → Except GrammarError (List LexerRule)
  | [] => .ok []
  | first :: rest =>
      match trim first with
      | [] => readLexerRules (line + 1) rest
      | text =>
          match readLexerRule? line text with
          | some rule => (readLexerRules (line + 1) rest).map (rule :: ·)
          | none => .error (.malformedLexerRule line (String.ofList text))

end IncrementalLR.Source
