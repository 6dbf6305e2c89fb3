import IncrementalLR.Text.Bytes

namespace IncrementalLR

-- How a token came about: a rule matched it, no rule did, or the layout of the
-- lines made it.
inductive TokenOrigin where
  | matched
  | unmatched
  | layout
deriving DecidableEq, Repr, Inhabited

-- A piece of text with its byte range and the name of the lexer rule that it
-- belongs to. What a literal of the grammar matched has no name.
structure Token where
  rule : Option String
  text : String
  start : Nat
  stop : Nat
  origin : TokenOrigin
deriving DecidableEq, Repr, Inhabited

namespace Token

def matched (rule : Option String) (text : String) (start stop : Nat) : Token :=
  ⟨rule, text, start, stop, .matched⟩

def unmatched (text : String) (start stop : Nat) : Token := ⟨none, text, start, stop, .unmatched⟩

-- A token without text at a byte offset.
def layout (name : String) (place : Nat) : Token := ⟨some name, "", place, place, .layout⟩

def hasNewline (token : Token) : Bool := token.text.toList.contains '\n'

def byteLength (token : Token) : Nat := Text.byteLength token.text.toList

end Token

end IncrementalLR
