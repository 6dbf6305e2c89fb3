import IncrementalLR.Text.Blank
import IncrementalLR.Text.Folding
import IncrementalLR.Text.Word

namespace IncrementalLR

open Text

-- A set of characters as patterns describe it.
inductive CharSet where
  | empty
  | range (low high : Nat)
  | decimal
  | blank
  | word
  | union (left right : CharSet)
  | complement (set : CharSet)
  | caseless (set : CharSet)
deriving DecidableEq, Repr, Inhabited

namespace CharSet

def single (c : Char) : CharSet := range c.toNat c.toNat

def newline : CharSet := single '\n'

-- All that fold alike with a member belong to a caseless set.
def contains : CharSet → Nat → Bool
  | empty, _ => false
  | range low high, code => low ≤ code && code ≤ high
  | decimal, code => isDecimal (Char.ofNat code)
  | blank, code => isBlank (Char.ofNat code)
  | word, code => isWordChar (Char.ofNat code)
  | union left right, code => left.contains code || right.contains code
  | complement set, code => !set.contains code
  | caseless set, code => (caseVariants code).any set.contains

end CharSet

end IncrementalLR
