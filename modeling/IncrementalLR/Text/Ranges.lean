namespace IncrementalLR.Text

-- Membership of a code point in a list of ranges given in increasing order.
def inRanges : List (Nat × Nat) → Nat → Bool
  | [], _ => false
  | (low, high) :: rest, code => low ≤ code && (code ≤ high || inRanges rest code)

-- Code points at equal distances from first to last, each of which a case map
-- moves by the same amount.
structure CaseRun where
  first : Nat
  last : Nat
  step : Nat
  shift : Int

namespace CaseRun

def contains (run : CaseRun) (code : Nat) : Bool :=
  run.first ≤ code && code ≤ run.last && (code - run.first) % run.step == 0

def image? (run : CaseRun) (code : Nat) : Option Nat :=
  if run.contains code then some (code + run.shift).toNat else none

def preimage? (run : CaseRun) (code : Nat) : Option Nat :=
  let source := (code - run.shift).toNat
  if run.contains source then some source else none

end CaseRun

-- The image of a code point under a case map, which fixes all it does not list.
def mapCase (runs : List CaseRun) (code : Nat) : Nat :=
  (runs.findSome? (·.image? code)).getD code

end IncrementalLR.Text
