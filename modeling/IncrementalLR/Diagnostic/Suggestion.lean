import IncrementalLR.Diagnostic.EditDistance
import IncrementalLR.Symbol
import IncrementalLR.Text.Lowercase

namespace IncrementalLR

-- The distance between two texts and the length of the longer one.
structure Likeness where
  distance : Nat
  length : Nat
deriving DecidableEq, Repr

namespace Likeness

-- Upper and lower case are not told apart.
def between (text other : String) : Likeness :=
  let left := (Text.lowercase text).toList
  let right := (Text.lowercase other).toList
  ⟨editDistance left right, max left.length right.length⟩

-- At most two characters in five may differ.
def isClose (likeness : Likeness) : Bool := 5 * likeness.distance ≤ 2 * likeness.length

-- Fewer differences for the length, and not just as many.
def isCloser (likeness other : Likeness) : Bool :=
  likeness.distance * other.length < other.distance * likeness.length

end Likeness

def suggestFrom (actual : String) (best : Option (Symbol × Likeness)) :
    List Symbol → Option (Symbol × Likeness)
  | [] => best
  | .terminal name :: rest =>
      let likeness := Likeness.between actual name
      let replaces :=
        match best with
        | some (_, other) => likeness.isCloser other
        | none => true
      if likeness.isClose && replaces then suggestFrom actual (some (.terminal name, likeness)) rest
      else suggestFrom actual best rest
  | _ :: rest => suggestFrom actual best rest

-- The terminal whose name is closest to a text, if one is close enough. Of
-- equally close ones it is the first.
def suggest? (actual : String) (expected : List Symbol) : Option Symbol :=
  (suggestFrom actual none expected).map (·.1)

end IncrementalLR
