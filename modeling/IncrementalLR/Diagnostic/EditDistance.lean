namespace IncrementalLR

namespace EditDistance

-- Distances to all beginnings of a text, the shortest first: those from what has been
-- read of another text, and those written before them, whose place is used again.
structure Rows where
  current : Array Nat
  spare : Array Nat
deriving Repr

-- A beginning is made of nothing by adding all its characters.
def Rows.start (other : List Char) : Rows :=
  ⟨Array.range (other.length + 1), Array.replicate (other.length + 1) 0⟩

-- Writes to a row from the index on, given the row from the text without its last
-- character c and the characters of the other text that are left.
def fill (c : Char) (above : Array Nat) : Nat → List Char → Array Nat → Array Nat
  | _, [], row => row
  | index, d :: rest, row =>
      let dropped := above.getD (index + 1) 0 + 1
      let added := row.getD index 0 + 1
      let replaced := above.getD index 0 + (if c = d then 0 else 1)
      fill c above (index + 1) rest (row.setIfInBounds (index + 1) (min (min dropped added) replaced))

def Rows.read (other : List Char) (rows : Rows) (c : Char) : Rows :=
  ⟨fill c rows.current 0 other (rows.spare.setIfInBounds 0 (rows.current.getD 0 0 + 1)), rows.current⟩

end EditDistance

-- The least number of characters to add, drop or replace to make one text of
-- another.
def editDistance (text other : List Char) : Nat :=
  (text.foldl (EditDistance.Rows.read other) (.start other)).current.getD other.length 0

end IncrementalLR
