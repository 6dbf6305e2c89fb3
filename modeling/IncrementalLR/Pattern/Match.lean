import IncrementalLR.Pattern.Basic

namespace IncrementalLR

open Text

namespace Anchor

def isWordAt (c : Option Char) : Bool := c.any isWordChar

def isLineEdge (c : Option Char) : Bool := c.all (· == '\n')

-- Whether a place lies between two characters, or at an end of the text.
def holds (before after : Option Char) : Anchor → Bool
  | textStart => before.isNone
  | textEnd => after.isNone
  | lineStart => isLineEdge before
  | lineEnd => isLineEdge after
  | wordBoundary => isWordAt before != isWordAt after
  | noWordBoundary => isWordAt before == isWordAt after

end Anchor

namespace Pattern

-- What is left to match. A match is complete when nothing is left.
abbrev Thread := List Pattern

-- The threads that wait for a character or are complete, in the order of
-- preference. A thread that was met before at the same place is not followed
-- again.
def spread (before after : Option Char) :
    Nat → List Thread → List Thread → List Thread
  | 0, _, _ => []
  | _, _, [] => []
  | fuel + 1, met, thread :: others =>
      if met.contains thread then spread before after fuel met others
      else
        let met := thread :: met
        let follow (threads : List Thread) := spread before after fuel met (threads ++ others)
        match thread with
        | [] => [] :: spread before after fuel met others
        | chars set :: rest => (chars set :: rest) :: spread before after fuel met others
        | empty :: rest => follow [rest]
        | anchor place :: rest => follow (if place.holds before after then [rest] else [])
        | sequence first second :: rest => follow [first :: second :: rest]
        | either first second :: rest => follow [first :: rest, second :: rest]
        | option body greedy :: rest =>
            follow (if greedy then [body :: rest, rest] else [rest, body :: rest])
        | plus body greedy :: rest => follow [body :: star body greedy :: rest]
        | star body greedy :: rest =>
            let again := body :: star body greedy :: rest
            follow (if greedy then [again, rest] else [rest, again])

-- A thread consists of a part of the pattern and of what always follows that
-- part, and it makes at most two others.
def spreadBound (pattern : Pattern) (threads : List Thread) : Nat :=
  4 * pattern.size + threads.length + 4

def stepThread (c : Char) : Thread → Option Thread
  | chars set :: rest => if set.contains c.toNat then some rest else none
  | _ => none

-- The number of characters up to the end of the preferred match. Threads of
-- less preference than a complete one are given up.
def matchFrom (pattern : Pattern) (before : Option Char) (count : Nat) (best : Option Nat)
    (threads : List Thread) : List Char → Option Nat
  | [] =>
      let ready := spread before none (spreadBound pattern threads) [] threads
      if ready.contains [] then some count else best
  | c :: rest =>
      let ready := spread before (some c) (spreadBound pattern threads) [] threads
      let best := if ready.contains [] then some count else best
      match (ready.takeWhile (!·.isEmpty)).filterMap (stepThread c) with
      | [] => best
      | next => matchFrom pattern (some c) (count + 1) best next rest

-- Characters before a match that need not begin where the text begins.
def anyPrefix : Pattern := star (chars (.complement .empty)) false

-- The end of the first match in a text, in characters.
def matchEnd? (pattern : Pattern) (text : List Char) : Option Nat :=
  if pattern.isAnchored then matchFrom pattern none 0 none [[pattern]] text
  else
    let search := sequence anyPrefix pattern
    matchFrom search none 0 none [[search]] text

-- A match that is complete is no longer than what was read, as is the best one so far.
theorem le_of_complete {complete : Bool} {count length : Nat} {best : Option Nat}
    (hbest : ∀ length, best = some length → length ≤ count)
    (h : (if complete then some count else best) = some length) : length ≤ count := by
  cases complete with
  | true => exact Nat.le_of_eq (Option.some.inj h).symm
  | false => exact hbest length h

theorem le_of_matchFrom {pattern : Pattern} {before : Option Char} {count length : Nat} {best : Option Nat}
    {threads : List Thread} {text : List Char} (hbest : ∀ length, best = some length → length ≤ count)
    (h : matchFrom pattern before count best threads text = some length) : length ≤ count + text.length := by
  induction text generalizing before count best threads with
  | nil => exact le_of_complete hbest h
  | cons c rest ih =>
      unfold matchFrom at h
      simp only at h
      split at h
      · exact Nat.le_trans (le_of_complete hbest h) (Nat.le_add_right _ _)
      · have hrest := ih (fun other ho => Nat.le_succ_of_le (le_of_complete hbest ho)) h
        simp only [List.length_cons]
        omega

-- A match ends within the text.
theorem length_le_of_matchEnd? {pattern : Pattern} {text : List Char} {length : Nat}
    (h : pattern.matchEnd? text = some length) : length ≤ text.length := by
  unfold matchEnd? at h
  split at h
  · simpa using le_of_matchFrom (by simp) h
  · simpa using le_of_matchFrom (by simp) h

end Pattern

end IncrementalLR
