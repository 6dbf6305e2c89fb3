import IncrementalLR.Pattern.CharSet

namespace IncrementalLR

-- Places that a pattern can ask for.
inductive Anchor where
  | textStart
  | textEnd
  | lineStart
  | lineEnd
  | wordBoundary
  | noWordBoundary
deriving DecidableEq, Repr, Inhabited

-- A regular expression with an order of preference: of two alternatives the
-- first, and a repetition goes on rather than stops if it is greedy.
inductive Pattern where
  | empty
  | chars (set : CharSet)
  | anchor (place : Anchor)
  | sequence (first second : Pattern)
  | either (first second : Pattern)
  | option (body : Pattern) (greedy : Bool)
  | star (body : Pattern) (greedy : Bool)
  | plus (body : Pattern) (greedy : Bool)
deriving DecidableEq, Repr, Inhabited

namespace Pattern

def size : Pattern → Nat
  | empty | chars _ | anchor _ => 1
  | sequence first second | either first second => first.size + second.size + 1
  | option body _ | star body _ | plus body _ => body.size + 2

-- Whether a pattern can match without a character.
def isNullable : Pattern → Bool
  | empty | anchor _ | option _ _ | star _ _ => true
  | chars _ => false
  | sequence first second => first.isNullable && second.isNullable
  | either first second => first.isNullable || second.isNullable
  | plus body _ => body.isNullable

-- A body that may match without a character is tried once before the choice to
-- stop, so that its own preference comes first.
def many (body : Pattern) (greedy : Bool) : Pattern :=
  if body.isNullable then option (plus body greedy) greedy else star body greedy

def exactly (body : Pattern) : Nat → Pattern
  | 0 => empty
  | 1 => body
  | count + 2 => sequence body (exactly body (count + 1))

def atMost (body : Pattern) (greedy : Bool) : Nat → Pattern
  | 0 => empty
  | 1 => option body greedy
  | count + 2 => option (sequence body (atMost body greedy (count + 1))) greedy

def atLeast (body : Pattern) (greedy : Bool) : Nat → Pattern
  | 0 => many body greedy
  | 1 => plus body greedy
  | count + 2 => sequence (exactly body (count + 1)) (plus body greedy)

def between (body : Pattern) (greedy : Bool) (low high : Nat) : Pattern :=
  if low = high then exactly body low
  else if low = 0 then atMost body greedy high
  else sequence (exactly body low) (atMost body greedy (high - low))

-- Whether a pattern matches at the start of a text only.
def isAnchored : Pattern → Bool
  | anchor .textStart => true
  | sequence first second => first.isAnchored || (first == empty && second.isAnchored)
  | either first second => first.isAnchored && second.isAnchored
  | plus body _ => body.isAnchored
  | _ => false

end Pattern

end IncrementalLR
