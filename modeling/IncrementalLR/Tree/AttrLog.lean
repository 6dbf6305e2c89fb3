namespace IncrementalLR

-- The values of an attribute over versions, as the versions at which it took
-- them. The newest comes first.
structure AttrLog (α : Type) where
  entries : List (Nat × α)
deriving DecidableEq, Repr, Inhabited

namespace AttrLog

variable {α : Type}

def empty : AttrLog α := ⟨[]⟩

def size (log : AttrLog α) : Nat := log.entries.length

def isEmpty (log : AttrLog α) : Bool := log.entries.isEmpty

def newest? (log : AttrLog α) : Option Nat := log.entries.head?.map (·.1)

def upTo (version : Nat) (entries : List (Nat × α)) : List (Nat × α) :=
  entries.dropWhile fun entry => decide (version < entry.1)

-- The value in effect at a version.
def at? (log : AttrLog α) (version : Nat) : Option α := (upTo version log.entries).head?.map (·.2)

def truncateAfter (log : AttrLog α) (version : Nat) : AttrLog α := ⟨upTo version log.entries⟩

-- Whatever is newer than the version is forgotten, and a value that is in effect
-- already is not recorded again.
def record [DecidableEq α] (log : AttrLog α) (version : Nat) (value : α) : AttrLog α :=
  match upTo version log.entries with
  | [] => ⟨[(version, value)]⟩
  | (last, old) :: rest =>
      if last = version then ⟨(version, value) :: rest⟩
      else if old = value then ⟨(last, old) :: rest⟩
      else ⟨(version, value) :: (last, old) :: rest⟩

end AttrLog

end IncrementalLR
