import IncrementalLR.Proofs.Parse.Scene

namespace IncrementalLR

-- What lies on the stack of a parser that gets leaves alone: the state, whether it is one
-- of the symbols of a right side, and copies of the trees.
structure Shelf where
  state : Nat
  counts : Bool
  copies : List Snapshot

namespace Shelf

def top (shelves : List Shelf) : Nat :=
  match shelves with
  | shelf :: _ => shelf.state
  | [] => 0

-- Takes so many symbols from the top, with what was passed through between them.
def pop (taken : List Snapshot) : Nat → List Shelf → Option (List Snapshot × List Shelf)
  | 0, shelves => some (taken, shelves)
  | _ + 1, [] => none
  | count + 1, shelf :: below =>
      pop (shelf.copies ++ taken) (if shelf.counts then count else count + 1) below

end Shelf

namespace Label

-- The copy of a leaf.
def copy (label : Label) : Snapshot := .node label.symbol label.text []

def passes (passThrough : List String) (label : Label) : Bool :=
  label.symbol == .epsilon || passThrough.contains label.key.name

end Label

-- A parser that gets the leaves of a document one after the other, with what is passed
-- through and what wildcards take among them.
structure Reader where
  shelves : List Shelf
  labels : List Label

namespace Reader

-- What a reader does next. At its last leaf it can go no further.
inductive Turn where
  | take (reader : Reader)
  | reduce (reader : Reader)
  | accept
  | reject
  | fail

def Turn.isEnd : Turn → Bool
  | take _ | reduce _ => false
  | accept | reject | fail => true

variable (table : SyntaxTable) (passThrough : List String) (reader : Reader)

def reduced? (production : Nat) : Option Reader :=
  let grammar := table.grammar
  match Shelf.pop [] (grammar.production production).right.length reader.shelves,
    (grammar.production production).left with
  | some (children, below), some left =>
      (table.goto? (Shelf.top below) left).map fun next =>
        { reader with shelves := ⟨next, true, [.node (grammar.symbol left) "" children]⟩ :: below }
  | _, _ => none

def reduce (production : Nat) : Turn :=
  match reader.reduced? table production with
  | some other => .reduce other
  | none => .fail

-- Puts a leaf on the stack, unless it is the last one.
def take (label : Label) (state : Nat) (counts : Bool) (rest : List Label) : Turn :=
  if rest.isEmpty then .fail else .take ⟨⟨state, counts, [label.copy]⟩ :: reader.shelves, rest⟩

-- Takes leaves into a wildcard until one ends it.
def span (target : Nat) (reach : Reach) : Reader :=
  let inside := fun label => !table.endsSpan target reach label
  ⟨⟨target, true, (reader.labels.takeWhile inside).map Label.copy⟩ :: reader.shelves, reader.labels.dropWhile inside⟩

def tryWildcards : List Reach → Turn
  | [] => .reject
  | reach :: rest =>
      match table.lookup? (Shelf.top reader.shelves) (.wildcard reach) with
      | some (.shift target) => .take (reader.span table target reach)
      | some (.reduce production) => reader.reduce table production
      | _ => tryWildcards rest

def turn : Turn :=
  match reader.labels with
  | [] => .fail
  | label :: rest =>
      match table.lookup? (Shelf.top reader.shelves) label.key with
      | some .accept => .accept
      | some (.shift next) => reader.take label next true rest
      | some (.reduce production) => reader.reduce table production
      | some (.goto _) | none =>
          if label.passes passThrough then reader.take label (Shelf.top reader.shelves) false rest
          else reader.tryWildcards table [.multiline, .singleLine]

-- What a reader comes to, with the number of reductions on the way.
inductive Reads : Reader → Nat → Reader → Prop where
  | refl {reader : Reader} : Reads reader 0 reader
  | take {reader next last : Reader} {count : Nat} :
      reader.turn table passThrough = .take next → Reads next count last → Reads reader count last
  | reduce {reader next last : Reader} {count : Nat} :
      reader.turn table passThrough = .reduce next → Reads next count last → Reads reader (count + 1) last

-- Whether a reader makes so many reductions at most, whatever else it does.
def Within (bound : Nat) : Prop := ∀ count last, Reads table passThrough reader count last → count ≤ bound

def Settles : Prop := ∃ bound, reader.Within table passThrough bound

-- Whether a reader comes to an end within so many turns.
def ends : Nat → Reader → Bool
  | 0, _ => false
  | turns + 1, reader =>
      match reader.turn table passThrough with
      | .take next | .reduce next => ends turns next
      | .accept | .reject | .fail => true

variable {table passThrough reader} {next last other : Reader} {bound count most turns : Nat}

theorem Within.take (hw : reader.Within table passThrough bound) (h : reader.turn table passThrough = .take next) :
    next.Within table passThrough bound :=
  fun count last hr => hw count last (.take h hr)

theorem Within.reduce (hw : reader.Within table passThrough bound) (h : reader.turn table passThrough = .reduce next) :
    ∃ less, bound = less + 1 ∧ next.Within table passThrough less := by
  obtain ⟨less, rfl⟩ := Nat.exists_eq_add_of_le' (hw 1 next (.reduce h .refl))
  exact ⟨less, rfl, fun count last hr => Nat.le_of_succ_le_succ (hw (count + 1) last (.reduce h hr))⟩

-- A reader that comes to an end makes only the reductions until there.
theorem within_of_ends (h : ends table passThrough turns reader = true) : reader.Within table passThrough turns := by
  induction turns generalizing reader with
  | zero => cases h
  | succ turns ih =>
      rw [ends] at h
      intro count last hr
      cases hr with
      | refl => exact Nat.zero_le _
      | take hturn hr =>
          rw [hturn] at h
          exact Nat.le_succ_of_le (ih h _ _ hr)
      | reduce hturn hr =>
          rw [hturn] at h
          exact Nat.succ_le_succ (ih h _ _ hr)

-- There is one end only that a reader comes to.
theorem Reads.unique (hr : Reads table passThrough reader count last) (ho : Reads table passThrough reader most other)
    (hlast : (last.turn table passThrough).isEnd = true) (hother : (other.turn table passThrough).isEnd = true) :
    last = other := by
  induction hr generalizing most with
  | refl =>
      cases ho with
      | refl => rfl
      | take h _ =>
          rw [h] at hlast
          cases hlast
      | reduce h _ =>
          rw [h] at hlast
          cases hlast
  | take h _ ih =>
      cases ho with
      | refl =>
          rw [h] at hother
          cases hother
      | take h' ho =>
          obtain rfl := Turn.take.inj (h.symm.trans h')
          exact ih ho hlast
      | reduce h' _ => cases h.symm.trans h'
  | reduce h _ ih =>
      cases ho with
      | refl =>
          rw [h] at hother
          cases hother
      | take h' _ => cases h.symm.trans h'
      | reduce h' ho =>
          obtain rfl := Turn.reduce.inj (h.symm.trans h')
          exact ih ho hlast

end Reader

end IncrementalLR
