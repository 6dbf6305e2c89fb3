import IncrementalLR.Grammar.Basic

namespace IncrementalLR

-- Applies a step until it changes nothing, but at most so many times.
def saturate {α : Type} [DecidableEq α] (step : α → α) : Nat → α → α
  | 0, value => value
  | fuel + 1, value => if step value = value then value else saturate step fuel (step value)

-- The symbols that derive the empty word, and by symbol the sets FIRST and
-- FOLLOW. FIRST of a nullable symbol holds the empty word.
structure FirstFollow where
  nullable : SymbolSet
  first : Array SymbolSet
  follow : Array SymbolSet
deriving DecidableEq, Inhabited

namespace FirstFollow

def setOf (sets : Array SymbolSet) (id : Nat) : SymbolSet := sets.getD id ∅

def allIn (nullable : SymbolSet) (sequence : List Nat) : Bool :=
  sequence.all fun symbol => decide (symbol ∈ nullable)

-- The terminals that begin the words derived from a sequence.
def heads (nullable : SymbolSet) (first : Array SymbolSet) : List Nat → SymbolSet
  | [] => ∅
  | symbol :: rest =>
      let here := (setOf first symbol).erase epsilonId
      if symbol ∈ nullable then here ∪ heads nullable first rest else here

-- A round renews all sets at once. Renewals one at a time and in place, in any order and
-- without what a left side would give itself, come to the same sets: see
-- endsIn_nullableSet, endsIn_firstSets and endsIn_followSets.
def nullableStep (rules : Rules) (nullable : SymbolSet) : SymbolSet :=
  rules.declared.foldl
    (fun set production =>
      match production.left with
      | some left => if allIn nullable production.right then set.insert left else set
      | none => set)
    nullable

def nullableSet (rules : Rules) : SymbolSet :=
  saturate (nullableStep rules) (rules.symbols.size + 1) (SymbolSet.empty.insert epsilonId)

def firstStep (rules : Rules) (nullable : SymbolSet) (first : Array SymbolSet) : Array SymbolSet :=
  first.mapIdx fun id set =>
    (rules.alternatives id).foldl
      (fun set production => set ∪ heads nullable first (rules.production production).right) set

-- A set can grow as often as there are symbols.
def growthBound (rules : Rules) : Nat := rules.symbols.size * rules.symbols.size + 1

def firstSets (rules : Rules) (nullable : SymbolSet) : Array SymbolSet :=
  let seeds := rules.symbols.mapIdx fun id symbol =>
    if symbol.isTerminal then SymbolSet.empty.insert id else ∅
  let sets := saturate (firstStep rules nullable) (growthBound rules) seeds
  sets.mapIdx fun id set => if id ∈ nullable then set.insert epsilonId else set

-- What stands after each occurrence of a symbol in a sequence.
def suffixesAfter (id : Nat) : List Nat → List (List Nat)
  | [] => []
  | symbol :: rest => if symbol = id then rest :: suffixesAfter id rest else suffixesAfter id rest

def followContribution (nullable : SymbolSet) (first follow : Array SymbolSet) (id : Nat)
    (production : Production) : SymbolSet :=
  match production.left with
  | none => ∅
  | some left =>
      (suffixesAfter id production.right).foldl
        (fun set suffix =>
          set ∪ heads nullable first suffix ∪ (if allIn nullable suffix then setOf follow left else ∅))
        ∅

def followStep (rules : Rules) (nullable : SymbolSet) (first follow : Array SymbolSet) :
    Array SymbolSet :=
  follow.mapIdx fun id set =>
    if (rules.alternatives id).isEmpty then set
    else
      rules.declared.foldl
        (fun set production => set ∪ followContribution nullable first follow id production) set

def followSets (rules : Rules) (nullable : SymbolSet) (first : Array SymbolSet) : Array SymbolSet :=
  let seeds := rules.symbols.mapIdx fun id _ =>
    if id = rules.start then SymbolSet.empty.insert finishId else ∅
  saturate (followStep rules nullable first) (growthBound rules) seeds

end FirstFollow

open FirstFollow in
def Rules.firstFollow (rules : Rules) : FirstFollow :=
  let nullable := nullableSet rules
  let first := firstSets rules nullable
  ⟨nullable, first, followSets rules nullable first⟩

end IncrementalLR
