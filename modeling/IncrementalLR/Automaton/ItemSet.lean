import IncrementalLR.Automaton.Item

namespace IncrementalLR

abbrev Entry := Item × SymbolSet

def addEntry (item : Item) (lookahead : SymbolSet) : List Entry → List Entry
  | [] => [(item, lookahead)]
  | first :: rest =>
      if item.Before first.1 then (item, lookahead) :: first :: rest
      else if item = first.1 then (first.1, first.2 ∪ lookahead) :: rest
      else first :: addEntry item lookahead rest

theorem fst_mem_addEntry {item : Item} {lookahead : SymbolSet} {entries : List Entry}
    {entry : Entry} (he : entry ∈ addEntry item lookahead entries) :
    entry.1 = item ∨ ∃ other ∈ entries, other.1 = entry.1 := by
  induction entries with
  | nil =>
      simp only [addEntry, List.mem_singleton] at he
      exact Or.inl (by rw [he])
  | cons first rest ih =>
      unfold addEntry at he
      split at he
      · rcases List.mem_cons.mp he with rfl | he
        · exact Or.inl rfl
        · exact Or.inr ⟨entry, he, rfl⟩
      · split at he
        · rcases List.mem_cons.mp he with rfl | he
          · exact Or.inr ⟨first, by simp, rfl⟩
          · exact Or.inr ⟨entry, by simp [he], rfl⟩
        · rcases List.mem_cons.mp he with rfl | he
          · exact Or.inr ⟨entry, by simp, rfl⟩
          · rcases ih he with h | ⟨other, ho, h⟩
            · exact Or.inl h
            · exact Or.inr ⟨other, by simp [ho], h⟩

theorem pairwise_addEntry {item : Item} {lookahead : SymbolSet} {entries : List Entry}
    (hs : entries.Pairwise fun left right => left.1.Before right.1) :
    (addEntry item lookahead entries).Pairwise fun left right => left.1.Before right.1 := by
  induction entries with
  | nil => simp [addEntry]
  | cons first rest ih =>
      have ⟨hfirst, hrest⟩ := List.pairwise_cons.mp hs
      unfold addEntry
      split
      · rename_i hb
        refine List.pairwise_cons.mpr ⟨fun entry he => ?_, hs⟩
        rcases List.mem_cons.mp he with rfl | he
        · exact hb
        · exact hb.trans (hfirst entry he)
      · split
        · exact List.pairwise_cons.mpr ⟨hfirst, hrest⟩
        · rename_i hn hne
          refine List.pairwise_cons.mpr ⟨fun entry he => ?_, ih hrest⟩
          rcases fst_mem_addEntry he with h | ⟨other, ho, h⟩
          · exact h ▸ Item.before_of_not_before hn hne
          · exact h ▸ hfirst other ho

-- Items with their lookaheads, in order and each item once. Without lookaheads
-- the sets of symbols are empty.
structure ItemSet where
  entries : List Entry
  sorted : entries.Pairwise fun left right => left.1.Before right.1
deriving DecidableEq

namespace ItemSet

def empty : ItemSet := ⟨[], List.Pairwise.nil⟩

instance : EmptyCollection ItemSet := ⟨empty⟩

instance : Inhabited ItemSet := ⟨∅⟩

-- An item that is there already has its lookahead extended.
def add (set : ItemSet) (item : Item) (lookahead : SymbolSet) : ItemSet :=
  ⟨addEntry item lookahead set.entries, pairwise_addEntry set.sorted⟩

def ofList (entries : List Entry) : ItemSet :=
  entries.foldl (fun set entry => set.add entry.1 entry.2) ∅

def cores (set : ItemSet) : List Item := set.entries.map (·.1)

def size (set : ItemSet) : Nat := set.entries.length

def isEmpty (set : ItemSet) : Bool := set.entries.isEmpty

def lookahead? (set : ItemSet) (item : Item) : Option SymbolSet := set.entries.lookup item

def sameCores (set other : ItemSet) : Bool := set.cores == other.cores

-- Whether lookaheads that merging brings together were apart before.
def clash (left right : SymbolSet × SymbolSet) : Bool :=
  (!left.1.isDisjoint right.2 || !right.1.isDisjoint left.2) &&
    left.1.isDisjoint right.1 && left.2.isDisjoint right.2

def anyClash : List (SymbolSet × SymbolSet) → Bool
  | [] => false
  | first :: rest => rest.any (clash first) || anyClash rest

-- Sets of equal cores are weakly compatible if merging them makes no two items
-- share a lookahead unless they share one in either set.
def weaklyCompatible (set other : ItemSet) : Bool :=
  set.sameCores other &&
    !anyClash ((set.entries.map (·.2)).zip (other.entries.map (·.2)))

def merge (set other : ItemSet) : ItemSet :=
  other.entries.foldl (fun set entry => set.add entry.1 entry.2) set

def display (rules : Rules) (set : ItemSet) : String :=
  String.join (set.entries.map fun entry => entry.1.display rules entry.2)

end ItemSet

end IncrementalLR
