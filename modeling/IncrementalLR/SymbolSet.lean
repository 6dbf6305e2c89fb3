namespace IncrementalLR

def insertSorted (id : Nat) : List Nat → List Nat
  | [] => [id]
  | first :: rest =>
      if id < first then id :: first :: rest
      else if id = first then first :: rest
      else first :: insertSorted id rest

theorem mem_insertSorted {id other : Nat} {ids : List Nat} :
    other ∈ insertSorted id ids ↔ other = id ∨ other ∈ ids := by
  induction ids with
  | nil => simp [insertSorted]
  | cons first rest ih =>
      unfold insertSorted
      split
      · simp
      · split
        · rename_i he
          subst he
          simp
        · simp only [List.mem_cons, ih]
          exact ⟨fun h => by rcases h with h | h | h <;> simp [h],
            fun h => by rcases h with h | h | h <;> simp [h]⟩

theorem pairwise_insertSorted {id : Nat} {ids : List Nat}
    (hs : ids.Pairwise (· < ·)) : (insertSorted id ids).Pairwise (· < ·) := by
  induction ids with
  | nil => simp [insertSorted]
  | cons first rest ih =>
      have ⟨hfirst, hrest⟩ := List.pairwise_cons.mp hs
      unfold insertSorted
      split
      · rename_i hlt
        refine List.pairwise_cons.mpr ⟨fun other ho => ?_, hs⟩
        rcases List.mem_cons.mp ho with rfl | ho
        · exact hlt
        · exact Nat.lt_trans hlt (hfirst other ho)
      · split
        · exact hs
        · refine List.pairwise_cons.mpr ⟨fun other ho => ?_, ih hrest⟩
          rcases mem_insertSorted.mp ho with he | ho
          · omega
          · exact hfirst other ho

theorem eq_of_pairwise_of_mem_iff {left right : List Nat}
    (hl : left.Pairwise (· < ·)) (hr : right.Pairwise (· < ·))
    (hmem : ∀ id, id ∈ left ↔ id ∈ right) : left = right := by
  induction left generalizing right with
  | nil =>
      cases right with
      | nil => rfl
      | cons first rest => exact absurd ((hmem first).mpr (by simp)) (by simp)
  | cons first rest ih =>
      cases right with
      | nil => exact absurd ((hmem first).mp (by simp)) (by simp)
      | cons second others =>
          have ⟨hfirst, hrest⟩ := List.pairwise_cons.mp hl
          have ⟨hsecond, hothers⟩ := List.pairwise_cons.mp hr
          have he : first = second := by
            rcases List.mem_cons.mp ((hmem first).mp (by simp)) with h | h
            · exact h
            · rcases List.mem_cons.mp ((hmem second).mpr (by simp)) with h' | h'
              · exact h'.symm
              · exact absurd (Nat.lt_trans (hsecond first h) (hfirst second h')) (Nat.lt_irrefl _)
          subst he
          refine congrArg (first :: ·) (ih hrest hothers fun id => ⟨fun h => ?_, fun h => ?_⟩)
          · rcases List.mem_cons.mp ((hmem id).mp (List.mem_cons_of_mem _ h)) with rfl | h'
            · exact absurd (hfirst _ h) (Nat.lt_irrefl _)
            · exact h'
          · rcases List.mem_cons.mp ((hmem id).mpr (List.mem_cons_of_mem _ h)) with rfl | h'
            · exact absurd (hsecond _ h) (Nat.lt_irrefl _)
            · exact h'

-- A set of symbols, given by their positions in a vocabulary. The positions are
-- held in increasing order, so that equal sets are equal values.
structure SymbolSet where
  toList : List Nat
  sorted : toList.Pairwise (· < ·)
deriving DecidableEq

namespace SymbolSet

def empty : SymbolSet := ⟨[], List.Pairwise.nil⟩

instance : EmptyCollection SymbolSet := ⟨empty⟩

instance : Inhabited SymbolSet := ⟨∅⟩

instance : Membership Nat SymbolSet := ⟨fun set id => id ∈ set.toList⟩

instance (id : Nat) (set : SymbolSet) : Decidable (id ∈ set) :=
  inferInstanceAs (Decidable (id ∈ set.toList))

def insert (set : SymbolSet) (id : Nat) : SymbolSet :=
  ⟨insertSorted id set.toList, pairwise_insertSorted set.sorted⟩

def union (set other : SymbolSet) : SymbolSet := other.toList.foldl insert set

instance : Union SymbolSet := ⟨union⟩

def filter (set : SymbolSet) (p : Nat → Bool) : SymbolSet :=
  ⟨set.toList.filter p, set.sorted.filter p⟩

def erase (set : SymbolSet) (id : Nat) : SymbolSet := set.filter (· != id)

def ofList (ids : List Nat) : SymbolSet := ids.foldl insert ∅

def isEmpty (set : SymbolSet) : Bool := set.toList.isEmpty

def isDisjoint (set other : SymbolSet) : Bool := set.toList.all fun id => decide (id ∉ other)

def isSubset (set other : SymbolSet) : Bool := set.toList.all fun id => decide (id ∈ other)

theorem mem_def {id : Nat} {set : SymbolSet} : id ∈ set ↔ id ∈ set.toList := Iff.rfl

theorem ext {set other : SymbolSet} (hmem : ∀ id, id ∈ set ↔ id ∈ other) : set = other := by
  cases set
  cases other
  congr
  exact eq_of_pairwise_of_mem_iff ‹_› ‹_› hmem

@[simp] theorem not_mem_empty (id : Nat) : id ∉ (∅ : SymbolSet) := List.not_mem_nil

@[simp] theorem mem_insert {id other : Nat} {set : SymbolSet} :
    other ∈ set.insert id ↔ other = id ∨ other ∈ set := mem_insertSorted

theorem mem_foldl_insert {id : Nat} {ids : List Nat} {set : SymbolSet} :
    id ∈ ids.foldl insert set ↔ id ∈ set ∨ id ∈ ids := by
  induction ids generalizing set with
  | nil => simp
  | cons first rest ih =>
      rw [List.foldl_cons, ih, mem_insert, List.mem_cons, or_comm (a := id = first), or_assoc]

@[simp] theorem mem_union {id : Nat} {set other : SymbolSet} :
    id ∈ set ∪ other ↔ id ∈ set ∨ id ∈ other := mem_foldl_insert

@[simp] theorem mem_filter {id : Nat} {set : SymbolSet} {p : Nat → Bool} :
    id ∈ set.filter p ↔ id ∈ set ∧ p id = true := List.mem_filter

@[simp] theorem mem_erase {id other : Nat} {set : SymbolSet} :
    other ∈ set.erase id ↔ other ∈ set ∧ other ≠ id := by
  simp [erase]

@[simp] theorem mem_ofList {id : Nat} {ids : List Nat} :
    id ∈ ofList ids ↔ id ∈ ids := by
  simp [ofList, mem_foldl_insert]

end SymbolSet

end IncrementalLR
