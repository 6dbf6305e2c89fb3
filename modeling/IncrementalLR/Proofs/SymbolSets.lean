import IncrementalLR.SymbolSet
import Mathlib.Algebra.Order.BigOperators.Group.Finset
import Mathlib.Data.List.Perm.Subperm
import Mathlib.Data.List.Nodup

namespace IncrementalLR

namespace SymbolSet

variable {set other : SymbolSet}

def size (set : SymbolSet) : Nat := set.toList.length

theorem nodup (set : SymbolSet) : set.toList.Nodup := set.sorted.imp fun h => Nat.ne_of_lt h

theorem size_le (hs : ∀ id ∈ set, id ∈ other) : set.size ≤ other.size :=
  (set.nodup.subperm hs).length_le

theorem size_lt (hs : ∀ id ∈ set, id ∈ other) (hne : other ≠ set) : set.size < other.size := by
  refine Nat.lt_of_le_of_ne (size_le hs) fun he => hne ?_
  have hp := (set.nodup.subperm hs).perm_of_length_le (Nat.le_of_eq he.symm)
  exact ext fun id => hp.symm.mem_iff

-- A fold whose steps only add to a set adds what each of them adds.
theorem mem_foldl {α : Type} {values : List α} {step : SymbolSet → α → SymbolSet} {adds : α → Prop} {id : Nat}
    (hstep : ∀ set value, id ∈ step set value ↔ id ∈ set ∨ adds value) :
    id ∈ values.foldl step set ↔ id ∈ set ∨ ∃ value ∈ values, adds value := by
  induction values generalizing set with
  | nil => simp
  | cons value rest ih => simp [ih, hstep, or_assoc]

theorem size_le_of_lt {bound : Nat} (hs : ∀ id ∈ set, id < bound) : set.size ≤ bound := by
  have hsubset : set.toList ⊆ List.range bound := fun id hid => List.mem_range.mpr (hs id hid)
  simpa [size] using (set.nodup.subperm hsubset).length_le

end SymbolSet

-- The symbols in all sets of a family.
def totalSize (count : Nat) (sets : Nat → SymbolSet) : Nat :=
  ∑ id ∈ Finset.range count, (sets id).size

section

variable {count : Nat} {sets others : Nat → SymbolSet}

theorem totalSize_lt (hs : ∀ id < count, ∀ symbol ∈ sets id, symbol ∈ others id)
    (hne : ∃ id < count, others id ≠ sets id) : totalSize count sets < totalSize count others := by
  obtain ⟨id, hid, hne⟩ := hne
  refine Finset.sum_lt_sum (fun other ho => SymbolSet.size_le (hs other (Finset.mem_range.mp ho)))
    ⟨id, Finset.mem_range.mpr hid, SymbolSet.size_lt (hs id hid) hne⟩

theorem totalSize_le {bound : Nat} (hs : ∀ id < count, ∀ symbol ∈ sets id, symbol < bound) :
    totalSize count sets ≤ count * bound := by
  have h := Finset.sum_le_card_nsmul (Finset.range count) (fun id => (sets id).size) bound
    fun id hid => SymbolSet.size_le_of_lt (hs id (Finset.mem_range.mp hid))
  simpa [totalSize] using h

end

end IncrementalLR
