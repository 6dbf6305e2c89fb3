import IncrementalLR.Automaton.Closure
import IncrementalLR.Proofs.SymbolSets
import Mathlib.Data.List.Sort

namespace IncrementalLR

section Entries

variable {item other : Item} {lookahead : SymbolSet} {entries : List Entry} {symbol : Nat}

theorem mem_cores_addEntry :
    other ∈ (addEntry item lookahead entries).map (·.1) ↔
      other = item ∨ other ∈ entries.map (·.1) := by
  induction entries with
  | nil => simp [addEntry]
  | cons first rest ih =>
      unfold addEntry
      split
      · simp
      · split
        · rename_i he
          simp [he]
        · simp only [List.map_cons, List.mem_cons, ih]
          rw [or_left_comm]

theorem mem_lookahead_addEntry :
    (∃ found, (other, found) ∈ addEntry item lookahead entries ∧ symbol ∈ found) ↔
      (∃ found, (other, found) ∈ entries ∧ symbol ∈ found) ∨ other = item ∧ symbol ∈ lookahead := by
  induction entries with
  | nil => simp [addEntry]
  | cons first rest ih =>
      obtain ⟨item', found'⟩ := first
      unfold addEntry
      split
      · simp only [List.mem_cons, Prod.mk.injEq, or_and_right, exists_or]
        rw [or_comm]
        simp
      · split
        · rename_i he
          subst he
          simp only [List.mem_cons, Prod.mk.injEq, or_and_right, exists_or]
          simp only [and_assoc, exists_and_left, exists_eq_left, SymbolSet.mem_union]
          constructor
          · rintro (⟨he, h | h⟩ | h)
            · exact Or.inl (Or.inl ⟨he, h⟩)
            · exact Or.inr ⟨he, h⟩
            · exact Or.inl (Or.inr h)
          · rintro ((⟨he, h⟩ | h) | ⟨he, h⟩)
            · exact Or.inl ⟨he, Or.inl h⟩
            · exact Or.inr h
            · exact Or.inl ⟨he, Or.inr h⟩
        · simp only [List.mem_cons, or_and_right, exists_or, ih]
          rw [or_assoc]

end Entries

namespace ItemSet

-- Whether an item is in a set.
def HasItem (set : ItemSet) (item : Item) : Prop := item ∈ set.cores

-- Whether a symbol is in the lookahead of an item.
def Sees (set : ItemSet) (item : Item) (symbol : Nat) : Prop :=
  ∃ lookahead, (item, lookahead) ∈ set.entries ∧ symbol ∈ lookahead

variable {set other : ItemSet} {item : Item} {symbol : Nat}

theorem Sees.hasItem (h : set.Sees item symbol) : set.HasItem item := by
  obtain ⟨lookahead, hmem, -⟩ := h
  exact List.mem_map.mpr ⟨_, hmem, rfl⟩

theorem hasItem_iff : set.HasItem item ↔ ∃ lookahead, (item, lookahead) ∈ set.entries := by
  simp [HasItem, cores]

theorem hasItem_of_mem {entry : Entry} (he : entry ∈ set.entries) : set.HasItem entry.1 :=
  List.mem_map.mpr ⟨entry, he, rfl⟩

theorem cores_sorted (set : ItemSet) : set.cores.Pairwise Item.Before := by
  rw [cores, List.pairwise_map]
  exact set.sorted

-- The lookahead of an item is the only one of it in the set.
theorem lookahead_unique {left right : SymbolSet} (hl : (item, left) ∈ set.entries)
    (hr : (item, right) ∈ set.entries) : left = right := by
  obtain ⟨entries, hs⟩ := set
  change (item, left) ∈ entries at hl
  change (item, right) ∈ entries at hr
  induction entries with
  | nil => cases hl
  | cons first rest ih =>
      have ⟨hfirst, hrest⟩ := List.pairwise_cons.mp hs
      rcases List.mem_cons.mp hl with rfl | hleft
      · rcases List.mem_cons.mp hr with hr | hright
        · exact (Prod.mk.inj hr).2.symm
        · exact absurd (hfirst (item, right) hright) (Item.not_before_self item)
      · rcases List.mem_cons.mp hr with rfl | hright
        · exact absurd (hfirst (item, left) hleft) (Item.not_before_self item)
        · exact ih hrest hleft hright

theorem sees_iff {lookahead : SymbolSet} (hmem : (item, lookahead) ∈ set.entries) :
    set.Sees item symbol ↔ symbol ∈ lookahead := by
  refine ⟨fun ⟨found, hf, hs⟩ => ?_, fun hs => ⟨lookahead, hmem, hs⟩⟩
  rwa [lookahead_unique hmem hf]

theorem cores_eq (hmem : ∀ item, set.HasItem item ↔ other.HasItem item) : set.cores = other.cores := by
  have hirrefl : Std.Irrefl Item.Before := ⟨Item.not_before_self⟩
  have hantisymm : Std.Antisymm Item.Before := ⟨fun _ _ hl hr => absurd (hl.trans hr) (Item.not_before_self _)⟩
  exact set.cores_sorted.eq_of_mem_iff other.cores_sorted fun item => hmem item

theorem ext (hmem : ∀ item, set.HasItem item ↔ other.HasItem item)
    (hsees : ∀ item symbol, set.Sees item symbol ↔ other.Sees item symbol) : set = other := by
  have hc := cores_eq hmem
  have he : set.entries = other.entries := by
    have hlen : set.entries.length = other.entries.length := by
      simpa [cores] using congrArg List.length hc
    refine List.ext_getElem hlen fun index hl hr => ?_
    have hitem : (set.entries[index]).1 = (other.entries[index]).1 := by
      have h := congrArg (fun items => items[index]?) hc
      simpa [cores, hl, hr] using h
    refine Prod.ext hitem (SymbolSet.ext fun symbol => ?_)
    have hleft : ((set.entries[index]).1, (set.entries[index]).2) ∈ set.entries :=
      List.getElem_mem hl
    have hright : ((set.entries[index]).1, (other.entries[index]).2) ∈ other.entries := by
      rw [hitem]
      exact List.getElem_mem hr
    rw [← sees_iff hleft, ← sees_iff hright]
    exact hsees _ symbol
  cases set
  cases other
  congr

theorem not_hasItem_empty : ¬ (∅ : ItemSet).HasItem item := List.not_mem_nil

theorem not_sees_empty : ¬ (∅ : ItemSet).Sees item symbol := fun h => not_hasItem_empty h.hasItem

@[simp] theorem hasItem_add {added : Item} {lookahead : SymbolSet} :
    (set.add added lookahead).HasItem item ↔ item = added ∨ set.HasItem item := mem_cores_addEntry

@[simp] theorem sees_add {added : Item} {lookahead : SymbolSet} :
    (set.add added lookahead).Sees item symbol ↔
      set.Sees item symbol ∨ item = added ∧ symbol ∈ lookahead := mem_lookahead_addEntry

section Fold

variable {entries : List Entry}

theorem hasItem_foldl_add :
    (entries.foldl (fun set entry => set.add entry.1 entry.2) set).HasItem item ↔
      set.HasItem item ∨ item ∈ entries.map (·.1) := by
  induction entries generalizing set with
  | nil => simp
  | cons entry rest ih =>
      rw [List.foldl_cons, ih, hasItem_add, List.map_cons, List.mem_cons, or_comm (a := item = entry.1),
        or_assoc]

theorem sees_foldl_add :
    (entries.foldl (fun set entry => set.add entry.1 entry.2) set).Sees item symbol ↔
      set.Sees item symbol ∨ ∃ lookahead, (item, lookahead) ∈ entries ∧ symbol ∈ lookahead := by
  induction entries generalizing set with
  | nil => simp
  | cons entry rest ih =>
      rw [List.foldl_cons, ih, sees_add, or_assoc]
      refine or_congr Iff.rfl ⟨?_, ?_⟩
      · rintro (⟨rfl, hs⟩ | ⟨lookahead, hmem, hs⟩)
        · exact ⟨entry.2, by simp, hs⟩
        · exact ⟨lookahead, by simp [hmem], hs⟩
      · rintro ⟨lookahead, hmem, hs⟩
        rcases List.mem_cons.mp hmem with rfl | hmem
        · exact Or.inl ⟨rfl, hs⟩
        · exact Or.inr ⟨lookahead, hmem, hs⟩

@[simp] theorem hasItem_merge :
    (set.merge other).HasItem item ↔ set.HasItem item ∨ other.HasItem item := hasItem_foldl_add

@[simp] theorem sees_merge :
    (set.merge other).Sees item symbol ↔ set.Sees item symbol ∨ other.Sees item symbol :=
  sees_foldl_add

theorem hasItem_ofList : (ofList entries).HasItem item ↔ item ∈ entries.map (·.1) :=
  hasItem_foldl_add.trans (or_iff_right not_hasItem_empty)

theorem sees_ofList :
    (ofList entries).Sees item symbol ↔
      ∃ lookahead, (item, lookahead) ∈ entries ∧ symbol ∈ lookahead :=
  sees_foldl_add.trans (or_iff_right not_sees_empty)

end Fold

section Within

-- Whether all items and lookaheads of a set are in another.
structure Within (set other : ItemSet) : Prop where
  hasItem : ∀ item, set.HasItem item → other.HasItem item
  sees : ∀ item symbol, set.Sees item symbol → other.Sees item symbol

theorem Within.refl (set : ItemSet) : set.Within set := ⟨fun _ h => h, fun _ _ h => h⟩

theorem Within.trans {third : ItemSet} (hl : set.Within other) (hr : other.Within third) :
    set.Within third :=
  ⟨fun item h => hr.hasItem item (hl.hasItem item h),
    fun item symbol h => hr.sees item symbol (hl.sees item symbol h)⟩

theorem Within.antisymm (hl : set.Within other) (hr : other.Within set) : set = other :=
  ext (fun item => ⟨hl.hasItem item, hr.hasItem item⟩)
    fun item symbol => ⟨hl.sees item symbol, hr.sees item symbol⟩

theorem within_merge_left : set.Within (set.merge other) :=
  ⟨fun _ h => hasItem_merge.mpr (Or.inl h), fun _ _ h => sees_merge.mpr (Or.inl h)⟩

theorem within_merge_right : other.Within (set.merge other) :=
  ⟨fun _ h => hasItem_merge.mpr (Or.inr h), fun _ _ h => sees_merge.mpr (Or.inr h)⟩

theorem Within.exists_of_ne (hw : set.Within other) (hne : other ≠ set) :
    ∃ item symbol, other.HasItem item ∧ ¬ set.HasItem item ∨
      other.Sees item symbol ∧ ¬ set.Sees item symbol := by
  by_contra hall
  simp only [not_exists, not_or, not_and, not_not] at hall
  exact hne (Within.antisymm ⟨fun item hi => (hall item 0).1 hi,
    fun item symbol hs => (hall item symbol).2 hs⟩ hw)

-- Sets whose lookaheads hold symbols of a vocabulary only.
def Bounded (size : Nat) (set : ItemSet) : Prop := ∀ item symbol, set.Sees item symbol → symbol < size

open Classical in
-- What a set says about some items: which of them it has, and what each sees. The
-- size of the vocabulary stands for the item itself.
noncomputable def marks (items : Finset Item) (size : Nat) (set : ItemSet) : Finset (Item × Nat) :=
  (items ×ˢ Finset.range (size + 1)).filter fun mark =>
    mark.2 = size ∧ set.HasItem mark.1 ∨ mark.2 < size ∧ set.Sees mark.1 mark.2

variable {items : Finset Item} {size : Nat}

theorem mem_marks {mark : Nat} :
    (item, mark) ∈ set.marks items size ↔
      item ∈ items ∧ (mark = size ∧ set.HasItem item ∨ mark < size ∧ set.Sees item mark) := by
  simp only [marks, Finset.mem_filter, Finset.mem_product, Finset.mem_range, and_assoc]
  refine and_congr_right fun _ => and_iff_right_of_imp ?_
  rintro (⟨rfl, -⟩ | ⟨hlt, -⟩) <;> omega

open Classical in
theorem marks_subset_product : set.marks items size ⊆ items ×ˢ Finset.range (size + 1) :=
  Finset.filter_subset _ _

theorem card_marks_le : (set.marks items size).card ≤ items.card * (size + 1) := by
  have hproduct : (items ×ˢ Finset.range (size + 1)).card = items.card * (size + 1) := by
    rw [Finset.card_product, Finset.card_range]
  rw [← hproduct]
  exact Finset.card_le_card marks_subset_product

theorem Within.marks_subset (hw : set.Within other) :
    set.marks items size ⊆ other.marks items size := by
  rintro ⟨item, mark⟩ hm
  have ⟨hi, hm⟩ := mem_marks.mp hm
  exact mem_marks.mpr ⟨hi, hm.imp (And.imp_right (hw.hasItem item)) (And.imp_right (hw.sees item mark))⟩

theorem Within.card_marks_lt (hw : set.Within other) (hb : other.Bounded size) (hi : item ∈ items)
    (hne : other.HasItem item ∧ ¬ set.HasItem item ∨ other.Sees item symbol ∧ ¬ set.Sees item symbol) :
    (set.marks items size).card < (other.marks items size).card := by
  refine Finset.card_lt_card ((Finset.ssubset_iff_of_subset hw.marks_subset).mpr ?_)
  rcases hne with ⟨ho, hn⟩ | ⟨ho, hn⟩
  · refine ⟨(item, size), mem_marks.mpr ⟨hi, Or.inl ⟨rfl, ho⟩⟩, fun h => hn ?_⟩
    exact (((mem_marks.mp h).2).resolve_right fun h => Nat.lt_irrefl _ h.1).2
  · have hlt := hb item symbol ho
    refine ⟨(item, symbol), mem_marks.mpr ⟨hi, Or.inr ⟨hlt, ho⟩⟩, fun h => hn ?_⟩
    exact (((mem_marks.mp h).2).resolve_left fun h => Nat.ne_of_lt hlt h.1).2

-- The marks determine a set that has no other items and symbols.
theorem eq_of_marks_eq (hs : ∀ item, set.HasItem item → item ∈ items)
    (ho : ∀ item, other.HasItem item → item ∈ items) (hsb : set.Bounded size)
    (hob : other.Bounded size) (he : set.marks items size = other.marks items size) :
    set = other := by
  have hwithin : ∀ {set other : ItemSet}, (∀ item, set.HasItem item → item ∈ items) →
      set.Bounded size → set.marks items size ⊆ other.marks items size → set.Within other := by
    intro set other hs hb hsub
    refine ⟨fun item hi => ?_, fun item symbol hsee => ?_⟩
    · have h := mem_marks.mp (hsub (mem_marks.mpr ⟨hs item hi, Or.inl ⟨rfl, hi⟩⟩))
      exact (h.2.resolve_right fun h => Nat.lt_irrefl _ h.1).2
    · have hlt := hb item symbol hsee
      have h := mem_marks.mp (hsub (mem_marks.mpr ⟨hs item hsee.hasItem, Or.inr ⟨hlt, hsee⟩⟩))
      exact (h.2.resolve_left fun h => Nat.ne_of_lt hlt h.1).2
  exact Within.antisymm (hwithin hs hsb he.subset) (hwithin ho hob he.symm.subset)

end Within

section Compatible

theorem sameCores_iff : set.sameCores other = true ↔ set.cores = other.cores := by
  simp [sameCores]

theorem cores_eq_of_weaklyCompatible (h : set.weaklyCompatible other = true) :
    set.cores = other.cores := by
  simp only [weaklyCompatible, Bool.and_eq_true] at h
  exact sameCores_iff.mp h.1

theorem anyClash_eq_false {pairs : List (SymbolSet × SymbolSet)}
    (hs : ∀ pair ∈ pairs, ∀ symbol ∈ pair.2, symbol ∈ pair.1) : anyClash pairs = false := by
  induction pairs with
  | nil => rfl
  | cons first rest ih =>
      have hnone : ∀ second ∈ rest, clash first second = false := by
        intro second hmem
        simp only [clash, SymbolSet.isDisjoint, Bool.and_eq_false_iff, Bool.or_eq_false_iff,
          Bool.not_eq_false', List.all_eq_true, decide_eq_true_eq]
        by_cases hd : ∀ symbol ∈ first.1.toList, symbol ∉ second.1
        · refine Or.inl (Or.inl ⟨fun symbol hf hsecond => ?_, fun symbol hsecond hf => ?_⟩)
          · exact hd symbol hf (hs second (by simp [hmem]) symbol hsecond)
          · exact hd symbol (hs first (by simp) symbol hf) hsecond
        · refine Or.inl (Or.inr ?_)
          rw [← Bool.not_eq_true, List.all_eq_true]
          simpa using hd
      simp only [anyClash, Bool.or_eq_false_iff, List.any_eq_false]
      exact ⟨fun second hmem => by simp [hnone second hmem],
        ih fun pair hmem => hs pair (by simp [hmem])⟩

-- A set may always be merged into one of its own cores that sees at least as
-- much.
theorem weaklyCompatible_of_sees (hc : set.cores = other.cores)
    (hs : ∀ item symbol, other.Sees item symbol → set.Sees item symbol) :
    set.weaklyCompatible other = true := by
  simp only [weaklyCompatible, Bool.and_eq_true, sameCores_iff.mpr hc, true_and,
    Bool.not_eq_true']
  refine anyClash_eq_false fun pair hmem symbol hsymbol => ?_
  obtain ⟨index, hi, rfl⟩ := List.mem_iff_getElem.mp hmem
  simp only [List.length_zip, List.length_map] at hi
  simp only [List.getElem_zip, List.getElem_map] at hsymbol ⊢
  have hitem : (set.entries[index]).1 = (other.entries[index]).1 := by
    have h := congrArg (fun items => items[index]?) hc
    simpa [cores, show index < set.entries.length by omega,
      show index < other.entries.length by omega] using h
  have hsees := hs (other.entries[index]).1 symbol ⟨_, List.getElem_mem _, hsymbol⟩
  rw [← hitem] at hsees
  exact (sees_iff (List.getElem_mem _)).mp hsees

end Compatible

section Goto

variable {grammar : Grammar}

theorem hasItem_gotoKernel :
    (set.gotoKernel grammar symbol).HasItem item ↔
      ∃ source, set.HasItem source ∧ source.next? grammar.toRules = some symbol ∧
        item = source.advance := by
  rw [gotoKernel, hasItem_ofList]
  simp only [List.mem_map, List.mem_filter, beq_iff_eq]
  constructor
  · rintro ⟨_, ⟨entry, ⟨hmem, hn⟩, rfl⟩, rfl⟩
    exact ⟨entry.1, hasItem_of_mem hmem, hn, rfl⟩
  · rintro ⟨source, hs, hn, rfl⟩
    obtain ⟨lookahead, hmem⟩ := hasItem_iff.mp hs
    exact ⟨_, ⟨(source, lookahead), ⟨hmem, hn⟩, rfl⟩, rfl⟩

theorem sees_gotoKernel {terminal : Nat} :
    (set.gotoKernel grammar symbol).Sees item terminal ↔
      ∃ source, set.Sees source terminal ∧ source.next? grammar.toRules = some symbol ∧
        item = source.advance := by
  rw [gotoKernel, sees_ofList]
  simp only [List.mem_map, List.mem_filter, beq_iff_eq, Prod.mk.injEq]
  constructor
  · rintro ⟨lookahead, ⟨entry, ⟨hmem, hn⟩, rfl, rfl⟩, hs⟩
    exact ⟨entry.1, ⟨entry.2, hmem, hs⟩, hn, rfl⟩
  · rintro ⟨source, ⟨lookahead, hmem, hs⟩, hn, rfl⟩
    exact ⟨lookahead, ⟨(source, lookahead), ⟨hmem, hn⟩, rfl, rfl⟩, hs⟩

theorem mem_nextSymbols :
    symbol ∈ set.nextSymbols grammar ↔
      ∃ source, set.HasItem source ∧ source.next? grammar.toRules = some symbol := by
  unfold nextSymbols
  rw [← SymbolSet.mem_def, SymbolSet.mem_ofList, List.mem_filterMap]
  rfl

theorem nodup_nextSymbols : (set.nextSymbols grammar).Nodup :=
  (SymbolSet.ofList _).sorted.imp fun h => Nat.ne_of_lt h

theorem hasItem_startKernel {mode : Mode} :
    (startKernel mode).HasItem item ↔ item = ⟨startProduction, 0⟩ := by
  simp [startKernel, not_hasItem_empty]

theorem sees_startKernel {mode : Mode} :
    (startKernel mode).Sees item symbol ↔
      item = ⟨startProduction, 0⟩ ∧ mode ≠ .lr0 ∧ symbol = finishId := by
  have he : ∀ symbol, symbol ∉ SymbolSet.empty := SymbolSet.not_mem_empty
  cases mode <;> simp [startKernel, not_sees_empty, he]

end Goto

end ItemSet

end IncrementalLR
