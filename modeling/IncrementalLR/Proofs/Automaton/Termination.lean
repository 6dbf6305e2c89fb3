import IncrementalLR.Proofs.Automaton.Invariant
import Mathlib.Data.Finset.Powerset
import Mathlib.Order.Interval.Finset.Nat

namespace IncrementalLR

section Items

variable {rules : Rules} {grammar : Grammar}

-- The items of a grammar, with the dot in each place of a right side.
def allItems (rules : Rules) : List Item :=
  rules.productionIds.flatMap fun id =>
    (List.range ((rules.production id).right.length + 1)).map (⟨id, ·⟩)

theorem mem_allItems {item : Item} :
    item ∈ allItems rules ↔
      item.production < rules.productions.size ∧
        item.dot ≤ (rules.production item.production).right.length := by
  simp only [allItems, Rules.productionIds, List.mem_flatMap, List.mem_range, List.mem_map]
  constructor
  · rintro ⟨id, hid, dot, hdot, rfl⟩
    exact ⟨hid, Nat.le_of_lt_succ hdot⟩
  · rintro ⟨hid, hdot⟩
    exact ⟨item.production, hid, item.dot, Nat.lt_succ_of_le hdot, rfl⟩

theorem length_allItems : (allItems grammar.toRules).length = Construction.itemCount grammar := by
  have hfold : ∀ (productions : List Production) (count : Nat),
      productions.foldl (fun count production => count + (production.right.length + 1)) count =
        count + (productions.map fun production => production.right.length + 1).sum := by
    intro productions
    induction productions with
    | nil => exact fun count => rfl
    | cons first rest ih =>
        intro count
        rw [List.foldl_cons, ih, List.map_cons, List.sum_cons, Nat.add_assoc]
  have hmap : (List.range grammar.productions.size).map grammar.production =
      grammar.productions.toList := by
    refine List.ext_getElem (by simp) fun index hl hr => ?_
    have hlt : index < grammar.productions.size := by simpa using hr
    simp [Rules.production, hlt]
  rw [Construction.itemCount, ← Array.foldl_toList, hfold, Nat.zero_add, ← hmap]
  simp only [allItems, Rules.productionIds, List.length_flatMap, List.map_map, Function.comp_def,
    List.length_map, List.length_range]

theorem Spells.mem_allItems (hw : rules.WellFormed) {spelled : List Nat} {item : Item}
    (hs : Spells rules spelled item) : item ∈ allItems rules := by
  induction hs with
  | start => exact IncrementalLR.mem_allItems.mpr ⟨hw.size_pos, Nat.zero_le _⟩
  | advanced _ hn ih =>
      have ⟨hlt, _⟩ := List.getElem?_eq_some_iff.mp hn
      exact IncrementalLR.mem_allItems.mpr ⟨(IncrementalLR.mem_allItems.mp ih).1, hlt⟩
  | brought _ hb _ =>
      obtain ⟨next, -, hleft, hdot⟩ := hb
      refine IncrementalLR.mem_allItems.mpr
        ⟨(Rules.mem_alternatives.mp (Rules.mem_alternatives_of_left hleft)).1, ?_⟩
      rw [hdot]
      exact Nat.zero_le _

end Items

namespace Construction

variable {grammar : Grammar} {mode : Mode} {building : Construction} {source symbol target : Nat}
  {kernel : ItemSet}

-- The marks that one kernel can have.
def capacity (grammar : Grammar) : Nat := itemCount grammar * (grammar.symbols.size + 1)

-- The states that there can be: the first, and over each symbol one for each
-- choice of marks.
def maximum (grammar : Grammar) : Nat := grammar.symbols.size * 2 ^ capacity grammar + 1

-- The marks of a kernel of the grammar.
noncomputable def marksOf (grammar : Grammar) (set : ItemSet) : Finset (Item × Nat) :=
  set.marks (allItems grammar.toRules).toFinset grammar.symbols.size

theorem card_marksOf_le {set : ItemSet} : (marksOf grammar set).card ≤ capacity grammar := by
  refine ItemSet.card_marks_le.trans (Nat.mul_le_mul_right _ ?_)
  rw [← length_allItems]
  exact List.toFinset_card_le _

-- Kernels as they were when their states were created. No two over one symbol are
-- the same, since the later one would have been merged into the state of the other.
structure Seeded (grammar : Grammar) (building : Construction) (seeds : Nat → ItemSet) : Prop where
  within : ∀ id, 0 < id → id < building.size → (seeds id).Within (building.kernel id)
  cores : ∀ id, 0 < id → id < building.size → (seeds id).cores = (building.kernel id).cores
  bounded : ∀ id, 0 < id → id < building.size → (seeds id).Bounded grammar.symbols.size
  items : ∀ id, 0 < id → id < building.size →
    ∀ item, (seeds id).HasItem item → item ∈ allItems grammar.toRules
  origin : ∀ id, 0 < id → id < building.size →
    ∃ symbol, building.origin id = some symbol ∧ symbol < grammar.symbols.size
  distinct : ∀ id other, 0 < id → id < other → other < building.size →
    building.origin id = building.origin other → seeds id ≠ seeds other

theorem Seeded.create {seeds : Nat → ItemSet} (hs : building.Shaped)
    (hseeds : Seeded grammar building seeds)
    (hb : kernel.Bounded grammar.symbols.size)
    (hi : ∀ item, kernel.HasItem item → item ∈ allItems grammar.toRules)
    (hsymbol : symbol < grammar.symbols.size) (hnone : building.compatible? symbol kernel = none) :
    Seeded grammar (building.create symbol kernel)
      (fun id => if id = building.size then kernel else seeds id) := by
  have hlt : ∀ {id}, id < (building.create symbol kernel).size → id ≠ building.size →
      id < building.size := by
    intro id hid hne
    rw [size_create] at hid
    omega
  constructor
  case within =>
    intro id hpos hid
    rw [kernel_create]
    split
    · exact .refl _
    · exact hseeds.within id hpos (hlt hid ‹_›)
  case cores =>
    intro id hpos hid
    rw [kernel_create]
    split
    · rfl
    · exact hseeds.cores id hpos (hlt hid ‹_›)
  case bounded =>
    intro id hpos hid
    split
    · exact hb
    · exact hseeds.bounded id hpos (hlt hid ‹_›)
  case items =>
    intro id hpos hid
    split
    · exact hi
    · exact hseeds.items id hpos (hlt hid ‹_›)
  case origin =>
    intro id hpos hid
    rw [origin_create hs]
    split
    · exact ⟨symbol, rfl, hsymbol⟩
    · exact hseeds.origin id hpos (hlt hid ‹_›)
  case distinct =>
    intro id other hpos hlt' hother
    have hne : id ≠ building.size := by
      rw [size_create] at hother
      omega
    rw [origin_create hs, origin_create hs, if_neg hne, if_neg hne]
    by_cases he : other = building.size
    · rw [if_pos he, if_pos he]
      intro horigin hsame
      have hid : id < building.size := he ▸ hlt'
      have hweak : (building.kernel id).weaklyCompatible kernel = true := by
        rw [← hsame]
        exact ItemSet.weaklyCompatible_of_sees (hseeds.cores id hpos hid).symm
          (hseeds.within id hpos hid).sees
      have hno := List.find?_eq_none.mp hnone id (List.mem_range.mpr hid)
      refine hno ?_
      rw [Bool.and_eq_true]
      exact ⟨beq_iff_eq.mpr horigin, hweak⟩
    · rw [if_neg he, if_neg he]
      exact hseeds.distinct id other hpos hlt' (hlt hother he)

theorem Seeded.mergeInto {seeds : Nat → ItemSet} (hseeds : Seeded grammar building seeds)
    (htarget : target < building.size) (hc : (building.kernel target).cores = kernel.cores) :
    Seeded grammar (building.mergeInto target kernel) seeds := by
  have hkernel := kernel_mergeInto htarget kernel
  refine ⟨fun id hpos hid => ?_, fun id hpos hid => ?_, fun id hpos hid => ?_,
    fun id hpos hid => ?_, fun id hpos hid => ?_, fun id other hpos hlt hid => ?_⟩
  all_goals rw [size_mergeInto] at hid
  · rw [hkernel]
    split
    · rename_i he
      exact he ▸ (hseeds.within id hpos hid).trans ItemSet.within_merge_left
    · exact hseeds.within id hpos hid
  · rw [hkernel]
    split
    · rename_i he
      subst he
      rw [hseeds.cores id hpos hid]
      refine ItemSet.cores_eq fun item => ?_
      rw [ItemSet.hasItem_merge, ItemSet.HasItem, ItemSet.HasItem, hc, or_self]
    · exact hseeds.cores id hpos hid
  · exact hseeds.bounded id hpos hid
  · exact hseeds.items id hpos hid
  · rw [origin_mergeInto]
    exact hseeds.origin id hpos hid
  · rw [origin_mergeInto, origin_mergeInto]
    exact hseeds.distinct id other hpos hlt hid

theorem Seeded.size_le {seeds : Nat → ItemSet} (hseeds : Seeded grammar building seeds) :
    building.size ≤ maximum grammar := by
  have hcard : (Finset.Ico 1 building.size).card ≤
      (Finset.range grammar.symbols.size ×ˢ
        ((allItems grammar.toRules).toFinset ×ˢ Finset.range (grammar.symbols.size + 1)).powerset).card := by
    refine Finset.card_le_card_of_injOn
      (fun id => ((building.origin id).getD 0, marksOf grammar (seeds id))) ?_ ?_
    · intro id hid
      have ⟨hpos, hlt⟩ := Finset.mem_Ico.mp (Finset.mem_coe.mp hid)
      obtain ⟨symbol, horigin, hsymbol⟩ := hseeds.origin id hpos hlt
      refine Finset.mem_coe.mpr (Finset.mem_product.mpr ⟨?_, Finset.mem_powerset.mpr ?_⟩)
      · simpa [horigin] using hsymbol
      · exact ItemSet.marks_subset_product
    · intro id hid other ho he
      have ⟨hpos, hlt⟩ := Finset.mem_Ico.mp (Finset.mem_coe.mp hid)
      have ⟨hpos', hlt'⟩ := Finset.mem_Ico.mp (Finset.mem_coe.mp ho)
      obtain ⟨symbol, horigin, -⟩ := hseeds.origin id hpos hlt
      obtain ⟨symbol', horigin', -⟩ := hseeds.origin other hpos' hlt'
      have ⟨hsymbol, hmarks⟩ := Prod.mk.inj he
      have hseed : seeds id = seeds other :=
        ItemSet.eq_of_marks_eq
          (fun item hi => List.mem_toFinset.mpr (hseeds.items id hpos hlt item hi))
          (fun item hi => List.mem_toFinset.mpr (hseeds.items other hpos' hlt' item hi))
          (hseeds.bounded id hpos hlt) (hseeds.bounded other hpos' hlt') hmarks
      have hsame : building.origin id = building.origin other := by
        rw [horigin, horigin'] at hsymbol ⊢
        exact congrArg some hsymbol
      rcases Nat.lt_trichotomy id other with h | h | h
      · exact absurd hseed (hseeds.distinct id other hpos h hlt' hsame)
      · exact h
      · exact absurd hseed.symm (hseeds.distinct other id hpos' h hlt hsame.symm)
  rw [Nat.card_Ico, Finset.card_product, Finset.card_range, Finset.card_powerset,
    Finset.card_product, Finset.card_range] at hcard
  have hitems : (allItems grammar.toRules).toFinset.card ≤ itemCount grammar := by
    rw [← length_allItems]
    exact List.toFinset_card_le _
  have hpow := Nat.mul_le_mul_left grammar.symbols.size
    (Nat.pow_le_pow_right Nat.two_pos (Nat.mul_le_mul_right (grammar.symbols.size + 1) hitems))
  have h := hcard.trans hpow
  rw [maximum, capacity]
  omega

-- What a construction has left to do at most: the states that are pending, those
-- that may yet be created, and the marks that may yet be added.
noncomputable def potential (grammar : Grammar) (building : Construction) : Nat :=
  building.pending.length + (maximum grammar - building.size) * (capacity grammar + 1) +
    ∑ id ∈ Finset.range building.size, (capacity grammar - (marksOf grammar (building.kernel id)).card)

theorem potential_create (symbol : Nat) (kernel : ItemSet)
    (hsize : building.size + 1 ≤ maximum grammar) :
    potential grammar (building.create symbol kernel) ≤ potential grammar building := by
  have hpending : (building.create symbol kernel).pending.length = building.pending.length + 1 := rfl
  have hroom : maximum grammar - building.size = (maximum grammar - (building.size + 1)) + 1 := by
    omega
  have hsum : ∑ id ∈ Finset.range building.size, (capacity grammar -
        (marksOf grammar ((building.create symbol kernel).kernel id)).card) =
      ∑ id ∈ Finset.range building.size, (capacity grammar -
        (marksOf grammar (building.kernel id)).card) := by
    refine Finset.sum_congr rfl fun id hid => ?_
    rw [kernel_create, if_neg (Nat.ne_of_lt (Finset.mem_range.mp hid))]
  rw [potential, potential, size_create, Finset.sum_range_succ, hsum, hpending, hroom,
    Nat.add_mul _ 1, Nat.one_mul]
  omega

theorem potential_mergeInto (htarget : target < building.size)
    (hb : (building.kernel target).Bounded grammar.symbols.size)
    (hk : kernel.Bounded grammar.symbols.size)
    (hi : ∀ item, (building.kernel target).HasItem item → item ∈ allItems grammar.toRules)
    (hc : (building.kernel target).cores = kernel.cores) :
    potential grammar (building.mergeInto target kernel) ≤ potential grammar building := by
  have hkernel := kernel_mergeInto htarget kernel
  have hwithin : ∀ id, (building.kernel id).Within ((building.mergeInto target kernel).kernel id) := by
    intro id
    rw [hkernel]
    split
    · rename_i he
      exact he ▸ ItemSet.within_merge_left
    · exact .refl _
  have hle : ∀ id, capacity grammar - (marksOf grammar ((building.mergeInto target kernel).kernel id)).card ≤
      capacity grammar - (marksOf grammar (building.kernel id)).card := fun id =>
    Nat.sub_le_sub_left (Finset.card_le_card (hwithin id).marks_subset) _
  rcases mergeInto_cases building target kernel with ⟨hp, hgrown, -⟩ | ⟨hp, -, -⟩
  · -- a requeued state has taken up a mark
    obtain ⟨item, terminal, hnew⟩ := ItemSet.within_merge_left.exists_of_ne hgrown
    have hmem : item ∈ allItems grammar.toRules := by
      have hmerged : ((building.kernel target).merge kernel).HasItem item :=
        hnew.elim (·.1) (·.1.hasItem)
      refine hi item ?_
      rcases ItemSet.hasItem_merge.mp hmerged with h | h
      · exact h
      · rwa [ItemSet.HasItem, hc]
    have hbound : ((building.kernel target).merge kernel).Bounded grammar.symbols.size := fun item symbol h =>
      (ItemSet.sees_merge.mp h).elim (hb item symbol) (hk item symbol)
    have hcard : (marksOf grammar (building.kernel target)).card <
        (marksOf grammar ((building.mergeInto target kernel).kernel target)).card := by
      rw [hkernel, if_pos rfl]
      exact ItemSet.within_merge_left.card_marks_lt hbound (List.mem_toFinset.mpr hmem) hnew
    have hmax : (marksOf grammar ((building.mergeInto target kernel).kernel target)).card ≤
      capacity grammar := card_marksOf_le
    have hlt := Finset.sum_lt_sum (s := Finset.range building.size) (fun id _ => hle id)
      ⟨target, Finset.mem_range.mpr htarget, by omega⟩
    rw [potential, potential, size_mergeInto, hp, List.length_cons]
    omega
  · have hsum := Finset.sum_le_sum (s := Finset.range building.size) fun id _ => hle id
    rw [potential, potential, size_mergeInto, hp]
    omega

theorem potential_connect (hs : Sound grammar mode building) (source : Nat) {seeds : Nat → ItemSet}
    (hw : grammar.toRules.WellFormed) (hseeds : Seeded grammar building seeds)
    (hk : kernel.Bounded grammar.symbols.size)
    (hi : ∀ item, kernel.HasItem item → item ∈ allItems grammar.toRules)
    (hsymbol : symbol < grammar.symbols.size) :
    (∃ seeds, Seeded grammar (building.connect source symbol kernel) seeds) ∧
      potential grammar (building.connect source symbol kernel) ≤ potential grammar building := by
  unfold connect
  cases hc : building.compatible? symbol kernel with
  | none =>
      have hcreated := hseeds.create hs.shaped hk hi hsymbol hc
      have hsize := hcreated.size_le
      rw [size_create] at hsize
      exact ⟨⟨_, { hcreated with }⟩, potential_create symbol kernel hsize⟩
  | some target =>
      have ⟨hlt, _, hweak⟩ := compatible?_eq_some hc
      have hcores := ItemSet.cores_eq_of_weaklyCompatible hweak
      have hitems : ∀ item, (building.kernel target).HasItem item → item ∈ allItems grammar.toRules := by
        intro item hitem
        obtain ⟨spelled, hspells⟩ := hs.spelled target item hitem
        exact hspells.mem_allItems hw
      have hmerged := hseeds.mergeInto hlt hcores
      exact ⟨⟨_, { hmerged with }⟩, potential_mergeInto hlt (hs.bounded target) hk hitems hcores⟩

theorem UnderWay.potential_foldl (hw : grammar.toRules.WellFormed) {set : ItemSet}
    {symbols done : List Nat} (hu : UnderWay grammar mode set source done building)
    {seeds : Nat → ItemSet} (hseeds : Seeded grammar building seeds)
    (hk : ∀ symbol ∈ symbols,
      Succeeds grammar set symbol ((set.closure grammar mode).gotoKernel grammar symbol))
    (hn : (done ++ symbols).Nodup) :
    (∃ seeds, Seeded grammar (symbols.foldl (fun building symbol => building.connect source symbol
        ((set.closure grammar mode).gotoKernel grammar symbol)) building) seeds) ∧
      potential grammar (symbols.foldl (fun building symbol => building.connect source symbol
        ((set.closure grammar mode).gotoKernel grammar symbol)) building) ≤
          potential grammar building := by
  induction symbols generalizing building done seeds with
  | nil => exact ⟨⟨seeds, hseeds⟩, Nat.le_refl _⟩
  | cons symbol rest ih =>
      have hsucceeds := hk symbol (by simp)
      have hitems : ∀ item, ((set.closure grammar mode).gotoKernel grammar symbol).HasItem item →
          item ∈ allItems grammar.toRules := by
        intro item hi
        obtain ⟨spelled, hspells⟩ := hsucceeds.spelled item hi
        exact hspells.mem_allItems hw
      obtain ⟨item, -, hnext⟩ := hsucceeds.next
      have hsymbol := (hw.right item.production symbol (Item.next?_mem hnext)).1
      obtain ⟨⟨seeds', hseeds'⟩, hle⟩ := potential_connect hu.sound source hw hseeds
        hsucceeds.bounded hitems hsymbol
      have hnew : symbol ∉ done := fun h =>
        (List.nodup_append.mp hn).2.2 symbol h symbol (by simp) rfl
      have ⟨hex, hrest⟩ := ih (hu.connect hsucceeds hnew) hseeds'
        (fun other ho => hk other (by simp [ho])) (by simpa using hn)
      exact ⟨hex, hrest.trans hle⟩

theorem potential_process (hw : grammar.toRules.WellFormed) {id : Nat} {rest : List Nat}
    (hs : Sound grammar mode building) (hq : Queued grammar mode building)
    (hp : building.pending = id :: rest) {seeds : Nat → ItemSet}
    (hseeds : Seeded grammar building seeds) :
    (∃ seeds, Seeded grammar (process grammar mode { building with pending := rest } id) seeds) ∧
      potential grammar (process grammar mode { building with pending := rest } id) <
        potential grammar building := by
  have ⟨hex, hle⟩ := (underWay_start hs hq hp).potential_foldl hw { hseeds with }
    (fun symbol hmem => succeeds_gotoKernel hw (hs.bounded id) (hs.spelled id) (hs.justified id) hmem)
    ItemSet.nodup_nextSymbols
  refine ⟨hex, Nat.lt_of_le_of_lt hle ?_⟩
  have hpop : potential grammar building = potential grammar
      { building with pending := rest, settled := building.settled.setIfInBounds id true } + 1 := by
    rw [potential, potential, hp, List.length_cons]
    change _ = rest.length + (maximum grammar - building.size) * (capacity grammar + 1) +
      (∑ other ∈ Finset.range building.size,
        (capacity grammar - (marksOf grammar (building.kernel other)).card)) + 1
    omega
  omega

-- The fuel lasts for as long as there is work left.
theorem pending_run (hw : grammar.toRules.WellFormed) (fuel : Nat) (hs : Sound grammar mode building)
    (hq : Queued grammar mode building) {seeds : Nat → ItemSet}
    (hseeds : Seeded grammar building seeds) (hfuel : potential grammar building ≤ fuel) :
    (run grammar mode fuel building).pending = [] := by
  induction fuel generalizing building seeds with
  | zero =>
      rw [run]
      refine List.eq_nil_of_length_eq_zero ?_
      rw [potential] at hfuel
      omega
  | succ fuel ih =>
      unfold run
      split
      · assumption
      · rename_i id rest hp
        obtain ⟨hs', hq'⟩ := process_sound hw hs hq hp
        obtain ⟨⟨seeds', hseeds'⟩, hlt⟩ := potential_process hw hs hq hp hseeds
        exact ih hs' hq' hseeds' (by omega)

theorem seeded_run (hw : grammar.toRules.WellFormed) (fuel : Nat) (hs : Sound grammar mode building)
    (hq : Queued grammar mode building) {seeds : Nat → ItemSet} (hseeds : Seeded grammar building seeds) :
    ∃ seeds, Seeded grammar (run grammar mode fuel building) seeds := by
  induction fuel generalizing building seeds with
  | zero => exact ⟨seeds, hseeds⟩
  | succ fuel ih =>
      unfold run
      split
      · exact ⟨seeds, hseeds⟩
      · rename_i id rest hp
        obtain ⟨hs', hq'⟩ := process_sound hw hs hq hp
        obtain ⟨⟨seeds', hseeds'⟩, -⟩ := potential_process hw hs hq hp hseeds
        exact ih hs' hq' hseeds'

theorem potential_start (mode : Mode) : potential grammar (start mode) ≤ workBound grammar := by
  have hsize : (start mode).size = 1 := rfl
  have hpending : (start mode).pending.length = 1 := rfl
  have hmax : maximum grammar = grammar.symbols.size * 2 ^ capacity grammar + 1 := rfl
  have hbound : workBound grammar = maximum grammar * (capacity grammar + 1) := rfl
  have hroom : (maximum grammar - 1 + 1) * (capacity grammar + 1) =
      maximum grammar * (capacity grammar + 1) := by
    rw [Nat.sub_add_cancel (by omega)]
  have hsplit := Nat.add_mul (maximum grammar - 1) 1 (capacity grammar + 1)
  rw [potential, hsize, hpending, Finset.sum_range_one, hbound, ← hroom, hsplit]
  omega

theorem seeded_start (mode : Mode) : Seeded grammar (start mode) fun _ => ∅ := by
  have hone : ∀ {id}, 0 < id → ¬ id < (start mode).size := by
    intro id hpos hlt
    have hlt : id < 1 := hlt
    omega
  exact ⟨fun id hpos hlt => absurd hlt (hone hpos), fun id hpos hlt => absurd hlt (hone hpos),
    fun id hpos hlt => absurd hlt (hone hpos), fun id hpos hlt => absurd hlt (hone hpos),
    fun id hpos hlt => absurd hlt (hone hpos),
    fun id other hpos hlt hother => absurd hother (hone (Nat.lt_trans hpos hlt))⟩

-- The automaton of a grammar before its states are closed.
def finished (grammar : Grammar) (mode : Mode) : Construction :=
  run grammar mode (workBound grammar) (start mode)

theorem finished_sound (hw : grammar.toRules.WellFormed) (mode : Mode) :
    Sound grammar mode (finished grammar mode) :=
  (run_sound hw _ (sound_start hw) queued_start).1

theorem finished_seeded (hw : grammar.toRules.WellFormed) (mode : Mode) :
    ∃ seeds, Seeded grammar (finished grammar mode) seeds :=
  seeded_run hw _ (sound_start hw) queued_start (seeded_start mode)

theorem finished_served (hw : grammar.toRules.WellFormed) {id : Nat}
    (hid : id < (finished grammar mode).size) : Served grammar mode (finished grammar mode) id := by
  have hq : Queued grammar mode (finished grammar mode) :=
    (run_sound hw _ (sound_start hw) queued_start).2
  have hp : (finished grammar mode).pending = [] :=
    pending_run hw _ (sound_start hw) queued_start (seeded_start mode) (potential_start mode)
  refine hq.served id ?_
  by_contra hn
  have hmem := hq.pending id hid (by simpa using hn)
  rw [hp] at hmem
  cases hmem

end Construction

end IncrementalLR
