import IncrementalLR.Proofs.Automaton.ItemSets
import IncrementalLR.Proofs.Grammar.First

namespace IncrementalLR

-- An item brings in the alternatives of the nonterminal behind its dot.
def Item.Brings (rules : Rules) (item brought : Item) : Prop :=
  ∃ next, item.next? rules = some next ∧
    (rules.production brought.production).left = some next ∧ brought.dot = 0

-- The items of the closure of some items.
inductive Reaches (rules : Rules) (given : Item → Prop) : Item → Prop where
  | given {item : Item} : given item → Reaches rules given item
  | brought {item other : Item} :
      Reaches rules given item → item.Brings rules other → Reaches rules given other

-- The lookaheads of the closure of a set. A brought item is followed by what
-- may come next in the item that brings it.
inductive Foresees (rules : Rules) (set : ItemSet) : Item → Nat → Prop where
  | given {item : Item} {terminal : Nat} : set.Sees item terminal → Foresees rules set item terminal
  | begun {item other : Item} {terminal : Nat} :
      Reaches rules set.HasItem item → item.Brings rules other →
      Begins rules (item.remaining rules) terminal → Foresees rules set other terminal
  | passed {item other : Item} {terminal : Nat} :
      Foresees rules set item terminal → item.Brings rules other →
      Vanishes rules (item.remaining rules) → Foresees rules set other terminal

namespace ItemSet

variable {grammar : Grammar} {mode : Mode} {set : ItemSet} {item : Item} {terminal : Nat}

theorem mem_broughtItems (hw : grammar.toRules.WellFormed) {source : Item} :
    item ∈ broughtItems grammar source ↔ source.Brings grammar.toRules item := by
  unfold broughtItems Item.Brings
  cases hnext : source.next? grammar.toRules with
  | none => simp
  | some next =>
      by_cases hn : (grammar.symbol next).isNonterminal = true
      · simp only [hn, if_true, List.mem_map, Option.some_inj, exists_eq_left']
        constructor
        · rintro ⟨production, hp, rfl⟩
          exact ⟨(Rules.mem_alternatives.mp hp).2, rfl⟩
        · rintro ⟨hleft, hdot⟩
          refine ⟨item.production, Rules.mem_alternatives_of_left hleft, ?_⟩
          cases item
          simp_all
      · simp only [hn, Bool.false_eq_true, if_false, List.not_mem_nil, Option.some_inj,
          exists_eq_left', false_iff, not_and]
        exact fun hleft _ => hn (hw.left_spec hleft).2

theorem hasItem_closeEntry {entry : Entry} :
    (closeEntry grammar mode set entry).HasItem item ↔
      set.HasItem item ∨ item ∈ broughtItems grammar entry.1 := by
  unfold closeEntry
  generalize broughtItems grammar entry.1 = items
  induction items generalizing set with
  | nil => simp
  | cons first rest ih =>
      rw [List.foldl_cons, ih, hasItem_add, List.mem_cons, or_comm (a := item = first), or_assoc]

theorem sees_closeEntry {entry : Entry} :
    (closeEntry grammar mode set entry).Sees item terminal ↔
      set.Sees item terminal ∨
        item ∈ broughtItems grammar entry.1 ∧ terminal ∈ broughtLookahead grammar mode entry := by
  unfold closeEntry
  generalize broughtItems grammar entry.1 = items
  induction items generalizing set with
  | nil => simp
  | cons first rest ih =>
      simp only [List.foldl_cons, ih, sees_add, List.mem_cons, or_and_right, or_assoc]

theorem hasItem_closeStep :
    (closeStep grammar mode set).HasItem item ↔
      set.HasItem item ∨ ∃ entry ∈ set.entries, item ∈ broughtItems grammar entry.1 := by
  unfold closeStep
  generalize set.entries = entries
  induction entries generalizing set with
  | nil => simp
  | cons first rest ih => simp [ih, hasItem_closeEntry, or_assoc]

theorem sees_closeStep :
    (closeStep grammar mode set).Sees item terminal ↔
      set.Sees item terminal ∨ ∃ entry ∈ set.entries,
        item ∈ broughtItems grammar entry.1 ∧ terminal ∈ broughtLookahead grammar mode entry := by
  unfold closeStep
  generalize set.entries = entries
  induction entries generalizing set with
  | nil => simp
  | cons first rest ih => simp [ih, sees_closeEntry, or_assoc]

theorem remaining_ne_epsilon (hw : grammar.toRules.WellFormed) (source : Item) :
    ∀ symbol ∈ source.remaining grammar.toRules, symbol ≠ epsilonId :=
  fun symbol hs => (hw.right source.production symbol (List.mem_of_mem_drop hs)).2

theorem mem_broughtLookahead (hw : grammar.toRules.WellFormed) {entry : Entry} :
    terminal ∈ broughtLookahead grammar mode entry ↔
      mode ≠ .lr0 ∧ (Begins grammar.toRules (entry.1.remaining grammar.toRules) terminal ∨
        Vanishes grammar.toRules (entry.1.remaining grammar.toRules) ∧ terminal ∈ entry.2) := by
  have hmem : terminal ∈ grammar.firstWithLookahead (entry.1.remaining grammar.toRules) entry.2 ↔ _ :=
    Grammar.mem_firstWithLookahead hw (remaining_ne_epsilon hw entry.1)
  cases mode <;> simp [broughtLookahead, hmem]

theorem within_closeStep : set.Within (closeStep grammar mode set) :=
  ⟨fun _ h => hasItem_closeStep.mpr (Or.inl h), fun _ _ h => sees_closeStep.mpr (Or.inl h)⟩

theorem within_closure : set.Within (set.closure grammar mode) :=
  saturate_induction (motive := set.Within) _ (fun _ h => h.trans within_closeStep) _ _ (.refl set)

theorem bounded_closeStep (hw : grammar.toRules.WellFormed)
    (hb : set.Bounded grammar.symbols.size) :
    (closeStep grammar mode set).Bounded grammar.symbols.size := by
  intro item symbol hs
  rcases sees_closeStep.mp hs with hs | ⟨entry, hmem, -, hs⟩
  · exact hb item symbol hs
  · rcases ((mem_broughtLookahead hw).mp hs).2 with hs | ⟨-, hs⟩
    · exact (Rules.mem_terminals.mp hs.mem_terminals).1
    · exact hb entry.1 symbol ⟨entry.2, hmem, hs⟩

theorem bounded_closure (hw : grammar.toRules.WellFormed) (hb : set.Bounded grammar.symbols.size) :
    (set.closure grammar mode).Bounded grammar.symbols.size :=
  saturate_induction (motive := Bounded grammar.symbols.size) _ (fun _ => bounded_closeStep hw) _ _ hb

-- The items that a closure can add.
def initialItems (grammar : Grammar) : Finset Item :=
  (Finset.range grammar.productions.size).image (⟨·, 0⟩)

theorem closeStep_closure (hw : grammar.toRules.WellFormed)
    (hb : set.Bounded grammar.symbols.size) :
    closeStep grammar mode (set.closure grammar mode) = set.closure grammar mode := by
  refine step_saturate (motive := Bounded grammar.symbols.size) _
    (fun set => (set.marks (initialItems grammar) grammar.symbols.size).card)
    (grammar.productions.size * (grammar.symbols.size + 1)) (fun _ => bounded_closeStep hw) ?_ ?_
    _ _ hb (by simp only [growthBound]; omega)
  · intro set hb hne
    obtain ⟨item, symbol, hnew⟩ := within_closeStep.exists_of_ne hne
    refine within_closeStep.card_marks_lt (bounded_closeStep hw hb) ?_ hnew
    -- only items that are brought in change
    have hbrought : ∃ entry ∈ set.entries, item ∈ broughtItems grammar entry.1 := by
      rcases hnew with ⟨hi, hn⟩ | ⟨hs, hn⟩
      · exact (hasItem_closeStep.mp hi).resolve_left hn
      · obtain ⟨entry, hmem, hb, -⟩ := (sees_closeStep.mp hs).resolve_left hn
        exact ⟨entry, hmem, hb⟩
    obtain ⟨entry, -, hmem⟩ := hbrought
    obtain ⟨next, -, hleft, hdot⟩ := (mem_broughtItems hw).mp hmem
    have hp := (Rules.mem_alternatives.mp (Rules.mem_alternatives_of_left hleft)).1
    exact Finset.mem_image.mpr ⟨item.production, Finset.mem_range.mpr hp, by cases item; simp_all⟩
  · intro set _
    refine card_marks_le.trans (Nat.mul_le_mul_right _ ?_)
    exact Finset.card_image_le.trans (Nat.le_of_eq (Finset.card_range _))

theorem reaches_of_hasItem_closure (hw : grammar.toRules.WellFormed)
    (hi : (set.closure grammar mode).HasItem item) : Reaches grammar.toRules set.HasItem item := by
  refine saturate_induction
    (motive := fun closed => ∀ item, closed.HasItem item → Reaches grammar.toRules set.HasItem item)
    (closeStep grammar mode) (fun closed ih other ho => ?_) (growthBound grammar) set (fun _ => .given) item hi
  rcases hasItem_closeStep.mp ho with ho | ⟨entry, hmem, hb⟩
  · exact ih other ho
  · exact .brought (ih entry.1 (hasItem_of_mem hmem)) ((mem_broughtItems hw).mp hb)

-- The items of a closure are those that are reached from the set.
theorem hasItem_closure (hw : grammar.toRules.WellFormed) (hb : set.Bounded grammar.symbols.size) :
    (set.closure grammar mode).HasItem item ↔ Reaches grammar.toRules set.HasItem item := by
  refine ⟨reaches_of_hasItem_closure hw, fun hr => ?_⟩
  induction hr with
  | given hi => exact within_closure.hasItem _ hi
  | brought _ hbrings ih =>
      obtain ⟨lookahead, hmem⟩ := hasItem_iff.mp ih
      rw [← closeStep_closure hw hb]
      exact hasItem_closeStep.mpr (Or.inr ⟨_, hmem, (mem_broughtItems hw).mpr hbrings⟩)

theorem foresees_of_sees_closure (hw : grammar.toRules.WellFormed)
    (hs : (set.closure grammar mode).Sees item terminal) :
    Foresees grammar.toRules set item terminal := by
  refine (saturate_induction
    (motive := fun closed => (∀ item, closed.HasItem item → Reaches grammar.toRules set.HasItem item) ∧
      ∀ item terminal, closed.Sees item terminal → Foresees grammar.toRules set item terminal)
    (closeStep grammar mode) (fun closed ih => ⟨fun other ho => ?_, fun other symbol hs => ?_⟩) (growthBound grammar) set
    ⟨fun _ => .given, fun _ _ => .given⟩).2 item terminal hs
  · rcases hasItem_closeStep.mp ho with ho | ⟨entry, hmem, hb⟩
    · exact ih.1 other ho
    · exact .brought (ih.1 entry.1 (hasItem_of_mem hmem)) ((mem_broughtItems hw).mp hb)
  · rcases sees_closeStep.mp hs with hs | ⟨entry, hmem, hb, hs⟩
    · exact ih.2 other symbol hs
    · have hbrings := (mem_broughtItems hw).mp hb
      rcases ((mem_broughtLookahead hw).mp hs).2 with hbegins | ⟨hvanishes, hs⟩
      · exact .begun (ih.1 entry.1 (hasItem_of_mem hmem)) hbrings hbegins
      · exact .passed (ih.2 entry.1 symbol ⟨entry.2, hmem, hs⟩) hbrings hvanishes

theorem sees_closure_of_foresees (hw : grammar.toRules.WellFormed)
    (hb : set.Bounded grammar.symbols.size) (hm : mode ≠ .lr0)
    (hf : Foresees grammar.toRules set item terminal) :
    (set.closure grammar mode).Sees item terminal := by
  induction hf with
  | given hs => exact within_closure.sees _ _ hs
  | begun hr hbrings hbegins =>
      have hitem : (set.closure grammar mode).HasItem _ := (hasItem_closure hw hb).mpr hr
      obtain ⟨lookahead, hmem⟩ := hasItem_iff.mp hitem
      rw [← closeStep_closure hw hb]
      exact sees_closeStep.mpr (Or.inr ⟨_, hmem, (mem_broughtItems hw).mpr hbrings,
        (mem_broughtLookahead hw).mpr ⟨hm, Or.inl hbegins⟩⟩)
  | passed _ hbrings hvanishes ih =>
      obtain ⟨lookahead, hmem, hs⟩ := ih
      rw [← closeStep_closure hw hb]
      exact sees_closeStep.mpr (Or.inr ⟨_, hmem, (mem_broughtItems hw).mpr hbrings,
        (mem_broughtLookahead hw).mpr ⟨hm, Or.inr ⟨hvanishes, hs⟩⟩⟩)

-- With lookaheads, the closure sees what is foreseen from the set.
theorem sees_closure (hw : grammar.toRules.WellFormed) (hb : set.Bounded grammar.symbols.size)
    (hm : mode ≠ .lr0) :
    (set.closure grammar mode).Sees item terminal ↔ Foresees grammar.toRules set item terminal :=
  ⟨foresees_of_sees_closure hw, sees_closure_of_foresees hw hb hm⟩

end ItemSet

section Reaching

variable {rules : Rules} {given more : Item → Prop} {item : Item}

theorem Reaches.mono (hs : ∀ item, given item → more item) (hr : Reaches rules given item) :
    Reaches rules more item := by
  induction hr with
  | given hi => exact .given (hs _ hi)
  | brought _ hb ih => exact .brought ih hb

-- A closure brings nothing in without an item.
theorem Reaches.exists_given (hr : Reaches rules given item) : ∃ item, given item := by
  induction hr with
  | given hi => exact ⟨_, hi⟩
  | brought _ _ ih => exact ih

end Reaching

end IncrementalLR
