import IncrementalLR.Proofs.Automaton.Closure
import IncrementalLR.Proofs.Grammar.Forms

namespace IncrementalLR

namespace ItemSet

variable {grammar : Grammar} {mode : Mode} {set other : ItemSet} {item : Item} {terminal : Nat}

-- Whether a set has what its items bring in: the alternatives of each nonterminal behind
-- a dot, and with lookaheads also what may come next behind that nonterminal.
structure Closed (grammar : Grammar) (mode : Mode) (set : ItemSet) : Prop where
  hasItem : ∀ item, set.HasItem item → ∀ next, item.next? grammar.toRules = some next →
    (grammar.symbol next).isNonterminal = true → ∀ production ∈ grammar.alternatives next,
      set.HasItem ⟨production, 0⟩
  sees : mode ≠ .lr0 → ∀ item lookahead, (item, lookahead) ∈ set.entries →
    ∀ next, item.next? grammar.toRules = some next → (grammar.symbol next).isNonterminal = true →
      ∀ production ∈ grammar.alternatives next,
        ∀ terminal ∈ grammar.firstWithLookahead (item.remaining grammar.toRules) lookahead,
          set.Sees ⟨production, 0⟩ terminal

section Closed

theorem exists_of_mem_broughtItems {source : Item} (h : item ∈ broughtItems grammar source) :
    ∃ next, source.next? grammar.toRules = some next ∧ (grammar.symbol next).isNonterminal = true ∧
      ∃ production ∈ grammar.alternatives next, item = ⟨production, 0⟩ := by
  unfold broughtItems at h
  split at h
  · cases h
  · rename_i next hnext
    split at h
    · rename_i hn
      obtain ⟨production, hp, rfl⟩ := List.mem_map.mp h
      exact ⟨next, hnext, hn, production, hp, rfl⟩
    · cases h

theorem mem_broughtItems_of_alternative {source : Item} {next production : Nat}
    (hnext : source.next? grammar.toRules = some next) (hn : (grammar.symbol next).isNonterminal = true)
    (hp : production ∈ grammar.alternatives next) : ⟨production, 0⟩ ∈ broughtItems grammar source := by
  rw [broughtItems, hnext]
  simpa [hn] using hp

theorem broughtLookahead_of_ne_lr0 (hm : mode ≠ .lr0) (entry : Entry) :
    broughtLookahead grammar mode entry =
      grammar.firstWithLookahead (entry.1.remaining grammar.toRules) entry.2 := by
  cases mode with
  | lr0 => exact absurd rfl hm
  | lr1 => rfl
  | lalr => rfl

theorem mode_of_mem_broughtLookahead {entry : Entry} (h : terminal ∈ broughtLookahead grammar mode entry) :
    mode ≠ .lr0 := by
  rintro rfl
  exact SymbolSet.not_mem_empty terminal h

-- Whether a set has the items that an item brings in, with their lookahead.
def Owns (grammar : Grammar) (mode : Mode) (set : ItemSet) (entry : Entry) : Prop :=
  ∀ item ∈ broughtItems grammar entry.1, set.HasItem item ∧
    ∀ terminal ∈ broughtLookahead grammar mode entry, set.Sees item terminal

theorem closed_iff_owns : set.Closed grammar mode ↔ ∀ entry ∈ set.entries, set.Owns grammar mode entry := by
  constructor
  · intro hc entry hmem item hitem
    obtain ⟨next, hnext, hn, production, hp, rfl⟩ := exists_of_mem_broughtItems hitem
    refine ⟨hc.hasItem entry.1 (hasItem_of_mem hmem) next hnext hn production hp, fun terminal ht => ?_⟩
    have hm := mode_of_mem_broughtLookahead ht
    rw [broughtLookahead_of_ne_lr0 hm] at ht
    exact hc.sees hm entry.1 entry.2 hmem next hnext hn production hp terminal ht
  · intro howns
    constructor
    case hasItem =>
      intro item hi next hnext hn production hp
      obtain ⟨lookahead, hmem⟩ := hasItem_iff.mp hi
      exact (howns _ hmem _ (mem_broughtItems_of_alternative hnext hn hp)).1
    case sees =>
      intro hm item lookahead hmem next hnext hn production hp terminal ht
      refine (howns _ hmem _ (mem_broughtItems_of_alternative hnext hn hp)).2 terminal ?_
      rwa [broughtLookahead_of_ne_lr0 hm]

-- A set is closed if a step adds nothing to it.
theorem closed_iff_closeStep : set.Closed grammar mode ↔ closeStep grammar mode set = set := by
  rw [closed_iff_owns]
  constructor
  · intro howns
    refine Within.antisymm ⟨fun item hi => ?_, fun item terminal hs => ?_⟩ within_closeStep
    · exact (hasItem_closeStep.mp hi).elim id fun ⟨entry, hmem, hb⟩ => (howns entry hmem item hb).1
    · exact (sees_closeStep.mp hs).elim id fun ⟨entry, hmem, hb, ht⟩ => (howns entry hmem item hb).2 terminal ht
  · intro hstep entry hmem item hb
    rw [← hstep]
    exact ⟨hasItem_closeStep.mpr (Or.inr ⟨entry, hmem, hb⟩),
      fun terminal ht => sees_closeStep.mpr (Or.inr ⟨entry, hmem, hb, ht⟩)⟩

theorem closure_of_closed (hc : set.Closed grammar mode) : set.closure grammar mode = set := by
  have hstep := closed_iff_closeStep.mp hc
  unfold closure
  cases growthBound grammar with
  | zero => rfl
  | succ fuel => rw [saturate, if_pos hstep]

-- What comes with an item grows with the lookahead of the item that brings it.
theorem broughtLookahead_mono {lookahead more : SymbolSet} (hl : ∀ terminal ∈ lookahead, terminal ∈ more)
    (ht : terminal ∈ broughtLookahead grammar mode (item, lookahead)) :
    terminal ∈ broughtLookahead grammar mode (item, more) := by
  have hm := mode_of_mem_broughtLookahead ht
  rw [broughtLookahead_of_ne_lr0 hm, Grammar.mem_firstWithLookahead_iff] at ht ⊢
  exact ht.imp_right (And.imp_right (hl terminal))

theorem Within.owns_of_closed (hw : set.Within other) (hc : other.Closed grammar mode) {entry : Entry}
    (hmem : entry ∈ set.entries) : other.Owns grammar mode entry := by
  intro item hb
  obtain ⟨lookahead, hmore⟩ := hasItem_iff.mp (hw.hasItem _ (hasItem_of_mem hmem))
  obtain ⟨hi, hs⟩ := closed_iff_owns.mp hc _ hmore item hb
  have hl : ∀ symbol ∈ entry.2, symbol ∈ lookahead := fun symbol hsymbol =>
    (sees_iff hmore).mp (hw.sees _ _ ⟨entry.2, hmem, hsymbol⟩)
  exact ⟨hi, fun terminal ht => hs terminal (broughtLookahead_mono hl ht)⟩

-- A step does not leave a closed set.
theorem Within.closeStep_within (hw : set.Within other) (hc : other.Closed grammar mode) :
    (closeStep grammar mode set).Within other := by
  refine ⟨fun item hi => ?_, fun item terminal hs => ?_⟩
  · rcases hasItem_closeStep.mp hi with hi | ⟨entry, hmem, hb⟩
    · exact hw.hasItem item hi
    · exact (hw.owns_of_closed hc hmem item hb).1
  · rcases sees_closeStep.mp hs with hs | ⟨entry, hmem, hb, ht⟩
    · exact hw.sees item terminal hs
    · exact (hw.owns_of_closed hc hmem item hb).2 terminal ht

theorem Within.closure_within (hw : set.Within other) (hc : other.Closed grammar mode) :
    (set.closure grammar mode).Within other :=
  saturate_induction (motive := (Within · other)) _ (fun _ h => h.closeStep_within hc) _ _ hw

end Closed

section Shadow

-- The lookaheads of a symbol, borne by another one.
def shadow (set : ItemSet) (symbol bearer : Nat) : ItemSet :=
  ofList (set.entries.map fun entry =>
    (entry.1, if symbol ∈ entry.2 then SymbolSet.empty.insert bearer else ∅))

-- Whether two sets have the same items, and one of them sees a symbol where the other
-- sees its bearer.
structure Shadows (symbol bearer : Nat) (set other : ItemSet) : Prop where
  hasItem : ∀ item, set.HasItem item ↔ other.HasItem item
  sees : ∀ item, set.Sees item symbol ↔ other.Sees item bearer

variable {symbol bearer : Nat}

theorem sees_shadow : (set.shadow symbol bearer).Sees item terminal ↔ terminal = bearer ∧ set.Sees item symbol := by
  rw [shadow, sees_ofList]
  constructor
  · rintro ⟨lookahead, hmem, ht⟩
    obtain ⟨entry, he, heq⟩ := List.mem_map.mp hmem
    obtain ⟨rfl, rfl⟩ := Prod.mk.inj heq
    split at ht
    · rename_i hs
      rcases SymbolSet.mem_insert.mp ht with rfl | ht
      · exact ⟨rfl, entry.2, he, hs⟩
      · exact absurd ht (SymbolSet.not_mem_empty terminal)
    · exact absurd ht (SymbolSet.not_mem_empty terminal)
  · rintro ⟨rfl, lookahead, hmem, hs⟩
    exact ⟨_, List.mem_map.mpr ⟨_, hmem, rfl⟩, by simp [hs]⟩

theorem shadows_shadow : Shadows symbol bearer set (set.shadow symbol bearer) := by
  refine ⟨fun item => ?_, fun item => by simp [sees_shadow]⟩
  rw [shadow, hasItem_ofList, List.map_map]
  rfl

-- The symbols of a lookahead pass through a step apart from each other.
theorem Shadows.closeStep (hs : Shadows symbol bearer set other)
    (hheads : ∀ sequence, symbol ∈ grammar.heads sequence ↔ bearer ∈ grammar.heads sequence) :
    Shadows symbol bearer (closeStep grammar mode set) (closeStep grammar mode other) := by
  have hitem : ∀ {source : Item}, (∃ lookahead, (source, lookahead) ∈ set.entries) ↔
      ∃ lookahead, (source, lookahead) ∈ other.entries := by
    intro source
    rw [← hasItem_iff, ← hasItem_iff]
    exact hs.hasItem source
  have hbrought : ∀ {source : Item} {left right : SymbolSet}, (source, left) ∈ set.entries →
      (source, right) ∈ other.entries →
        (symbol ∈ broughtLookahead grammar mode (source, left) ↔
          bearer ∈ broughtLookahead grammar mode (source, right)) := by
    intro source left right hl hr
    by_cases hm : mode = .lr0
    · subst hm
      exact iff_of_false (SymbolSet.not_mem_empty symbol) (SymbolSet.not_mem_empty bearer)
    · rw [broughtLookahead_of_ne_lr0 hm, broughtLookahead_of_ne_lr0 hm, Grammar.mem_firstWithLookahead_iff,
        Grammar.mem_firstWithLookahead_iff, hheads, ← sees_iff hl, ← sees_iff hr, hs.sees]
  refine ⟨fun item => ?_, fun item => ?_⟩
  · rw [hasItem_closeStep, hasItem_closeStep, hs.hasItem]
    refine or_congr_right ⟨?_, ?_⟩
    · rintro ⟨⟨source, left⟩, hl, hb⟩
      obtain ⟨right, hr⟩ := hitem.mp ⟨left, hl⟩
      exact ⟨_, hr, hb⟩
    · rintro ⟨⟨source, right⟩, hr, hb⟩
      obtain ⟨left, hl⟩ := hitem.mpr ⟨right, hr⟩
      exact ⟨_, hl, hb⟩
  · rw [sees_closeStep, sees_closeStep, hs.sees]
    refine or_congr_right ⟨?_, ?_⟩
    · rintro ⟨⟨source, left⟩, hl, hb, ht⟩
      obtain ⟨right, hr⟩ := hitem.mp ⟨left, hl⟩
      exact ⟨_, hr, hb, (hbrought hl hr).mp ht⟩
    · rintro ⟨⟨source, right⟩, hr, hb, ht⟩
      obtain ⟨left, hl⟩ := hitem.mpr ⟨right, hr⟩
      exact ⟨_, hl, hb, (hbrought hl hr).mpr ht⟩

-- Two closures may come to their ends at different times, so they are compared as
-- iterations of the step.
theorem Shadows.closure (hs : Shadows symbol bearer set other)
    (hheads : ∀ sequence, symbol ∈ grammar.heads sequence ↔ bearer ∈ grammar.heads sequence) :
    Shadows symbol bearer (set.closure grammar mode) (other.closure grammar mode) := by
  unfold ItemSet.closure
  rw [saturate_eq_iterate, saturate_eq_iterate]
  generalize growthBound grammar = fuel
  induction fuel generalizing set other with
  | zero => exact hs
  | succ fuel ih => exact ih (hs.closeStep hheads)

-- A symbol of the vocabulary bears itself, and one from outside is borne by the empty
-- word, which begins nothing either.
def bearerOf (grammar : Grammar) (symbol : Nat) : Nat :=
  if symbol < grammar.symbols.size then symbol else epsilonId

theorem bearerOf_lt (hw : grammar.toRules.WellFormed) (symbol : Nat) :
    bearerOf grammar symbol < grammar.symbols.size := by
  unfold bearerOf
  split
  · assumption
  · exact hw.epsilon_lt

theorem mem_heads_bearerOf (hw : grammar.toRules.WellFormed) (symbol : Nat) (sequence : List Nat) :
    symbol ∈ grammar.heads sequence ↔ bearerOf grammar symbol ∈ grammar.heads sequence := by
  unfold bearerOf
  split
  · exact Iff.rfl
  · rename_i hlt
    refine iff_of_false (fun h => hlt ?_) (Grammar.epsilon_not_mem_heads hw)
    exact (Rules.mem_terminals.mp ((Grammar.mem_heads_iff hw).mp h).mem_terminals).1

-- The rounds of a closure suffice for any set. What becomes of one symbol shows in its
-- shadow, and there are no symbols from outside in that.
theorem closed_closure (hw : grammar.toRules.WellFormed) : (set.closure grammar mode).Closed grammar mode := by
  have hclosed : ∀ symbol, ((set.shadow symbol (bearerOf grammar symbol)).closure grammar mode).Closed grammar mode := by
    intro symbol
    refine closed_iff_closeStep.mpr (closeStep_closure hw fun item terminal hs => ?_)
    exact (sees_shadow.mp hs).1 ▸ bearerOf_lt hw symbol
  have hshadows : ∀ symbol, Shadows symbol (bearerOf grammar symbol) (set.closure grammar mode)
      ((set.shadow symbol (bearerOf grammar symbol)).closure grammar mode) := fun symbol =>
    shadows_shadow.closure (mem_heads_bearerOf hw symbol)
  refine closed_iff_closeStep.mpr (Within.antisymm ⟨fun item hi => ?_, fun item symbol hs => ?_⟩ within_closeStep)
  · have hs := hshadows 0
    rw [hs.hasItem, ← closed_iff_closeStep.mp (hclosed 0)]
    exact ((hs.closeStep (mem_heads_bearerOf hw 0)).hasItem item).mp hi
  · have hshadow := hshadows symbol
    rw [hshadow.sees, ← closed_iff_closeStep.mp (hclosed symbol)]
    exact ((hshadow.closeStep (mem_heads_bearerOf hw symbol)).sees item).mp hs

end Shadow

section Union

-- Whether an item of a set passes a symbol on: it comes next behind the nonterminal, or
-- nothing does and the item sees it.
def Passes (grammar : Grammar) (set : ItemSet) (item : Item) (terminal : Nat) : Prop :=
  terminal ∈ grammar.heads (item.remaining grammar.toRules) ∨
    (item.remaining grammar.toRules).all grammar.nullable = true ∧ set.Sees item terminal

theorem closed_iff_passes : set.Closed grammar mode ↔
    ∀ item, set.HasItem item → ∀ brought ∈ broughtItems grammar item, set.HasItem brought ∧
      (mode ≠ .lr0 → ∀ terminal, set.Passes grammar item terminal → set.Sees brought terminal) := by
  have hpasses : ∀ {item : Item} {lookahead : SymbolSet}, (item, lookahead) ∈ set.entries → mode ≠ .lr0 →
      ∀ terminal, terminal ∈ broughtLookahead grammar mode (item, lookahead) ↔ set.Passes grammar item terminal := by
    intro item lookahead hmem hm terminal
    rw [broughtLookahead_of_ne_lr0 hm, Grammar.mem_firstWithLookahead_iff, Passes, sees_iff hmem]
  rw [closed_iff_owns]
  constructor
  · intro howns item hi brought hb
    obtain ⟨lookahead, hmem⟩ := hasItem_iff.mp hi
    obtain ⟨hitem, hsees⟩ := howns _ hmem brought hb
    exact ⟨hitem, fun hm terminal hp => hsees terminal ((hpasses hmem hm terminal).mpr hp)⟩
  · intro hpassed entry hmem brought hb
    obtain ⟨hitem, hsees⟩ := hpassed entry.1 (hasItem_of_mem hmem) brought hb
    refine ⟨hitem, fun terminal ht => ?_⟩
    have hm := mode_of_mem_broughtLookahead ht
    exact hsees hm terminal ((hpasses hmem hm terminal).mp ht)

-- A symbol is passed on by one item alone, so the union of closed sets is closed.
theorem Closed.merge (hs : set.Closed grammar mode) (ho : other.Closed grammar mode) :
    (set.merge other).Closed grammar mode := by
  rw [closed_iff_passes] at hs ho ⊢
  intro item hi brought hb
  constructor
  · exact hasItem_merge.mpr ((hasItem_merge.mp hi).imp (fun hi => (hs item hi brought hb).1)
      fun hi => (ho item hi brought hb).1)
  · rintro hm terminal (hheads | ⟨hvanishes, hsees⟩)
    · exact sees_merge.mpr ((hasItem_merge.mp hi).imp
        (fun hi => (hs item hi brought hb).2 hm terminal (Or.inl hheads))
        fun hi => (ho item hi brought hb).2 hm terminal (Or.inl hheads))
    · exact sees_merge.mpr ((sees_merge.mp hsees).imp
        (fun h => (hs item h.hasItem brought hb).2 hm terminal (Or.inr ⟨hvanishes, h⟩))
        fun h => (ho item h.hasItem brought hb).2 hm terminal (Or.inr ⟨hvanishes, h⟩))

theorem Within.merge_within {third : ItemSet} (hs : set.Within third) (ho : other.Within third) :
    (set.merge other).Within third :=
  ⟨fun item h => (hasItem_merge.mp h).elim (hs.hasItem item) (ho.hasItem item),
    fun item terminal h => (sees_merge.mp h).elim (hs.sees item terminal) (ho.sees item terminal)⟩

end Union

end ItemSet

end IncrementalLR
