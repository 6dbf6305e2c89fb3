import IncrementalLR.Proofs.Automaton.ClosedSets

namespace IncrementalLR

namespace ItemSet

variable {grammar : Grammar} {mode : Mode} {set other : ItemSet} {item : Item}

section Work

-- A set that is being closed, with the items whose alternatives are still to be brought
-- in.
structure Closing where
  set : ItemSet
  work : List Item

-- Adds an item. It is to be worked on if that makes the set grow.
def Closing.bring (lookahead : SymbolSet) (closing : Closing) (item : Item) : Closing :=
  if closing.set.add item lookahead = closing.set then closing
  else ⟨closing.set.add item lookahead, item :: closing.work⟩

-- Takes any one of the items that are to be worked on and adds what it brings in.
inductive Works (grammar : Grammar) (mode : Mode) : Closing → Closing → Prop where
  | taken {set : ItemSet} {front back : List Item} {item : Item} {lookahead : SymbolSet} :
      (item, lookahead) ∈ set.entries →
      Works grammar mode ⟨set, front ++ item :: back⟩
        ((broughtItems grammar item).foldl
          (Closing.bring (broughtLookahead grammar mode (item, lookahead))) ⟨set, front ++ back⟩)

-- What the work on a closure has come to: nothing is missing but what the items left
-- bring in, and there is nothing that the closure does not have.
structure Underway (grammar : Grammar) (mode : Mode) (origin : ItemSet) (closing : Closing) : Prop where
  within : origin.Within closing.set
  within_closure : closing.set.Within (origin.closure grammar mode)
  hasItem : ∀ item ∈ closing.work, closing.set.HasItem item
  owns : ∀ entry ∈ closing.set.entries, entry.1 ∈ closing.work ∨ closing.set.Owns grammar mode entry

theorem Owns.mono {entry : Entry} (ho : set.Owns grammar mode entry) (hw : set.Within other) :
    other.Owns grammar mode entry := fun item hb =>
  ⟨hw.hasItem item (ho item hb).1, fun terminal ht => hw.sees item terminal ((ho item hb).2 terminal ht)⟩

theorem within_add (set : ItemSet) (item : Item) (lookahead : SymbolSet) : set.Within (set.add item lookahead) :=
  ⟨fun _ h => hasItem_add.mpr (Or.inr h), fun _ _ h => sees_add.mpr (Or.inl h)⟩

theorem Closing.set_bring (lookahead : SymbolSet) (closing : Closing) (item : Item) :
    (closing.bring lookahead item).set = closing.set.add item lookahead := by
  unfold bring
  split
  · rename_i h
    exact h.symm
  · rfl

-- An entry that is not as it was has its item among the work.
theorem Closing.mem_bring {lookahead : SymbolSet} {closing : Closing} {entry : Entry}
    (h : entry ∈ (closing.bring lookahead item).set.entries) :
    entry ∈ closing.set.entries ∨ entry.1 ∈ (closing.bring lookahead item).work := by
  unfold bring at h ⊢
  split
  · rename_i he
    rw [if_pos he] at h
    exact Or.inl h
  · rename_i hne
    rw [if_neg hne] at h
    by_cases he : entry.1 = item
    · exact Or.inr (List.mem_cons.mpr (Or.inl he))
    · refine Or.inl ?_
      obtain ⟨found, hfound⟩ := hasItem_iff.mp ((hasItem_add.mp (hasItem_of_mem h)).resolve_left he)
      have heq : entry.2 = found := by
        refine SymbolSet.ext fun symbol => ?_
        rw [← sees_iff (show (entry.1, entry.2) ∈ _ from h), ← sees_iff hfound, sees_add]
        simp [he]
      rwa [show entry = (entry.1, found) from Prod.ext rfl heq]

theorem Closing.work_subset_bring {lookahead : SymbolSet} {closing : Closing} :
    closing.work ⊆ (closing.bring lookahead item).work := by
  unfold bring
  split
  · exact List.Subset.refl _
  · exact List.subset_cons_self _ _

theorem Closing.hasItem_bring {lookahead : SymbolSet} {closing : Closing}
    (hc : ∀ item ∈ closing.work, closing.set.HasItem item) :
    ∀ other ∈ (closing.bring lookahead item).work, (closing.bring lookahead item).set.HasItem other := by
  intro other ho
  rw [set_bring, hasItem_add]
  unfold bring at ho
  split at ho
  · exact Or.inr (hc other ho)
  · exact (List.mem_cons.mp ho).imp id (hc other)

-- What becomes of the work while the items that one entry brings in are added: they are
-- there, and all other entries stay accounted for.
structure Closing.Brought (items : List Item) (lookahead : SymbolSet) (before after : Closing) : Prop where
  within : before.set.Within after.set
  work : before.work ⊆ after.work
  items : ∀ item ∈ items, after.set.HasItem item ∧ ∀ terminal ∈ lookahead, after.set.Sees item terminal
  entries : ∀ entry ∈ after.set.entries, entry ∈ before.set.entries ∨ entry.1 ∈ after.work
  hasItem : (∀ item ∈ before.work, before.set.HasItem item) → ∀ item ∈ after.work, after.set.HasItem item

theorem Closing.brought_foldl (items : List Item) (lookahead : SymbolSet) (closing : Closing) :
    Brought items lookahead closing (items.foldl (bring lookahead) closing) := by
  induction items generalizing closing with
  | nil => exact ⟨.refl _, List.Subset.refl _, by simp, fun _ h => Or.inl h, id⟩
  | cons first rest ih =>
      have hrest := ih (closing.bring lookahead first)
      constructor
      case within =>
        refine Within.trans ?_ hrest.within
        rw [set_bring]
        exact within_add _ _ _
      case work => exact fun _ h => hrest.work (work_subset_bring h)
      case items =>
        refine List.forall_mem_cons.mpr ⟨⟨hrest.within.hasItem _ ?_, fun terminal ht => hrest.within.sees _ _ ?_⟩,
          hrest.items⟩
        · rw [set_bring]
          exact hasItem_add.mpr (Or.inl rfl)
        · rw [set_bring]
          exact sees_add.mpr (Or.inr ⟨rfl, ht⟩)
      case entries =>
        intro entry hmem
        rcases hrest.entries entry hmem with h | h
        · exact (mem_bring h).imp_right fun h => hrest.work h
        · exact Or.inr h
      case hasItem => exact fun hc => hrest.hasItem (hasItem_bring hc)

theorem Closing.foldl_bring_within {items : List Item} {lookahead : SymbolSet} {closing : Closing}
    (hc : closing.set.Within other)
    (hitems : ∀ item ∈ items, other.HasItem item ∧ ∀ terminal ∈ lookahead, other.Sees item terminal) :
    (items.foldl (bring lookahead) closing).set.Within other := by
  induction items generalizing closing with
  | nil => exact hc
  | cons first rest ih =>
      refine ih ?_ fun item hmem => hitems item (List.mem_cons_of_mem _ hmem)
      have hfirst := hitems first List.mem_cons_self
      rw [set_bring]
      refine ⟨fun item hi => ?_, fun item terminal hs => ?_⟩
      · exact (hasItem_add.mp hi).elim (fun he => he ▸ hfirst.1) (hc.hasItem item)
      · exact (sees_add.mp hs).elim (hc.sees item terminal) fun ⟨he, ht⟩ => he ▸ hfirst.2 terminal ht

theorem underway_start : Underway grammar mode set ⟨set, set.cores⟩ :=
  ⟨.refl set, within_closure, fun _ h => h, fun _ h => Or.inl (hasItem_of_mem h)⟩

theorem Underway.works (hw : grammar.toRules.WellFormed) {before after : Closing}
    (hu : Underway grammar mode set before) (h : Works grammar mode before after) :
    Underway grammar mode set after := by
  cases h with
  | @taken current front back item lookahead hmem =>
      have hbrought := Closing.brought_foldl (broughtItems grammar item)
        (broughtLookahead grammar mode (item, lookahead)) ⟨current, front ++ back⟩
      constructor
      case within => exact hu.within.trans hbrought.within
      case within_closure =>
        refine Closing.foldl_bring_within hu.within_closure fun brought hb => ?_
        exact hu.within_closure.owns_of_closed (closed_closure hw) hmem brought hb
      case hasItem =>
        refine hbrought.hasItem fun other ho => hu.hasItem other ?_
        simp only [List.mem_append, List.mem_cons] at ho ⊢
        tauto
      case owns =>
        intro entry hentry
        rcases hbrought.entries entry hentry with hold | hnew
        · -- the entry is as it was: it is the one that was taken, or it was accounted for
          by_cases he : entry.1 = item
          · obtain rfl : entry = (item, lookahead) := by
              have hold' : (item, entry.2) ∈ current.entries := he ▸ hold
              exact Prod.ext he (lookahead_unique hold' hmem)
            exact Or.inr hbrought.items
          · rcases hu.owns entry hold with h | h
            · refine Or.inl (hbrought.work ?_)
              simpa [he] using h
            · exact Or.inr (h.mono hbrought.within)
        · exact Or.inl hnew

theorem underway_of_works (hw : grammar.toRules.WellFormed) {closing : Closing}
    (h : Relation.ReflTransGen (Works grammar mode) ⟨set, set.cores⟩ closing) : Underway grammar mode set closing := by
  induction h with
  | refl => exact underway_start
  | tail _ hstep ih => exact ih.works hw hstep

-- Work that cannot go on has nothing left, and then the set is closed.
theorem Underway.eq_of_stuck {closing : Closing} (hu : Underway grammar mode set closing)
    (hstuck : ∀ next, ¬ Works grammar mode closing next) : closing = ⟨set.closure grammar mode, []⟩ := by
  obtain ⟨current, work⟩ := closing
  cases work with
  | cons item work =>
      obtain ⟨lookahead, hmem⟩ := hasItem_iff.mp (hu.hasItem item List.mem_cons_self)
      have hworks : Works grammar mode ⟨current, [] ++ item :: work⟩ _ := .taken hmem
      exact absurd hworks (hstuck _)
  | nil =>
      have hclosed : current.Closed grammar mode := closed_iff_owns.mpr fun entry hmem =>
        (hu.owns entry hmem).resolve_left List.not_mem_nil
      exact congrArg (Closing.mk · []) (Within.antisymm hu.within_closure (hu.within.closure_within hclosed))

theorem exists_bounded (set : ItemSet) : ∃ size, set.Bounded size := by
  refine ⟨(set.entries.flatMap fun entry => entry.2.toList).sum + 1, fun item symbol ⟨lookahead, hmem, hs⟩ => ?_⟩
  refine Nat.lt_succ_of_le (List.le_sum_of_mem (List.mem_flatMap.mpr ⟨_, hmem, hs⟩))

-- What is left to do: twice what the closure has and the set does not, and the items that
-- are to be worked on. An item comes to the work only when the set grows.
noncomputable def Closing.rest (closed : ItemSet) (size : Nat) (closing : Closing) : Nat :=
  2 * ((closed.marks closed.cores.toFinset size).card - (closing.set.marks closed.cores.toFinset size).card) +
    closing.work.length

variable {closed : ItemSet} {size : Nat}

theorem Closing.rest_bring {lookahead : SymbolSet} {closing : Closing} (hb : closed.Bounded size)
    (hc : (closing.bring lookahead item).set.Within closed) :
    (closing.bring lookahead item).rest closed size ≤ closing.rest closed size := by
  have hset := set_bring lookahead closing item
  have hsub : (closing.bring lookahead item).set.Bounded size := fun other symbol hs =>
    hb other symbol (hc.sees other symbol hs)
  unfold rest
  by_cases he : closing.set.add item lookahead = closing.set
  · rw [bring, if_pos he]
  · have hwithin : closing.set.Within (closing.bring lookahead item).set := hset ▸ within_add _ _ _
    obtain ⟨other, symbol, hnew⟩ := hwithin.exists_of_ne (by rwa [hset])
    have hmem : other ∈ closed.cores.toFinset := List.mem_toFinset.mpr
      (hc.hasItem other (hnew.elim (·.1) (·.1.hasItem)))
    have hlt := hwithin.card_marks_lt hsub hmem hnew
    have hle : ((closing.bring lookahead item).set.marks closed.cores.toFinset size).card ≤
        (closed.marks closed.cores.toFinset size).card := Finset.card_le_card hc.marks_subset
    have hwork : (closing.bring lookahead item).work.length = closing.work.length + 1 := by
      rw [bring, if_neg he, List.length_cons]
    omega

theorem Closing.rest_foldl {items : List Item} {lookahead : SymbolSet} {closing : Closing} (hb : closed.Bounded size)
    (hc : (items.foldl (bring lookahead) closing).set.Within closed) :
    (items.foldl (bring lookahead) closing).rest closed size ≤ closing.rest closed size := by
  induction items generalizing closing with
  | nil => exact Nat.le_refl _
  | cons first rest ih =>
      have hwithin := (brought_foldl rest lookahead (closing.bring lookahead first)).within
      exact (ih hc).trans (rest_bring hb (hwithin.trans hc))

theorem Underway.rest_lt (hw : grammar.toRules.WellFormed) {before after : Closing}
    (hu : Underway grammar mode set before) (hb : (set.closure grammar mode).Bounded size)
    (h : Works grammar mode before after) :
    after.rest (set.closure grammar mode) size < before.rest (set.closure grammar mode) size := by
  have hafter := hu.works hw h
  cases h with
  | taken _ =>
      refine Nat.lt_of_le_of_lt (Closing.rest_foldl hb hafter.within_closure) ?_
      simp only [Closing.rest, List.length_append, List.length_cons]
      omega

-- There is no endless work on a closure.
theorem Underway.acc (hw : grammar.toRules.WellFormed) {closing : Closing}
    (hu : Underway grammar mode set closing) : Acc (fun after before => Works grammar mode before after) closing := by
  obtain ⟨size, hb⟩ := exists_bounded (set.closure grammar mode)
  generalize hrest : closing.rest (set.closure grammar mode) size = rest
  induction rest using Nat.strongRecOn generalizing closing with
  | ind rest ih =>
      exact .intro _ fun after h => ih _ (hrest ▸ hu.rest_lt hw hb h) (hu.works hw h) rfl

end Work

section Least

-- The closure of a set is the least closed set that holds it, so that it is idempotent
-- and monotone and the closure of a union is the union of the closures. The work on it
-- ends, and with this set, in whatever order the items are taken.
structure LeastClosure (grammar : Grammar) (mode : Mode) : Prop where
  within : ∀ set : ItemSet, set.Within (set.closure grammar mode)
  closed : ∀ set : ItemSet, (set.closure grammar mode).Closed grammar mode
  least : ∀ set other : ItemSet, other.Closed grammar mode → set.Within other →
    (set.closure grammar mode).Within other
  idempotent : ∀ set : ItemSet, (set.closure grammar mode).closure grammar mode = set.closure grammar mode
  monotone : ∀ set other : ItemSet, set.Within other →
    (set.closure grammar mode).Within (other.closure grammar mode)
  merge : ∀ set other : ItemSet, (set.merge other).closure grammar mode =
    (set.closure grammar mode).merge (other.closure grammar mode)
  ends : ∀ set : ItemSet, Acc (fun after before => Works grammar mode before after) ⟨set, set.cores⟩
  stuck : ∀ (set : ItemSet) (closing : Closing),
    Relation.ReflTransGen (Works grammar mode) ⟨set, set.cores⟩ closing →
      (∀ next, ¬ Works grammar mode closing next) → closing = ⟨set.closure grammar mode, []⟩

theorem leastClosure_of_built (hb : grammar.Built) (mode : Mode) : LeastClosure grammar mode := by
  have hclosed : ∀ set : ItemSet, (set.closure grammar mode).Closed grammar mode := fun _ => closed_closure hb.wellFormed
  have hmonotone : ∀ {set other : ItemSet}, set.Within other →
      (set.closure grammar mode).Within (other.closure grammar mode) := fun hw =>
    (hw.trans within_closure).closure_within (hclosed _)
  constructor
  case within => exact fun _ => within_closure
  case closed => exact hclosed
  case least => exact fun _ _ hc hw => hw.closure_within hc
  case idempotent => exact fun set => closure_of_closed (hclosed set)
  case monotone => exact fun _ _ => hmonotone
  case merge =>
    intro set other
    refine Within.antisymm (Within.closure_within ?_ ((hclosed set).merge (hclosed other))) ?_
    · exact Within.merge_within (within_closure.trans within_merge_left) (within_closure.trans within_merge_right)
    · exact Within.merge_within (hmonotone within_merge_left) (hmonotone within_merge_right)
  case ends => exact fun _ => underway_start.acc hb.wellFormed
  case stuck => exact fun _ _ h hstuck => (underway_of_works hb.wellFormed h).eq_of_stuck hstuck

-- Behind "b" there may come nothing or any number of "c", so that what is seen behind the
-- form goes round to all that its nonterminals bring in, also a symbol of no vocabulary.
theorem leastClosure_drained :
    Rules.drained.toGrammar.Built ∧
      (((∅ : ItemSet).add ⟨1, 1⟩ (SymbolSet.ofList [0, 20])).closure Rules.drained.toGrammar .lr1).entries.map
        (fun entry => (entry.1, entry.2.toList)) =
          [(⟨1, 1⟩, [0, 20]), (⟨3, 0⟩, [0, 8, 20]), (⟨4, 0⟩, [0, 8, 20])] ∧
      LeastClosure Rules.drained.toGrammar .lr1 :=
  ⟨built_drained, by decide +kernel, leastClosure_of_built built_drained .lr1⟩

end Least

end ItemSet

end IncrementalLR
