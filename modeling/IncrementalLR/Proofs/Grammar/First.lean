import IncrementalLR.Proofs.Grammar.Derivation
import IncrementalLR.Proofs.Saturation
import IncrementalLR.Proofs.SymbolSets

namespace IncrementalLR

namespace FirstFollow

variable {rules : Rules}

theorem allIn_iff {nullable : SymbolSet} {sequence : List Nat} :
    allIn nullable sequence = true ↔ ∀ symbol ∈ sequence, symbol ∈ nullable := by
  simp [allIn]

theorem mem_heads_cons {nullable : SymbolSet} {first : Array SymbolSet} {symbol terminal : Nat}
    {rest : List Nat} :
    terminal ∈ heads nullable first (symbol :: rest) ↔
      terminal ∈ setOf first symbol ∧ terminal ≠ epsilonId ∨
        symbol ∈ nullable ∧ terminal ∈ heads nullable first rest := by
  by_cases hs : symbol ∈ nullable <;> simp [heads, hs]

theorem mem_heads_append {nullable : SymbolSet} {first : Array SymbolSet} {front back : List Nat} {terminal : Nat}
    (hfront : allIn nullable front = true) (h : terminal ∈ heads nullable first back) :
    terminal ∈ heads nullable first (front ++ back) := by
  induction front with
  | nil => exact h
  | cons symbol rest ih =>
      have hall := List.forall_mem_cons.mp (allIn_iff.mp hfront)
      exact mem_heads_cons.mpr (Or.inr ⟨hall.1, ih (allIn_iff.mpr hall.2)⟩)

theorem mem_heads_iff {nullable : SymbolSet} {first : Array SymbolSet} {sequence : List Nat} {terminal : Nat} :
    terminal ∈ heads nullable first sequence ↔ ∃ front symbol back, sequence = front ++ symbol :: back ∧
      allIn nullable front = true ∧ terminal ∈ setOf first symbol ∧ terminal ≠ epsilonId := by
  constructor
  · intro h
    induction sequence with
    | nil => exact absurd h (SymbolSet.not_mem_empty terminal)
    | cons symbol rest ih =>
        rcases mem_heads_cons.mp h with h | ⟨hsymbol, h⟩
        · exact ⟨[], symbol, rest, rfl, rfl, h⟩
        · obtain ⟨front, inner, back, rfl, hfront, h⟩ := ih h
          exact ⟨symbol :: front, inner, back, rfl,
            allIn_iff.mpr (List.forall_mem_cons.mpr ⟨hsymbol, allIn_iff.mp hfront⟩), h⟩
  · rintro ⟨front, symbol, back, rfl, hfront, h⟩
    exact mem_heads_append hfront (mem_heads_cons.mpr (Or.inl h))

section Families

variable {sets others : Array SymbolSet} {id : Nat} {added : SymbolSet}

-- One family of sets in another.
structure Within (sets others : Array SymbolSet) : Prop where
  size : sets.size = others.size
  mem : ∀ id, ∀ symbol ∈ setOf sets id, symbol ∈ setOf others id

theorem Within.refl (sets : Array SymbolSet) : Within sets sets := ⟨rfl, fun _ _ h => h⟩

theorem Within.trans {third : Array SymbolSet} (hfirst : Within sets others) (hsecond : Within others third) :
    Within sets third :=
  ⟨hfirst.size.trans hsecond.size, fun id symbol h => hsecond.mem id symbol (hfirst.mem id symbol h)⟩

theorem setOf_ne_of_ne (hs : sets.size = others.size) (hne : sets ≠ others) :
    ∃ id < sets.size, setOf sets id ≠ setOf others id := by
  by_contra hall
  simp only [not_exists, not_and, not_not] at hall
  refine hne (Array.ext hs fun id hid ho => ?_)
  simpa [setOf, hid, ho] using hall id hid

theorem Within.antisymm (hw : Within sets others) (hw' : Within others sets) : sets = others := by
  by_contra hne
  obtain ⟨id, -, hid⟩ := setOf_ne_of_ne hw.size hne
  exact hid (SymbolSet.ext fun symbol => ⟨hw.mem id symbol, hw'.mem id symbol⟩)

theorem Within.totalSize_lt (hw : Within sets others) (hne : others ≠ sets) :
    totalSize sets.size (setOf sets) < totalSize others.size (setOf others) := by
  obtain ⟨id, hid, hset⟩ := setOf_ne_of_ne hw.size.symm hne
  rw [hw.size]
  exact IncrementalLR.totalSize_lt (fun id _ => hw.mem id) ⟨id, hid, hset⟩

-- Adds to one set of a family.
def extend (sets : Array SymbolSet) (id : Nat) (added : SymbolSet) : Array SymbolSet := sets.modify id (· ∪ added)

theorem mem_extend {other symbol : Nat} :
    symbol ∈ setOf (extend sets id added) other ↔
      symbol ∈ setOf sets other ∨ other = id ∧ id < sets.size ∧ symbol ∈ added := by
  simp only [setOf, extend, Array.getD_eq_getD_getElem?, Array.getElem?_modify]
  by_cases he : id = other
  · subst he
    by_cases hlt : id < sets.size
    · simp [hlt]
    · simp [hlt]
  · simp [he, Ne.symm he]

theorem within_extend : Within sets (extend sets id added) :=
  ⟨by simp [extend], fun _ _ h => mem_extend.mpr (Or.inl h)⟩

theorem Within.extend {more : SymbolSet} (hw : Within sets others) (hadded : ∀ symbol ∈ added, symbol ∈ more) :
    Within (extend sets id added) (extend others id more) := by
  refine ⟨by simp [FirstFollow.extend, hw.size], fun other symbol h => mem_extend.mpr ?_⟩
  exact (mem_extend.mp h).imp (hw.mem other symbol) fun h => ⟨h.1, hw.size ▸ h.2.1, hadded symbol h.2.2⟩

theorem extend_eq_of_subset (h : ∀ symbol ∈ added, symbol ∈ setOf sets id) : extend sets id added = sets := by
  refine (Within.antisymm within_extend ⟨by simp [extend], fun other symbol hs => ?_⟩).symm
  exact (mem_extend.mp hs).elim (fun hs => hs) fun hs => hs.1 ▸ h symbol hs.2.2

theorem subset_of_extend_eq (he : extend sets id added = sets) (hlt : id < sets.size) :
    ∀ symbol ∈ added, symbol ∈ setOf sets id := fun symbol hs => by
  rw [← he]
  exact mem_extend.mpr (Or.inr ⟨rfl, hlt, hs⟩)

end Families

section Nullable

theorem mem_nullableStep {nullable : SymbolSet} {id : Nat} :
    id ∈ nullableStep rules nullable ↔
      id ∈ nullable ∨ ∃ production ∈ rules.declared,
        production.left = some id ∧ allIn nullable production.right = true := by
  refine SymbolSet.mem_foldl fun set production => ?_
  cases hleft : production.left with
  | none => simp
  | some left =>
      by_cases hall : allIn nullable production.right = true
      · simp [hall, or_comm, eq_comm]
      · simp [hall]

-- Sets of the empty word and of symbols that vanish.
def OfVanishing (rules : Rules) (nullable : SymbolSet) : Prop :=
  ∀ id ∈ nullable, id = epsilonId ∨ id < rules.symbols.size ∧ Vanishes rules [id]

theorem vanishes_of_subset {nullable : SymbolSet} (hn : OfVanishing rules nullable)
    {sequence : List Nat} (hs : ∀ symbol ∈ sequence, symbol ∈ nullable ∧ symbol ≠ epsilonId) :
    Vanishes rules sequence := by
  induction sequence with
  | nil => exact .nil
  | cons symbol rest ih =>
      have ⟨hmem, hne⟩ := hs symbol (by simp)
      have hsymbol := ((hn symbol hmem).resolve_left hne).2
      exact vanishes_cons.mpr ⟨hsymbol, ih fun other ho => hs other (by simp [ho])⟩

theorem ofVanishing_nullableStep (hw : rules.WellFormed) {nullable : SymbolSet}
    (hn : OfVanishing rules nullable) : OfVanishing rules (nullableStep rules nullable) := by
  intro id hid
  rcases mem_nullableStep.mp hid with hid | ⟨production, hp, hleft, hall⟩
  · exact hn id hid
  · obtain ⟨index, -, -, rfl⟩ := Rules.mem_declared.mp hp
    have hv : Vanishes rules (rules.production index).right :=
      vanishes_of_subset hn fun symbol hs =>
        ⟨allIn_iff.mp hall symbol hs, (hw.right index symbol hs).2⟩
    exact Or.inr ⟨(hw.left_spec hleft).1, .cons hleft hv .nil⟩

theorem ofVanishing_start : OfVanishing rules (SymbolSet.empty.insert epsilonId) := by
  intro id hid
  rcases SymbolSet.mem_insert.mp hid with rfl | hid
  · exact Or.inl rfl
  · exact absurd hid (SymbolSet.not_mem_empty id)

theorem ofVanishing_nullableSet (hw : rules.WellFormed) :
    OfVanishing rules (nullableSet rules) :=
  saturate_induction (motive := OfVanishing rules) _ (fun _ => ofVanishing_nullableStep hw) _ _
    ofVanishing_start

-- The set of nullable symbols is closed under the productions.
theorem nullableStep_nullableSet (hw : rules.WellFormed) :
    nullableStep rules (nullableSet rules) = nullableSet rules := by
  refine step_saturate (motive := OfVanishing rules) _ SymbolSet.size rules.symbols.size
    (fun _ => ofVanishing_nullableStep hw) ?_ ?_ _ _ ofVanishing_start (by omega)
  · intro nullable _ hne
    exact SymbolSet.size_lt (fun id hid => mem_nullableStep.mpr (Or.inl hid)) hne
  · intro nullable hn
    refine SymbolSet.size_le_of_lt fun id hid => ?_
    rcases hn id hid with rfl | ⟨hlt, -⟩
    · exact hw.epsilon_lt
    · exact hlt

theorem mem_nullableSet_of_vanishes (hw : rules.WellFormed) {sequence : List Nat}
    (hv : Vanishes rules sequence) : ∀ symbol ∈ sequence, symbol ∈ nullableSet rules := by
  induction hv with
  | nil => simp
  | @cons production left rest hleft _ _ ihbelow ihrest =>
      intro symbol hs
      rcases List.mem_cons.mp hs with rfl | hs
      · rw [← nullableStep_nullableSet hw]
        exact mem_nullableStep.mpr (Or.inr ⟨rules.production production, hw.mem_declared_of_left hleft, hleft,
          allIn_iff.mpr ihbelow⟩)
      · exact ihrest symbol hs

theorem vanishes_iff (hw : rules.WellFormed) {sequence : List Nat}
    (hs : ∀ symbol ∈ sequence, symbol ≠ epsilonId) :
    Vanishes rules sequence ↔ ∀ symbol ∈ sequence, symbol ∈ nullableSet rules :=
  ⟨mem_nullableSet_of_vanishes hw, fun hmem =>
    vanishes_of_subset (ofVanishing_nullableSet hw) fun symbol h => ⟨hmem symbol h, hs symbol h⟩⟩

-- Renews the set in place by one production.
inductive NullableRenewal (rules : Rules) : SymbolSet → SymbolSet → Prop where
  | renewed {nullable : SymbolSet} {production : Production} {left : Nat} :
      production ∈ rules.declared → production.left = some left → allIn nullable production.right = true →
      NullableRenewal rules nullable (nullable.insert left)

theorem renewing_nullable :
    Renewing (fun set other : SymbolSet => ∀ id ∈ set, id ∈ other) (NullableRenewal rules) where
  refl _ _ h := h
  trans hfirst hsecond id h := hsecond id (hfirst id h)
  antisymm hvalue hother := SymbolSet.ext fun id => ⟨hvalue id, hother id⟩
  grows | .renewed _ _ _, _, h => SymbolSet.mem_insert.mpr (Or.inr h)
  keeps := by
    rintro _ _ other ⟨hp, hleft, hall⟩ hw
    refine ⟨_, .renewed hp hleft (allIn_iff.mpr fun symbol hs => hw symbol (allIn_iff.mp hall symbol hs)), ?_⟩
    exact fun id h => SymbolSet.mem_insert.mpr ((SymbolSet.mem_insert.mp h).imp_right (hw id))

theorem subset_nullableStep_of_atRest {nullable other : SymbolSet} (hrest : AtRest (NullableRenewal rules) other)
    (hs : ∀ id ∈ nullable, id ∈ other) : ∀ id ∈ nullableStep rules nullable, id ∈ other := by
  intro id hid
  rcases mem_nullableStep.mp hid with hid | ⟨production, hp, hleft, hall⟩
  · exact hs id hid
  · have hall' := allIn_iff.mpr fun symbol h => hs symbol (allIn_iff.mp hall symbol h)
    rw [← hrest _ (.renewed hp hleft hall')]
    exact SymbolSet.mem_insert.mpr (Or.inl rfl)

-- The rounds come to what the productions come to one by one.
theorem endsIn_nullableSet (hw : rules.WellFormed) :
    EndsIn (NullableRenewal rules) (SymbolSet.empty.insert epsilonId) (nullableSet rules) := by
  have hgrows : ∀ id ∈ SymbolSet.empty.insert epsilonId, id ∈ nullableSet rules :=
    saturate_induction (motive := fun nullable => ∀ id ∈ SymbolSet.empty.insert epsilonId, id ∈ nullable) _
      (fun _ h id hid => mem_nullableStep.mpr (Or.inl (h id hid))) _ _ fun _ h => h
  refine renewing_nullable.endsIn SymbolSet.size SymbolSet.size_lt hgrows ?_ ?_
  case refine_1 =>
    rintro _ ⟨hp, hleft, hall⟩
    refine SymbolSet.ext fun id => SymbolSet.mem_insert.trans (or_iff_right_of_imp ?_)
    rintro rfl
    rw [← nullableStep_nullableSet hw]
    exact mem_nullableStep.mpr (Or.inr ⟨_, hp, hleft, hall⟩)
  case refine_2 =>
    exact fun other hseed hrest => saturate_induction (motive := fun nullable => ∀ id ∈ nullable, id ∈ other) _
      (fun _ => subset_nullableStep_of_atRest hrest) _ _ hseed

end Nullable

section First

theorem mem_firstStep {nullable : SymbolSet} {first : Array SymbolSet} {id terminal : Nat} :
    terminal ∈ setOf (firstStep rules nullable first) id ↔
      terminal ∈ setOf first id ∨ id < first.size ∧ ∃ production ∈ rules.alternatives id,
        terminal ∈ heads nullable first (rules.production production).right := by
  simp only [setOf, firstStep, Array.getD_eq_getD_getElem?, Array.getElem?_mapIdx]
  by_cases hlt : id < first.size
  · simp only [hlt, Array.getElem?_eq_getElem, Option.map_some, Option.getD_some, true_and]
    exact SymbolSet.mem_foldl fun set production => SymbolSet.mem_union
  · simp [hlt]

theorem size_firstStep {nullable : SymbolSet} {first : Array SymbolSet} :
    (firstStep rules nullable first).size = first.size := by
  simp [firstStep]

-- Sets with one place for each symbol that hold terminals in front of words
-- derived from it.
structure OfHeads (rules : Rules) (first : Array SymbolSet) : Prop where
  size : first.size = rules.symbols.size
  begins : ∀ id, ∀ terminal ∈ setOf first id,
    terminal < rules.symbols.size ∧ (terminal ≠ epsilonId → Begins rules [id] terminal)

theorem begins_of_mem_heads (hw : rules.WellFormed) {first : Array SymbolSet}
    (hf : OfHeads rules first) {sequence : List Nat} {terminal : Nat}
    (hs : ∀ symbol ∈ sequence, symbol ≠ epsilonId)
    (hmem : terminal ∈ heads (nullableSet rules) first sequence) :
    terminal < rules.symbols.size ∧ Begins rules sequence terminal := by
  induction sequence with
  | nil => exact absurd hmem (SymbolSet.not_mem_empty terminal)
  | cons symbol rest ih =>
      rcases mem_heads_cons.mp hmem with ⟨hfirst, hne⟩ | ⟨hnull, hrest⟩
      · have ⟨hlt, hb⟩ := hf.begins symbol terminal hfirst
        exact ⟨hlt, (hb hne).append rest⟩
      · have ⟨hlt, hb⟩ := ih (fun other ho => hs other (by simp [ho])) hrest
        have hv : Vanishes rules [symbol] :=
          (vanishes_iff hw (by simpa using hs symbol (by simp))).mpr (by simpa using hnull)
        exact ⟨hlt, .after hv hb⟩

theorem ofHeads_firstStep (hw : rules.WellFormed) {first : Array SymbolSet}
    (hf : OfHeads rules first) : OfHeads rules (firstStep rules (nullableSet rules) first) := by
  refine ⟨size_firstStep.trans hf.size, fun id terminal hmem => ?_⟩
  rcases mem_firstStep.mp hmem with hmem | ⟨_, production, hp, hmem⟩
  · exact hf.begins id terminal hmem
  · have ⟨hlt, hb⟩ := begins_of_mem_heads hw hf (fun symbol h => (hw.right production symbol h).2) hmem
    exact ⟨hlt, fun _ => .inside (Rules.mem_alternatives.mp hp).2 hb⟩

-- Every terminal begins the word that it is.
def firstSeeds (rules : Rules) : Array SymbolSet :=
  rules.symbols.mapIdx fun id symbol =>
    if symbol.isTerminal then SymbolSet.empty.insert id else ∅

theorem mem_firstSeeds {id terminal : Nat} :
    terminal ∈ setOf (firstSeeds rules) id ↔
      terminal = id ∧ id < rules.symbols.size ∧ (rules.symbol id).isTerminal = true := by
  simp only [setOf, firstSeeds, Array.getD_eq_getD_getElem?, Array.getElem?_mapIdx]
  by_cases hlt : id < rules.symbols.size
  · rw [Rules.getElem?_of_lt hlt]
    by_cases ht : (rules.symbol id).isTerminal = true
    · simp [hlt, ht, show SymbolSet.empty = ∅ from rfl]
    · simp [ht]
  · simp [hlt]

theorem ofHeads_firstSeeds : OfHeads rules (firstSeeds rules) := by
  refine ⟨by simp [firstSeeds], fun id terminal hmem => ?_⟩
  obtain ⟨rfl, hlt, ht⟩ := mem_firstSeeds.mp hmem
  exact ⟨hlt, fun hne => .here (Rules.mem_terminals.mpr ⟨hlt, ht, hne⟩)⟩

-- The sets before the empty word is added.
def saturatedFirst (rules : Rules) : Array SymbolSet :=
  saturate (firstStep rules (nullableSet rules)) (growthBound rules) (firstSeeds rules)

theorem ofHeads_saturatedFirst (hw : rules.WellFormed) : OfHeads rules (saturatedFirst rules) :=
  saturate_induction (motive := OfHeads rules) _ (fun _ => ofHeads_firstStep hw) _ _ ofHeads_firstSeeds

theorem within_firstStep {nullable : SymbolSet} {first : Array SymbolSet} :
    Within first (firstStep rules nullable first) :=
  ⟨size_firstStep.symm, fun _ _ h => mem_firstStep.mpr (Or.inl h)⟩

theorem firstStep_saturatedFirst (hw : rules.WellFormed) :
    firstStep rules (nullableSet rules) (saturatedFirst rules) = saturatedFirst rules := by
  refine step_saturate (motive := OfHeads rules) _ (fun first => totalSize first.size (setOf first))
    (rules.symbols.size * rules.symbols.size) (fun _ => ofHeads_firstStep hw)
    (fun _ _ => within_firstStep.totalSize_lt) ?_ _ _ ofHeads_firstSeeds (by simp only [growthBound]; omega)
  intro first hf
  rw [hf.size]
  exact totalSize_le fun id _ symbol hs => (hf.begins id symbol hs).1

theorem mem_saturatedFirst_terminal {terminal : Nat} (ht : terminal ∈ rules.terminals) :
    terminal ∈ setOf (saturatedFirst rules) terminal := by
  refine saturate_induction (motive := fun first => terminal ∈ setOf first terminal) _
    (fun first h => mem_firstStep.mpr (Or.inl h)) _ _ ?_
  have ⟨hlt, hterminal, _⟩ := Rules.mem_terminals.mp ht
  exact mem_firstSeeds.mpr ⟨rfl, hlt, hterminal⟩

theorem mem_heads_of_begins (hw : rules.WellFormed) {sequence : List Nat} {terminal : Nat}
    (hb : Begins rules sequence terminal) :
    terminal ∈ heads (nullableSet rules) (saturatedFirst rules) sequence := by
  have hne := (Rules.mem_terminals.mp hb.mem_terminals).2.2
  induction hb with
  | here ht => exact mem_heads_cons.mpr (Or.inl ⟨mem_saturatedFirst_terminal ht, hne⟩)
  | inside hleft _ ih =>
      refine mem_heads_cons.mpr (Or.inl ⟨?_, hne⟩)
      rw [← firstStep_saturatedFirst hw]
      refine mem_firstStep.mpr (Or.inr ⟨?_, _, Rules.mem_alternatives_of_left hleft, ih hne⟩)
      rw [(ofHeads_saturatedFirst hw).size]
      exact (hw.left_spec hleft).1
  | after hv _ ih =>
      exact mem_heads_cons.mpr
        (Or.inr ⟨mem_nullableSet_of_vanishes hw hv _ (by simp), ih hne⟩)

-- Puts the empty word into the sets of the nullable symbols.
def withEpsilon (nullable : SymbolSet) (sets : Array SymbolSet) : Array SymbolSet :=
  sets.mapIdx fun id set => if id ∈ nullable then set.insert epsilonId else set

theorem size_withEpsilon {nullable : SymbolSet} {sets : Array SymbolSet} :
    (withEpsilon nullable sets).size = sets.size := by
  simp [withEpsilon]

theorem mem_withEpsilon {nullable : SymbolSet} {sets : Array SymbolSet} {id terminal : Nat} :
    terminal ∈ setOf (withEpsilon nullable sets) id ↔
      terminal ∈ setOf sets id ∨ id < sets.size ∧ id ∈ nullable ∧ terminal = epsilonId := by
  simp only [setOf, withEpsilon, Array.getD_eq_getD_getElem?, Array.getElem?_mapIdx]
  by_cases hlt : id < sets.size
  · by_cases hn : id ∈ nullable
    · simp [hlt, hn, or_comm]
    · simp [hlt, hn]
  · simp [hlt]

theorem mem_firstSets {id terminal : Nat} :
    terminal ∈ setOf (firstSets rules (nullableSet rules)) id ↔
      terminal ∈ setOf (saturatedFirst rules) id ∨
        id < (saturatedFirst rules).size ∧ id ∈ nullableSet rules ∧ terminal = epsilonId :=
  mem_withEpsilon

-- The empty word does not count as the head of anything.
theorem heads_firstSets (sequence : List Nat) :
    heads (nullableSet rules) (firstSets rules (nullableSet rules)) sequence =
      heads (nullableSet rules) (saturatedFirst rules) sequence := by
  have hset : ∀ id, (setOf (firstSets rules (nullableSet rules)) id).erase epsilonId =
      (setOf (saturatedFirst rules) id).erase epsilonId := by
    intro id
    refine SymbolSet.ext fun terminal => ?_
    rw [SymbolSet.mem_erase, SymbolSet.mem_erase, mem_firstSets]
    exact ⟨fun h => ⟨h.1.resolve_right fun he => h.2 he.2.2, h.2⟩, fun h => ⟨Or.inl h.1, h.2⟩⟩
  induction sequence with
  | nil => rfl
  | cons symbol rest ih => simp only [heads, hset, ih]

theorem mem_heads_firstSets (hw : rules.WellFormed) {sequence : List Nat} {terminal : Nat}
    (hs : ∀ symbol ∈ sequence, symbol ≠ epsilonId) :
    terminal ∈ heads (nullableSet rules) (firstSets rules (nullableSet rules)) sequence ↔
      Begins rules sequence terminal := by
  rw [heads_firstSets]
  exact ⟨fun h => (begins_of_mem_heads hw (ofHeads_saturatedFirst hw) hs h).2, mem_heads_of_begins hw⟩

-- Renews one set in place by one symbol of a right side that only nullable ones stand in
-- front of. A left side on its own right side is passed over.
inductive FirstRenewal (rules : Rules) (nullable : SymbolSet) : Array SymbolSet → Array SymbolSet → Prop where
  | renewed {first : Array SymbolSet} {production : Production} {left symbol : Nat} {front back : List Nat} :
      production ∈ rules.declared → production.left = some left → production.right = front ++ symbol :: back →
      allIn nullable front = true → symbol ≠ left →
      FirstRenewal rules nullable first (extend first left ((setOf first symbol).erase epsilonId))

theorem renewing_first {nullable : SymbolSet} : Renewing Within (FirstRenewal rules nullable) where
  refl := .refl
  trans := .trans
  antisymm := Within.antisymm
  grows | .renewed _ _ _ _ _ => within_extend
  keeps := by
    rintro _ _ other ⟨hp, hleft, hright, hfront, hne⟩ hw
    refine ⟨_, .renewed hp hleft hright hfront hne, hw.extend fun terminal h => ?_⟩
    exact SymbolSet.mem_erase.mpr ((SymbolSet.mem_erase.mp h).imp_left (hw.mem _ terminal))

theorem firstStep_within_of_atRest (hw : rules.WellFormed) {nullable : SymbolSet} {first other : Array SymbolSet}
    (hrest : AtRest (FirstRenewal rules nullable) other) (hs : Within first other) :
    Within (firstStep rules nullable first) other := by
  refine ⟨size_firstStep.trans hs.size, fun id terminal h => ?_⟩
  rcases mem_firstStep.mp h with h | ⟨hlt, production, hp, h⟩
  · exact hs.mem id terminal h
  · obtain ⟨front, symbol, back, hright, hfront, hmem, hne⟩ := mem_heads_iff.mp h
    have hmem := hs.mem symbol terminal hmem
    -- a left side that is passed over would only add what it has
    by_cases he : symbol = id
    · exact he ▸ hmem
    · have hleft := (Rules.mem_alternatives.mp hp).2
      have hfixed := hrest _ (.renewed (hw.mem_declared_of_left hleft) hleft hright hfront he)
      exact subset_of_extend_eq hfixed (hs.size ▸ hlt) terminal (SymbolSet.mem_erase.mpr ⟨hmem, hne⟩)

theorem within_withEpsilon {nullable : SymbolSet} {sets : Array SymbolSet} :
    Within sets (withEpsilon nullable sets) :=
  ⟨size_withEpsilon.symm, fun _ _ h => mem_withEpsilon.mpr (Or.inl h)⟩

theorem withEpsilon_within {nullable : SymbolSet} {sets others : Array SymbolSet} (hs : Within sets others)
    (hepsilon : ∀ id < sets.size, id ∈ nullable → epsilonId ∈ setOf others id) :
    Within (withEpsilon nullable sets) others := by
  refine ⟨size_withEpsilon.trans hs.size, fun id terminal h => ?_⟩
  rcases mem_withEpsilon.mp h with h | ⟨hlt, hn, rfl⟩
  · exact hs.mem id terminal h
  · exact hepsilon id hlt hn

-- The rounds come to what the symbols of the right sides come to one by one, from seeds
-- that have the empty word already.
theorem endsIn_firstSets (hw : rules.WellFormed) :
    EndsIn (FirstRenewal rules (nullableSet rules)) (withEpsilon (nullableSet rules) (firstSeeds rules))
      (firstSets rules (nullableSet rules)) := by
  have hseeds : Within (firstSeeds rules) (saturatedFirst rules) :=
    saturate_induction (motive := Within (firstSeeds rules)) _ (fun _ h => h.trans within_firstStep) _ _ (.refl _)
  have hsets : Within (saturatedFirst rules) (firstSets rules (nullableSet rules)) := within_withEpsilon
  refine renewing_first.endsIn (fun first => totalSize first.size (setOf first)) Within.totalSize_lt ?_ ?_ ?_
  case refine_1 =>
    refine withEpsilon_within (hseeds.trans hsets) fun id hlt hn => ?_
    exact mem_firstSets.mpr (Or.inr ⟨hseeds.size ▸ hlt, hn, rfl⟩)
  case refine_2 =>
    rintro _ ⟨hp, hleft, hright, hfront, -⟩
    obtain ⟨index, -, -, rfl⟩ := Rules.mem_declared.mp hp
    refine extend_eq_of_subset fun terminal h => hsets.mem _ terminal ?_
    rw [← firstStep_saturatedFirst hw]
    refine mem_firstStep.mpr (Or.inr ⟨?_, index, Rules.mem_alternatives_of_left hleft, ?_⟩)
    · rw [(ofHeads_saturatedFirst hw).size]
      exact (hw.left_spec hleft).1
    · rw [← heads_firstSets]
      exact mem_heads_iff.mpr ⟨_, _, _, hright, hfront, SymbolSet.mem_erase.mp h⟩
  case refine_3 =>
    intro other hseed hrest
    have hother : Within (saturatedFirst rules) other :=
      saturate_induction (motive := fun first => Within first other) _ (fun _ => firstStep_within_of_atRest hw hrest)
        _ _ (within_withEpsilon.trans hseed)
    refine withEpsilon_within hother fun id hlt hn => hseed.mem id _ ?_
    exact mem_withEpsilon.mpr (Or.inr ⟨hseeds.size ▸ hlt, hn, rfl⟩)

end First

end FirstFollow

namespace Grammar

variable {grammar : Grammar}

theorem mem_heads (hw : grammar.toRules.WellFormed) {sequence : List Nat} {terminal : Nat}
    (hs : ∀ symbol ∈ sequence, symbol ≠ epsilonId) :
    terminal ∈ grammar.heads sequence ↔ Begins grammar.toRules sequence terminal := by
  unfold heads
  rw [grammar.sets_eq]
  exact FirstFollow.mem_heads_firstSets hw hs

theorem all_nullable (hw : grammar.toRules.WellFormed) {sequence : List Nat}
    (hs : ∀ symbol ∈ sequence, symbol ≠ epsilonId) :
    sequence.all grammar.nullable = true ↔ Vanishes grammar.toRules sequence := by
  rw [FirstFollow.vanishes_iff hw hs]
  simp only [List.all_eq_true, nullable, decide_eq_true_eq, grammar.sets_eq, Rules.firstFollow]

theorem mem_firstWithLookahead_iff {sequence : List Nat} {lookahead : SymbolSet} {terminal : Nat} :
    terminal ∈ grammar.firstWithLookahead sequence lookahead ↔
      terminal ∈ grammar.heads sequence ∨ sequence.all grammar.nullable = true ∧ terminal ∈ lookahead := by
  unfold firstWithLookahead
  by_cases hall : sequence.all grammar.nullable = true
  · simp [hall]
  · simp [hall]

-- The terminals that may follow a symbol with this sequence and a lookahead
-- behind it.
theorem mem_firstWithLookahead (hw : grammar.toRules.WellFormed) {sequence : List Nat}
    {lookahead : SymbolSet} {terminal : Nat} (hs : ∀ symbol ∈ sequence, symbol ≠ epsilonId) :
    terminal ∈ grammar.firstWithLookahead sequence lookahead ↔
      Begins grammar.toRules sequence terminal ∨
        Vanishes grammar.toRules sequence ∧ terminal ∈ lookahead := by
  rw [mem_firstWithLookahead_iff, mem_heads hw hs, all_nullable hw hs]

end Grammar

end IncrementalLR
