import IncrementalLR.Proofs.Automaton.Merging

namespace IncrementalLR

-- The item set that a word leads to when no states are merged.
def Grammar.canonical (grammar : Grammar) (word : List Nat) : ItemSet :=
  word.foldl (fun set symbol => set.goto grammar .lr1 symbol) ((ItemSet.startKernel .lr1).closure grammar .lr1)

-- The kernel of that set. The last symbol of the word comes first.
def Grammar.canonicalKernel (grammar : Grammar) : List Nat → ItemSet
  | [] => .startKernel .lr1
  | symbol :: spelled =>
      ((canonicalKernel grammar spelled).closure grammar .lr1).gotoKernel grammar symbol

-- The state that a word leads to from a state.
def StateGraph.walk (graph : StateGraph) : Nat → List Nat → Option Nat
  | id, [] => some id
  | id, symbol :: word => (graph.follow id symbol).bind fun target => graph.walk target word

namespace ItemSet

variable {grammar : Grammar} {mode : Mode} {set other : ItemSet} {item : Item} {symbol terminal : Nat}

theorem hasItem_congr (hc : set.cores = other.cores) (item : Item) :
    set.HasItem item ↔ other.HasItem item := by
  rw [HasItem, HasItem, hc]

theorem cores_merge (hc : set.cores = other.cores) : (set.merge other).cores = set.cores :=
  cores_eq fun item => by rw [hasItem_merge, hasItem_congr hc, or_self]

theorem bounded_merge {size : Nat} (hs : set.Bounded size) (ho : other.Bounded size) :
    (set.merge other).Bounded size := fun item symbol h =>
  (sees_merge.mp h).elim (hs item symbol) (ho item symbol)

theorem bounded_gotoKernel {size : Nat} (hb : set.Bounded size) :
    (set.gotoKernel grammar symbol).Bounded size := by
  intro item terminal h
  obtain ⟨source, hsees, -, -⟩ := sees_gotoKernel.mp h
  exact hb source terminal hsees

theorem bounded_startKernel (hw : grammar.toRules.WellFormed) :
    (startKernel mode).Bounded grammar.symbols.size := by
  intro item terminal h
  rw [(sees_startKernel.mp h).2.2]
  exact hw.finish_lt

theorem cores_closure (hw : grammar.toRules.WellFormed) (hs : set.Bounded grammar.symbols.size)
    (ho : other.Bounded grammar.symbols.size) (hc : set.cores = other.cores) :
    (set.closure grammar mode).cores = (other.closure grammar mode).cores := by
  refine cores_eq fun item => ?_
  rw [hasItem_closure hw hs, hasItem_closure hw ho]
  exact ⟨.mono fun item => (hasItem_congr hc item).mp, .mono fun item => (hasItem_congr hc item).mpr⟩

theorem cores_gotoKernel (hc : set.cores = other.cores) :
    (set.gotoKernel grammar symbol).cores = (other.gotoKernel grammar symbol).cores :=
  cores_eq fun item => by simp only [hasItem_gotoKernel, hasItem_congr hc]

-- With lookaheads the mode makes no difference to the states before they are merged.
theorem startKernel_eq_lr1 (hmode : mode ≠ .lr0) : startKernel mode = startKernel .lr1 := by
  cases mode with
  | lr0 => exact absurd rfl hmode
  | lr1 => rfl
  | lalr => rfl

theorem closure_eq_lr1 (hmode : mode ≠ .lr0) : set.closure grammar mode = set.closure grammar .lr1 := by
  cases mode with
  | lr0 => exact absurd rfl hmode
  | lr1 => rfl
  | lalr => rfl

theorem isEmpty_iff : set.isEmpty = true ↔ ∀ item, ¬ set.HasItem item := by
  rw [isEmpty, List.isEmpty_iff]
  constructor
  · intro h item hi
    rw [HasItem, cores, h] at hi
    cases hi
  · intro h
    cases he : set.entries with
    | nil => rfl
    | cons entry rest => exact absurd (hasItem_of_mem (he ▸ List.mem_cons_self)) (h entry.1)

end ItemSet

-- Where a lookahead of a closure comes from: it is there in the closures of all
-- sets of the same cores, or an item of the set carries it there.
theorem Foresees.begun_or_carried {rules : Rules} {set : ItemSet} {item : Item} {terminal : Nat}
    (hf : Foresees rules set item terminal) :
    (∀ other : ItemSet, other.cores = set.cores → Foresees rules other item terminal) ∨
      ∃ source, set.Sees source terminal ∧
        ∀ (other : ItemSet) (symbol : Nat), other.Sees source symbol → Foresees rules other item symbol := by
  induction hf with
  | @given item terminal hs => exact Or.inr ⟨item, hs, fun other symbol h => .given h⟩
  | begun hr hb hbegins =>
      refine Or.inl fun other hc => .begun (hr.mono fun item hi => ?_) hb hbegins
      exact (ItemSet.hasItem_congr hc item).mpr hi
  | passed _ hb hv ih =>
      rcases ih with ih | ⟨source, hs, ih⟩
      · exact Or.inl fun other hc => .passed (ih other hc) hb hv
      · exact Or.inr ⟨source, hs, fun other symbol h => .passed (ih other symbol h) hb hv⟩

namespace Grammar

variable {grammar : Grammar} {word : List Nat} {symbol : Nat}

theorem bounded_canonicalKernel (hw : grammar.toRules.WellFormed) (spelled : List Nat) :
    (grammar.canonicalKernel spelled).Bounded grammar.symbols.size := by
  induction spelled with
  | nil => exact ItemSet.bounded_startKernel hw
  | cons symbol spelled ih => exact ItemSet.bounded_gotoKernel (ItemSet.bounded_closure hw ih)

theorem canonical_concat (word : List Nat) (symbol : Nat) :
    grammar.canonical (word ++ [symbol]) = (grammar.canonical word).goto grammar .lr1 symbol := by
  rw [canonical, List.foldl_append]
  rfl

theorem canonical_eq_closure (spelled : List Nat) :
    grammar.canonical spelled.reverse = (grammar.canonicalKernel spelled).closure grammar .lr1 := by
  induction spelled with
  | nil => rfl
  | cons symbol spelled ih =>
      rw [List.reverse_cons, canonical_concat, ih]
      rfl

theorem bounded_canonical (hw : grammar.toRules.WellFormed) (word : List Nat) :
    (grammar.canonical word).Bounded grammar.symbols.size := by
  rw [← List.reverse_reverse word, canonical_eq_closure]
  exact ItemSet.bounded_closure hw (bounded_canonicalKernel hw _)

end Grammar

-- Kernels that are made of canonical ones of their own cores. Items that share a
-- lookahead share one in a canonical kernel.
structure Accounted (grammar : Grammar) (set : ItemSet) : Prop where
  bounded : set.Bounded grammar.symbols.size
  cores : ∃ spelled, (grammar.canonicalKernel spelled).cores = set.cores
  sees : ∀ item terminal, set.Sees item terminal →
    ∃ spelled, (grammar.canonicalKernel spelled).cores = set.cores ∧
      (grammar.canonicalKernel spelled).Sees item terminal
  shared : ∀ item other terminal, item ≠ other → set.Sees item terminal → set.Sees other terminal →
    ∃ spelled symbol, (grammar.canonicalKernel spelled).cores = set.cores ∧
      (grammar.canonicalKernel spelled).Sees item symbol ∧
      (grammar.canonicalKernel spelled).Sees other symbol

namespace ItemSet

variable {set other : ItemSet}

theorem clash_eq_false {left right : SymbolSet × SymbolSet} (hc : clash left right = false)
    {terminal : Nat} (hl : terminal ∈ left.1) (hr : terminal ∈ right.2) :
    (∃ symbol, symbol ∈ left.1 ∧ symbol ∈ right.1) ∨ ∃ symbol, symbol ∈ left.2 ∧ symbol ∈ right.2 := by
  have hmeets : ∀ {one two : SymbolSet}, one.isDisjoint two = false ↔ ∃ symbol, symbol ∈ one ∧ symbol ∈ two := by
    intro one two
    simp [SymbolSet.isDisjoint, SymbolSet.mem_def]
  have hcrossed : left.1.isDisjoint right.2 = false := hmeets.mpr ⟨terminal, hl, hr⟩
  simp only [clash, hcrossed, Bool.not_false, Bool.true_or, Bool.true_and, Bool.and_eq_false_iff] at hc
  exact hc.imp hmeets.mp hmeets.mp

theorem clash_comm (left right : SymbolSet × SymbolSet) : clash left right = clash right left := by
  have hcomm : ∀ one two : SymbolSet, one.isDisjoint two = two.isDisjoint one := by
    intro one two
    rw [Bool.eq_iff_iff]
    simp only [SymbolSet.isDisjoint, List.all_eq_true, decide_eq_true_eq, SymbolSet.mem_def]
    exact ⟨fun h id hid hone => h id hone hid, fun h id hid htwo => h id htwo hid⟩
  simp only [clash, hcomm left.1 right.1, hcomm left.2 right.2]
  rw [Bool.or_comm]

theorem clash_of_anyClash {pairs : List (SymbolSet × SymbolSet)} (h : anyClash pairs = false)
    {first second : Nat} {left right : SymbolSet × SymbolSet} (hne : first ≠ second)
    (hl : pairs[first]? = some left) (hr : pairs[second]? = some right) : clash left right = false := by
  induction pairs generalizing first second with
  | nil => simp at hl
  | cons pair rest ih =>
      simp only [anyClash, Bool.or_eq_false_iff, List.any_eq_false, Bool.not_eq_true] at h
      cases first with
      | zero =>
          cases second with
          | zero => exact absurd rfl hne
          | succ second =>
              obtain rfl := Option.some_inj.mp hl
              exact h.1 right (List.mem_of_getElem? hr)
      | succ first =>
          cases second with
          | zero =>
              obtain rfl := Option.some_inj.mp hr
              rw [clash_comm]
              exact h.1 left (List.mem_of_getElem? hl)
          | succ second => exact ih h.2 (by omega) hl hr

-- The lookaheads of an item in two sets of the same cores stand in the same place.
theorem exists_getElem?_zip (hc : set.cores = other.cores) {item : Item} (hi : set.HasItem item) :
    ∃ (index : Nat) (left right : SymbolSet), set.cores[index]? = some item ∧
      ((set.entries.map (·.2)).zip (other.entries.map (·.2)))[index]? = some (left, right) ∧
      (∀ symbol, set.Sees item symbol ↔ symbol ∈ left) ∧
      ∀ symbol, other.Sees item symbol ↔ symbol ∈ right := by
  obtain ⟨index, hlt, hget⟩ := List.mem_iff_getElem.mp hi
  have hlength : set.cores.length = other.cores.length := congrArg List.length hc
  have hltset : index < set.entries.length := by simpa [cores] using hlt
  have hltother : index < other.entries.length := by
    have : set.entries.length = other.entries.length := by simpa [cores] using hlength
    omega
  have hitem : (set.entries[index]).1 = item := by simpa [cores] using hget
  have hother : (other.entries[index]).1 = item := by
    have h : other.cores[index]? = some item := by
      rw [← hc, List.getElem?_eq_getElem hlt, hget]
    simpa [cores, hltother] using h
  refine ⟨index, (set.entries[index]).2, (other.entries[index]).2, ?_, ?_, fun symbol => ?_, fun symbol => ?_⟩
  · rw [List.getElem?_eq_getElem hlt, hget]
  · simp [hltset, hltother]
  · exact sees_iff (by rw [← hitem]; exact List.getElem_mem hltset)
  · exact sees_iff (by rw [← hother]; exact List.getElem_mem hltother)

-- If two sets are weakly compatible, two items that share a lookahead across them
-- share one in either set.
theorem shared_of_weaklyCompatible (hw : set.weaklyCompatible other = true) {item second : Item}
    (hne : item ≠ second) {terminal : Nat} (hs : set.Sees item terminal)
    (ho : other.Sees second terminal) :
    (∃ symbol, set.Sees item symbol ∧ set.Sees second symbol) ∨
      ∃ symbol, other.Sees item symbol ∧ other.Sees second symbol := by
  have hc := cores_eq_of_weaklyCompatible hw
  simp only [weaklyCompatible, Bool.and_eq_true, Bool.not_eq_true'] at hw
  obtain ⟨index, left, right, hindex, hzip, hleft, hright⟩ := exists_getElem?_zip hc hs.hasItem
  obtain ⟨place, left', right', hplace, hzip', hleft', hright'⟩ :=
    exists_getElem?_zip hc ((hasItem_congr hc second).mpr ho.hasItem)
  have hdistinct : index ≠ place := by
    rintro rfl
    exact hne (Option.some_inj.mp (hindex.symm.trans hplace))
  have hclash := clash_of_anyClash hw.2 hdistinct hzip hzip'
  rcases clash_eq_false hclash ((hleft terminal).mp hs) ((hright' terminal).mp ho) with
    ⟨symbol, hl, hr⟩ | ⟨symbol, hl, hr⟩
  · exact Or.inl ⟨symbol, (hleft symbol).mpr hl, (hleft' symbol).mpr hr⟩
  · exact Or.inr ⟨symbol, (hright symbol).mpr hl, (hright' symbol).mpr hr⟩

end ItemSet

namespace Accounted

variable {grammar : Grammar} {set other : ItemSet} {item second : Item} {terminal : Nat}

theorem start (hw : grammar.toRules.WellFormed) : Accounted grammar (.startKernel .lr1) :=
  ⟨ItemSet.bounded_startKernel hw, ⟨[], rfl⟩, fun _ _ h => ⟨[], rfl, h⟩,
    fun _ _ terminal _ h h' => ⟨[], terminal, rfl, h, h'⟩⟩

theorem merge (hs : Accounted grammar set) (ho : Accounted grammar other)
    (hw : set.weaklyCompatible other = true) : Accounted grammar (set.merge other) := by
  have hc := ItemSet.cores_eq_of_weaklyCompatible hw
  have hmerged : (set.merge other).cores = set.cores := ItemSet.cores_merge hc
  -- what the two items share in either set they share in a canonical kernel
  have hshared : ∀ {item second}, item ≠ second →
      ((∃ symbol, set.Sees item symbol ∧ set.Sees second symbol) ∨
        ∃ symbol, other.Sees item symbol ∧ other.Sees second symbol) →
      ∃ spelled symbol, (grammar.canonicalKernel spelled).cores = (set.merge other).cores ∧
        (grammar.canonicalKernel spelled).Sees item symbol ∧
        (grammar.canonicalKernel spelled).Sees second symbol := by
    intro item second hne h
    rw [hmerged]
    rcases h with ⟨symbol, hl, hr⟩ | ⟨symbol, hl, hr⟩
    · exact hs.shared item second symbol hne hl hr
    · rw [hc]
      exact ho.shared item second symbol hne hl hr
  constructor
  case bounded => exact ItemSet.bounded_merge hs.bounded ho.bounded
  case cores =>
    rw [hmerged]
    exact hs.cores
  case sees =>
    intro item terminal h
    rw [hmerged]
    rcases ItemSet.sees_merge.mp h with h | h
    · exact hs.sees item terminal h
    · rw [hc]
      exact ho.sees item terminal h
  case shared =>
    intro item second terminal hne hl hr
    refine hshared hne ?_
    rcases ItemSet.sees_merge.mp hl with hl | hl
    · rcases ItemSet.sees_merge.mp hr with hr | hr
      · exact Or.inl ⟨terminal, hl, hr⟩
      · exact ItemSet.shared_of_weaklyCompatible hw hne hl hr
    · rcases ItemSet.sees_merge.mp hr with hr | hr
      · have h := ItemSet.shared_of_weaklyCompatible hw hne.symm hr hl
        exact h.imp (fun ⟨symbol, hl, hr⟩ => ⟨symbol, hr, hl⟩) fun ⟨symbol, hl, hr⟩ => ⟨symbol, hr, hl⟩
      · exact Or.inr ⟨terminal, hl, hr⟩

theorem foresees (ha : Accounted grammar set) (hf : Foresees grammar.toRules set item terminal) :
    ∃ spelled, (grammar.canonicalKernel spelled).cores = set.cores ∧
      Foresees grammar.toRules (grammar.canonicalKernel spelled) item terminal := by
  rcases hf.begun_or_carried with h | ⟨source, hs, h⟩
  · obtain ⟨spelled, hc⟩ := ha.cores
    exact ⟨spelled, hc, h _ hc⟩
  · obtain ⟨spelled, hc, hs⟩ := ha.sees source terminal hs
    exact ⟨spelled, hc, h _ _ hs⟩

-- Items that share a lookahead in the closure share one in a canonical set.
theorem foresees_both (ha : Accounted grammar set)
    (hl : Foresees grammar.toRules set item terminal)
    (hr : Foresees grammar.toRules set second terminal) :
    ∃ spelled symbol, (grammar.canonicalKernel spelled).cores = set.cores ∧
      Foresees grammar.toRules (grammar.canonicalKernel spelled) item symbol ∧
      Foresees grammar.toRules (grammar.canonicalKernel spelled) second symbol := by
  rcases hl.begun_or_carried with h | ⟨source, hs, h⟩
  · obtain ⟨spelled, hc, hr⟩ := ha.foresees hr
    exact ⟨spelled, terminal, hc, h _ hc, hr⟩
  · rcases hr.begun_or_carried with h' | ⟨origin, ho, h'⟩
    · obtain ⟨spelled, hc, hs⟩ := ha.sees source terminal hs
      exact ⟨spelled, terminal, hc, h _ _ hs, h' _ hc⟩
    · by_cases he : source = origin
      · subst he
        obtain ⟨spelled, hc, hs⟩ := ha.sees source terminal hs
        exact ⟨spelled, terminal, hc, h _ _ hs, h' _ _ hs⟩
      · obtain ⟨spelled, symbol, hc, hs, ho⟩ := ha.shared source origin terminal he hs ho
        exact ⟨spelled, symbol, hc, h _ _ hs, h' _ _ ho⟩

theorem goto (hw : grammar.toRules.WellFormed) (ha : Accounted grammar set) (symbol : Nat) :
    Accounted grammar ((set.closure grammar .lr1).gotoKernel grammar symbol) := by
  have hcores : ∀ {spelled}, (grammar.canonicalKernel spelled).cores = set.cores →
      (grammar.canonicalKernel (symbol :: spelled)).cores =
        ((set.closure grammar .lr1).gotoKernel grammar symbol).cores := fun hc =>
    ItemSet.cores_gotoKernel
      (ItemSet.cores_closure hw (Grammar.bounded_canonicalKernel hw _) ha.bounded hc)
  have hmode : (Mode.lr1 ≠ .lr0) := Mode.noConfusion
  have hmoved : ∀ {spelled source terminal}, source.next? grammar.toRules = some symbol →
      Foresees grammar.toRules (grammar.canonicalKernel spelled) source terminal →
      (grammar.canonicalKernel (symbol :: spelled)).Sees source.advance terminal := fun hn hf =>
    ItemSet.sees_gotoKernel.mpr ⟨_, ItemSet.sees_closure_of_foresees hw
      (Grammar.bounded_canonicalKernel hw _) hmode hf, hn, rfl⟩
  constructor
  case bounded => exact ItemSet.bounded_gotoKernel (ItemSet.bounded_closure hw ha.bounded)
  case cores =>
    obtain ⟨spelled, hc⟩ := ha.cores
    exact ⟨symbol :: spelled, hcores hc⟩
  case sees =>
    intro item terminal h
    obtain ⟨source, hs, hn, rfl⟩ := ItemSet.sees_gotoKernel.mp h
    obtain ⟨spelled, hc, hf⟩ := ha.foresees (ItemSet.foresees_of_sees_closure hw hs)
    exact ⟨symbol :: spelled, hcores hc, hmoved hn hf⟩
  case shared =>
    intro item second terminal _ hl hr
    obtain ⟨source, hs, hn, rfl⟩ := ItemSet.sees_gotoKernel.mp hl
    obtain ⟨origin, ho, hn', rfl⟩ := ItemSet.sees_gotoKernel.mp hr
    obtain ⟨spelled, shared, hc, hf, hf'⟩ := ha.foresees_both
      (ItemSet.foresees_of_sees_closure hw hs) (ItemSet.foresees_of_sees_closure hw ho)
    exact ⟨symbol :: spelled, shared, hcores hc, hmoved hn hf, hmoved hn' hf'⟩

end Accounted

namespace Construction

variable {grammar : Grammar} {mode : Mode} {building : Construction} {source symbol : Nat}
  {kernel : ItemSet} {motive : Option Nat → ItemSet → Prop}

-- Constructions whose kernels all have a property, along with the symbols over which they
-- were first reached.
structure Bears (motive : Option Nat → ItemSet → Prop) (building : Construction) : Prop where
  shaped : building.Shaped
  kernels : ∀ id, id < building.size → motive (building.origin id) (building.kernel id)
  pending_lt : ∀ id, id ∈ building.pending → id < building.size

theorem Bears.connect (symbol : Nat)
    (hmerge : ∀ origin set other, motive origin set → motive origin other → set.weaklyCompatible other = true →
      motive origin (set.merge other))
    (hb : building.Bears motive) (hsource : source < building.size) (hk : motive (some symbol) kernel) :
    (building.connect source symbol kernel).Bears motive ∧
      building.size ≤ (building.connect source symbol kernel).size := by
  have hc := connected_connect hb.shaped hsource symbol kernel
  refine ⟨⟨hc.shaped, fun id hid => ?_, fun id hid => ?_⟩, hc.size_le⟩
  · unfold Construction.connect at hid ⊢
    cases hcompatible : building.compatible? symbol kernel with
    | none =>
        rw [hcompatible] at hid
        change motive ((building.create symbol kernel).origin id) ((building.create symbol kernel).kernel id)
        have hid : id < (building.create symbol kernel).size := hid
        rw [size_create] at hid
        rw [kernel_create, origin_create hb.shaped]
        by_cases hnew : id = building.size
        · rw [if_pos hnew, if_pos hnew]
          exact hk
        · rw [if_neg hnew, if_neg hnew]
          exact hb.kernels id (by omega)
    | some merged =>
        rw [hcompatible] at hid
        change motive ((building.mergeInto merged kernel).origin id) ((building.mergeInto merged kernel).kernel id)
        have hid : id < (building.mergeInto merged kernel).size := hid
        have ⟨hlt, horigin, hweak⟩ := compatible?_eq_some hcompatible
        rw [size_mergeInto] at hid
        rw [kernel_mergeInto hlt, origin_mergeInto]
        split
        · rename_i hmerged
          rw [hmerged, horigin]
          exact hmerge _ _ _ (horigin ▸ hb.kernels merged hlt) hk hweak
        · exact hb.kernels id hid
  · rcases hc.pending_lt id hid with hid | rfl
    · exact Nat.lt_of_lt_of_le (hb.pending_lt id hid) hc.size_le
    · exact hc.target_lt

theorem Bears.foldl
    (hmerge : ∀ origin set other, motive origin set → motive origin other → set.weaklyCompatible other = true →
      motive origin (set.merge other))
    {kernels : Nat → ItemSet} {symbols : List Nat} (hk : ∀ symbol, motive (some symbol) (kernels symbol))
    (hb : building.Bears motive) (hsource : source < building.size) :
    (symbols.foldl (fun building symbol => building.connect source symbol (kernels symbol))
      building).Bears motive := by
  induction symbols generalizing building with
  | nil => exact hb
  | cons symbol rest ih =>
      have ⟨hnext, hle⟩ := hb.connect symbol hmerge hsource (hk symbol)
      exact ih hnext (Nat.lt_of_lt_of_le hsource hle)

theorem Bears.process
    (hmerge : ∀ origin set other, motive origin set → motive origin other → set.weaklyCompatible other = true →
      motive origin (set.merge other))
    (hgoto : ∀ origin set symbol, motive origin set →
      motive (some symbol) ((set.closure grammar mode).gotoKernel grammar symbol))
    {id : Nat} {rest : List Nat} (hb : building.Bears motive) (hp : building.pending = id :: rest) :
    (Construction.process grammar mode { building with pending := rest } id).Bears motive := by
  have hid : id < building.size := hb.pending_lt id (by simp [hp])
  refine Bears.foldl hmerge (fun symbol => hgoto _ _ symbol (hb.kernels id hid)) ?_ hid
  refine ⟨{ hb.shaped with settled := ?_ }, hb.kernels, fun other ho => hb.pending_lt other ?_⟩
  · exact (Array.size_setIfInBounds ..).trans hb.shaped.settled
  · rw [hp]
    exact List.mem_cons_of_mem _ ho

theorem bears_start (hstart : motive none (.startKernel mode)) : (start mode).Bears motive := by
  refine ⟨⟨rfl, rfl, rfl, Nat.one_pos, rfl⟩, fun id hid => ?_, fun id hid => ?_⟩
  · have hid : id < 1 := hid
    obtain rfl : id = 0 := by omega
    rw [kernel_start, if_pos rfl]
    exact hstart
  · rw [List.mem_singleton.mp hid]
    exact Nat.one_pos

-- What holds of the start kernel, and is kept by merging weakly compatible sets
-- and by going on from a closure, holds of every kernel.
theorem kernel_induction (hstart : motive none (.startKernel mode))
    (hmerge : ∀ origin set other, motive origin set → motive origin other → set.weaklyCompatible other = true →
      motive origin (set.merge other))
    (hgoto : ∀ origin set symbol, motive origin set →
      motive (some symbol) ((set.closure grammar mode).gotoKernel grammar symbol))
    {id : Nat} (hid : id < (finished grammar mode).size) :
    motive ((finished grammar mode).origin id) ((finished grammar mode).kernel id) := by
  have hrun : ∀ (fuel : Nat) (building : Construction), building.Bears motive →
      (run grammar mode fuel building).Bears motive := by
    intro fuel
    induction fuel with
    | zero => exact fun building hb => hb
    | succ fuel ih =>
        intro building hb
        unfold run
        split
        · exact hb
        · rename_i id rest hp
          exact ih _ (hb.process hmerge hgoto hp)
  exact (hrun _ (start mode) (bears_start hstart)).kernels id hid

theorem accounted_finished (hw : grammar.toRules.WellFormed) (hmode : mode ≠ .lr0) {id : Nat}
    (hid : id < (finished grammar mode).size) : Accounted grammar ((finished grammar mode).kernel id) := by
  apply @kernel_induction _ _ (fun _ => Accounted grammar) _ _ _ id hid
  · rw [ItemSet.startKernel_eq_lr1 hmode]
    exact .start hw
  · exact fun _ _ _ => .merge
  · intro _ set symbol ha
    rw [ItemSet.closure_eq_lr1 hmode]
    exact ha.goto hw symbol

end Construction

end IncrementalLR
