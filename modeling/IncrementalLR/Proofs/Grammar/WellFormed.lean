import IncrementalLR.Grammar.Build
import Mathlib.Data.List.Nodup

namespace IncrementalLR

namespace Rules

variable {rules : Rules}

theorem mem_alternatives {id production : Nat} :
    production ∈ rules.alternatives id ↔
      production < rules.productions.size ∧ (rules.production production).left = some id := by
  simp [alternatives, productionIds]

theorem production_of_size_le {id : Nat} (h : rules.productions.size ≤ id) :
    rules.production id = default := by
  simp [production, h]

-- A production with a left side is one of its alternatives.
theorem mem_alternatives_of_left {id production : Nat}
    (hleft : (rules.production production).left = some id) :
    production ∈ rules.alternatives id := by
  refine mem_alternatives.mpr ⟨?_, hleft⟩
  by_contra hn
  rw [production_of_size_le (by omega)] at hleft
  cases hleft

theorem symbol_of_getElem? {id : Nat} {symbol : Symbol} (h : rules.symbols[id]? = some symbol) :
    rules.symbol id = symbol := by
  simp [Rules.symbol, Array.getD_eq_getD_getElem?, h]

theorem getElem?_of_lt {id : Nat} (h : id < rules.symbols.size) :
    rules.symbols[id]? = some (rules.symbol id) := by
  simp [Rules.symbol, Array.getD_eq_getD_getElem?, h]

theorem mem_nonterminals {id : Nat} : id ∈ rules.nonterminals ↔ (rules.symbol id).isNonterminal = true := by
  rw [nonterminals, List.mem_filter, symbolIds, List.mem_range]
  refine and_iff_right_of_imp fun h => ?_
  by_contra hlt
  rw [symbol, Array.getD_eq_getD_getElem?, Array.getElem?_eq_none (Nat.le_of_not_lt hlt)] at h
  cases h

-- Rules as they come out of declarations: symbols are listed once, the first
-- production is that of the start rule, and every nonterminal has alternatives.
structure WellFormed (rules : Rules) : Prop where
  nodup : rules.symbols.toList.Nodup
  finish : rules.symbols[finishId]? = some .finish
  epsilon : rules.symbols[epsilonId]? = some .epsilon
  start_lt : rules.start < rules.symbols.size
  start_nonterminal : (rules.symbol rules.start).isNonterminal = true
  start_left : (rules.production startProduction).left = none
  start_right : (rules.production startProduction).right = [rules.start]
  size_pos : 0 < rules.productions.size
  left : ∀ id, startProduction < id → id < rules.productions.size →
    ∃ left, (rules.production id).left = some left ∧ left < rules.symbols.size ∧
      (rules.symbol left).isNonterminal = true
  right : ∀ id, ∀ symbol ∈ (rules.production id).right,
    symbol < rules.symbols.size ∧ symbol ≠ epsilonId
  defined : ∀ id, ∀ symbol ∈ (rules.production id).right,
    (rules.symbol symbol).isNonterminal = true → rules.alternatives symbol ≠ []

theorem mem_declared {production : Production} :
    production ∈ rules.declared ↔
      ∃ id, startProduction < id ∧ id < rules.productions.size ∧ rules.production id = production := by
  simp only [declared, List.mem_iff_getElem, List.getElem_tail, List.length_tail,
    Array.length_toList, Array.getElem_toList]
  constructor
  · rintro ⟨index, hi, rfl⟩
    have hlt : index + 1 < rules.productions.size := by omega
    exact ⟨index + 1, Nat.succ_pos index, hlt, by simp [Rules.production, hlt]⟩
  · rintro ⟨id, hpos, hlt, rfl⟩
    obtain ⟨index, rfl⟩ := Nat.exists_eq_add_one.mpr hpos
    exact ⟨index, by omega, by simp [Rules.production, hlt]⟩

namespace WellFormed

theorem symbolId?_eq_some (hw : rules.WellFormed) {symbol : Symbol} {id : Nat} :
    rules.symbolId? symbol = some id ↔ rules.symbols[id]? = some symbol := by
  unfold symbolId?
  simp only [Option.map_eq_some_iff, Array.finIdxOf?_eq_some_iff]
  constructor
  · rintro ⟨index, ⟨hs, -⟩, rfl⟩
    simp only [Fin.getElem_fin] at hs
    simp [hs]
  · intro h
    obtain ⟨hlt, hs⟩ := Array.getElem?_eq_some_iff.mp h
    refine ⟨⟨id, hlt⟩, ⟨hs, fun other ho he => ?_⟩, rfl⟩
    have hne : other.val ≠ id := Nat.ne_of_lt ho
    have hltother : other.val < rules.symbols.toList.length := by simp
    have hltid : id < rules.symbols.toList.length := by simpa
    have ht : rules.symbols.toList[other.val] = rules.symbols.toList[id] := by
      simpa only [Array.getElem_toList, Fin.getElem_fin] using he.trans hs.symm
    exact hne ((List.Nodup.getElem_inj_iff hw.nodup).mp ht)

theorem symbolId?_symbol (hw : rules.WellFormed) {id : Nat} (h : id < rules.symbols.size) :
    rules.symbolId? (rules.symbol id) = some id :=
  hw.symbolId?_eq_some.mpr (getElem?_of_lt h)

theorem symbol_finish (hw : rules.WellFormed) : rules.symbol finishId = .finish :=
  symbol_of_getElem? hw.finish

theorem symbol_epsilon (hw : rules.WellFormed) : rules.symbol epsilonId = .epsilon :=
  symbol_of_getElem? hw.epsilon

theorem finish_lt (hw : rules.WellFormed) : finishId < rules.symbols.size :=
  (Array.getElem?_eq_some_iff.mp hw.finish).1

theorem epsilon_lt (hw : rules.WellFormed) : epsilonId < rules.symbols.size :=
  (Array.getElem?_eq_some_iff.mp hw.epsilon).1

-- The left side of a production is a nonterminal of the vocabulary.
theorem left_spec (hw : rules.WellFormed) {production left : Nat}
    (hleft : (rules.production production).left = some left) :
    left < rules.symbols.size ∧ (rules.symbol left).isNonterminal = true := by
  have hm := mem_alternatives.mp (mem_alternatives_of_left hleft)
  have hne : production ≠ startProduction := by
    rintro rfl
    rw [hw.start_left] at hleft
    cases hleft
  obtain ⟨other, ho, hs⟩ := hw.left production (Nat.pos_of_ne_zero hne) hm.1
  rw [hleft, Option.some_inj] at ho
  exact ho ▸ hs

theorem left_ne_epsilon (hw : rules.WellFormed) {production left : Nat}
    (hleft : (rules.production production).left = some left) : left ≠ epsilonId := by
  rintro rfl
  have hn := (hw.left_spec hleft).2
  rw [hw.symbol_epsilon] at hn
  cases hn

-- A production with a left side is a declared one.
theorem mem_declared_of_left (hw : rules.WellFormed) {production left : Nat}
    (hleft : (rules.production production).left = some left) : rules.production production ∈ rules.declared := by
  have hm := mem_alternatives.mp (mem_alternatives_of_left hleft)
  refine mem_declared.mpr ⟨production, Nat.pos_of_ne_zero fun he => ?_, hm.1, rfl⟩
  subst he
  rw [show (0 : Nat) = startProduction from rfl, hw.start_left] at hleft
  cases hleft

end WellFormed

end Rules

namespace Declarations

theorem mem_of_mapM_productionOf {vocabulary : List Symbol} {rules : List (String × Alternative)}
    {productions : List Production} (h : rules.mapM (productionOf vocabulary) = .ok productions) :
    ∀ production ∈ productions, ∃ rule ∈ rules, productionOf vocabulary rule = .ok production := by
  induction rules generalizing productions with
  | nil =>
      simp only [List.mapM_nil, pure, Except.pure, Except.ok.injEq] at h
      simp [← h]
  | cons rule rest ih =>
      simp only [List.mapM_cons, bind, Except.bind] at h
      split at h
      · cases h
      · rename_i first hfirst
        split at h
        · cases h
        · rename_i others hothers
          simp only [pure, Except.pure, Except.ok.injEq] at h
          subst h
          intro production hp
          rcases List.mem_cons.mp hp with rfl | hp
          · exact ⟨rule, by simp, hfirst⟩
          · obtain ⟨other, ho, he⟩ := ih hothers production hp
            exact ⟨other, by simp [ho], he⟩

-- The sides of a production are numbered by the vocabulary.
theorem productionOf_spec {vocabulary : List Symbol} {rule : String × Alternative}
    {production : Production} (h : productionOf vocabulary rule = .ok production) :
    production.left = some (vocabulary.idxOf (.nonterminal rule.1)) ∧
      production.right = (rule.2.symbols.filter (· != .epsilon)).map vocabulary.idxOf := by
  unfold productionOf at h
  simp only [bind, Except.bind, pure, Except.pure] at h
  split at h
  · exact Except.ok.inj h ▸ ⟨rfl, rfl⟩
  · split at h
    · exact Except.ok.inj h ▸ ⟨rfl, rfl⟩
    · cases h

theorem nodup_eraseDups {α : Type} [BEq α] [LawfulBEq α] (values : List α) :
    values.eraseDups.Nodup := by
  generalize hn : values.length = n
  induction n using Nat.strongRecOn generalizing values with
  | ind n ih =>
      cases values with
      | nil => simp
      | cons first rest =>
          rw [List.eraseDups_cons, List.nodup_cons]
          have hl := List.length_filter_le (fun other => !other == first) rest
          simp only [List.length_cons] at hn
          exact ⟨by simp [List.mem_eraseDups], ih _ (by omega) _ rfl⟩

theorem nodup_vocabulary (declarations : Declarations) (start : String) :
    (declarations.vocabulary start).Nodup := nodup_eraseDups _

-- The end of input and the empty word come first, and then the start symbol.
theorem vocabulary_eq (declarations : Declarations) (start : String) :
    ∃ rest, declarations.vocabulary start = .finish :: .epsilon :: .nonterminal start :: rest := by
  unfold vocabulary
  rw [List.eraseDups_cons, List.filter_cons_of_pos rfl, List.filter_cons_of_pos rfl, List.eraseDups_cons,
    List.filter_cons_of_pos rfl, List.eraseDups_cons]
  exact ⟨_, rfl⟩

theorem start_mem_vocabulary (declarations : Declarations) (start : String) :
    .nonterminal start ∈ declarations.vocabulary start := by
  simp [vocabulary, List.mem_eraseDups]

theorem mem_vocabulary {declarations : Declarations} {start : String} {rule : String × Alternative}
    (hr : rule ∈ declarations.rules) {symbol : Symbol} (hs : symbol ∈ ruleSymbols rule) :
    symbol ∈ declarations.vocabulary start := by
  simp only [vocabulary, List.mem_eraseDups, List.mem_cons, List.mem_append, List.mem_flatMap]
  exact Or.inr (Or.inr (Or.inr (Or.inl ⟨rule, hr, hs⟩)))

-- The rules that are built, before they are found free of undefined symbols.
def rulesOf (declarations : Declarations) (start : String) (productions : List Production) :
    Rules := {
  symbols := (declarations.vocabulary start).toArray
  productions := (⟨none, [(declarations.vocabulary start).idxOf (.nonterminal start)], none, none⟩ ::
    productions).toArray
  start := (declarations.vocabulary start).idxOf (.nonterminal start)
  precedences := declarations.precedenceTable (declarations.vocabulary start) }

theorem build_eq_ok {declarations : Declarations} {grammar : Grammar}
    (h : declarations.build = .ok grammar) :
    ∃ start productions,
      declarations.rules.mapM (productionOf (declarations.vocabulary start)) = .ok productions ∧
        grammar = (declarations.rulesOf start productions).toGrammar ∧
        grammar.alternatives grammar.start ≠ [] ∧ grammar.undefined? = none := by
  unfold build at h
  split at h
  · cases h
  · rename_i firstLeft _ _ _
    simp only [bind, Except.bind, pure, Except.pure] at h
    split at h
    · cases h
    · rename_i productions hp
      split at h
      · cases h
      · rename_i hs
        split at h
        · cases h
        · rename_i hu
          cases h
          exact ⟨_, _, hp, rfl, fun he => hs (List.isEmpty_iff.mpr he), hu⟩

variable {declarations : Declarations} {start : String} {productions : List Production}

theorem symbol_rulesOf (productions : List Production) {symbol : Symbol} (hs : symbol ∈ declarations.vocabulary start) :
    (declarations.vocabulary start).idxOf symbol < (declarations.rulesOf start productions).symbols.size ∧
      (declarations.rulesOf start productions).symbol ((declarations.vocabulary start).idxOf symbol) =
        symbol := by
  have hlt := List.idxOf_lt_length_of_mem hs
  refine ⟨by simpa [rulesOf] using hlt, Rules.symbol_of_getElem? ?_⟩
  simp [rulesOf, hlt]

theorem production_rulesOf {id : Nat} (hpos : startProduction < id)
    (hlt : id < (declarations.rulesOf start productions).productions.size) :
    (declarations.rulesOf start productions).production id ∈ productions := by
  obtain ⟨index, rfl⟩ := Nat.exists_eq_add_one.mpr hpos
  simp only [rulesOf, List.size_toArray, List.length_cons] at hlt
  have hi : index < productions.length := by omega
  simp [Rules.production, rulesOf, hi]

theorem wellFormed_rulesOf
    (hp : declarations.rules.mapM (productionOf (declarations.vocabulary start)) = .ok productions)
    (hs : (declarations.rulesOf start productions).alternatives
      (declarations.rulesOf start productions).start ≠ [])
    (hu : (declarations.rulesOf start productions).undefined? = none) :
    (declarations.rulesOf start productions).WellFormed := by
  have hstart := symbol_rulesOf productions
    (start_mem_vocabulary declarations start)
  have hsource : ∀ production ∈ productions, ∃ rule ∈ declarations.rules,
      production.left = some ((declarations.vocabulary start).idxOf (.nonterminal rule.1)) ∧
        production.right =
          (rule.2.symbols.filter (· != .epsilon)).map (declarations.vocabulary start).idxOf :=
    fun production hmem =>
      have ⟨rule, hr, hprod⟩ := mem_of_mapM_productionOf hp production hmem
      ⟨rule, hr, productionOf_spec hprod⟩
  have hzero : (declarations.rulesOf start productions).production startProduction =
      ⟨none, [(declarations.rulesOf start productions).start], none, none⟩ := rfl
  obtain ⟨others, hvocabulary⟩ := vocabulary_eq declarations start
  have hdefault : ∀ id, ¬ id < (declarations.rulesOf start productions).productions.size →
      ((declarations.rulesOf start productions).production id).right = [] := by
    intro id hlt
    rw [Rules.production_of_size_le (by omega)]
    rfl
  constructor
  case nodup => exact nodup_vocabulary declarations start
  case finish => simp [rulesOf, hvocabulary, finishId]
  case epsilon => simp [rulesOf, hvocabulary, epsilonId]
  case start_lt => exact hstart.1
  case start_nonterminal =>
    have he : (declarations.rulesOf start productions).symbol
      (declarations.rulesOf start productions).start = .nonterminal start := hstart.2
    rw [he]
    rfl
  case start_left => rw [hzero]
  case start_right => rw [hzero]
  case size_pos => simp [rulesOf]
  case left =>
    intro id hpos hlt
    obtain ⟨rule, hr, hleft, -⟩ := hsource _ (production_rulesOf hpos hlt)
    have hmem : .nonterminal rule.1 ∈ declarations.vocabulary start :=
      mem_vocabulary hr (by simp [ruleSymbols])
    have hs := symbol_rulesOf productions hmem
    exact ⟨_, hleft, hs.1, by rw [hs.2]; rfl⟩
  case right =>
    intro id symbol hmem
    by_cases hlt : id < (declarations.rulesOf start productions).productions.size
    · have hspec : ∃ named ∈ declarations.vocabulary start, named ≠ .epsilon ∧
          symbol = (declarations.vocabulary start).idxOf named := by
        rcases Nat.eq_zero_or_pos id with rfl | hpos
        · change symbol ∈ [(declarations.rulesOf start productions).start] at hmem
          rw [List.mem_singleton] at hmem
          exact ⟨.nonterminal start, start_mem_vocabulary declarations start, by simp, hmem⟩
        · obtain ⟨rule, hr, -, hright⟩ := hsource _ (production_rulesOf hpos hlt)
          rw [hright] at hmem
          obtain ⟨named, hn, rfl⟩ := List.mem_map.mp hmem
          have hne : named ≠ .epsilon := by simpa using List.of_mem_filter hn
          exact ⟨named, mem_vocabulary hr (by simp [ruleSymbols, List.mem_of_mem_filter hn, hne]),
            hne, rfl⟩
      obtain ⟨named, hn, hne, rfl⟩ := hspec
      have hs := symbol_rulesOf productions hn
      refine ⟨hs.1, fun he => hne ?_⟩
      rw [← hs.2, he]
      exact Rules.symbol_of_getElem? (by simp [rulesOf, hvocabulary, epsilonId])
    · rw [hdefault id hlt] at hmem
      cases hmem
  case defined =>
    intro id symbol hmem hn
    by_cases hlt : id < (declarations.rulesOf start productions).productions.size
    · rcases Nat.eq_zero_or_pos id with rfl | hpos
      · change symbol ∈ [(declarations.rulesOf start productions).start] at hmem
        rw [List.mem_singleton] at hmem
        exact hmem ▸ hs
      · simp only [Rules.undefined?, List.findSome?_eq_none_iff] at hu
        have hnone := hu _ (Rules.mem_declared.mpr ⟨id, hpos, hlt, rfl⟩) symbol hmem
        intro he
        simp [hn, he] at hnone
    · rw [hdefault id hlt] at hmem
      cases hmem

end Declarations

-- Grammars as declarations give them, also from another start symbol.
inductive Grammar.Built : Grammar → Prop where
  | declared {declarations : Declarations} {grammar : Grammar} :
      declarations.build = .ok grammar → Built grammar
  | restarted {grammar other : Grammar} {start : Symbol} :
      Built grammar → grammar.withStart start = .ok other → Built other

namespace Rules

-- The rules from another start symbol.
def restart (rules : Rules) (id : Nat) : Rules :=
  { rules with
    start := id
    productions := rules.productions.setIfInBounds startProduction
      { rules.production startProduction with right := [id] } }

variable {rules : Rules} {id : Nat}

theorem production_restart (hw : rules.WellFormed) (other : Nat) :
    (rules.restart id).production other =
      if other = startProduction then { rules.production startProduction with right := [id] }
      else rules.production other := by
  have hpos := hw.size_pos
  simp only [restart, Rules.production, Array.getD_eq_getD_getElem?, Array.getElem?_setIfInBounds]
  split
  · rename_i he
    subst he
    rw [if_pos (show startProduction < _ from hpos), if_pos rfl, Option.getD_some]
  · rename_i hne
    rw [if_neg (Ne.symm hne)]

theorem left_restart (hw : rules.WellFormed) (other : Nat) :
    ((rules.restart id).production other).left = (rules.production other).left := by
  rw [production_restart hw]
  split
  · rename_i he
    rw [he]
  · rfl

theorem alternatives_restart (hw : rules.WellFormed) (other : Nat) :
    (rules.restart id).alternatives other = rules.alternatives other := by
  unfold alternatives productionIds
  simp only [left_restart hw]
  simp [restart]

theorem WellFormed.restart (hw : rules.WellFormed) (hlt : id < rules.symbols.size)
    (hn : (rules.symbol id).isNonterminal = true) (ha : rules.alternatives id ≠ []) :
    (rules.restart id).WellFormed := by
  have hsize : (rules.restart id).productions.size = rules.productions.size := by simp [Rules.restart]
  constructor
  case nodup => exact hw.nodup
  case finish => exact hw.finish
  case epsilon => exact hw.epsilon
  case start_lt => exact hlt
  case start_nonterminal => exact hn
  case start_left => rw [left_restart hw, hw.start_left]
  case start_right => rw [production_restart hw, if_pos rfl]; rfl
  case size_pos => rw [hsize]; exact hw.size_pos
  case left =>
    intro other hpos hother
    rw [left_restart hw]
    exact hw.left other hpos (hsize ▸ hother)
  case right =>
    intro other symbol hmem
    rw [production_restart hw] at hmem
    split at hmem
    · rw [List.mem_singleton.mp hmem]
      refine ⟨hlt, fun he => ?_⟩
      rw [he, hw.symbol_epsilon] at hn
      cases hn
    · exact hw.right other symbol hmem
  case defined =>
    intro other symbol hmem hs
    rw [alternatives_restart hw]
    rw [production_restart hw] at hmem
    split at hmem
    · rw [List.mem_singleton.mp hmem]
      exact ha
    · exact hw.defined other symbol hmem hs

end Rules

theorem Grammar.Built.wellFormed {grammar : Grammar} (hb : grammar.Built) :
    grammar.toRules.WellFormed := by
  induction hb with
  | declared h =>
      obtain ⟨start, productions, hp, rfl, hs, hu⟩ := Declarations.build_eq_ok h
      exact Declarations.wellFormed_rulesOf hp hs hu
  | @restarted grammar other start hb h ih =>
      unfold Grammar.withStart at h
      split at h
      · cases h
      · rename_i id hid
        split at h
        · cases h
        · rename_i hstart
          split at h
          · exact Except.ok.inj h ▸ ih
          · have hs := ih.symbolId?_eq_some.mp hid
            simp only [Bool.or_eq_true, Bool.not_eq_true', not_or, Bool.not_eq_false,
              List.isEmpty_iff] at hstart
            rw [← Except.ok.inj h]
            have hlt := (Array.getElem?_eq_some_iff.mp hs).1
            refine Rules.WellFormed.restart ih hlt ?_ hstart.2
            rw [Rules.symbol_of_getElem? hs]
            exact hstart.1

-- A grammar that is LR(1) but not LALR(1): what follows on "c" decides between A and
-- B only together with what comes before it.
def Declarations.crossed : Declarations := {
  start := none
  rules := [
    ("S", ⟨[.terminal "a", .nonterminal "A", .terminal "d"], none, none⟩),
    ("S", ⟨[.terminal "b", .nonterminal "B", .terminal "d"], none, none⟩),
    ("S", ⟨[.terminal "a", .nonterminal "B", .terminal "e"], none, none⟩),
    ("S", ⟨[.terminal "b", .nonterminal "A", .terminal "e"], none, none⟩),
    ("A", ⟨[.terminal "c"], none, none⟩),
    ("B", ⟨[.terminal "c"], none, none⟩)]
  precedences := [] }

def Rules.crossed : Rules := {
  symbols := #[.finish, .epsilon, .nonterminal "S", .terminal "a", .nonterminal "A", .terminal "d",
    .terminal "b", .nonterminal "B", .terminal "e", .terminal "c"]
  productions := #[⟨none, [2], none, none⟩, ⟨some 2, [3, 4, 5], none, none⟩,
    ⟨some 2, [6, 7, 5], none, none⟩, ⟨some 2, [3, 7, 8], none, none⟩,
    ⟨some 2, [6, 4, 8], none, none⟩, ⟨some 4, [9], none, none⟩, ⟨some 7, [9], none, none⟩]
  start := 2
  precedences := Array.replicate 10 none }

theorem built_crossed : Rules.crossed.toGrammar.Built :=
  .declared (show Declarations.crossed.build = .ok Rules.crossed.toGrammar from rfl)

end IncrementalLR
