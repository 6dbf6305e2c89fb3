import IncrementalLR.Proofs.Grammar.WellFormed

namespace IncrementalLR

-- The words over terminals that a sequence of symbols derives.
inductive Yields (produces : Symbol → List Symbol → Prop) : List Symbol → List Symbol → Prop where
  | nil : Yields produces [] []
  | terminal {terminal : Symbol} {rest word : List Symbol} :
      terminal.isTerminal = true → Yields produces rest word → Yields produces (terminal :: rest) (terminal :: word)
  | production {left : Symbol} {right rest below word : List Symbol} :
      produces left right → Yields produces right below → Yields produces rest word →
      Yields produces (left :: rest) (below ++ word)

theorem Yields.append {produces : Symbol → List Symbol → Prop} {first second word other : List Symbol}
    (hf : Yields produces first word) (hs : Yields produces second other) :
    Yields produces (first ++ second) (word ++ other) := by
  induction hf with
  | nil => exact hs
  | terminal ht _ ih => exact .terminal ht ih
  | production hp hbelow _ _ ih =>
      rw [List.append_assoc]
      exact .production hp hbelow ih

theorem yields_nil {produces : Symbol → List Symbol → Prop} {word : List Symbol} :
    Yields produces [] word ↔ word = [] := by
  constructor
  · intro h
    cases h
    rfl
  · rintro rfl
    exact .nil

namespace Rules

-- The sides of the productions as symbols.
def Produces (rules : Rules) (left : Symbol) (right : List Symbol) : Prop :=
  ∃ production id, (rules.production production).left = some id ∧ left = rules.symbol id ∧
    right = (rules.production production).right.map rules.symbol

-- The language of a grammar.
def Generates (rules : Rules) (word : List Symbol) : Prop :=
  Yields rules.Produces [rules.symbol rules.start] word

variable {rules : Rules}

theorem WellFormed.isNonterminal_of_produces (hw : rules.WellFormed) {left : Symbol} {right : List Symbol}
    (h : rules.Produces left right) : left.isNonterminal = true := by
  obtain ⟨production, id, hleft, rfl, -⟩ := h
  exact (hw.left_spec hleft).2

theorem WellFormed.exists_produces (hw : rules.WellFormed) {left symbol : Symbol} {right : List Symbol}
    (h : rules.Produces left right) (hs : symbol ∈ right) (hn : symbol.isNonterminal = true) :
    ∃ below, rules.Produces symbol below := by
  obtain ⟨production, id, -, -, rfl⟩ := h
  obtain ⟨inner, hmem, rfl⟩ := List.mem_map.mp hs
  obtain ⟨other, ho⟩ := List.exists_mem_of_ne_nil _ (hw.defined production inner hmem hn)
  exact ⟨_, other, inner, (mem_alternatives.mp ho).2, rfl, rfl⟩

-- The right sides of the alternatives of a symbol, in their order.
def rightSides (rules : Rules) (symbol : Symbol) : List (List Symbol) :=
  ((rules.lookup? symbol).getD []).map fun id => (rules.production id).right.map rules.symbol

theorem map_production_alternatives {α : Type} (id : Nat) (f : Production → α) :
    ((rules.alternatives id).map fun production => f (rules.production production)) =
      (rules.productions.toList.filter (·.left == some id)).map f := by
  have hall : rules.productions.toList = rules.productionIds.map rules.production := by
    refine List.ext_getElem (by simp [productionIds]) fun index hi _ => ?_
    have hlt : index < rules.productions.size := by simpa using hi
    simp [productionIds, production, hlt]
  rw [hall, List.filter_map, List.map_map]
  rfl

theorem WellFormed.lookup?_symbol (hw : rules.WellFormed) {id : Nat} (hid : id ∈ rules.nonterminals) :
    rules.lookup? (rules.symbol id) = some (rules.alternatives id) := by
  obtain ⟨hlt, hn⟩ := List.mem_filter.mp hid
  rw [lookup?, hw.symbolId?_symbol (List.mem_range.mp hlt)]
  exact if_pos hn

theorem WellFormed.lookup?_eq_some (hw : rules.WellFormed) {symbol : Symbol} {ids : List Nat}
    (h : rules.lookup? symbol = some ids) :
    ∃ id ∈ rules.nonterminals, rules.symbol id = symbol ∧ ids = rules.alternatives id := by
  unfold lookup? at h
  split at h
  · rename_i id hid
    split at h
    · rename_i hn
      have hget := hw.symbolId?_eq_some.mp hid
      have hsymbol := symbol_of_getElem? hget
      exact ⟨id, mem_nonterminals.mpr (hsymbol ▸ hn), hsymbol, (Option.some.inj h).symm⟩
    · cases h
  · cases h

theorem WellFormed.mem_rightSides (hw : rules.WellFormed) {left : Symbol} {right : List Symbol} :
    right ∈ rules.rightSides left ↔ rules.Produces left right := by
  constructor
  · intro h
    obtain ⟨production, hp, rfl⟩ := List.mem_map.mp h
    cases hlookup : rules.lookup? left with
    | none => simp [hlookup] at hp
    | some ids =>
        obtain ⟨id, -, rfl, rfl⟩ := hw.lookup?_eq_some hlookup
        rw [hlookup] at hp
        exact ⟨production, id, (mem_alternatives.mp hp).2, rfl, rfl⟩
  · rintro ⟨production, id, hleft, rfl, rfl⟩
    have hlookup := hw.lookup?_symbol (mem_nonterminals.mpr (hw.left_spec hleft).2)
    rw [rightSides, hlookup]
    exact List.mem_map.mpr ⟨production, mem_alternatives_of_left hleft, rfl⟩

end Rules

namespace Declarations

def Produces (declarations : Declarations) (left : Symbol) (right : List Symbol) : Prop :=
  ∃ rule ∈ declarations.rules, left = .nonterminal rule.1 ∧ right = rule.2.symbols.filter (· != .epsilon)

variable {declarations : Declarations} {start : String} {productions : List Production}

theorem mapM_eq_ok_iff {α β ε : Type} {f : α → Except ε β} {values : List α} {results : List β} :
    values.mapM f = .ok results ↔ List.Forall₂ (fun value result => f value = .ok result) values results := by
  induction values generalizing results with
  | nil => simp [pure, Except.pure, eq_comm]
  | cons value rest ih =>
      rw [List.mapM_cons, List.forall₂_cons_left_iff]
      simp only [← ih, bind, Except.bind, pure, Except.pure]
      cases hf : f value with
      | error => simp
      | ok first =>
          cases rest.mapM f with
          | error => simp
          | ok others => simp [eq_comm]

theorem exists_result_of_mapM {α β ε : Type} {f : α → Except ε β} {values : List α} {results : List β}
    (h : values.mapM f = .ok results) {value : α} (hv : value ∈ values) :
    ∃ index, ∃ hi : index < results.length, f value = .ok results[index] := by
  obtain ⟨hlength, hget⟩ := List.forall₂_iff_get.mp (mapM_eq_ok_iff.mp h)
  obtain ⟨index, hi, rfl⟩ := List.mem_iff_getElem.mp hv
  exact ⟨index, hlength ▸ hi, hget index hi (hlength ▸ hi)⟩

theorem exists_mapM_eq_ok {α β ε : Type} {f : α → Except ε β} {values : List α}
    (h : ∀ value ∈ values, ∃ result, f value = .ok result) : ∃ results, values.mapM f = .ok results := by
  simp only [mapM_eq_ok_iff]
  induction values with
  | nil => exact ⟨[], .nil⟩
  | cons value rest ih =>
      obtain ⟨first, hfirst⟩ := h value (List.mem_cons_self ..)
      obtain ⟨others, hothers⟩ := ih fun other ho => h other (List.mem_cons_of_mem _ ho)
      exact ⟨first :: others, .cons hfirst hothers⟩

theorem map_symbol_rulesOf (productions : List Production) {rule : String × Alternative} (hr : rule ∈ declarations.rules) :
    ((rule.2.symbols.filter (· != .epsilon)).map (declarations.vocabulary start).idxOf).map
      (declarations.rulesOf start productions).symbol = rule.2.symbols.filter (· != .epsilon) := by
  rw [List.map_map, List.map_congr_left, List.map_id]
  intro symbol hs
  exact (symbol_rulesOf productions (mem_vocabulary hr (by simp [ruleSymbols, List.mem_filter.mp hs]))).2

section Rules

variable (hp : declarations.rules.mapM (productionOf (declarations.vocabulary start)) = .ok productions)

include hp

-- Each rule has become a production.
theorem exists_production_of_rule {rule : String × Alternative} (hr : rule ∈ declarations.rules) :
    ∃ id, ((declarations.rulesOf start productions).production id).left =
        some ((declarations.vocabulary start).idxOf (.nonterminal rule.1)) ∧
      ((declarations.rulesOf start productions).production id).right =
        (rule.2.symbols.filter (· != .epsilon)).map (declarations.vocabulary start).idxOf := by
  obtain ⟨index, hi, he⟩ := exists_result_of_mapM hp hr
  have hproduction : (declarations.rulesOf start productions).production (index + 1) = productions[index] := by
    simp [Rules.production, rulesOf, hi]
  refine ⟨index + 1, ?_⟩
  rw [hproduction]
  exact productionOf_spec he

theorem alternatives_rulesOf_ne_nil {rule : String × Alternative} (hr : rule ∈ declarations.rules) :
    (declarations.rulesOf start productions).alternatives
      ((declarations.vocabulary start).idxOf (.nonterminal rule.1)) ≠ [] := by
  obtain ⟨id, hleft, -⟩ := exists_production_of_rule hp hr
  exact List.ne_nil_of_mem (Rules.mem_alternatives_of_left hleft)

-- The productions that are built are those that are declared.
theorem produces_rulesOf {left : Symbol} {right : List Symbol} :
    (declarations.rulesOf start productions).Produces left right ↔ declarations.Produces left right := by
  have hsymbol : ∀ rule ∈ declarations.rules, (declarations.rulesOf start productions).symbol
      ((declarations.vocabulary start).idxOf (.nonterminal rule.1)) = .nonterminal rule.1 := fun rule hr =>
    (symbol_rulesOf productions (mem_vocabulary hr (by simp [ruleSymbols]))).2
  constructor
  · rintro ⟨production, id, hleft, rfl, rfl⟩
    obtain ⟨hlt, -⟩ := Rules.mem_alternatives.mp (Rules.mem_alternatives_of_left hleft)
    have hpos : startProduction < production := by
      refine Nat.pos_of_ne_zero ?_
      rintro rfl
      cases hleft
    obtain ⟨rule, hr, he⟩ := mem_of_mapM_productionOf hp _ (production_rulesOf hpos hlt)
    obtain ⟨hl, hright⟩ := productionOf_spec he
    obtain rfl := Option.some_inj.mp (hl.symm.trans hleft)
    exact ⟨rule, hr, hsymbol rule hr, by rw [hright, map_symbol_rulesOf productions hr]⟩
  · rintro ⟨rule, hr, rfl, rfl⟩
    obtain ⟨id, hleft, hright⟩ := exists_production_of_rule hp hr
    exact ⟨id, _, hleft, (hsymbol rule hr).symm, by rw [hright, map_symbol_rulesOf productions hr]⟩

end Rules

-- Declarations with a start symbol, that leave no template malformed and no
-- nonterminal without a rule.
structure Complete (declarations : Declarations) (start : String) : Prop where
  start_eq : declarations.start = some start
  start_declared : ∃ rule ∈ declarations.rules, rule.1 = start
  templates : ∀ rule ∈ declarations.rules, ∀ text, rule.2.template = some text →
    ∃ template, Template.parse text = .ok template
  defined : ∀ left right, declarations.Produces left right → ∀ symbol ∈ right, symbol.isNonterminal = true →
    ∃ below, declarations.Produces symbol below

theorem exists_template_of_productionOf {vocabulary : List Symbol} {rule : String × Alternative}
    {production : Production} (h : productionOf vocabulary rule = .ok production) {text : String}
    (ht : rule.2.template = some text) : ∃ template, Template.parse text = .ok template := by
  simp only [productionOf, ht, bind, Except.bind] at h
  cases hparse : Template.parse text with
  | ok template => exact ⟨template, rfl⟩
  | error => simp [hparse, throw, throwThe, MonadExceptOf.throw] at h

theorem exists_productionOf {rule : String × Alternative} (vocabulary : List Symbol)
    (ht : ∀ text, rule.2.template = some text → ∃ template, Template.parse text = .ok template) :
    ∃ production, productionOf vocabulary rule = .ok production := by
  cases htext : rule.2.template with
  | none => exact ⟨_, by simp only [productionOf, htext, bind, Except.bind, pure, Except.pure]; rfl⟩
  | some text =>
      obtain ⟨template, hparse⟩ := ht text htext
      exact ⟨_, by simp only [productionOf, htext, hparse, bind, Except.bind, pure, Except.pure]; rfl⟩

theorem build_eq {first : String × Alternative} {rest : List (String × Alternative)}
    (hrules : declarations.rules = first :: rest) (hstart : declarations.start = some start) :
    declarations.build = (do
      let productions ← declarations.rules.mapM (productionOf (declarations.vocabulary start))
      if ((declarations.rulesOf start productions).alternatives
        ((declarations.vocabulary start).idxOf (.nonterminal start))).isEmpty then
          throw (.undefinedStart start)
      match (declarations.rulesOf start productions).undefined? with
      | some error => throw error
      | none => return (declarations.rulesOf start productions).toGrammar) := by
  unfold build
  rw [hrules, hstart]
  rfl

theorem undefined?_eq_none
    (hp : declarations.rules.mapM (productionOf (declarations.vocabulary start)) = .ok productions)
    (hdefined : ∀ left right, declarations.Produces left right → ∀ symbol ∈ right, symbol.isNonterminal = true →
      ∃ below, declarations.Produces symbol below) :
    (declarations.rulesOf start productions).undefined? = none := by
  simp only [Rules.undefined?, List.findSome?_eq_none_iff]
  intro production hproduction symbol hs
  obtain ⟨id, hpos, hlt, rfl⟩ := Rules.mem_declared.mp hproduction
  refine if_neg fun hcond => ?_
  obtain ⟨hn, hnone⟩ := Bool.and_eq_true_iff.mp hcond
  obtain ⟨rule, hr, he⟩ := mem_of_mapM_productionOf hp _ (production_rulesOf hpos hlt)
  rw [(productionOf_spec he).2] at hs
  obtain ⟨named, hnamed, rfl⟩ := List.mem_map.mp hs
  have hmem : named ∈ declarations.vocabulary start :=
    mem_vocabulary hr (by simp [ruleSymbols, List.mem_filter.mp hnamed])
  rw [(symbol_rulesOf productions hmem).2] at hn
  obtain ⟨below, other, ho, rfl, -⟩ := hdefined _ _ ⟨rule, hr, rfl, rfl⟩ named hnamed hn
  exact alternatives_rulesOf_ne_nil hp ho (List.isEmpty_iff.mp hnone)

-- A grammar is built from declarations if and only if they are complete.
theorem Complete.exists_build (hc : declarations.Complete start) : ∃ grammar, declarations.build = .ok grammar := by
  obtain ⟨productions, hp⟩ := exists_mapM_eq_ok fun rule hr =>
    exists_productionOf (declarations.vocabulary start) (hc.templates rule hr)
  obtain ⟨rule, hr, rfl⟩ := hc.start_declared
  obtain ⟨first, rest, hrules⟩ := List.exists_cons_of_ne_nil (List.ne_nil_of_mem hr)
  refine ⟨(declarations.rulesOf rule.1 productions).toGrammar, ?_⟩
  rw [build_eq hrules hc.start_eq, hp]
  simp only [bind, Except.bind, List.isEmpty_eq_false_iff.mpr (alternatives_rulesOf_ne_nil hp hr),
    undefined?_eq_none hp hc.defined]
  rfl

theorem exists_rulesOf_of_build {grammar : Grammar} (hstart : declarations.start = some start)
    (h : declarations.build = .ok grammar) :
    ∃ productions, declarations.rules.mapM (productionOf (declarations.vocabulary start)) = .ok productions ∧
      grammar = (declarations.rulesOf start productions).toGrammar ∧ grammar.alternatives grammar.start ≠ [] := by
  cases hrules : declarations.rules with
  | nil => simp [build, hrules] at h
  | cons first rest =>
      rw [build_eq hrules hstart, hrules] at h
      cases hp : (first :: rest).mapM (productionOf (declarations.vocabulary start)) with
      | error => simp [hp, bind, Except.bind] at h
      | ok productions =>
          simp only [hp, bind, Except.bind, pure, Except.pure] at h
          split at h
          · cases h
          · rename_i hs
            split at h
            · cases h
            · cases h
              exact ⟨productions, rfl, rfl, fun he => hs (List.isEmpty_iff.mpr he)⟩

-- What is built speaks the language that is declared.
theorem language_build {grammar : Grammar} (hstart : declarations.start = some start)
    (h : declarations.build = .ok grammar) :
    grammar.symbol grammar.start = .nonterminal start ∧ grammar.toRules.Produces = declarations.Produces := by
  obtain ⟨productions, hp, rfl, -⟩ := exists_rulesOf_of_build hstart h
  refine ⟨(symbol_rulesOf productions (start_mem_vocabulary declarations start)).2, ?_⟩
  funext left right
  exact propext (produces_rulesOf hp)

theorem complete_of_build {grammar : Grammar} (hstart : declarations.start = some start)
    (h : declarations.build = .ok grammar) : declarations.Complete start := by
  have hw := (Grammar.Built.declared h).wellFormed
  have hlanguage := (language_build hstart h).2
  obtain ⟨productions, hp, rfl, ha⟩ := exists_rulesOf_of_build hstart h
  constructor
  case start_eq => exact hstart
  case start_declared =>
    obtain ⟨production, hmem⟩ := List.exists_mem_of_ne_nil _ ha
    have hproduces : (declarations.rulesOf start productions).Produces (.nonterminal start) _ :=
      ⟨production, _, (Rules.mem_alternatives.mp hmem).2,
        (symbol_rulesOf productions (start_mem_vocabulary declarations start)).2.symm, rfl⟩
    obtain ⟨rule, hr, hname, -⟩ := (produces_rulesOf hp).mp hproduces
    exact ⟨rule, hr, (Symbol.nonterminal.inj hname).symm⟩
  case templates =>
    intro rule hr text ht
    obtain ⟨index, hi, he⟩ := exists_result_of_mapM hp hr
    exact exists_template_of_productionOf he ht
  case defined => exact fun left right hproduces symbol hs hn =>
    hlanguage ▸ hw.exists_produces (hlanguage ▸ hproduces) hs hn

theorem filter_productions {vocabulary : List Symbol} {rules : List (String × Alternative)}
    (hp : rules.mapM (productionOf vocabulary) = .ok productions) {name : String}
    (hname : .nonterminal name ∈ vocabulary) (symbolOf : Nat → Symbol)
    (hsymbol : ∀ rule ∈ rules, ∀ symbol ∈ rule.2.symbols.filter (· != .epsilon),
      symbolOf (vocabulary.idxOf symbol) = symbol) :
    (productions.filter (·.left == some (vocabulary.idxOf (.nonterminal name)))).map (·.right.map symbolOf) =
      (rules.filter (·.1 == name)).map (·.2.symbols.filter (· != .epsilon)) := by
  rw [mapM_eq_ok_iff] at hp
  induction hp with
  | nil => rfl
  | @cons rule production rules productions hfirst hrest ih =>
      obtain ⟨hrule, hrules⟩ := List.forall_mem_cons.mp hsymbol
      obtain ⟨hleft, hright⟩ := productionOf_spec hfirst
      have hiff : (production.left == some (vocabulary.idxOf (.nonterminal name))) = (rule.1 == name) := by
        rw [hleft, Bool.eq_iff_iff, beq_iff_eq, beq_iff_eq, Option.some_inj, eq_comm, List.idxOf_inj hname, eq_comm,
          Symbol.nonterminal.injEq]
      have hsides : production.right.map symbolOf = rule.2.symbols.filter (· != .epsilon) := by
        rw [hright, List.map_map]
        exact (List.map_congr_left hrule).trans (List.map_id _)
      rw [List.filter_cons, List.filter_cons, hiff]
      split
      · rw [List.map_cons, List.map_cons, hsides, ih hrules]
      · exact ih hrules

-- The right sides of a nonterminal are those declared for its name, in their order.
theorem rightSides_build {grammar : Grammar} (hstart : declarations.start = some start)
    (h : declarations.build = .ok grammar) (name : String) :
    grammar.rightSides (.nonterminal name) =
      (declarations.rules.filter (·.1 == name)).map (·.2.symbols.filter (· != .epsilon)) := by
  obtain ⟨productions, hp, rfl, -⟩ := exists_rulesOf_of_build hstart h
  have hw : (declarations.rulesOf start productions).WellFormed := (Grammar.Built.declared h).wellFormed
  change (declarations.rulesOf start productions).rightSides _ = _
  by_cases hname : .nonterminal name ∈ declarations.vocabulary start
  · have hsymbol := (symbol_rulesOf productions hname).2
    have hlookup := hw.lookup?_symbol (Rules.mem_nonterminals.mpr (by rw [hsymbol]; rfl))
    rw [hsymbol] at hlookup
    rw [Rules.rightSides, hlookup, Option.getD_some, Rules.map_production_alternatives _ fun production =>
      production.right.map (declarations.rulesOf start productions).symbol]
    refine filter_productions hp hname _ fun rule hr symbol hs => ?_
    exact (symbol_rulesOf productions (mem_vocabulary hr (by simp_all [ruleSymbols]))).2
  · have hnone : declarations.rules.filter (·.1 == name) = [] := by
      refine List.filter_eq_nil_iff.mpr fun rule hr he => hname ?_
      exact (beq_iff_eq.mp he) ▸ mem_vocabulary hr (by simp [ruleSymbols])
    rw [hnone, List.map_nil]
    refine List.eq_nil_iff_forall_not_mem.mpr fun right hright => hname ?_
    obtain ⟨rule, hr, he, -⟩ := (produces_rulesOf hp).mp (hw.mem_rightSides.mp hright)
    exact he ▸ mem_vocabulary hr (by simp [ruleSymbols])

end Declarations

end IncrementalLR
