import IncrementalLR.Proofs.Grammar.WellFormed

namespace IncrementalLR

-- Operators in lines, each of which binds tighter than those before it, and the atom that
-- expressions are made of.
structure Operators where
  nonterminal : String
  atom : String
  lines : List (Assoc × List String)
  associative : ∀ line ∈ lines, line.1 ≠ .nonassoc
  nodup : (lines.flatMap Prod.snd).Nodup
  apart : atom ∉ lines.flatMap Prod.snd

namespace Operators

variable (operators : Operators)

def names : List String := operators.lines.flatMap Prod.snd

def binary (name : String) : String × Alternative :=
  (operators.nonterminal,
    ⟨[.nonterminal operators.nonterminal, .terminal name, .nonterminal operators.nonterminal], none, none⟩)

def atomic : String × Alternative := (operators.nonterminal, ⟨[.terminal operators.atom], none, none⟩)

-- One alternative for each operator, and one for the atom.
def rules : List (String × Alternative) := operators.atomic :: operators.names.map operators.binary

-- Declarations of the operators, with the alternatives in any order.
structure Declares (declarations : Declarations) : Prop where
  rules : declarations.rules.Perm operators.rules
  precedences : declarations.precedences = operators.lines
  start : declarations.start = none

-- Whether the operand of an operator may be made by another operator: that has to stand in
-- a later line, or in the same one if its operators associate to the side of the operand.
def Binds (side : Assoc) (name inner : String) : Prop :=
  ∃ (index index' : Nat) (line line' : Assoc × List String),
    operators.lines[index]? = some line ∧ operators.lines[index']? = some line' ∧
    name ∈ line.2 ∧ inner ∈ line'.2 ∧ (index < index' ∨ index = index' ∧ line.1 = side)

-- The operators with their precedences.
def levels : List (String × Precedence) :=
  operators.lines.zipIdx.flatMap fun (line, index) => line.2.map (·, ⟨index + 1, line.1⟩)

variable {operators} {name inner : String} {precedence precedence' : Precedence}

theorem map_levels : operators.levels.map Prod.fst = operators.names := by
  rw [levels, names, List.map_flatMap]
  have hnames : ∀ index, (operators.lines.zipIdx index).flatMap (fun entry => entry.1.2) =
      operators.lines.flatMap Prod.snd := by
    generalize operators.lines = lines
    induction lines with
    | nil => exact fun _ => rfl
    | cons line rest ih => exact fun index => congrArg (line.2 ++ ·) (ih (index + 1))
  rw [← hnames 0]
  refine List.flatMap_congr fun entry _ => ?_
  rw [List.map_map]
  exact List.map_id _

theorem mem_levels : (name, precedence) ∈ operators.levels ↔
    ∃ (index : Nat) (line : Assoc × List String),
      operators.lines[index]? = some line ∧ name ∈ line.2 ∧ precedence = ⟨index + 1, line.1⟩ := by
  rw [levels, List.mem_flatMap]
  constructor
  · rintro ⟨⟨line, index⟩, hline, hmem⟩
    obtain ⟨other, hname, hentry⟩ := List.mem_map.mp hmem
    obtain ⟨rfl, rfl⟩ := Prod.mk.inj hentry
    exact ⟨index, line, List.mk_mem_zipIdx_iff_getElem?.mp hline, hname, rfl⟩
  · rintro ⟨index, line, hline, hname, rfl⟩
    exact ⟨(line, index), List.mk_mem_zipIdx_iff_getElem?.mpr hline, List.mem_map.mpr ⟨name, hname, rfl⟩⟩

theorem exists_level (h : name ∈ operators.names) : ∃ precedence, (name, precedence) ∈ operators.levels := by
  rw [← map_levels] at h
  obtain ⟨entry, hentry, rfl⟩ := List.mem_map.mp h
  exact ⟨entry.2, hentry⟩

-- Of two operators one is later, or both are in one line.
theorem binds_of_level (h : (name, precedence) ∈ operators.levels) (h' : (inner, precedence') ∈ operators.levels)
    {side : Assoc}
    (hlevel : precedence.level < precedence'.level ∨ precedence.level = precedence'.level ∧ precedence.assoc = side) :
    operators.Binds side name inner := by
  obtain ⟨index, line, hline, hname, rfl⟩ := mem_levels.mp h
  obtain ⟨index', line', hline', hinner, rfl⟩ := mem_levels.mp h'
  exact ⟨index, index', line, line', hline, hline', hname, hinner,
    hlevel.imp Nat.lt_of_succ_lt_succ (And.imp_left Nat.succ.inj)⟩

theorem assoc_eq_of_level (h : (name, precedence) ∈ operators.levels) (h' : (inner, precedence') ∈ operators.levels)
    (hlevel : precedence.level = precedence'.level) : precedence.assoc = precedence'.assoc := by
  obtain ⟨index, line, hline, -, rfl⟩ := mem_levels.mp h
  obtain ⟨index', line', hline', -, rfl⟩ := mem_levels.mp h'
  obtain rfl := Nat.succ.inj hlevel
  rw [hline, Option.some_inj] at hline'
  rw [hline']

theorem assoc_ne (h : (name, precedence) ∈ operators.levels) : precedence.assoc ≠ .nonassoc := by
  obtain ⟨index, line, hline, -, rfl⟩ := mem_levels.mp h
  exact operators.associative line (List.mem_of_getElem? hline)

end Operators

namespace Declarations

variable {vocabulary : List Symbol} {declarations : Declarations} {entries : List (String × Precedence)}
  {table : Array (Option Precedence)} {place : String → Nat} {index : Nat}

-- Enters precedences one after another, each at the place of its terminal.
def enter (place : String → Nat) (table : Array (Option Precedence)) (entry : String × Precedence) :
    Array (Option Precedence) := table.setIfInBounds (place entry.1) (some entry.2)

theorem precedenceTable_eq_foldl : declarations.precedenceTable vocabulary =
    (declarations.precedences.zipIdx.flatMap fun (line, index) => line.2.map (·, Precedence.mk (index + 1) line.1)).foldl
      (enter fun name => vocabulary.idxOf (.terminal name)) (Array.replicate vocabulary.length none) := by
  rw [precedenceTable, List.foldl_flatMap]
  refine List.foldl_ext _ _ _ fun table entry _ => ?_
  rw [List.foldl_map]
  rfl

theorem getElem?_foldl_enter_of_not_mem (h : index ∉ entries.map fun entry => place entry.1) :
    (entries.foldl (enter place) table)[index]? = table[index]? := by
  induction entries generalizing table with
  | nil => rfl
  | cons entry rest ih =>
      obtain ⟨hne, hrest⟩ := not_or.mp (List.mem_cons.not.mp h)
      rw [List.foldl_cons, ih hrest, enter, Array.getElem?_setIfInBounds_ne (Ne.symm hne)]

theorem getElem?_foldl_enter (hnodup : (entries.map fun entry => place entry.1).Nodup)
    (hlt : ∀ entry ∈ entries, place entry.1 < table.size) {entry : String × Precedence} (h : entry ∈ entries) :
    (entries.foldl (enter place) table)[place entry.1]? = some (some entry.2) := by
  induction entries generalizing table with
  | nil => cases h
  | cons first rest ih =>
      obtain ⟨hfirst, hrest⟩ := List.nodup_cons.mp hnodup
      rw [List.foldl_cons]
      rcases List.mem_cons.mp h with rfl | h
      · rw [getElem?_foldl_enter_of_not_mem hfirst, enter,
          Array.getElem?_setIfInBounds_self_of_lt (hlt entry List.mem_cons_self)]
      · refine ih hrest (fun other hother => ?_) h
        rw [enter, Array.size_setIfInBounds]
        exact hlt other (List.mem_cons_of_mem _ hother)

-- What becomes of a rule without an annotation.
def plainProduction (vocabulary : List Symbol) (rule : String × Alternative) : Production := {
  left := some (vocabulary.idxOf (.nonterminal rule.1))
  right := (rule.2.symbols.filter (· != .epsilon)).map vocabulary.idxOf
  tag := rule.2.tag.map fun name => vocabulary.idxOf (.terminal name)
  template := none }

theorem mapM_productionOf {rules : List (String × Alternative)} (h : ∀ rule ∈ rules, rule.2.template = none) :
    rules.mapM (productionOf vocabulary) = .ok (rules.map (plainProduction vocabulary)) := by
  induction rules with
  | nil => rfl
  | cons rule rest ih =>
      obtain ⟨hrule, hrest⟩ := List.forall_mem_cons.mp h
      have hfirst : productionOf vocabulary rule = .ok (plainProduction vocabulary rule) := by
        rw [productionOf, hrule]
        rfl
      rw [List.mapM_cons, hfirst, ih hrest]
      rfl

theorem production_succ {start : String} {productions : List Production} (index : Nat) :
    (declarations.rulesOf start productions).production (index + 1) = productions[index]?.getD default := by
  simp [Rules.production, rulesOf]

end Declarations

-- Only the start rule has a right side without a left side.
theorem Rules.WellFormed.eq_startProduction {rules : Rules} (hw : rules.WellFormed) {id symbol : Nat}
    (hleft : (rules.production id).left = none) (h : symbol ∈ (rules.production id).right) : id = startProduction := by
  by_contra hne
  by_cases hlt : id < rules.productions.size
  · obtain ⟨left, hsome, -⟩ := hw.left id (Nat.pos_of_ne_zero hne) hlt
    cases hleft.symm.trans hsome
  · rw [Rules.production, Array.getD_eq_getD_getElem?, Array.getElem?_eq_none (Nat.le_of_not_lt hlt)] at h
    cases h

-- The productions of operators and of the atom, by what stands on their right sides.
inductive Rules.Makes (rules : Rules) (operators : Operators) (id : Nat) : Option String → Prop where
  | atomic {atom : Nat} :
      (rules.production id).left = some rules.start → (rules.production id).right = [atom] →
      rules.symbol atom = .terminal operators.atom → Makes rules operators id none
  | binary {operator : Nat} {name : String} :
      (rules.production id).left = some rules.start →
      (rules.production id).right = [rules.start, operator, rules.start] →
      rules.symbol operator = .terminal name → name ∈ operators.names → Makes rules operators id (some name)

theorem Rules.Makes.left {rules : Rules} {operators : Operators} {id : Nat} {name : Option String}
    (hm : rules.Makes operators id name) : (rules.production id).left = some rules.start := by
  cases hm with
  | atomic hleft _ _ => exact hleft
  | binary hleft _ _ _ => exact hleft

-- Rules of expressions over operators, as they are built.
structure Rules.Expresses (rules : Rules) (operators : Operators) : Prop where
  wellFormed : rules.WellFormed
  start : rules.symbol rules.start = .nonterminal operators.nonterminal
  makes : ∀ id left, (rules.production id).left = some left → ∃ name, rules.Makes operators id name
  atomic : ∃ id, rules.Makes operators id none
  binary : ∀ name ∈ operators.names, ∃ id, rules.Makes operators id (some name)
  unique : ∀ id id' name, rules.Makes operators id name → rules.Makes operators id' name → id = id'
  untagged : ∀ id, (rules.production id).tag = none
  precedence : ∀ id name precedence, rules.symbol id = .terminal name → (name, precedence) ∈ operators.levels →
    rules.precedenceOf id = some precedence

namespace Operators

open Declarations

variable {operators : Operators} {declarations : Declarations}

theorem Declares.mem_rules (hd : operators.Declares declarations) {rule : String × Alternative}
    (h : rule ∈ declarations.rules) : rule = operators.atomic ∨ ∃ name ∈ operators.names, rule = operators.binary name := by
  rcases List.mem_cons.mp (hd.rules.mem_iff.mp h) with h | h
  · exact Or.inl h
  · obtain ⟨name, hname, rfl⟩ := List.mem_map.mp h
    exact Or.inr ⟨name, hname, rfl⟩

theorem Declares.left (hd : operators.Declares declarations) {rule : String × Alternative}
    (h : rule ∈ declarations.rules) : rule.1 = operators.nonterminal ∧ rule.2.template = none ∧ rule.2.tag = none := by
  rcases hd.mem_rules h with rfl | ⟨name, -, rfl⟩
  · exact ⟨rfl, rfl, rfl⟩
  · exact ⟨rfl, rfl, rfl⟩

-- The vocabulary, and the productions in the order of the declarations.
def vocabulary (operators : Operators) (declarations : Declarations) : List Symbol :=
  declarations.vocabulary operators.nonterminal

def builtRules (operators : Operators) (declarations : Declarations) : Rules :=
  declarations.rulesOf operators.nonterminal
    (declarations.rules.map (plainProduction (operators.vocabulary declarations)))

theorem production_of_left {id left : Nat} (h : ((operators.builtRules declarations).production id).left = some left) :
    ∃ index rule, id = index + 1 ∧ declarations.rules[index]? = some rule ∧
      (operators.builtRules declarations).production id = plainProduction (operators.vocabulary declarations) rule := by
  cases id with
  | zero => cases h
  | succ index =>
      rw [builtRules, production_succ, List.getElem?_map] at h ⊢
      cases hrule : declarations.rules[index]? with
      | none =>
          rw [hrule] at h
          cases h
      | some rule => exact ⟨index, rule, rfl, hrule, rfl⟩

namespace Declares

variable (hd : operators.Declares declarations)

include hd

theorem exists_production {rule : String × Alternative} (h : rule ∈ operators.rules) :
    ∃ id, (operators.builtRules declarations).production id = plainProduction (operators.vocabulary declarations) rule := by
  obtain ⟨index, hindex⟩ := List.mem_iff_getElem?.mp (hd.rules.mem_iff.mpr h)
  refine ⟨index + 1, ?_⟩
  rw [builtRules, production_succ, List.getElem?_map, hindex]
  rfl

theorem symbol_mem {symbol : Symbol} {rule : String × Alternative} (h : rule ∈ operators.rules)
    (hs : symbol ∈ ruleSymbols rule) :
    symbol ∈ operators.vocabulary declarations ∧ (operators.builtRules declarations).symbol
      ((operators.vocabulary declarations).idxOf symbol) = symbol :=
  have hmem := mem_vocabulary (hd.rules.mem_iff.mpr h) hs
  ⟨hmem, (symbol_rulesOf _ hmem).2⟩

-- The production of a rule of the operators.
theorem makes {id : Nat} {name : Option String}
    (h : (operators.builtRules declarations).production id = plainProduction (operators.vocabulary declarations)
      (name.elim operators.atomic operators.binary)) (hname : ∀ operator ∈ name, operator ∈ operators.names) :
    (operators.builtRules declarations).Makes operators id name := by
  cases name with
  | none =>
      refine .atomic (by rw [h]; rfl) (by rw [h]; rfl) ?_
      exact (hd.symbol_mem List.mem_cons_self (by simp [ruleSymbols, Operators.atomic])).2
  | some name =>
      have hmem := hname name rfl
      refine .binary (by rw [h]; rfl) (by rw [h]; rfl) ?_ hmem
      exact (hd.symbol_mem (List.mem_cons_of_mem _ (List.mem_map_of_mem hmem)) (by simp [ruleSymbols, Operators.binary])).2

theorem exists_makes {id left : Nat} (h : ((operators.builtRules declarations).production id).left = some left) :
    ∃ name, (operators.builtRules declarations).Makes operators id name := by
  obtain ⟨index, rule, -, hrule, hproduction⟩ := production_of_left h
  rcases hd.mem_rules (List.mem_of_getElem? hrule) with rfl | ⟨name, hname, rfl⟩
  · exact ⟨none, hd.makes hproduction nofun⟩
  · exact ⟨some name, hd.makes hproduction fun operator h => Option.some_inj.mp h ▸ hname⟩

theorem alternatives_ne_nil :
    (operators.builtRules declarations).alternatives (operators.builtRules declarations).start ≠ [] := by
  obtain ⟨id, hid⟩ := hd.exists_production List.mem_cons_self
  have hleft : ((operators.builtRules declarations).production id).left =
      some (operators.builtRules declarations).start := by
    rw [hid]
    rfl
  exact List.ne_nil_of_mem (Rules.mem_alternatives_of_left hleft)

theorem undefined?_eq_none : (operators.builtRules declarations).undefined? = none := by
  simp only [Rules.undefined?, List.findSome?_eq_none_iff]
  intro production hproduction symbol hsymbol
  obtain ⟨id, hpos, hlt, rfl⟩ := Rules.mem_declared.mp hproduction
  obtain ⟨rule, -, hrule⟩ := List.mem_map.mp (production_rulesOf hpos hlt)
  obtain ⟨name, hmakes⟩ := hd.exists_makes (congrArg Production.left hrule.symm)
  have hstart : ((operators.builtRules declarations).alternatives (operators.builtRules declarations).start).isEmpty =
      false := by
    rw [List.isEmpty_eq_false_iff]
    exact hd.alternatives_ne_nil
  cases hmakes with
  | atomic _ hright hatom =>
      rw [hright, List.mem_singleton] at hsymbol
      rw [hsymbol, hatom]
      rfl
  | binary _ hright hoperator _ =>
      rw [hright] at hsymbol
      simp only [List.mem_cons, List.not_mem_nil, or_false] at hsymbol
      rcases hsymbol with rfl | rfl | rfl
      · simp [hstart]
      · rw [hoperator]
        rfl
      · simp [hstart]

theorem build : declarations.build = .ok (operators.builtRules declarations).toGrammar := by
  obtain ⟨⟨left, alternative⟩, rest, hrules⟩ : ∃ first rest, declarations.rules = first :: rest :=
    List.exists_cons_of_ne_nil fun h => by
      have hlength := hd.rules.length_eq
      rw [h] at hlength
      cases hlength
  obtain rfl : left = operators.nonterminal := (hd.left (hrules ▸ List.mem_cons_self)).1
  have hmap : declarations.rules.mapM (productionOf (declarations.vocabulary operators.nonterminal)) =
      .ok (declarations.rules.map (plainProduction (operators.vocabulary declarations))) :=
    mapM_productionOf fun rule h => (hd.left h).2.1
  unfold Declarations.build
  split
  · rename_i hnil
    cases hrules.symm.trans hnil
  · rename_i first alternative' rest' hcons
    obtain ⟨rfl, -⟩ := Prod.mk.inj (List.cons.inj (hrules.symm.trans hcons)).1
    simp only [hd.start, Option.getD_none, hmap, bind, Except.bind, pure, Except.pure]
    split
    · rename_i hempty
      exact absurd (List.isEmpty_iff.mp hempty) hd.alternatives_ne_nil
    · split
      · rename_i error herror
        cases hd.undefined?_eq_none.symm.trans herror
      · rfl

theorem nodup_rules : declarations.rules.Nodup := by
  refine hd.rules.nodup_iff.mpr (List.nodup_cons.mpr ⟨fun h => ?_, operators.nodup.map fun name name' h => ?_⟩)
  · obtain ⟨name, -, hname⟩ := List.mem_map.mp h
    cases congrArg (fun rule => rule.2.symbols.length) hname
  · exact Symbol.terminal.inj (List.cons.inj (List.cons.inj (congrArg (fun rule => rule.2.symbols) h)).2).1

-- Each rule gives one production.
theorem makes_iff {id index : Nat} {rule : String × Alternative} {name : Option String} (hid : id = index + 1)
    (hrule : declarations.rules[index]? = some rule)
    (hmakes : (operators.builtRules declarations).Makes operators id name) :
    rule = name.elim operators.atomic operators.binary := by
  have hproduction : (operators.builtRules declarations).production id =
      plainProduction (operators.vocabulary declarations) rule := by
    rw [hid, builtRules, production_succ, List.getElem?_map, hrule]
    rfl
  rcases hd.mem_rules (List.mem_of_getElem? hrule) with rfl | ⟨other, hother, rfl⟩
  · cases hmakes with
    | atomic => rfl
    | binary _ hright =>
        rw [hproduction] at hright
        cases congrArg List.length hright
  · cases hmakes with
    | atomic _ hright =>
        rw [hproduction] at hright
        cases congrArg List.length hright
    | @binary operator name _ hright hoperator _ =>
        rw [hproduction] at hright
        obtain rfl : (operators.vocabulary declarations).idxOf (.terminal other) = operator :=
          (List.cons.inj (List.cons.inj hright).2).1
        have hsymbol := (@symbol_mem _ _ hd (.terminal other) _ (List.mem_cons_of_mem _ (List.mem_map_of_mem hother))
          (by simp [ruleSymbols, Operators.binary])).2
        obtain rfl := Symbol.terminal.inj (hsymbol.symm.trans hoperator)
        rfl

theorem precedenceOf {id : Nat} {name : String} {precedence : Precedence}
    (hid : (operators.builtRules declarations).symbol id = .terminal name)
    (hlevel : (name, precedence) ∈ operators.levels) :
    (operators.builtRules declarations).precedenceOf id = some precedence := by
  have hmem : ∀ other ∈ operators.names, Symbol.terminal other ∈ operators.vocabulary declarations := fun other h =>
    (hd.symbol_mem (List.mem_cons_of_mem _ (List.mem_map_of_mem h)) (by simp [ruleSymbols, Operators.binary])).1
  have hplace : (operators.vocabulary declarations).idxOf (.terminal name) = id := by
    have hget : (operators.vocabulary declarations)[id]? = some (.terminal name) := by
      have hget : (operators.vocabulary declarations)[id]?.getD .epsilon = .terminal name := by
        rw [← hid]
        simp [Rules.symbol, builtRules, rulesOf, Array.getD_eq_getD_getElem?, Operators.vocabulary]
      cases h : (operators.vocabulary declarations)[id]? with
      | none =>
          rw [h] at hget
          cases hget
      | some symbol =>
          rw [h] at hget
          exact congrArg some hget
    obtain ⟨hlt, hget⟩ := List.getElem?_eq_some_iff.mp hget
    rw [← hget]
    exact (nodup_vocabulary declarations operators.nonterminal).idxOf_getElem id hlt
  have hnames : ∀ entry ∈ operators.levels, entry.1 ∈ operators.names := fun entry h =>
    map_levels ▸ List.mem_map_of_mem h
  have htable := @getElem?_foldl_enter operators.levels
    (Array.replicate (operators.vocabulary declarations).length none)
    (fun name => (operators.vocabulary declarations).idxOf (.terminal name)) ?_ ?_ _ hlevel
  · rw [Rules.precedenceOf, ← hplace]
    change (Declarations.precedenceTable declarations (operators.vocabulary declarations))[_]?.join = _
    rw [precedenceTable_eq_foldl, hd.precedences]
    exact congrArg Option.join htable
  · rw [show operators.levels.map (fun entry => (operators.vocabulary declarations).idxOf (.terminal entry.1)) =
      operators.names.map (fun name => (operators.vocabulary declarations).idxOf (.terminal name)) by
        rw [← map_levels, List.map_map]; rfl]
    refine List.Nodup.map_on (fun name h other _ he => ?_) operators.nodup
    exact Symbol.terminal.inj ((List.idxOf_inj (hmem name h)).mp he)
  · intro entry h
    rw [Array.size_replicate]
    exact List.idxOf_lt_length_of_mem (hmem _ (hnames entry h))

theorem expresses : (operators.builtRules declarations).Expresses operators := by
  constructor
  case wellFormed => exact (Grammar.Built.declared hd.build).wellFormed
  case start => exact (symbol_rulesOf _ (start_mem_vocabulary declarations operators.nonterminal)).2
  case makes => exact fun _ _ => hd.exists_makes
  case atomic =>
    obtain ⟨id, hid⟩ := hd.exists_production List.mem_cons_self
    exact ⟨id, hd.makes hid nofun⟩
  case binary =>
    intro name hname
    obtain ⟨id, hid⟩ := hd.exists_production (List.mem_cons_of_mem _ (List.mem_map_of_mem hname))
    exact ⟨id, hd.makes hid fun operator h => Option.some_inj.mp h ▸ hname⟩
  case unique =>
    intro id id' name hmakes hmakes'
    obtain ⟨index, rule, rfl, hrule, -⟩ := production_of_left hmakes.left
    obtain ⟨index', rule', rfl, hrule', -⟩ := production_of_left hmakes'.left
    obtain rfl := (hd.makes_iff rfl hrule hmakes).trans (hd.makes_iff rfl hrule' hmakes').symm
    have hlt := (List.getElem?_eq_some_iff.mp hrule).1
    rw [(List.getElem?_inj hlt hd.nodup_rules).mp (hrule.trans hrule'.symm)]
  case untagged =>
    intro id
    cases id with
    | zero => rfl
    | succ index =>
        rw [builtRules, production_succ, List.getElem?_map]
        cases hrule : declarations.rules[index]? with
        | none => rfl
        | some rule =>
            have htag := (hd.left (List.mem_of_getElem? hrule)).2.2
            exact congrArg (Option.map _) htag
  case precedence => exact fun _ _ _ => hd.precedenceOf

end Declares

end Operators

end IncrementalLR
