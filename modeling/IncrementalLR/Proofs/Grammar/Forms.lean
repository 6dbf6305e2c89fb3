import IncrementalLR.Proofs.Grammar.First
import Mathlib.Logic.Relation

namespace IncrementalLR

namespace Rules

-- One step of a derivation: a nonterminal gives way to one of its right sides. The
-- symbol of the empty word stands for nothing.
inductive Rewrites (rules : Rules) : List Nat → List Nat → Prop where
  | expand {production left : Nat} (front back : List Nat) :
      (rules.production production).left = some left →
      Rewrites rules (front ++ left :: back) (front ++ ((rules.production production).right ++ back))
  | vanish (front back : List Nat) : Rewrites rules (front ++ epsilonId :: back) (front ++ back)

-- Derivations of any length.
def TurnsInto (rules : Rules) : List Nat → List Nat → Prop := Relation.ReflTransGen rules.Rewrites

end Rules

-- A form without the symbols that stand for nothing.
def letters (form : List Nat) : List Nat := form.filter (· != epsilonId)

section Letters

variable {symbol : Nat} {form other : List Nat}

@[simp] theorem letters_append : letters (form ++ other) = letters form ++ letters other :=
  List.filter_append ..

@[simp] theorem letters_cons_epsilon : letters (epsilonId :: form) = letters form :=
  List.filter_cons_of_neg (by simp)

theorem letters_cons (hne : symbol ≠ epsilonId) : letters (symbol :: form) = symbol :: letters form :=
  List.filter_cons_of_pos (by simpa using hne)

theorem letters_eq_self (hne : ∀ symbol ∈ form, symbol ≠ epsilonId) : letters form = form :=
  List.filter_eq_self.mpr fun symbol hs => by simpa using hne symbol hs

end Letters

section Derivations

variable {rules : Rules} {form other : List Nat} {terminal : Nat}

theorem Rules.Rewrites.within (hr : rules.Rewrites form other) (front back : List Nat) :
    rules.Rewrites (front ++ (form ++ back)) (front ++ (other ++ back)) := by
  cases hr with
  | expand inner outer hleft =>
      simpa only [List.append_assoc, List.cons_append] using Rewrites.expand (front ++ inner) (outer ++ back) hleft
  | vanish inner outer =>
      simpa only [List.append_assoc, List.cons_append] using Rewrites.vanish (front ++ inner) (outer ++ back)

namespace Rules.TurnsInto

theorem trans {third : List Nat} (ht : rules.TurnsInto form other) (ho : rules.TurnsInto other third) :
    rules.TurnsInto form third := Relation.ReflTransGen.trans ht ho

-- A derivation goes on in any context.
theorem within (ht : rules.TurnsInto form other) (front back : List Nat) :
    rules.TurnsInto (front ++ (form ++ back)) (front ++ (other ++ back)) :=
  Relation.ReflTransGen.lift (fun form => front ++ (form ++ back)) (fun _ _ hr => hr.within front back) _ _ ht

theorem append (ht : rules.TurnsInto form other) (back : List Nat) :
    rules.TurnsInto (form ++ back) (other ++ back) := ht.within [] back

theorem of_left {production left : Nat} (hleft : (rules.production production).left = some left) :
    rules.TurnsInto [left] (rules.production production).right := by
  have hstep : rules.Rewrites [left] (rules.production production).right := by
    simpa using Rewrites.expand [] [] hleft
  exact .single hstep

end Rules.TurnsInto

theorem turnsInto_letters (form : List Nat) : rules.TurnsInto form (letters form) := by
  induction form with
  | nil => exact .refl
  | cons symbol rest ih =>
      have hrest : rules.TurnsInto (symbol :: rest) (symbol :: letters rest) := by
        simpa using ih.within [symbol] []
      by_cases he : symbol = epsilonId
      · subst he
        rw [letters_cons_epsilon]
        exact hrest.tail (.vanish [] _)
      · rw [letters_cons he]
        exact hrest

theorem Vanishes.turnsInto (hv : Vanishes rules form) : rules.TurnsInto form [] := by
  induction hv with
  | nil => exact .refl
  | @cons production left rest hleft _ _ ihbelow ihrest =>
      have hhead : rules.TurnsInto (left :: rest) rest := ((Rules.TurnsInto.of_left hleft).trans ihbelow).append rest
      exact hhead.trans ihrest

theorem Begins.turnsInto (hb : Begins rules form terminal) : ∃ rest, rules.TurnsInto form (terminal :: rest) := by
  induction hb with
  | here _ => exact ⟨_, .refl⟩
  | @inside production left terminal rest hleft _ ih =>
      obtain ⟨below, hbelow⟩ := ih
      exact ⟨below ++ rest, ((Rules.TurnsInto.of_left hleft).trans hbelow).append rest⟩
  | @after symbol terminal rest hv _ ih =>
      obtain ⟨below, hbelow⟩ := ih
      exact ⟨below, (hv.turnsInto.append rest).trans hbelow⟩

theorem begins_append {left right : List Nat} :
    Begins rules (left ++ right) terminal ↔
      Begins rules left terminal ∨ Vanishes rules left ∧ Begins rules right terminal := by
  refine ⟨fun h => ?_, fun h => h.elim (·.append right) fun h => h.1.begins_append h.2⟩
  induction left with
  | nil => exact Or.inr ⟨.nil, h⟩
  | cons first rest ih =>
      cases h with
      | here ht => exact Or.inl (.here ht)
      | inside hleft hbelow => exact Or.inl (.inside hleft hbelow)
      | after hv hb =>
          rcases ih hb with h | ⟨hrest, h⟩
          · exact Or.inl (.after hv h)
          · exact Or.inr ⟨vanishes_cons.mpr ⟨hv, hrest⟩, h⟩

section Expansion

variable {production left : Nat} {front back : List Nat} (hleft : (rules.production production).left = some left)

include hleft

-- A right side vanishes, or begins with a terminal, only if its nonterminal does.
theorem vanishes_of_expanded (hv : Vanishes rules (front ++ ((rules.production production).right ++ back))) :
    Vanishes rules (front ++ left :: back) := by
  obtain ⟨hfront, hright, hback⟩ : _ ∧ _ ∧ _ := by simpa only [vanishes_append] using hv
  exact hfront.append (.cons hleft hright hback)

theorem begins_of_expanded (hb : Begins rules (front ++ ((rules.production production).right ++ back)) terminal) :
    Begins rules (front ++ left :: back) terminal := by
  rcases begins_append.mp hb with h | ⟨hfront, h⟩
  · exact h.append _
  · refine hfront.begins_append ?_
    rcases begins_append.mp h with h | ⟨hright, h⟩
    · exact .inside hleft h
    · exact .after (.cons hleft hright .nil) h

end Expansion

-- What a step leaves of the first symbols was there before.
theorem Rules.Rewrites.reflects (hw : rules.WellFormed) (hr : rules.Rewrites form other) (terminal : Nat) :
    (Vanishes rules (letters other) → Vanishes rules (letters form)) ∧
      (Begins rules (letters other) terminal → Begins rules (letters form) terminal) := by
  cases hr with
  | @expand production left front back hleft =>
      have hright := letters_eq_self fun symbol hs => (hw.right production symbol hs).2
      rw [letters_append, letters_append, letters_append, hright, letters_cons (hw.left_ne_epsilon hleft)]
      exact ⟨vanishes_of_expanded hleft, begins_of_expanded hleft⟩
  | vanish front back =>
      rw [letters_append, letters_append, letters_cons_epsilon]
      exact ⟨id, id⟩

theorem Rules.TurnsInto.reflects (hw : rules.WellFormed) (ht : rules.TurnsInto form other) (terminal : Nat) :
    (Vanishes rules (letters other) → Vanishes rules (letters form)) ∧
      (Begins rules (letters other) terminal → Begins rules (letters form) terminal) := by
  induction ht using Relation.ReflTransGen.head_induction_on with
  | refl => exact ⟨id, id⟩
  | head hr _ ih =>
      have hstep := hr.reflects hw terminal
      exact ⟨hstep.1 ∘ ih.1, hstep.2 ∘ ih.2⟩

-- Both relations say of a form without the empty word what its derivations say.
theorem turnsInto_nil_iff (hw : rules.WellFormed) :
    rules.TurnsInto form [] ↔ Vanishes rules (letters form) :=
  ⟨fun h => (h.reflects hw finishId).1 .nil, fun h => (turnsInto_letters form).trans h.turnsInto⟩

theorem exists_turnsInto_cons_iff (hw : rules.WellFormed) (hterminal : terminal ∈ rules.terminals) :
    (∃ rest, rules.TurnsInto form (terminal :: rest)) ↔ Begins rules (letters form) terminal := by
  constructor
  · rintro ⟨rest, h⟩
    refine (h.reflects hw terminal).2 ?_
    rw [letters_cons (Rules.mem_terminals.mp hterminal).2.2]
    exact .here hterminal
  · intro h
    obtain ⟨rest, hrest⟩ := h.turnsInto
    exact ⟨rest, (turnsInto_letters form).trans hrest⟩

end Derivations

namespace FirstFollow

variable {rules : Rules} {id terminal : Nat}

-- No set takes up the empty word from another one.
theorem eq_epsilon_of_mem_saturatedFirst (h : epsilonId ∈ setOf (saturatedFirst rules) id) : id = epsilonId := by
  refine saturate_induction (motive := fun first => ∀ id, epsilonId ∈ setOf first id → id = epsilonId) _
    (fun first hfirst id h => ?_) _ _ (fun id h => (mem_firstSeeds.mp h).1.symm) id h
  have hheads : ∀ sequence, epsilonId ∉ heads (nullableSet rules) first sequence := by
    intro sequence
    induction sequence with
    | nil => exact SymbolSet.not_mem_empty _
    | cons symbol rest ih =>
        intro hmem
        rcases mem_heads_cons.mp hmem with ⟨-, hne⟩ | ⟨-, hrest⟩
        · exact hne rfl
        · exact ih hrest
  rcases mem_firstStep.mp h with h | ⟨-, production, -, h⟩
  · exact hfirst id h
  · exact absurd h (hheads _)

theorem epsilon_mem_nullableSet (rules : Rules) : epsilonId ∈ nullableSet rules :=
  saturate_induction (motive := fun set => epsilonId ∈ set) _
    (fun _ h => mem_nullableStep.mpr (Or.inl h)) _ _ (SymbolSet.mem_insert.mpr (Or.inl rfl))

theorem not_begins_epsilon (hw : rules.WellFormed) : ¬ Begins rules [epsilonId] terminal := by
  intro hb
  cases hb with
  | here ht => exact (Rules.mem_terminals.mp ht).2.2 rfl
  | inside hleft _ => exact hw.left_ne_epsilon hleft rfl
  | after hv _ =>
      cases hv with
      | cons hleft _ _ => exact hw.left_ne_epsilon hleft rfl

end FirstFollow

namespace Grammar

variable {grammar : Grammar} {symbol terminal : Nat} {sequence : List Nat}

theorem nullable_iff (hw : grammar.toRules.WellFormed) :
    grammar.nullable symbol = true ↔ Vanishes grammar.toRules (letters [symbol]) := by
  by_cases he : symbol = epsilonId
  · subst he
    have hmem := FirstFollow.epsilon_mem_nullableSet grammar.toRules
    simpa [nullable, grammar.sets_eq, Rules.firstFollow, hmem, letters] using Vanishes.nil
  · rw [letters_cons he]
    have hall : [symbol].all grammar.nullable = true ↔ Vanishes grammar.toRules [symbol] :=
      all_nullable hw (by simpa using he)
    simpa [letters] using hall

-- FIRST of a symbol, apart from the empty word.
theorem mem_first_iff (hw : grammar.toRules.WellFormed) (hne : terminal ≠ epsilonId) :
    terminal ∈ grammar.first symbol ↔ Begins grammar.toRules (letters [symbol]) terminal := by
  by_cases he : symbol = epsilonId
  · subst he
    refine ⟨fun h => ?_, fun h => nomatch h⟩
    rw [first, grammar.sets_eq] at h
    rcases FirstFollow.mem_firstSets.mp h with h | ⟨-, -, h⟩
    · exact absurd (((FirstFollow.ofHeads_saturatedFirst hw).begins _ _ h).2 hne) (FirstFollow.not_begins_epsilon hw)
    · exact absurd h hne
  · have hs : ∀ other ∈ [symbol], other ≠ epsilonId := by simpa using he
    rw [letters_eq_self hs, ← mem_heads hw hs, heads, FirstFollow.mem_heads_cons]
    simp [first, hne, FirstFollow.heads]

theorem mem_heads_iff (hw : grammar.toRules.WellFormed) :
    terminal ∈ grammar.heads sequence ↔ Begins grammar.toRules (letters sequence) terminal := by
  induction sequence with
  | nil => exact ⟨fun h => absurd h (SymbolSet.not_mem_empty _), fun h => nomatch h⟩
  | cons symbol rest ih =>
      have hletters : letters (symbol :: rest) = letters [symbol] ++ letters rest := by
        rw [← letters_append, List.singleton_append]
      have hnullable : grammar.nullable symbol = true ↔ Vanishes grammar.toRules (letters [symbol]) := nullable_iff hw
      rw [nullable, decide_eq_true_eq] at hnullable
      rw [hletters, begins_append, ← ih, ← hnullable, heads, FirstFollow.mem_heads_cons]
      refine or_congr_left ⟨fun h => (mem_first_iff hw h.2).mp h.1, fun h => ?_⟩
      have hne := (Rules.mem_terminals.mp h.mem_terminals).2.2
      exact ⟨(mem_first_iff hw hne).mpr h, hne⟩

theorem all_nullable_iff (hw : grammar.toRules.WellFormed) :
    sequence.all grammar.nullable = true ↔ Vanishes grammar.toRules (letters sequence) := by
  induction sequence with
  | nil => exact ⟨fun _ => .nil, fun _ => rfl⟩
  | cons symbol rest ih =>
      have hletters : letters (symbol :: rest) = letters [symbol] ++ letters rest := by
        rw [← letters_append, List.singleton_append]
      rw [List.all_cons, Bool.and_eq_true, ih, nullable_iff hw, hletters, vanishes_append]

-- The sets FIRST of a grammar say what its derivations say, and hold terminals and
-- the empty word only.
structure FirstExact (grammar : Grammar) : Prop where
  nullable : ∀ symbol, grammar.nullable symbol = true ↔ grammar.TurnsInto [symbol] []
  first : ∀ symbol, ∀ terminal ∈ grammar.terminals,
    terminal ∈ grammar.first symbol ↔ ∃ rest, grammar.TurnsInto [symbol] (terminal :: rest)
  first_epsilon : ∀ symbol, epsilonId ∈ grammar.first symbol ↔ grammar.nullable symbol = true
  first_terminals : ∀ symbol, ∀ other ∈ grammar.first symbol, other ∈ grammar.terminals ∨ other = epsilonId
  sequence : ∀ sequence, ∀ terminal ∈ grammar.terminals,
    terminal ∈ grammar.firstOfSequence sequence ↔ ∃ rest, grammar.TurnsInto sequence (terminal :: rest)
  sequence_epsilon : ∀ sequence, epsilonId ∈ grammar.firstOfSequence sequence ↔ grammar.TurnsInto sequence []
  sequence_terminals : ∀ sequence, ∀ other ∈ grammar.firstOfSequence sequence,
    other ∈ grammar.terminals ∨ other = epsilonId
  lookahead : ∀ sequence lookahead other, other ∈ grammar.firstWithLookahead sequence lookahead ↔
    other ∈ grammar.firstOfSequence sequence ∧ other ≠ epsilonId ∨
      grammar.TurnsInto sequence [] ∧ other ∈ lookahead

theorem mem_firstOfSequence : terminal ∈ grammar.firstOfSequence sequence ↔
    terminal ∈ grammar.heads sequence ∨ sequence.all grammar.nullable = true ∧ terminal = epsilonId := by
  unfold firstOfSequence
  by_cases hall : sequence.all grammar.nullable = true
  · simp [hall, or_comm]
  · simp [hall]

-- The empty word is in a set FIRST where a symbol or a whole form vanishes, and never
-- as the head of a form.
theorem epsilon_not_mem_heads (hw : grammar.toRules.WellFormed) : epsilonId ∉ grammar.heads sequence :=
  fun h => (Rules.mem_terminals.mp ((mem_heads_iff hw).mp h).mem_terminals).2.2 rfl

theorem epsilon_mem_first_iff (hw : grammar.toRules.WellFormed) :
    epsilonId ∈ grammar.first symbol ↔ grammar.nullable symbol = true := by
  rw [first, nullable, grammar.sets_eq, decide_eq_true_eq]
  constructor
  · intro h
    rcases FirstFollow.mem_firstSets.mp h with h | ⟨-, h, -⟩
    · exact FirstFollow.eq_epsilon_of_mem_saturatedFirst h ▸ FirstFollow.epsilon_mem_nullableSet _
    · exact h
  · intro h
    have hlt : symbol < grammar.symbols.size :=
      (FirstFollow.ofVanishing_nullableSet hw symbol h).elim (fun he => he ▸ hw.epsilon_lt) (·.1)
    refine FirstFollow.mem_firstSets.mpr (Or.inr ⟨?_, h, rfl⟩)
    exact hlt.trans_eq (FirstFollow.ofHeads_saturatedFirst hw).size.symm

theorem epsilon_mem_firstOfSequence_iff (hw : grammar.toRules.WellFormed) :
    epsilonId ∈ grammar.firstOfSequence sequence ↔ sequence.all grammar.nullable = true := by
  rw [mem_firstOfSequence, or_iff_right (epsilon_not_mem_heads hw)]
  exact and_iff_left rfl

theorem firstExact_of_built (hb : grammar.Built) : grammar.FirstExact := by
  have hw := hb.wellFormed
  constructor
  case nullable => exact fun symbol => (nullable_iff hw).trans (turnsInto_nil_iff hw).symm
  case first =>
    intro symbol terminal ht
    rw [mem_first_iff hw (Rules.mem_terminals.mp ht).2.2, exists_turnsInto_cons_iff hw ht]
  case first_epsilon => exact fun symbol => epsilon_mem_first_iff hw
  case first_terminals =>
    intro symbol other h
    by_cases he : other = epsilonId
    · exact Or.inr he
    · exact Or.inl ((mem_first_iff hw he).mp h).mem_terminals
  case sequence =>
    intro sequence terminal ht
    have hne := (Rules.mem_terminals.mp ht).2.2
    rw [mem_firstOfSequence, mem_heads_iff hw, exists_turnsInto_cons_iff hw ht]
    exact or_iff_left fun h => hne h.2
  case sequence_epsilon =>
    intro sequence
    rw [epsilon_mem_firstOfSequence_iff hw, all_nullable_iff hw, turnsInto_nil_iff hw]
  case sequence_terminals =>
    intro sequence other h
    exact (mem_firstOfSequence.mp h).imp (fun h => ((mem_heads_iff hw).mp h).mem_terminals) (·.2)
  case lookahead =>
    intro sequence lookahead other
    have hhead : other ∈ grammar.firstOfSequence sequence ∧ other ≠ epsilonId ↔ other ∈ grammar.heads sequence := by
      rw [mem_firstOfSequence]
      refine ⟨fun h => h.1.resolve_right fun he => h.2 he.2, fun h => ⟨Or.inl h, ?_⟩⟩
      rintro rfl
      exact epsilon_not_mem_heads hw h
    rw [hhead, turnsInto_nil_iff hw, ← all_nullable_iff hw, mem_firstWithLookahead_iff]

end Grammar

-- A grammar with left recursion where much vanishes, and nothing comes of one
-- nonterminal.
def Declarations.drained : Declarations := {
  start := none
  rules := [
    ("S", ⟨[.terminal "b", .nonterminal "A", .nonterminal "T"], none, none⟩),
    ("S", ⟨[.nonterminal "U", .terminal "e"], none, none⟩),
    ("A", ⟨[], none, none⟩),
    ("A", ⟨[.nonterminal "A", .terminal "c"], none, none⟩),
    ("T", ⟨[.nonterminal "A", .nonterminal "A"], none, none⟩),
    ("U", ⟨[.nonterminal "U", .terminal "u"], none, none⟩)]
  precedences := [] }

def Rules.drained : Rules := {
  symbols := #[.finish, .epsilon, .nonterminal "S", .terminal "b", .nonterminal "A", .nonterminal "T",
    .nonterminal "U", .terminal "e", .terminal "c", .terminal "u"]
  productions := #[⟨none, [2], none, none⟩, ⟨some 2, [3, 4, 5], none, none⟩, ⟨some 2, [6, 7], none, none⟩,
    ⟨some 4, [], none, none⟩, ⟨some 4, [4, 8], none, none⟩, ⟨some 5, [4, 4], none, none⟩,
    ⟨some 6, [6, 9], none, none⟩]
  start := 2
  precedences := Array.replicate 10 none }

theorem built_drained : Rules.drained.toGrammar.Built :=
  .declared (show Declarations.drained.build = .ok Rules.drained.toGrammar from rfl)

theorem Grammar.firstExact_drained :
    Rules.drained.toGrammar.Built ∧
      (Rules.drained.toGrammar.first 5).toList = [1, 8] ∧ (Rules.drained.toGrammar.first 6).toList = [] ∧
      Rules.drained.toGrammar.FirstExact :=
  ⟨built_drained, by decide +kernel, by decide +kernel, firstExact_of_built built_drained⟩

end IncrementalLR
