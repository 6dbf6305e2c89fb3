import IncrementalLR.Proofs.Automaton.CoreMerging
import IncrementalLR.Proofs.Grammar.Operators
import IncrementalLR.Proofs.Parse.Prefixes

namespace IncrementalLR

section Walks

variable {grammar : Grammar} {graph : StateGraph} {mode : Mode} {spelled word : List Nat} {slots : List Slot}
  {state target : Nat}

theorem Path.exists_of_walk (hf : Faithful grammar graph) (hp : Path graph spelled slots)
    (h : graph.walk (Slot.top slots) word = some target) :
    ∃ slots', Path graph (word.reverse ++ spelled) slots' ∧ Slot.top slots' = target := by
  induction word generalizing spelled slots with
  | nil => exact ⟨slots, hp, Option.some_inj.mp h⟩
  | cons symbol word ih =>
      obtain ⟨next, hnext, hrest⟩ := Option.bind_eq_some_iff.mp h
      obtain ⟨slots', hpath, htop⟩ :=
        ih (.symbol hp (hf.follow_eq_some_iff.mp hnext) : Path _ _ (⟨next, _, default⟩ :: _)) hrest
      refine ⟨slots', ?_, htop⟩
      rw [List.reverse_cons, List.append_assoc]
      exact hpath

-- Every state of an automaton lies on top of some stack.
theorem exists_path_build (hw : grammar.toRules.WellFormed) (hlt : state < (StateGraph.build grammar mode).size) :
    ∃ spelled slots, Path (.build grammar mode) spelled slots ∧ Slot.top slots = state := by
  obtain ⟨word, hword⟩ := StateGraph.exists_walk_build hw hlt
  obtain ⟨slots, hpath, htop⟩ := Path.nil.exists_of_walk (faithful_build hw mode) hword
  exact ⟨_, slots, hpath, htop⟩

end Walks

section Advancing

variable {rules : Rules} {spelled : List Nat} {production terminal : Nat}

theorem Spells.advanced_to (hs : Spells rules spelled ⟨production, 0⟩) {dot : Nat}
    (hdot : dot ≤ (rules.production production).right.length) :
    Spells rules (((rules.production production).right.take dot).reverse ++ spelled) ⟨production, dot⟩ := by
  induction dot with
  | zero => exact hs
  | succ dot ih =>
      have hnext : Item.next? rules ⟨production, dot⟩ = some (rules.production production).right[dot] :=
        List.getElem?_eq_getElem hdot
      have hs := Spells.advanced (ih (Nat.le_of_succ_le hdot)) hnext
      rwa [← List.cons_append, ← List.reverse_concat, List.take_concat_get'] at hs

theorem Valid.advanced_to (hv : Valid rules spelled ⟨production, 0⟩ terminal) {dot : Nat}
    (hdot : dot ≤ (rules.production production).right.length) :
    Valid rules (((rules.production production).right.take dot).reverse ++ spelled) ⟨production, dot⟩ terminal := by
  induction dot with
  | zero => exact hv
  | succ dot ih =>
      have hnext : Item.next? rules ⟨production, dot⟩ = some (rules.production production).right[dot] :=
        List.getElem?_eq_getElem hdot
      have hv := Valid.advanced (ih (Nat.le_of_succ_le hdot)) hnext
      rwa [← List.cons_append, ← List.reverse_concat, List.take_concat_get'] at hv

end Advancing

-- The symbols from the top of a stack to its bottom where an operand is to come, with the
-- last operator before it.
inductive Rules.Opens (rules : Rules) (operators : Operators) : Option String → List Nat → Prop where
  | first : Opens rules operators none []
  | operator {last : Option String} {spelled : List Nat} {operator : Nat} {name : String} :
      Opens rules operators last spelled → rules.symbol operator = .terminal name → name ∈ operators.names →
      Opens rules operators (some name) (operator :: rules.start :: spelled)

namespace Rules.Expresses

variable {rules : Rules} {operators : Operators} {spelled rest : List Nat} {item : Item} {last name : Option String}
  {production symbol terminal operator : Nat}

theorem terminal_lt {text : String} (h : rules.symbol symbol = .terminal text) : symbol < rules.symbols.size := by
  by_contra hge
  rw [Rules.symbol, Array.getD_eq_getD_getElem?, Array.getElem?_eq_none (Nat.not_lt.mp hge)] at h
  cases h

section

variable (he : rules.Expresses operators)

include he

-- A terminal has one id.
theorem terminal_inj {other : Nat} {text : String} (h : rules.symbol symbol = .terminal text)
    (ho : rules.symbol other = .terminal text) : symbol = other := by
  have hid : ∀ {id}, rules.symbol id = .terminal text → rules.symbolId? (.terminal text) = some id := by
    intro id hid
    exact hid ▸ he.wellFormed.symbolId?_symbol (terminal_lt hid)
  exact Option.some_inj.mp ((hid h).symm.trans (hid ho))

theorem ne_start {text : String} (h : rules.symbol symbol = .terminal text) : symbol ≠ rules.start := by
  rintro rfl
  cases he.start.symm.trans h

-- What stands on the stack for an item: what it has moved over, and below that a prefix
-- behind which an operand may come, unless it is of the start rule.
theorem spelled_of_spells (hs : Spells rules spelled item) :
    item.production = startProduction ∧ spelled = ([rules.start].take item.dot).reverse ∨
      ∃ name last rest, rules.Makes operators item.production name ∧ rules.Opens operators last rest ∧
        spelled = ((rules.production item.production).right.take item.dot).reverse ++ rest := by
  induction hs with
  | start => exact Or.inl ⟨rfl, rfl⟩
  | @advanced spelled item symbol hs hn ih =>
      have htake : ∀ {right : List Nat}, right[item.dot]? = some symbol →
          (right.take (item.dot + 1)).reverse = symbol :: (right.take item.dot).reverse := by
        intro right h
        rw [List.take_add_one, h, Option.toList_some, List.reverse_concat]
      rcases ih with ⟨hstart, rfl⟩ | ⟨name, last, rest, hm, ho, rfl⟩
      · refine Or.inl ⟨hstart, ?_⟩
        rw [Item.next?, hstart, he.wellFormed.start_right] at hn
        exact (htake hn).symm
      · exact Or.inr ⟨name, last, rest, hm, ho, by rw [Item.advance, htake hn, List.cons_append]⟩
  | @brought spelled item other hs hb ih =>
      obtain ⟨next, hn, hleft, hzero⟩ := hb
      obtain ⟨name, hm⟩ := he.makes _ _ hleft
      obtain rfl := Option.some_inj.mp (hleft.symm.trans hm.left)
      obtain ⟨last, ho⟩ : ∃ last, rules.Opens operators last spelled := by
        rcases ih with ⟨hstart, rfl⟩ | ⟨name', last, rest, hm', ho, rfl⟩
        · rw [Item.next?, hstart, he.wellFormed.start_right] at hn
          have hdot := (List.getElem?_eq_some_iff.mp hn).1
          obtain hdot : item.dot = 0 := Nat.lt_one_iff.mp hdot
          rw [hdot]
          exact ⟨none, .first⟩
        · rw [Item.next?] at hn
          cases hm' with
          | atomic _ hright hatom =>
              rw [hright, List.getElem?_singleton] at hn
              split at hn
              · exact absurd (Option.some_inj.mp hn) (he.ne_start hatom)
              · cases hn
          | binary _ hright hoperator hname =>
              rw [hright] at hn ⊢
              rcases hdot : item.dot with _ | _ | _ | dot
              · exact ⟨last, ho⟩
              · rw [hdot] at hn
                exact absurd (Option.some_inj.mp hn) (he.ne_start hoperator)
              · exact ⟨_, .operator ho hoperator hname⟩
              · rw [hdot] at hn
                cases hn
      refine Or.inr ⟨name, last, spelled, hm, ho, ?_⟩
      rw [hzero]
      rfl

theorem next?_start : Item.start.next? rules = some rules.start := by
  rw [Item.next?, show Item.start.production = startProduction from rfl, he.wellFormed.start_right]
  rfl

theorem exists_binary {text : String} (hoperator : rules.symbol operator = .terminal text)
    (htext : text ∈ operators.names) :
    ∃ production, rules.Makes operators production (some text) ∧
      (rules.production production).right = [rules.start, operator, rules.start] := by
  obtain ⟨production, hm⟩ := he.binary text htext
  refine ⟨production, hm, ?_⟩
  cases hm with
  | binary _ hright hsymbol _ => rw [hright, he.terminal_inj hoperator hsymbol]

-- Where an operand is to come every production begins.
theorem spells_of_opens (ho : rules.Opens operators last spelled) (hm : rules.Makes operators production name) :
    Spells rules spelled ⟨production, 0⟩ := by
  induction ho generalizing production name with
  | first => exact .brought .start ⟨_, he.next?_start, hm.left, rfl⟩
  | operator _ hoperator htext ih =>
      obtain ⟨other, hother, hright⟩ := he.exists_binary hoperator htext
      have hs := @Spells.advanced_to _ _ _ (ih hother) 2 (by rw [hright]; exact Nat.le_succ 2)
      rw [hright] at hs
      exact .brought hs ⟨rules.start, by rw [Item.next?, hright]; rfl, hm.left, rfl⟩

theorem mem_terminals {text : String} (h : rules.symbol symbol = .terminal text) : symbol ∈ rules.terminals := by
  refine Rules.mem_terminals.mpr ⟨terminal_lt h, by rw [h]; rfl, ?_⟩
  rintro rfl
  cases he.wellFormed.symbol_epsilon.symm.trans h

-- An operator may follow on each operand, and so may the end of the input.
theorem valid_of_opens (ho : rules.Opens operators last spelled) (hm : rules.Makes operators production name)
    (ht : terminal = finishId ∨ ∃ text ∈ operators.names, rules.symbol terminal = .terminal text) :
    Valid rules spelled ⟨production, 0⟩ terminal := by
  rcases ht with rfl | ⟨text, htext, hterminal⟩
  · induction ho generalizing production name with
    | first =>
        refine .passed .start ⟨_, he.next?_start, hm.left, rfl⟩ ?_
        rw [Item.remaining, show Item.start.production = startProduction from rfl, he.wellFormed.start_right]
        exact .nil
    | operator _ hoperator htext ih =>
        obtain ⟨other, hother, hright⟩ := he.exists_binary hoperator htext
        have hv := @Valid.advanced_to _ _ _ _ (ih hother) 2 (by rw [hright]; exact Nat.le_succ 2)
        rw [hright] at hv
        refine .passed hv ⟨rules.start, by rw [Item.next?, hright]; rfl, hm.left, rfl⟩ ?_
        rw [Item.remaining, hright]
        exact .nil
  · obtain ⟨other, hother, hright⟩ := he.exists_binary hterminal htext
    refine .begun (he.spells_of_opens ho hother) ⟨rules.start, by rw [Item.next?, hright]; rfl, hm.left, rfl⟩ ?_
    rw [Item.remaining, hright]
    exact .here (he.mem_terminals hterminal)

end

section

variable {grammar : Grammar} {graph : StateGraph} {slots : List Slot} {target : Nat}
  (he : grammar.toRules.Expresses operators) (hf : Faithful grammar graph)

include he

-- A production is told by what stands on the stack for it.
theorem not_opens (hm : grammar.Makes operators production name) :
    ¬grammar.Opens operators last ((grammar.production production).right.reverse ++ rest) := by
  intro ho
  cases hm with
  | atomic _ hright hatom =>
      rw [hright] at ho
      cases ho with
      | operator _ hoperator hname =>
          obtain rfl := Symbol.terminal.inj (hatom.symm.trans hoperator)
          exact operators.apart hname
  | binary _ hright _ _ =>
      rw [hright] at ho
      cases ho with
      | operator _ hoperator _ => exact he.ne_start hoperator rfl

theorem ne_lone (hm : grammar.Makes operators production name) :
    (grammar.production production).right.reverse ++ rest ≠ [grammar.start] := by
  intro h
  cases hm with
  | atomic _ hright hatom =>
      rw [hright] at h
      exact he.ne_start hatom (List.cons.inj h).1
  | binary _ hright _ _ =>
      rw [hright] at h
      cases (List.cons.inj h).2

theorem not_atomic {rest' : List Nat} (hm : grammar.Makes operators production none) :
    (grammar.production production).right.reverse ++ rest ≠ grammar.start :: rest' := by
  intro h
  cases hm with
  | atomic _ hright hatom =>
      rw [hright] at h
      exact he.ne_start hatom (List.cons.inj h).1

theorem eq_of_spelled {production' : Nat} {name' : Option String} {rest' : List Nat}
    (hm : grammar.Makes operators production name) (hm' : grammar.Makes operators production' name')
    (h : (grammar.production production).right.reverse ++ rest =
      (grammar.production production').right.reverse ++ rest') : production = production' := by
  cases hm with
  | atomic hleft hright hatom =>
      cases hm' with
      | atomic hleft' hright' hatom' => exact he.unique _ _ none (.atomic hleft hright hatom) (.atomic hleft' hright' hatom')
      | binary _ hright' _ _ =>
          rw [hright, hright'] at h
          exact absurd (List.cons.inj h).1 (he.ne_start hatom)
  | binary hleft hright hsymbol hname =>
      cases hm' with
      | atomic _ hright' hatom' =>
          rw [hright, hright'] at h
          exact absurd (List.cons.inj h).1.symm (he.ne_start hatom')
      | binary hleft' hright' hsymbol' hname' =>
          rw [hright, hright'] at h
          have hsame := (List.cons.inj (List.cons.inj h).2).1
          rw [hsame, hsymbol'] at hsymbol
          obtain rfl := Symbol.terminal.inj hsymbol
          exact he.unique _ _ _ (.binary hleft hright (hsame ▸ hsymbol') hname) (.binary hleft' hright' hsymbol' hname')

include hf

theorem spelled_of_accept (hp : Path graph spelled slots) (hc : Candidate grammar graph (Slot.top slots) symbol .accept) :
    symbol = finishId ∧ spelled = [grammar.start] := by
  cases hc with
  | @accept item hi hfinal hstart =>
      refine ⟨rfl, ?_⟩
      rcases he.spelled_of_spells (hp.spells hf hi) with ⟨-, rfl⟩ | ⟨name, -, -, hm, -, -⟩
      · rw [Item.isFinal, hstart, he.wellFormed.start_right] at hfinal
        rw [List.take_of_length_le (of_decide_eq_true hfinal)]
        rfl
      · have hleft := hm.left
        rw [hstart, he.wellFormed.start_left] at hleft
        cases hleft

theorem spelled_of_reduce (hp : Path graph spelled slots)
    (hc : Candidate grammar graph (Slot.top slots) symbol (.reduce production)) :
    ∃ name last rest, grammar.Makes operators production name ∧ grammar.Opens operators last rest ∧
      spelled = (grammar.production production).right.reverse ++ rest := by
  generalize haction : Action.reduce production = action at hc
  cases hc with
  | accept => cases haction
  | shift => cases haction
  | goto => cases haction
  | reduce ha hfinal hne =>
      obtain rfl := Action.reduce.inj haction
      rcases he.spelled_of_spells (hp.spells hf ha.1) with ⟨hstart, -⟩ | ⟨name, last, rest, hm, ho, rfl⟩
      · exact absurd hstart hne
      · refine ⟨name, last, rest, hm, ho, ?_⟩
        rw [List.take_of_length_le (of_decide_eq_true hfinal)]

theorem spelled_of_shift (hp : Path graph spelled slots)
    (hc : Candidate grammar graph (Slot.top slots) symbol (.shift target)) :
    (∃ last, grammar.Opens operators last spelled ∧ grammar.symbol symbol = .terminal operators.atom) ∨
      ∃ last rest text, grammar.Opens operators last rest ∧ spelled = grammar.start :: rest ∧
        grammar.symbol symbol = .terminal text ∧ text ∈ operators.names := by
  cases hc with
  | shift hedge hn =>
      have hne : symbol ≠ grammar.start := by
        rintro rfl
        rw [he.start] at hn
        cases hn
      obtain ⟨item, hi, hnext⟩ := hf.edge_next _ _ _ hedge
      rw [Item.next?] at hnext
      rcases he.spelled_of_spells (hp.spells hf hi) with ⟨hstart, -⟩ | ⟨name, last, rest, hm, ho, rfl⟩
      · rw [hstart, he.wellFormed.start_right, List.getElem?_singleton] at hnext
        split at hnext
        · exact absurd (Option.some_inj.mp hnext).symm hne
        · cases hnext
      · cases hm with
        | atomic _ hright hatom =>
            rw [hright, List.getElem?_singleton] at hnext
            split at hnext
            · rename_i hdot
              obtain rfl := Option.some_inj.mp hnext
              rw [hdot]
              exact Or.inl ⟨last, ho, hatom⟩
            · cases hnext
        | binary _ hright hoperator hname =>
            rw [hright] at hnext ⊢
            rcases hdot : item.dot with _ | _ | _ | dot
            · rw [hdot] at hnext
              exact absurd (Option.some_inj.mp hnext).symm hne
            · rw [hdot] at hnext
              obtain rfl := Option.some_inj.mp hnext
              exact Or.inr ⟨last, rest, _, ho, rfl, hoperator, hname⟩
            · rw [hdot] at hnext
              exact absurd (Option.some_inj.mp hnext).symm hne
            · rw [hdot] at hnext
              cases hnext

-- Where a production is complete the table may reduce by it.
theorem candidate_of_opens (hm : grammar.Makes operators production name)
    (hp : Path graph ((grammar.production production).right.reverse ++ rest) slots) (ho : grammar.Opens operators last rest)
    (ht : terminal = finishId ∨ ∃ text ∈ operators.names, grammar.symbol terminal = .terminal text) :
    Candidate grammar graph (Slot.top slots) terminal (.reduce production) := by
  have hs := (he.spells_of_opens ho hm).advanced_to (Nat.le_refl _)
  have hv := (he.valid_of_opens ho hm ht).advanced_to (Nat.le_refl _)
  rw [List.take_length] at hs hv
  refine @Candidate.reduce _ _ _ ⟨production, (grammar.production production).right.length⟩ _ ⟨hp.hasItem hf hs, ?_⟩
    (decide_eq_true (Nat.le_refl _)) fun hstart => ?_
  · by_cases hmode : graph.mode = .lr0
    · refine Or.inl ⟨hmode, ?_, ?_⟩
      · rcases ht with rfl | ⟨text, -, hterminal⟩
        · refine Rules.mem_terminals.mpr ⟨he.wellFormed.finish_lt, ?_, by decide⟩
          rw [he.wellFormed.symbol_finish]
          rfl
        · exact he.mem_terminals hterminal
      · rcases ht with rfl | ⟨text, -, hterminal⟩
        · rw [he.wellFormed.symbol_finish]
          rfl
        · rw [hterminal]
          rfl
    · exact Or.inr ⟨hmode, hp.sees hf hmode hv⟩
  · have hleft := hm.left
    rw [show production = startProduction from hstart, he.wellFormed.start_left] at hleft
    cases hleft

omit he hf in
theorem not_goto {state : Nat} (hn : (grammar.symbol symbol).isNonterminal = false) :
    ¬Candidate grammar graph state symbol (.goto target) := by
  intro hc
  cases hc with
  | goto _ h => cases hn.symm.trans h

theorem not_shift_finish {state : Nat} (hp : Path graph spelled slots) (htop : Slot.top slots = state) :
    ¬Candidate grammar graph state finishId (.shift target) := by
  intro hc
  subst htop
  have hfinish := he.wellFormed.symbol_finish
  rcases he.spelled_of_shift hf hp hc with ⟨_, -, h⟩ | ⟨_, _, _, -, -, h, -⟩
  · cases hfinish.symm.trans h
  · cases hfinish.symm.trans h

-- The end of the input, and any token behind the atom, makes a complete production the
-- next one on the stack.
theorem action?_of_complete (hm : grammar.Makes operators production name)
    (hp : Path graph ((grammar.production production).right.reverse ++ rest) slots) (ho : grammar.Opens operators last rest)
    (ht : terminal = finishId ∨
      name = none ∧ ∃ text ∈ operators.names, grammar.symbol terminal = .terminal text) :
    (SyntaxTable.build graph grammar).action? (Slot.top slots) terminal = some (.reduce production) := by
  refine action?_of_only hf (he.candidate_of_opens hf hm hp ho (ht.imp_right And.right)) fun other hc => ?_
  cases other with
  | accept => exact absurd (he.spelled_of_accept hf hp hc).2 (he.ne_lone hm)
  | reduce production' =>
      obtain ⟨name', last', rest', hm', -, hspelled⟩ := he.spelled_of_reduce hf hp hc
      rw [he.eq_of_spelled hm hm' hspelled]
  | shift target =>
      rcases ht with rfl | ⟨rfl, text, htext, hterminal⟩
      · exact absurd hc (he.not_shift_finish hf hp rfl)
      · rcases he.spelled_of_shift hf hp hc with ⟨last', ho', -⟩ | ⟨last', rest', text', -, hspelled, -, -⟩
        · exact absurd ho' (he.not_opens hm)
        · exact absurd hspelled (he.not_atomic hm)
  | goto target =>
      rcases ht with rfl | ⟨-, text, -, hterminal⟩
      · exact absurd hc (not_goto (by rw [he.wellFormed.symbol_finish]; rfl))
      · exact absurd hc (not_goto (by rw [hterminal]; rfl))

-- Where an operand is to come the atom is shifted.
theorem action?_of_opens {atom : Nat} (hp : Path graph spelled slots) (ho : grammar.Opens operators last spelled)
    (hatom : grammar.symbol atom = .terminal operators.atom) :
    ∃ target, (SyntaxTable.build graph grammar).action? (Slot.top slots) atom = some (.shift target) := by
  obtain ⟨production, hm⟩ := he.atomic
  have hi := hp.hasItem hf (he.spells_of_opens ho hm)
  have hnext : Item.next? grammar.toRules ⟨production, 0⟩ = some atom := by
    cases hm with
    | atomic _ hright hsymbol => rw [Item.next?, hright, he.terminal_inj hatom hsymbol]; rfl
  obtain ⟨target, hedge⟩ := hf.edge_exists _ _ _ hi hnext
  refine ⟨target, action?_of_only hf (.shift hedge (by rw [hatom]; rfl)) fun other hc => ?_⟩
  cases other with
  | accept =>
      have hfinish := (he.spelled_of_accept hf hp hc).1
      rw [hfinish] at hatom
      cases he.wellFormed.symbol_finish.symm.trans hatom
  | reduce production' =>
      obtain ⟨name', last', rest', hm', -, rfl⟩ := he.spelled_of_reduce hf hp hc
      exact absurd ho (he.not_opens hm')
  | shift target' =>
      cases hc with
      | shift hedge' _ => rw [Construction.target_unique (hf.edges_sorted _) hedge hedge']
  | goto => exact absurd hc (not_goto (by rw [hatom]; rfl))

-- Behind an operand an operator can be shifted.
theorem exists_shift {text : String} (hp : Path graph (grammar.start :: rest) slots) (ho : grammar.Opens operators last rest)
    (hterminal : grammar.symbol terminal = .terminal text) (htext : text ∈ operators.names) :
    ∃ target, Candidate grammar graph (Slot.top slots) terminal (.shift target) := by
  obtain ⟨production, hm, hright⟩ := he.exists_binary hterminal htext
  have hs := @Spells.advanced_to _ _ _ (he.spells_of_opens ho hm) 1 (by rw [hright]; exact Nat.le_add_left 1 2)
  rw [hright] at hs
  obtain ⟨target, hedge⟩ := hf.edge_exists _ _ terminal (hp.hasItem hf hs) (by rw [Item.next?, hright]; rfl)
  exact ⟨target, .shift hedge (by rw [hterminal]; rfl)⟩

-- Alone on the stack an operand is what the parse is to end with, and operators are
-- shifted.
theorem action?_of_lone (hp : Path graph [grammar.start] slots) :
    (SyntaxTable.build graph grammar).action? (Slot.top slots) finishId = some .accept ∧
      ∀ text ∈ operators.names, grammar.symbol terminal = .terminal text →
        ∃ target, (SyntaxTable.build graph grammar).action? (Slot.top slots) terminal = some (.shift target) := by
  have hreduce : ∀ {symbol production}, ¬Candidate grammar graph (Slot.top slots) symbol (.reduce production) := by
    intro symbol production hc
    obtain ⟨name, last, rest, hm, -, hspelled⟩ := he.spelled_of_reduce hf hp hc
    exact he.ne_lone hm hspelled.symm
  constructor
  · have hi := hp.hasItem hf (.advanced .start he.next?_start)
    refine action?_of_only hf (.accept hi ?_ rfl) fun other hc => ?_
    · rw [Item.isFinal, show Item.start.advance.production = startProduction from rfl, he.wellFormed.start_right]
      rfl
    · cases other with
      | accept => rfl
      | reduce => exact absurd hc hreduce
      | shift => exact absurd hc (he.not_shift_finish hf hp rfl)
      | goto => exact absurd hc (not_goto (by rw [he.wellFormed.symbol_finish]; rfl))
  · intro text htext hterminal
    obtain ⟨target, hshift⟩ := he.exists_shift hf hp .first hterminal htext
    refine ⟨target, action?_of_only hf hshift fun other hc => ?_⟩
    cases other with
    | accept =>
        have hfinish := (he.spelled_of_accept hf hp hc).1
        rw [hfinish] at hterminal
        cases he.wellFormed.symbol_finish.symm.trans hterminal
    | reduce => exact absurd hc hreduce
    | shift =>
        cases hshift with
        | shift hedge _ =>
            cases hc with
            | shift hedge' _ => rw [Construction.target_unique (hf.edges_sorted _) hedge hedge']
    | goto => exact absurd hc (not_goto (by rw [hterminal]; rfl))

omit hf in
theorem productionPrecedence {text : String} (hm : grammar.Makes operators production (some text)) :
    ∃ precedence, (text, precedence) ∈ operators.levels ∧ grammar.productionPrecedence production = some precedence := by
  cases hm with
  | @binary operator _ _ hright hoperator hname =>
      obtain ⟨precedence, hlevel⟩ := Operators.exists_level hname
      have hterminal : (grammar.symbol operator).isTerminal = true := by
        rw [hoperator]
        rfl
      have hstart : (grammar.symbol grammar.start).isTerminal = false := by
        rw [he.start]
        rfl
      refine ⟨precedence, hlevel, ?_⟩
      rw [Rules.productionPrecedence, he.untagged, hright]
      simp [hterminal, hstart, he.precedence _ _ _ hoperator hlevel]

-- Between two operands the table goes by the operators on both sides.
theorem action?_of_binary {text inner : String} (hm : grammar.Makes operators production (some text))
    (hp : Path graph ((grammar.production production).right.reverse ++ rest) slots) (ho : grammar.Opens operators last rest)
    (hterminal : grammar.symbol terminal = .terminal inner) (hinner : inner ∈ operators.names) :
    (SyntaxTable.build graph grammar).action? (Slot.top slots) terminal = some (.reduce production) ∧
        operators.Binds .left inner text ∨
      ∃ target, (SyntaxTable.build graph grammar).action? (Slot.top slots) terminal = some (.shift target) ∧
        operators.Binds .right text inner := by
  have hreduce := he.candidate_of_opens hf hm hp ho (Or.inr ⟨inner, hinner, hterminal⟩)
  obtain ⟨rule, hrule, hproduction⟩ := he.productionPrecedence hm
  obtain ⟨token, htoken⟩ := Operators.exists_level hinner
  have hsymbol := he.precedence _ _ _ hterminal htoken
  obtain ⟨target, hshift⟩ : ∃ target, Candidate grammar graph (Slot.top slots) terminal (.shift target) := by
    have hm' := hm
    cases hm' with
    | binary _ hright hoperator hname =>
        have hp' := hp
        rw [hright] at hp'
        exact he.exists_shift hf hp' (.operator ho hoperator hname) hterminal hinner
  rw [action?_of_contested hf hreduce hshift fun other hc => ?_, Conflict.ofShiftReduce, hsymbol, hproduction]
  · dsimp only
    rcases Nat.lt_trichotomy rule.level token.level with hlt | heq | hgt
    · rw [if_pos hlt]
      exact Or.inr ⟨target, rfl, Operators.binds_of_level hrule htoken (Or.inl hlt)⟩
    · rw [if_neg (Nat.lt_irrefl _ <| heq ▸ ·), if_neg (Nat.lt_irrefl _ <| heq ▸ ·)]
      cases hassoc : token.assoc with
      | left => exact Or.inl ⟨rfl, Operators.binds_of_level htoken hrule (Or.inr ⟨heq.symm, hassoc⟩)⟩
      | right =>
          refine Or.inr ⟨target, rfl, Operators.binds_of_level hrule htoken (Or.inr ⟨heq, ?_⟩)⟩
          rw [Operators.assoc_eq_of_level hrule htoken heq, hassoc]
      | nonassoc => exact absurd hassoc (Operators.assoc_ne htoken)
    · rw [if_neg (Nat.lt_asymm hgt), if_pos hgt]
      exact Or.inl ⟨rfl, Operators.binds_of_level htoken hrule (Or.inl hgt)⟩
  · cases other with
    | accept =>
        have hfinish := (he.spelled_of_accept hf hp hc).1
        rw [hfinish] at hterminal
        cases he.wellFormed.symbol_finish.symm.trans hterminal
    | reduce production' =>
        obtain ⟨name', last', rest', hm', -, hspelled⟩ := he.spelled_of_reduce hf hp hc
        rw [he.eq_of_spelled hm hm' hspelled]
        exact Or.inl rfl
    | shift target' =>
        cases hshift with
        | shift hedge _ =>
            cases hc with
            | shift hedge' _ => exact Or.inr (by rw [Construction.target_unique (hf.edges_sorted _) hedge hedge'])
    | goto => exact absurd hc (not_goto (by rw [hterminal]; rfl))

end

end Rules.Expresses

-- The declared precedences settle all conflicts of a grammar of expressions.
theorem SyntaxTable.unresolved_of_expresses {grammar : Grammar} {operators : Operators} {mode : Mode}
    (he : grammar.toRules.Expresses operators) : (SyntaxTable.ofGrammar grammar mode).unresolved = [] := by
  have hf := faithful_build he.wellFormed mode
  rw [unresolved, List.filter_eq_nil_iff]
  intro conflict h
  rw [Bool.not_eq_true', Bool.not_eq_false]
  obtain ⟨state, symbol, left, right, hlt, hleft, hright, hbetween⟩ := mem_conflicts_build h
  obtain ⟨spelled, slots, hp, rfl⟩ := exists_path_build he.wellFormed hlt
  -- a reduction that competes with a shift is by the production of an operator
  have hcontested : ∀ {production target},
      Candidate grammar (.build grammar mode) (Slot.top slots) symbol (.reduce production) →
      Candidate grammar (.build grammar mode) (Slot.top slots) symbol (.shift target) →
      (Conflict.ofShiftReduce grammar.toRules (Slot.top slots) symbol production target).byPrecedence = true := by
    intro production target hreduce hshift
    obtain ⟨name, last, rest, hm, ho, rfl⟩ := he.spelled_of_reduce hf hp hreduce
    rcases he.spelled_of_shift hf hp hshift with ⟨last', ho', -⟩ | ⟨last', rest', text, -, hspelled, hsymbol, htext⟩
    · exact absurd ho' (he.not_opens hm)
    · cases name with
      | none => exact absurd hspelled (he.not_atomic hm)
      | some name =>
          obtain ⟨rule, -, hproduction⟩ := he.productionPrecedence hm
          obtain ⟨token, htoken⟩ := Operators.exists_level htext
          rw [Conflict.ofShiftReduce, he.precedence _ _ _ hsymbol htoken, hproduction]
          dsimp only
          split
          · rfl
          · split
            · rfl
            · cases token.assoc <;> rfl
  have haccept : ∀ {production}, Candidate grammar (.build grammar mode) (Slot.top slots) symbol .accept →
      ¬Candidate grammar (.build grammar mode) (Slot.top slots) symbol (.reduce production) := by
    intro production haccept hreduce
    obtain ⟨name, last, rest, hm, -, rfl⟩ := he.spelled_of_reduce hf hp hreduce
    exact he.ne_lone hm (he.spelled_of_accept hf hp haccept).2
  unfold Conflict.between? at hbetween
  split at hbetween
  · exact Option.some_inj.mp hbetween ▸ hcontested hleft hright
  · exact Option.some_inj.mp hbetween ▸ hcontested hright hleft
  · split at hbetween
    · cases hbetween
    · rename_i hne
      obtain ⟨name, last, rest, hm, -, rfl⟩ := he.spelled_of_reduce hf hp hleft
      obtain ⟨name', last', rest', hm', -, hspelled⟩ := he.spelled_of_reduce hf hp hright
      exact absurd (he.eq_of_spelled hm hm' hspelled) hne
  · exact absurd hright (haccept hleft)
  · exact absurd hleft (haccept hright)
  · cases hbetween

end IncrementalLR
