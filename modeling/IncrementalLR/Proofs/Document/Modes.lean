import IncrementalLR.Proofs.Automaton.CoreMerging
import IncrementalLR.Proofs.Document.Reuse
import IncrementalLR.Proofs.Parse.Prefixes

namespace IncrementalLR

section Judges

variable {grammar : Grammar} {left right : StateGraph} {input : List Leaf} {document other : Document}
  {store fresh after after' : Store} {forest forest' : Forest} {status status' : ParseStatus}

-- Parses of the same leaves end alike, whatever tables without conflicts they go by.
theorem Judges.endsAlike_of_conflictFree (hl : ConflictFree grammar left) (hr : ConflictFree grammar right)
    (hplain : ∀ leaf ∈ input, leaf.passes = false)
    (hj : Judges (.build left grammar) input document forest after status)
    (hj' : Judges (.build right grammar) input other forest' after' status') (hs : document.Stands store forest)
    (hs' : other.Stands fresh forest') : document.EndsAlike store other fresh (after, status) (after', status') := by
  cases hj with
  | accepted hsteps haccepts hstands hcopies =>
      obtain ⟨slots, hfollows, haccepts', hsame⟩ := haccepts.follows hl hr hplain hsteps
      cases hj' with
      | accepted hsteps' hends hstands' hcopies' =>
          obtain rfl := (hfollows.to_last hsteps' haccepts'.next).eq_of_halted hends.next
          refine .accepted ?_
          rw [hstands.snapshot_root, hstands'.snapshot_root, hcopies, hcopies', hsame]
      | rejected hsteps' hhalts hnot =>
          obtain rfl := (hfollows.to_last hsteps' haccepts'.next).eq_of_halted hhalts
          exact absurd haccepts' hnot
  | rejected hsteps hhalts hnot hplace hnode =>
      cases hj' with
      | accepted hsteps' haccepts _ _ =>
          obtain ⟨slots, hfollows, haccepts', -⟩ := haccepts.follows hr hl hplain hsteps'
          obtain rfl := (hfollows.to_last hsteps haccepts'.next).eq_of_halted hhalts
          exact absurd haccepts' hnot
      | rejected hsteps' hhalts' hnot' hplace' hnode' =>
          rw [Machine.leaves_eq_of_halted hl hr hplain hsteps hsteps' hhalts hhalts'] at hplace
          obtain rfl := Nat.add_right_cancel (hplace.trans hplace'.symm)
          rw [← hs.content] at hnode
          rw [← hs'.content] at hnode'
          exact .rejected hnode hnode'

end Judges

-- The name under which tables look a token up.
def Token.lookupName (token : Token) : String := (Label.ofContent (Document.tokenContent token)).key.name

-- The end of the input as a leaf.
def Leaf.finish : Leaf := ⟨some finishId, false, .node .finish "" []⟩

theorem Token.leaf_plain {grammar : Grammar} {tokens : List Token} :
    ∀ leaf ∈ tokens.map (Token.leaf grammar) ++ [.finish], leaf.passes = false := by
  intro leaf h
  rcases List.mem_append.mp h with h | h
  · obtain ⟨token, -, rfl⟩ := List.mem_map.mp h
    rfl
  · rw [List.mem_singleton.mp h]
    rfl

namespace Document

variable {grammar : Grammar} {mode : Mode}

-- The leaves of a fresh document.
theorem input_ofTokens_passing (hw : grammar.toRules.WellFormed) (passThrough : List String) (document : Document)
    (reparse : Bool) (first : Nat) (tokens : List Token) :
    Setting.input ⟨.ofGrammar grammar mode, passThrough, document, reparse⟩
        (Forest.ofLeaves (enumerate first (tokens.map tokenContent))).tokens =
      tokens.map (fun token => { token.leaf grammar with passes := passThrough.contains token.lookupName }) ++
        [{ Leaf.finish with passes := passThrough.contains Symbol.finish.name }] := by
  generalize hsetting : (⟨.ofGrammar grammar mode, passThrough, document, reparse⟩ : Setting) = setting
  have hgrammar : setting.table.grammar = grammar := by
    rw [← hsetting]
    rfl
  have hpass : setting.passThrough = passThrough := by
    rw [← hsetting]
  have htoken : ∀ token : Token, setting.leaf (.ofContent (tokenContent token)) =
      { token.leaf grammar with passes := passThrough.contains token.lookupName } := by
    intro token
    have ht := isToken_tokenContent token
    obtain ⟨name, hname⟩ := ht.key
    rw [Setting.leaf, Setting.passes_of_isToken ht, hpass, Setting.idOf?, hgrammar, Token.leaf, Token.lookupName, hname]
    rfl
  have hfinish : setting.leaf eosLabel = { Leaf.finish with passes := passThrough.contains Symbol.finish.name } := by
    rw [Setting.leaf, Setting.passes, hpass, Setting.idOf?, hgrammar, show eosLabel.key.key = .finish from rfl,
      hw.symbolId?_eq_some.mpr hw.finish]
    rfl
  rw [Setting.input, hfinish, ← Setting.leaves_eq_tokens, Setting.leaves_ofLeaves]
  have hlabels := congrArg (List.map setting.leaf) (@enumerate_labels first (tokens.map tokenContent))
  rw [List.map_map, List.map_map, List.map_map] at hlabels
  rw [show (enumerate first (tokens.map tokenContent)).map (fun entry => setting.leaf entry.2) = _ from hlabels]
  exact congrArg (· ++ _) (List.map_congr_left fun token _ => htoken token)

theorem input_ofTokens (hw : grammar.toRules.WellFormed) (document : Document) (reparse : Bool) (first : Nat)
    (tokens : List Token) :
    Setting.input ⟨.ofGrammar grammar mode, [], document, reparse⟩
        (Forest.ofLeaves (enumerate first (tokens.map tokenContent))).tokens =
      tokens.map (Token.leaf grammar) ++ [.finish] :=
  input_ofTokens_passing hw [] document reparse first tokens

-- A parse of a fresh document comes to an end, and it ends as the leaf parser does.
theorem parse_ofTokens_judges (hb : grammar.Built) (hmode : mode ≠ .lr0)
    (hfinish : grammar.toRules.Avoids (· == .finish)) (hwild : grammar.toRules.Avoids Symbol.isWildcard)
    (hconflicts : (SyntaxTable.ofGrammar grammar mode).conflicts = []) {parser : Parser}
    (htable : parser.table = .ofGrammar grammar mode) (hpass : parser.passThrough = []) (store : Store)
    (tokens : List Token) (reparse : Bool) :
    ∃ least parser' after status, ∃ forest : Forest,
      (∀ fuel, least ≤ fuel →
        parser.parse fuel (ofTokens store tokens).1 (ofTokens store tokens).2 reparse =
          some (parser', after, .ok status)) ∧
      (ofTokens store tokens).2.Stands (ofTokens store tokens).1 forest ∧
      Judges (.ofGrammar grammar mode) (tokens.map (Token.leaf grammar) ++ [.finish]) (ofTokens store tokens).2 forest
        after status := by
  have hstands := stands_ofTokens store tokens
  have hmode' : (SyntaxTable.ofGrammar grammar mode).graph.mode ≠ .lr0 := by
    rw [show (SyntaxTable.ofGrammar grammar mode).graph.mode = mode from mode_build grammar mode]
    exact hmode
  obtain ⟨least, parser', after, status, hparse, hjudges⟩ :=
    Parser.parse_judges_of_sure (exact_setting hb hfinish hwild hconflicts (fun _ _ _ => List.not_mem_nil) _) hmode' htable
      hpass (Or.inr (Or.inr ⟨_, rfl⟩)) hstands Forest.settled_ofLeaves
  rw [input_ofTokens hb.wellFormed] at hjudges
  exact ⟨least, parser', after, status, _, hparse, hstands, hjudges⟩

-- The LR(1) and the LALR(1) table of a grammar parse alike if the latter has no
-- conflicts. Whatever the LALR(1) table reduces without need, it halts at the same token.
theorem parse_lr1_endsAlike_lalr (hb : grammar.Built) (hfinish : grammar.toRules.Avoids (· == .finish))
    (hwild : grammar.toRules.Avoids Symbol.isWildcard)
    (hconflicts : (SyntaxTable.ofGrammar grammar .lalr).conflicts = []) :
    (SyntaxTable.ofGrammar grammar .lr1).conflicts = [] ∧
      ∀ (parser other : Parser), parser.table = .ofGrammar grammar .lr1 → other.table = .ofGrammar grammar .lalr →
        parser.passThrough = [] → other.passThrough = [] →
        ∀ (store fresh : Store) (tokens : List Token) (reparse reparse' : Bool),
        let document := ofTokens store tokens
        let document' := ofTokens fresh tokens
        ∃ least parser' after status other' after' status',
          (∀ fuel, least ≤ fuel →
            parser.parse fuel document.1 document.2 reparse = some (parser', after, .ok status) ∧
            other.parse fuel document'.1 document'.2 reparse' = some (other', after', .ok status')) ∧
          document.2.EndsAlike document.1 document'.2 document'.1 (after, status) (after', status') := by
  have hw := hb.wellFormed
  have hlr1 := conflicts_lr1_eq_nil hw hfinish hconflicts
  have hl : ConflictFree grammar (.build grammar .lr1) := ⟨hw, faithful_build hw .lr1, hfinish, hwild, hlr1⟩
  have hr : ConflictFree grammar (.build grammar .lalr) := ⟨hw, faithful_build hw .lalr, hfinish, hwild, hconflicts⟩
  refine ⟨hlr1, fun parser other htable htable' hpass hpass' store fresh tokens reparse reparse' => ?_⟩
  obtain ⟨least, parser', after, status, forest, hparse, hstands, hjudges⟩ :=
    parse_ofTokens_judges hb Mode.noConfusion hfinish hwild hlr1 htable hpass store tokens reparse
  obtain ⟨most, other', after', status', forest', hparse', hstands', hjudges'⟩ :=
    parse_ofTokens_judges hb Mode.noConfusion hfinish hwild hconflicts htable' hpass' fresh tokens reparse'
  refine ⟨max least most, parser', after, status, other', after', status', fun fuel hfuel => ?_, ?_⟩
  · exact ⟨hparse fuel (Nat.le_trans (Nat.le_max_left _ _) hfuel),
      hparse' fuel (Nat.le_trans (Nat.le_max_right _ _) hfuel)⟩
  · exact hjudges.endsAlike_of_conflictFree hl hr Token.leaf_plain hjudges' hstands hstands'

end Document

-- A grammar whose LALR(1) table has no conflicts although it merges more states: what
-- follows on "c" tells A from B, but what may come behind either does not.
def Declarations.branched : Declarations := {
  start := none
  rules := [
    ("S", ⟨[.terminal "a", .nonterminal "A", .terminal "d"], none, none⟩),
    ("S", ⟨[.terminal "b", .nonterminal "B", .terminal "d"], none, none⟩),
    ("S", ⟨[.terminal "a", .nonterminal "B", .terminal "e"], none, none⟩),
    ("S", ⟨[.terminal "b", .nonterminal "A", .terminal "e"], none, none⟩),
    ("A", ⟨[.terminal "c", .terminal "x"], none, none⟩),
    ("B", ⟨[.terminal "c", .terminal "y"], none, none⟩)]
  precedences := [] }

def Rules.branched : Rules := {
  symbols := #[.finish, .epsilon, .nonterminal "S", .terminal "a", .nonterminal "A", .terminal "d",
    .terminal "b", .nonterminal "B", .terminal "e", .terminal "c", .terminal "x", .terminal "y"]
  productions := #[⟨none, [2], none, none⟩, ⟨some 2, [3, 4, 5], none, none⟩,
    ⟨some 2, [6, 7, 5], none, none⟩, ⟨some 2, [3, 7, 8], none, none⟩,
    ⟨some 2, [6, 4, 8], none, none⟩, ⟨some 4, [9, 10], none, none⟩, ⟨some 7, [9, 11], none, none⟩]
  start := 2
  precedences := Array.replicate 12 none }

theorem built_branched : Rules.branched.toGrammar.Built :=
  .declared (show Declarations.branched.build = .ok Rules.branched.toGrammar from rfl)

-- Only the LALR(1) table reduces "c x" before it meets the "e".
def Token.branched : List Token :=
  [.matched none "a" 0 1, .matched none "c" 1 2, .matched none "x" 2 3, .matched none "e" 3 4]

namespace Document

theorem parse_lr1_endsAlike_lalr_branched :
    (Rules.branched.toGrammar.Built ∧ Rules.branched.Avoids (· == .finish) ∧ Rules.branched.Avoids Symbol.isWildcard ∧
      (SyntaxTable.ofGrammar Rules.branched.toGrammar .lalr).conflicts = [] ∧
      (SyntaxTable.ofGrammar Rules.branched.toGrammar .lalr).graph.size <
        (SyntaxTable.ofGrammar Rules.branched.toGrammar .lr1).graph.size) ∧
    (SyntaxTable.ofGrammar Rules.branched.toGrammar .lr1).conflicts = [] ∧
    let document := ofTokens .empty Token.branched
    ∃ least parser' after status other' after' status',
      (∀ fuel, least ≤ fuel →
        (Parser.ofTable (.ofGrammar Rules.branched.toGrammar .lr1) [] true false).parse fuel document.1 document.2
          false = some (parser', after, .ok status) ∧
        (Parser.ofTable (.ofGrammar Rules.branched.toGrammar .lalr) [] true false).parse fuel document.1 document.2
          false = some (other', after', .ok status')) ∧
      document.2.EndsAlike document.1 document.2 document.1 (after, status) (after', status') := by
  have hfinish : Rules.branched.Avoids (· == .finish) := Rules.avoids_of_all rfl
  have hwild : Rules.branched.Avoids Symbol.isWildcard := Rules.avoids_of_all rfl
  have hconflicts : (SyntaxTable.ofGrammar Rules.branched.toGrammar .lalr).conflicts = [] := by decide +kernel
  obtain ⟨hlr1, hparses⟩ := parse_lr1_endsAlike_lalr built_branched hfinish hwild hconflicts
  exact ⟨⟨built_branched, hfinish, hwild, hconflicts, by decide +kernel⟩, hlr1,
    hparses _ _ rfl rfl rfl rfl .empty .empty Token.branched false false⟩

end Document

end IncrementalLR
