import IncrementalLR.Proofs.Document.PassThrough
import IncrementalLR.Proofs.Parse.Expressions

namespace IncrementalLR

namespace Rules.Expresses

variable {rules : Rules} {operators : Operators} (he : rules.Expresses operators)

include he

-- Only tokens and the nonterminal stand in right sides.
theorem avoids {kind : Symbol → Bool} (hterminal : ∀ name, kind (.terminal name) = false)
    (hnonterminal : ∀ name, kind (.nonterminal name) = false) : rules.Avoids kind := by
  intro id symbol h
  have hstart : kind (rules.symbol rules.start) = false := by
    rw [he.start]
    exact hnonterminal _
  cases hleft : (rules.production id).left with
  | none =>
      obtain rfl := he.wellFormed.eq_startProduction hleft h
      rw [he.wellFormed.start_right, List.mem_singleton] at h
      rw [h]
      exact hstart
  | some left =>
      obtain ⟨name, hm⟩ := he.makes id left hleft
      cases hm with
      | atomic _ hright hatom =>
          rw [hright, List.mem_singleton] at h
          rw [h, hatom]
          exact hterminal _
      | binary _ hright hoperator _ =>
          rw [hright] at h
          simp only [List.mem_cons, List.not_mem_nil, or_false] at h
          rcases h with rfl | rfl | rfl
          · exact hstart
          · rw [hoperator]
            exact hterminal _
          · exact hstart

-- A token weighs more than the nonterminal.
theorem lightens : rules.Lightens fun symbol => if symbol = rules.start then 1 else 2 := by
  intro id left hleft
  obtain ⟨name, hm⟩ := he.makes id left hleft
  obtain rfl := Option.some_inj.mp (hleft.symm.trans hm.left)
  cases hm with
  | atomic _ hright hatom => simp [hright, he.ne_start hatom]
  | binary _ hright hoperator _ => simp [hright, he.ne_start hoperator]

end Rules.Expresses

namespace Machine

variable {grammar : Grammar} {graph : StateGraph} {operators : Operators} {tokens : List Token} {machine : Machine}

-- How the machine ends on the tokens.
theorem expression_of_verdict? (he : grammar.toRules.Expresses operators) (hf : Faithful grammar graph)
    (hs : Steps (.build graph grammar) ⟨[], tokens.map (Token.leaf grammar) ++ [.finish]⟩ machine)
    (hv : machine.verdict? (.build graph grammar) = some .accepts) :
    ∃ top tree, operators.Expression top tokens tree ∧ machine.slots.map Slot.copy = [tree] := by
  obtain ⟨read, rest, spelled, rfl, hleaves, hpath, hscans⟩ := he.scans_steps hf hs
  obtain ⟨leaf, more, hmore, haction⟩ := accepts_of_verdict? hv
  obtain ⟨terminal, hterminal, haction⟩ := Option.bind_eq_some_iff.mp haction
  obtain ⟨rfl, top, tree, hexpression, hcopies⟩ := he.scans_accept hf hscans hpath haction
  cases rest with
  | nil =>
      rw [List.append_nil]
      exact ⟨top, tree, hexpression, hcopies⟩
  | cons token rest =>
      -- no token ends the input
      rw [hmore] at hleaves
      obtain ⟨rfl, -⟩ := List.cons.inj hleaves
      rw [token.symbol_leaf] at hterminal
      have hsymbol := Rules.symbol_of_getElem? (he.wellFormed.symbolId?_eq_some.mp hterminal)
      cases he.wellFormed.symbol_finish.symm.trans hsymbol

theorem not_alternates_of_verdict? (he : grammar.toRules.Expresses operators) (hf : Faithful grammar graph)
    (hs : Steps (.build graph grammar) ⟨[], tokens.map (Token.leaf grammar) ++ [.finish]⟩ machine)
    (hv : machine.verdict? (.build graph grammar) = some .rejects) :
    ¬operators.Alternates (tokens.map Token.lookupName) := by
  intro halternates
  obtain ⟨read, rest, spelled, rfl, hleaves, hpath, hscans⟩ := he.scans_steps hf hs
  obtain ⟨leaf, more, hmore, hsilent⟩ := silent_of_verdict? hv
  rw [List.map_append] at halternates
  have hleaf : leaf.symbol = grammar.symbolId? ((rest.head?.map Token.lookupName).elim .finish .terminal) := by
    rw [hmore] at hleaves
    cases rest with
    | nil =>
        rw [(List.cons.inj hleaves).1]
        exact (he.wellFormed.symbolId?_eq_some.mpr he.wellFormed.finish).symm
    | cons token rest =>
        rw [(List.cons.inj hleaves).1]
        exact token.symbol_leaf
  obtain ⟨action, haction, hne⟩ := he.exists_action_of_scans hf hscans hpath halternates List.head?_map hleaf
  rcases hsilent with h | ⟨target, h⟩
  · cases h.symm.trans haction
  · exact hne target (Option.some_inj.mp (haction.symm.trans h))

end Machine

namespace Document

variable {operators : Operators} {declarations : Declarations}

-- A parse of a fresh document ends. It accepts atoms with operators between them, and
-- leaves one tree of them.
theorem parse_ofTokens_of_expresses {grammar : Grammar} {mode : Mode} (hb : grammar.Built)
    (he : grammar.toRules.Expresses operators) {parser : Parser} (htable : parser.table = .ofGrammar grammar mode)
    (hpass : parser.passThrough = []) (store : Store) (tokens : List Token) (reparse : Bool) :
    let document := ofTokens store tokens
    ∃ least parser' after status,
      (∀ fuel, least ≤ fuel → parser.parse fuel document.1 document.2 reparse = some (parser', after, .ok status)) ∧
      (status = .accepted ↔ operators.Alternates (tokens.map Token.lookupName)) ∧
      (status = .accepted → ∃ top tree,
        operators.Expression top tokens tree ∧ after.snapshot document.2.root = .ofRoot [tree]) := by
  intro document
  have hf := faithful_build hb.wellFormed mode
  have hsettles : (SyntaxTable.ofGrammar grammar mode).Settles := fun tokens =>
    Machine.settles_of_lightens hb.wellFormed hf he.lightens Token.leaf_plain
  obtain ⟨least, parser', after, outcome, machine, hparse, hsteps, hsifts⟩ :=
    parse_ofTokens_sifts hb (he.avoids (fun _ => rfl) fun _ => rfl) hsettles (fun _ _ _ => List.not_mem_nil) htable hpass
      store tokens reparse
  have hall : tokens.filter (fun token => !([] : List String).contains token.lookupName) = tokens :=
    List.filter_eq_self.mpr fun _ _ => rfl
  rw [sifted_ofTokens hb.wellFormed List.not_mem_nil, hall] at hsteps
  cases hsifts with
  | @accepted after content hv hstands htokens hcopies =>
      obtain ⟨top, tree, hexpression, htree⟩ := Machine.expression_of_verdict? he hf hsteps hv
      refine ⟨least, parser', after, .accepted, hparse, iff_of_true rfl hexpression.alternates, fun _ =>
        ⟨top, tree, hexpression, ?_⟩⟩
      rw [Forest.without_eq_self fun entry h => Setting.passes_of_isToken (hstands.tokens entry h), htree] at hcopies
      rw [hstands.snapshot_root, hcopies]
      rfl
  | rejected hv _ _ =>
      exact ⟨least, parser', after, _, hparse,
        iff_of_false nofun (Machine.not_alternates_of_verdict? he hf hsteps hv), nofun⟩
  | failed hv =>
      exact absurd hv (@Machine.not_fails _ _ hb.wellFormed hf (he.avoids (fun _ => rfl) fun _ => rfl) _ .finish _ rfl
        Token.leaf_plain hsteps)

-- Declared operators make the trees that they declare, in every mode: the table settles all
-- of its conflicts by precedence, and each operator of an accepted tree binds as its
-- line says.
theorem parse_ofTokens_expressions (hd : operators.Declares declarations) :
    ∃ grammar, declarations.build = .ok grammar ∧ ∀ mode, (SyntaxTable.ofGrammar grammar mode).unresolved = [] ∧
      ∀ (parser : Parser) (store : Store) (tokens : List Token) (reparse : Bool),
        parser.table = .ofGrammar grammar mode → parser.passThrough = [] →
        let document := ofTokens store tokens
        ∃ least parser' after status,
          (∀ fuel, least ≤ fuel →
            parser.parse fuel document.1 document.2 reparse = some (parser', after, .ok status)) ∧
          (status = .accepted ↔ operators.Alternates (tokens.map Token.lookupName)) ∧
          (status = .accepted → ∃ top tree,
            operators.Expression top tokens tree ∧ after.snapshot document.2.root = .ofRoot [tree]) :=
  ⟨_, hd.build, fun _ => ⟨SyntaxTable.unresolved_of_expresses hd.expresses, fun _ store tokens reparse htable hpass =>
    parse_ofTokens_of_expresses (.declared hd.build) hd.expresses htable hpass store tokens reparse⟩⟩

end Document

-- Sums and differences of powers.
def Operators.powers : Operators := {
  nonterminal := "E"
  atom := "a"
  lines := [(.left, ["+", "-"]), (.right, ["^"])]
  associative := by decide
  nodup := by decide
  apart := by decide }

def Declarations.powers : Declarations := {
  start := none
  rules := [
    ("E", ⟨[.nonterminal "E", .terminal "-", .nonterminal "E"], none, none⟩),
    ("E", ⟨[.terminal "a"], none, none⟩),
    ("E", ⟨[.nonterminal "E", .terminal "+", .nonterminal "E"], none, none⟩),
    ("E", ⟨[.nonterminal "E", .terminal "^", .nonterminal "E"], none, none⟩)]
  precedences := [(.left, ["+", "-"]), (.right, ["^"])] }

theorem declares_powers : Operators.powers.Declares Declarations.powers where
  rules := (List.Perm.swap _ _ _).trans ((List.Perm.swap _ _ _).cons _)
  precedences := rfl
  start := rfl

def Token.powers : List Token :=
  [.matched none "a" 0 1, .matched none "-" 1 2, .matched none "a" 2 3, .matched none "^" 3 4, .matched none "a" 4 5,
    .matched none "+" 5 6, .matched none "a" 6 7]

namespace Document

theorem parse_ofTokens_expressions_powers :
    (Operators.powers.Declares Declarations.powers ∧
      Operators.powers.Alternates (Token.powers.map Token.lookupName)) ∧
    ∃ grammar, Declarations.powers.build = .ok grammar ∧ ∀ mode, (SyntaxTable.ofGrammar grammar mode).unresolved = [] ∧
      let document := ofTokens .empty Token.powers
      ∃ least parser' after top tree,
        (∀ fuel, least ≤ fuel → (Parser.ofTable (.ofGrammar grammar mode) [] true false).parse fuel document.1 document.2
          false = some (parser', after, .ok .accepted)) ∧
        Operators.powers.Expression top Token.powers tree ∧ after.snapshot document.2.root = .ofRoot [tree] := by
  have halternates : Operators.powers.Alternates (Token.powers.map Token.lookupName) :=
    ⟨_, rfl, ["-", "^", "+"], by decide, rfl⟩
  refine ⟨⟨declares_powers, halternates⟩, ?_⟩
  obtain ⟨grammar, hbuild, h⟩ := parse_ofTokens_expressions declares_powers
  refine ⟨grammar, hbuild, fun mode => ⟨(h mode).1, ?_⟩⟩
  obtain ⟨least, parser', after, status, hparse, hiff, htree⟩ :=
    (h mode).2 (.ofTable (.ofGrammar grammar mode) [] true false) .empty Token.powers false rfl rfl
  obtain rfl := hiff.mpr halternates
  obtain ⟨top, tree, hexpression, hsnapshot⟩ := htree rfl
  exact ⟨least, parser', after, top, tree, hparse, hexpression, hsnapshot⟩

end Document

end IncrementalLR
