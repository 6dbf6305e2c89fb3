import IncrementalLR.Proofs.Document.Modes
import IncrementalLR.Proofs.Parse.Ending
import IncrementalLR.Proofs.Parse.Precedence

namespace IncrementalLR

-- The copy of the node of a token.
def Snapshot.ofToken (token : Token) : Snapshot :=
  let label := Label.ofContent (Document.tokenContent token)
  .node label.symbol label.text []

theorem Token.symbol_leaf (token : Token) {grammar : Grammar} :
    (token.leaf grammar).symbol = grammar.symbolId? (.terminal token.lookupName) := by
  obtain ⟨name, hname⟩ := (Document.isToken_tokenContent token).key
  rw [Token.leaf, Token.lookupName, hname]
  rfl

namespace Operators

variable (operators : Operators)

-- Any number of operators with the atom behind each, and the same behind an atom.
def Continues (word : List String) : Prop :=
  ∃ between : List String, (∀ name ∈ between, name ∈ operators.names) ∧
    word = between.flatMap fun name => [name, operators.atom]

def Alternates (word : List String) : Prop := ∃ behind, word = operators.atom :: behind ∧ operators.Continues behind

-- Trees of expressions with their tokens, and with the operator at the root unless that is
-- over the atom. Another operator makes an operand only where it binds.
inductive Expression : Option String → List Token → Snapshot → Prop where
  | atom {token : Token} : token.lookupName = operators.atom →
      Expression none [token] (.node (.nonterminal operators.nonterminal) "" [.ofToken token])
  | binary {left right : Option String} {before behind : List Token} {token : Token} {first second : Snapshot} :
      Expression left before first → token.lookupName ∈ operators.names → Expression right behind second →
      (∀ inner ∈ left, operators.Binds .left token.lookupName inner) →
      (∀ inner ∈ right, operators.Binds .right token.lookupName inner) →
      Expression (some token.lookupName) (before ++ token :: behind)
        (.node (.nonterminal operators.nonterminal) "" [first, .ofToken token, second])

variable {operators} {name : String} {rest : List String} {word : List Token} {top : Option String} {tree : Snapshot}

theorem continues_nil : operators.Continues [] := ⟨[], nofun, rfl⟩

theorem not_alternates_nil : ¬operators.Alternates [] := nofun

theorem alternates_cons : operators.Alternates (name :: rest) ↔ name = operators.atom ∧ operators.Continues rest := by
  constructor
  · rintro ⟨behind, h, hcontinues⟩
    obtain ⟨rfl, rfl⟩ := List.cons.inj h
    exact ⟨rfl, hcontinues⟩
  · rintro ⟨rfl, h⟩
    exact ⟨rest, rfl, h⟩

theorem continues_cons : operators.Continues (name :: rest) ↔ name ∈ operators.names ∧ operators.Alternates rest := by
  constructor
  · rintro ⟨between, hnames, h⟩
    cases between with
    | nil => cases h
    | cons first between =>
        obtain ⟨rfl, rfl⟩ := List.cons.inj h
        obtain ⟨hname, hrest⟩ := List.forall_mem_cons.mp hnames
        exact ⟨hname, _, rfl, between, hrest, rfl⟩
  · rintro ⟨hname, behind, rfl, between, hbetween, rfl⟩
    exact ⟨name :: between, List.forall_mem_cons.mpr ⟨hname, hbetween⟩, rfl⟩

-- What follows on an expression.
theorem Expression.alternates_append (h : operators.Expression top word tree) :
    operators.Alternates (word.map Token.lookupName ++ rest) ↔ operators.Continues rest := by
  induction h generalizing rest with
  | atom hname => exact alternates_cons.trans (and_iff_right hname)
  | binary _ hname _ _ _ ihfirst ihsecond =>
      rw [List.map_append, List.map_cons, List.append_assoc, ihfirst, List.cons_append, continues_cons, ihsecond]
      exact and_iff_right hname

theorem Expression.alternates (h : operators.Expression top word tree) :
    operators.Alternates (word.map Token.lookupName) := by
  rw [← List.append_nil (word.map _), h.alternates_append]
  exact continues_nil

end Operators

-- The stack where an operand is to come, with the tokens read and the last operator. The
-- operand before each operator is complete for it, and each operator may make the operand of
-- the one before.
inductive Rules.Opened (rules : Rules) (operators : Operators) : Option String → List Token → List Slot → Prop where
  | first : Opened rules operators none [] []
  | operator {last left : Option String} {read word : List Token} {slots : List Slot} {state target operator : Nat}
      {tree : Snapshot} {token : Token} :
      Opened rules operators last read slots → operators.Expression left word tree →
      rules.symbol operator = .terminal token.lookupName → token.lookupName ∈ operators.names →
      (∀ inner ∈ left, operators.Binds .left token.lookupName inner) →
      (∀ outer ∈ last, operators.Binds .right outer token.lookupName) →
      Opened rules operators (some token.lookupName) (read ++ word ++ [token])
        (⟨target, some operator, .ofToken token⟩ :: ⟨state, some rules.start, tree⟩ :: slots)

-- The stack at any time: an operand is to come, or an atom or an operand is on top. If an
-- operator comes next, an operand on top is complete for it.
inductive Rules.Scans (rules : Rules) (operators : Operators) (ahead : Option String) :
    List Token → List Slot → Prop where
  | opened {last : Option String} {read : List Token} {slots : List Slot} :
      rules.Opened operators last read slots → Scans rules operators ahead read slots
  | atom {last : Option String} {read : List Token} {slots : List Slot} {state atom : Nat} {token : Token} :
      rules.Opened operators last read slots → rules.symbol atom = .terminal operators.atom →
      token.lookupName = operators.atom →
      Scans rules operators ahead (read ++ [token]) (⟨state, some atom, .ofToken token⟩ :: slots)
  | operand {last top : Option String} {read word : List Token} {slots : List Slot} {state : Nat} {tree : Snapshot} :
      rules.Opened operators last read slots → operators.Expression top word tree →
      (∀ outer ∈ last, ∀ inner ∈ top, operators.Binds .right outer inner) →
      (∀ name ∈ ahead, name ∈ operators.names → ∀ inner ∈ top, operators.Binds .left name inner) →
      Scans rules operators ahead (read ++ word) (⟨state, some rules.start, tree⟩ :: slots)

theorem Path.filterMap_symbol {graph : StateGraph} {spelled : List Nat} {slots : List Slot}
    (hp : Path graph spelled slots) : slots.filterMap Slot.symbol = spelled := by
  induction hp with
  | nil => rfl
  | symbol _ _ ih => rw [List.filterMap_cons_some (by rfl), ih]
  | passed _ ih => rw [List.filterMap_cons_none (by rfl), ih]

section

variable {rules : Rules} {operators : Operators} {last : Option String} {read : List Token} {slots : List Slot}

theorem Rules.Opened.opens (ho : rules.Opened operators last read slots) :
    rules.Opens operators last (slots.filterMap Slot.symbol) := by
  induction ho with
  | first => exact .first
  | operator _ _ hoperator hname _ _ ih => exact .operator ih hoperator hname

theorem Rules.Opened.alternates_append (ho : rules.Opened operators last read slots) {rest : List String} :
    operators.Alternates (read.map Token.lookupName ++ rest) ↔ operators.Alternates rest := by
  induction ho generalizing rest with
  | first => exact Iff.rfl
  | operator _ hexpression _ hname _ _ ih =>
      rw [List.map_append, List.map_append, List.append_assoc, List.append_assoc, ih, hexpression.alternates_append,
        List.map_singleton, List.singleton_append, Operators.continues_cons]
      exact and_iff_right hname

theorem Rules.Opens.exists_name {spelled : List Nat} {symbol : Nat} (ho : rules.Opens operators last (symbol :: spelled)) :
    ∃ name ∈ operators.names, rules.symbol symbol = .terminal name := by
  cases ho with
  | operator _ hoperator hname => exact ⟨_, hname, hoperator⟩

end

namespace Rules.Expresses

variable {grammar : Grammar} {graph : StateGraph} {operators : Operators} {ahead other : Option String}
  {read : List Token} {rest : List String} {spelled : List Nat} {slots others : List Slot} {leaf : Leaf} {name : String}
  {token : Token} {terminal target production : Nat}
  (he : grammar.toRules.Expresses operators) (hf : Faithful grammar graph)

include he

theorem not_opens_start {last : Option String} : ¬grammar.Opens operators last (grammar.start :: spelled) := by
  intro ho
  obtain ⟨name, -, hname⟩ := ho.exists_name
  exact he.ne_start hname rfl

omit he in
theorem not_opens_atom {last : Option String} {atom : Nat} (hatom : grammar.symbol atom = .terminal operators.atom) :
    ¬grammar.Opens operators last (atom :: spelled) := by
  intro ho
  obtain ⟨name, hmem, hname⟩ := ho.exists_name
  obtain rfl := Symbol.terminal.inj (hatom.symm.trans hname)
  exact operators.apart hmem

-- Below an operand an operator with its left operand makes a production complete.
theorem exists_complete {last : String} {state : Nat} {tree : Snapshot}
    (ho : grammar.Opened operators (some last) read slots)
    (hp : Path graph spelled (⟨state, some grammar.start, tree⟩ :: slots)) :
    ∃ production outer rest, grammar.Makes operators production (some last) ∧ grammar.Opens operators outer rest ∧
      Path graph ((grammar.production production).right.reverse ++ rest) (⟨state, some grammar.start, tree⟩ :: slots) := by
  obtain rfl := hp.filterMap_symbol
  cases ho with
  | operator ho _ hoperator hname _ _ =>
      obtain ⟨production, hm, hright⟩ := he.exists_binary hoperator hname
      refine ⟨production, _, _, hm, ho.opens, ?_⟩
      rw [hright]
      exact hp

include hf

-- Between two operands the table compares the last operator with the next.
theorem action?_of_opened {last : String} {state : Nat} {tree : Snapshot}
    (ho : grammar.Opened operators (some last) read slots)
    (hp : Path graph spelled (⟨state, some grammar.start, tree⟩ :: slots))
    (hterminal : grammar.symbol terminal = .terminal name) (hname : name ∈ operators.names) :
    (∃ production, (SyntaxTable.build graph grammar).action? state terminal = some (.reduce production)) ∧
        operators.Binds .left name last ∨
      (∃ target, (SyntaxTable.build graph grammar).action? state terminal = some (.shift target)) ∧
        operators.Binds .right last name := by
  obtain ⟨production, outer, rest, hm, hopens, hpath⟩ := he.exists_complete ho hp
  rcases he.action?_of_binary hf hm hpath hopens hterminal hname with ⟨haction, hbinds⟩ | ⟨target, haction, hbinds⟩
  · exact Or.inl ⟨⟨production, haction⟩, hbinds⟩
  · exact Or.inr ⟨⟨target, haction⟩, hbinds⟩

theorem scans_shift (hs : grammar.Scans operators (some token.lookupName) read slots) (hp : Path graph spelled slots)
    (haction : (SyntaxTable.build graph grammar).action? (Slot.top slots) terminal = some (.shift target))
    (hterminal : grammar.symbol terminal = .terminal token.lookupName) :
    grammar.Scans operators ahead (read ++ [token]) (⟨target, some terminal, .ofToken token⟩ :: slots) := by
  have hspelled := hp.filterMap_symbol
  rcases he.spelled_of_shift hf hp (candidate_of_action? haction) with
    ⟨last, ho, hatom⟩ | ⟨last, rest, text, ho, hrest, hsymbol, htext⟩
  · rw [← hspelled] at ho
    have hname := Symbol.terminal.inj (hterminal.symm.trans hatom)
    cases hs with
    | opened hopened => exact .atom hopened hatom hname
    | atom _ hsymbol _ => exact absurd ho (not_opens_atom hsymbol)
    | operand _ _ _ _ => exact absurd ho he.not_opens_start
  · obtain rfl := Symbol.terminal.inj (hterminal.symm.trans hsymbol)
    subst hrest
    cases hs with
    | opened hopened => exact absurd (hspelled ▸ hopened.opens) he.not_opens_start
    | atom _ hatom _ => exact absurd (List.cons.inj hspelled).1 (he.ne_start hatom)
    | operand hopened hexpression _ hleft =>
        refine .opened (.operator hopened hexpression hterminal htext (hleft _ rfl htext) ?_)
        rintro outer rfl
        rcases he.action?_of_opened hf hopened hp hterminal htext with ⟨⟨production, hreduce⟩, -⟩ | ⟨-, hbinds⟩
        · cases haction.symm.trans hreduce
        · exact hbinds

theorem scans_reduce (hs : grammar.Scans operators ahead read slots) (hp : Path graph spelled slots)
    (haction : (SyntaxTable.build graph grammar).action? (Slot.top slots) terminal = some (.reduce production))
    (hreduce : Machine.reduce (.build graph grammar) production slots = some others)
    (hahead : ∀ name ∈ ahead, grammar.symbol terminal = .terminal name) :
    grammar.Scans operators ahead read others := by
  have hspelled := hp.filterMap_symbol
  obtain ⟨made, last, rest, hm, ho, hrest⟩ := he.spelled_of_reduce hf hp (candidate_of_action? haction)
  obtain ⟨children, below, left, state, hpop, hleft, -, rfl⟩ := Machine.reduce_eq_some hreduce
  change (grammar.production production).left = some left at hleft
  obtain rfl := Option.some_inj.mp (hleft.symm.trans hm.left)
  change Slot.pop [] (grammar.production production).right.length slots = some (children, below) at hpop
  rw [hrest] at hspelled
  rw [show (SyntaxTable.build graph grammar).grammar.symbol grammar.start = .nonterminal operators.nonterminal from he.start]
  cases hs with
  | opened hopened => exact absurd (hspelled ▸ hopened.opens) (he.not_opens hm)
  | atom hopened hatom hname =>
      cases hm with
      | atomic _ hright _ =>
          simp only [hright, List.length_singleton, Slot.pop, Option.isSome_some, if_true, Option.some_inj,
            Prod.mk.injEq] at hpop
          obtain ⟨rfl, rfl⟩ := hpop
          exact .operand hopened (.atom hname) (by rintro _ _ _ ⟨⟩) (by rintro _ _ _ _ ⟨⟩)
      | binary _ hright _ _ =>
          rw [hright] at hspelled
          exact absurd (List.cons.inj hspelled).1 (he.ne_start hatom)
  | operand hopened hexpression hbinds _ =>
      cases hm with
      | atomic _ hright hatom =>
          rw [hright] at hspelled
          exact absurd (List.cons.inj hspelled).1.symm (he.ne_start hatom)
      | binary _ hright _ _ =>
          rw [hright] at hpop hspelled
          have hopened' := hopened
          cases hopened with
          | first => cases hspelled
          | operator hbelow hfirst _ hname hinner houter =>
              simp only [List.length_cons, List.length_nil, Slot.pop, Option.isSome_some, if_true, Option.some_inj,
                Prod.mk.injEq] at hpop
              obtain ⟨rfl, rfl⟩ := hpop
              rw [List.append_assoc, List.append_assoc, List.singleton_append]
              refine .operand hbelow (.binary hfirst hname hexpression hinner (hbinds _ rfl)) ?_ ?_
              · intro outer h inner hsame
                obtain rfl := Option.mem_some_iff.mp hsame
                exact houter outer h
              · intro name h hnext inner hsame
                obtain rfl := Option.mem_some_iff.mp hsame
                rcases he.action?_of_opened hf hopened' hp (hahead name h) hnext with ⟨-, hbinds⟩ | ⟨⟨target, hshift⟩, -⟩
                · exact hbinds
                · cases haction.symm.trans hshift

-- Accepting leaves one expression with all that has been read.
theorem scans_accept (hs : grammar.Scans operators ahead read slots) (hp : Path graph spelled slots)
    (haction : (SyntaxTable.build graph grammar).action? (Slot.top slots) terminal = some .accept) :
    terminal = finishId ∧ ∃ top tree, operators.Expression top read tree ∧ slots.map Slot.copy = [tree] := by
  obtain ⟨rfl, hlone⟩ := he.spelled_of_accept hf hp (candidate_of_action? haction)
  have hspelled := hp.filterMap_symbol.trans hlone
  refine ⟨rfl, ?_⟩
  cases hs with
  | opened hopened => exact absurd (hspelled ▸ hopened.opens) he.not_opens_start
  | atom _ hatom _ => exact absurd (List.cons.inj hspelled).1 (he.ne_start hatom)
  | operand hopened hexpression _ _ =>
      cases hopened with
      | first => exact ⟨_, _, hexpression, rfl⟩
      | operator => cases (List.cons.inj hspelled).2

-- As long as atoms and operators alternate the table has an action for the next of them.
theorem exists_action_of_scans (hs : grammar.Scans operators ahead read slots) (hp : Path graph spelled slots)
    (halternates : operators.Alternates (read.map Token.lookupName ++ rest)) (hahead : rest.head? = ahead)
    (hleaf : leaf.symbol = grammar.symbolId? (ahead.elim .finish .terminal)) :
    ∃ action, Machine.action? (.build graph grammar) slots leaf = some action ∧ ∀ target, action ≠ .goto target := by
  obtain rfl := hp.filterMap_symbol
  have hfinish : grammar.symbolId? .finish = some finishId := he.wellFormed.symbolId?_eq_some.mpr he.wellFormed.finish
  have hid : ∀ {name id}, grammar.symbol id = .terminal name → grammar.symbolId? (.terminal name) = some id :=
    fun h => h ▸ he.wellFormed.symbolId?_symbol (terminal_lt h)
  have hoperator : ∀ name ∈ operators.names, ∃ id, grammar.symbol id = .terminal name := by
    intro name hname
    obtain ⟨production, hm⟩ := he.binary name hname
    cases hm with
    | binary _ _ hoperator _ => exact ⟨_, hoperator⟩
  rw [Machine.action?, hleaf]
  cases hs with
  | opened hopened =>
      rw [hopened.alternates_append] at halternates
      cases rest with
      | nil => exact absurd halternates Operators.not_alternates_nil
      | cons name rest =>
          obtain ⟨rfl, -⟩ := Operators.alternates_cons.mp halternates
          obtain ⟨production, hm⟩ := he.atomic
          cases hm with
          | atomic _ _ hatom =>
              obtain ⟨target, haction⟩ := he.action?_of_opens hf hp hopened.opens hatom
              rw [← hahead, List.head?_cons, Option.elim_some, hid hatom]
              exact ⟨_, haction, by rintro _ ⟨⟩⟩
  | @atom last read slots state atom token hopened hatom _ =>
      obtain ⟨production, hm⟩ := he.atomic
      have hp' : Path graph ((grammar.production production).right.reverse ++ slots.filterMap Slot.symbol)
          (⟨state, some atom, .ofToken token⟩ :: slots) := by
        cases hm with
        | atomic _ hright hsymbol =>
            rw [hright, he.terminal_inj hsymbol hatom]
            exact hp
      rw [List.map_append, List.append_assoc, hopened.alternates_append, List.map_singleton, List.singleton_append,
        Operators.alternates_cons] at halternates
      cases rest with
      | nil =>
          rw [← hahead, List.head?_nil, Option.elim_none, hfinish]
          exact ⟨_, he.action?_of_complete hf hm hp' hopened.opens (Or.inl rfl), by rintro _ ⟨⟩⟩
      | cons name rest =>
          obtain ⟨hname, -⟩ := Operators.continues_cons.mp halternates.2
          obtain ⟨id, hsymbol⟩ := hoperator name hname
          rw [← hahead, List.head?_cons, Option.elim_some, hid hsymbol]
          exact ⟨_, he.action?_of_complete hf hm hp' hopened.opens (Or.inr ⟨rfl, name, hname, hsymbol⟩), by rintro _ ⟨⟩⟩
  | @operand last top read word slots state tree hopened hexpression _ _ =>
      rw [List.map_append, List.append_assoc, hopened.alternates_append, hexpression.alternates_append] at halternates
      cases rest with
      | nil =>
          rw [← hahead, List.head?_nil, Option.elim_none, hfinish]
          cases last with
          | none =>
              cases hopened with
              | first => exact ⟨_, (@action?_of_lone _ finishId _ _ _ he hf hp).1, by rintro _ ⟨⟩⟩
          | some outer =>
              obtain ⟨production, outer', below, hm, hopens, hpath⟩ := he.exists_complete hopened hp
              exact ⟨_, he.action?_of_complete hf hm hpath hopens (Or.inl rfl), by rintro _ ⟨⟩⟩
      | cons name rest =>
          obtain ⟨hname, -⟩ := Operators.continues_cons.mp halternates
          obtain ⟨id, hsymbol⟩ := hoperator name hname
          rw [← hahead, List.head?_cons, Option.elim_some, hid hsymbol]
          cases last with
          | none =>
              cases hopened with
              | first =>
                  obtain ⟨target, haction⟩ := (@action?_of_lone _ id _ _ _ he hf hp).2 name hname hsymbol
                  exact ⟨_, haction, by rintro _ ⟨⟩⟩
          | some outer =>
              rcases he.action?_of_opened hf hopened hp hsymbol hname with ⟨⟨_, haction⟩, -⟩ | ⟨⟨_, haction⟩, -⟩
              · exact ⟨_, haction, by rintro _ ⟨⟩⟩
              · exact ⟨_, haction, by rintro _ ⟨⟩⟩

-- What the machine has read, and what it has made of that.
theorem scans_steps {tokens : List Token} {machine : Machine}
    (hs : Machine.Steps (.build graph grammar) ⟨[], tokens.map (Token.leaf grammar) ++ [.finish]⟩ machine) :
    ∃ read rest spelled, tokens = read ++ rest ∧ machine.leaves = rest.map (Token.leaf grammar) ++ [.finish] ∧
      Path graph spelled machine.slots ∧
      grammar.Scans operators (rest.head?.map Token.lookupName) read machine.slots := by
  have hsymbol : ∀ {token : Token} {terminal : Nat}, (token.leaf grammar).symbol = some terminal →
      grammar.symbol terminal = .terminal token.lookupName := by
    intro token terminal h
    rw [token.symbol_leaf] at h
    exact Rules.symbol_of_getElem? (he.wellFormed.symbolId?_eq_some.mp h)
  induction hs with
  | refl => exact ⟨[], tokens, [], rfl, rfl, .nil, .opened .first⟩
  | @tail machine after hsteps h ih =>
      obtain ⟨read, rest, -, rfl, hleaves, -, hscans⟩ := ih
      obtain ⟨_, _, hreads, -⟩ := Machine.HasRead.steps he.wellFormed hf Token.leaf_plain hsteps
      obtain ⟨spelled', _, hreads', -⟩ := Machine.HasRead.steps he.wellFormed hf Token.leaf_plain (hsteps.tail h)
      cases Machine.takes_of_next h with
      | @shift slots leaf more target haction =>
          obtain ⟨terminal, hterminal, hshift⟩ := Option.bind_eq_some_iff.mp haction
          cases rest with
          | nil =>
              obtain rfl : leaf = .finish := (List.cons.inj hleaves).1
              obtain rfl := Option.some_inj.mp hterminal
              exact absurd (candidate_of_action? hshift) (he.not_shift_finish hf hreads.path rfl)
          | cons token rest =>
              obtain ⟨rfl, hmore⟩ := List.cons.inj hleaves
              refine ⟨read ++ [token], rest, spelled', by simp, hmore, hreads'.path, ?_⟩
              rw [hterminal]
              exact he.scans_shift hf hscans hreads.path hshift (hsymbol hterminal)
      | @reduce slots others leaf more production haction hreduce =>
          obtain ⟨terminal, hterminal, haction⟩ := Option.bind_eq_some_iff.mp haction
          refine ⟨read, rest, spelled', rfl, hleaves, hreads'.path,
            he.scans_reduce hf hscans hreads.path haction hreduce fun name hname => ?_⟩
          cases rest with
          | nil => cases hname
          | cons token rest =>
              obtain rfl := Option.mem_some_iff.mp hname
              obtain ⟨rfl, -⟩ := List.cons.inj hleaves
              exact hsymbol hterminal
      | @pass slots leaf more hpasses =>
          have hplain := @Token.leaf_plain grammar rest leaf (hleaves ▸ List.mem_cons_self)
          cases hplain.symm.trans hpasses

end Rules.Expresses

end IncrementalLR
