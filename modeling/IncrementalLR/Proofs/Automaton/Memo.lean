import IncrementalLR.Automaton.Cache
import IncrementalLR.Proofs.Grammar.WellFormed

namespace IncrementalLR

-- The start rule shows the start symbol, and the sets are computed from the
-- rules. A fingerprint thus leaves nothing of a grammar open.
theorem Grammar.Built.eq_of_fingerprint_eq {grammar other : Grammar} (hb : grammar.Built) (ho : other.Built)
    (h : grammar.fingerprint = other.fingerprint) : grammar = other := by
  have hstart := hb.wellFormed.start_right
  have hother := ho.wellFormed.start_right
  obtain ⟨⟨symbols, productions, start, precedences⟩, sets, hsets⟩ := grammar
  obtain ⟨⟨symbols', productions', start', precedences'⟩, sets', hsets'⟩ := other
  simp only [Rules.fingerprint, Fingerprint.mk.injEq] at h
  obtain ⟨rfl, rfl, rfl⟩ := h
  have he : [start] = [start'] := hstart.symm.trans hother
  obtain rfl : start = start' := by simpa using he
  obtain rfl : sets = sets' := hsets.trans hsets'.symm
  rfl

theorem Rules.WellFormed.withStart_eq_ok {grammar : Grammar} (hw : grammar.toRules.WellFormed) {start : Symbol}
    {id : Nat} (hs : grammar.symbols[id]? = some start) (hn : start.isNonterminal = true)
    (ha : grammar.alternatives id ≠ []) (hne : id ≠ grammar.start) :
    grammar.withStart start = .ok (grammar.toRules.restart id).toGrammar := by
  have hid := hw.symbolId?_eq_some.mpr hs
  simp only [Grammar.withStart, hid, hn, List.isEmpty_eq_false_iff.mpr ha, if_neg hne]
  rfl

namespace TableMemo

-- What is asked of a memo: the table of a grammar, or of its rules from another
-- nonterminal.
inductive Call where
  | build (grammar : Grammar) (mode : Mode)
  | buildFrom (start : Symbol) (grammar : Grammar) (mode : Mode)

namespace Call

def source : Call → Grammar
  | build grammar _ => grammar
  | buildFrom _ grammar _ => grammar

def mode : Call → Mode
  | build _ mode => mode
  | buildFrom _ _ mode => mode

-- The grammar whose table is asked for.
def asked : Call → Except GrammarError Grammar
  | build grammar _ => .ok grammar
  | buildFrom start grammar _ => grammar.withStart start

-- The answer of a construction that knows of no memo.
def direct (call : Call) : Except GrammarError SyntaxTable :=
  call.asked.map fun grammar => .ofGrammar grammar call.mode

end Call

def answer (memo : TableMemo) : Call → TableMemo × Except GrammarError SyntaxTable
  | .build grammar mode =>
      let (memo, table) := memo.build grammar mode
      (memo, .ok table)
  | .buildFrom start grammar mode =>
      match memo.buildFrom start grammar mode with
      | .ok (memo, table) => (memo, .ok table)
      | .error error => (memo, .error error)

-- The answers to calls that are made one after the other.
def answers (memo : TableMemo) : List Call → List (Except GrammarError SyntaxTable)
  | [] => []
  | call :: rest => (memo.answer call).2 :: (memo.answer call).1.answers rest

-- All tables were built for grammars with the fingerprints that they are found by.
def Valid (memo : TableMemo) : Prop :=
  ∀ fingerprint mode table, ((fingerprint, mode), table) ∈ memo.tables →
    ∃ grammar, grammar.Built ∧ grammar.fingerprint = fingerprint ∧ table = .ofGrammar grammar mode

variable {memo : TableMemo}

theorem valid_empty : empty.Valid := fun _ _ _ h => nomatch h

-- A table that is found is that of the grammar itself.
theorem Valid.eq_of_lookup (hv : memo.Valid) {grammar : Grammar} (hb : grammar.Built) {mode : Mode}
    {table : SyntaxTable} (h : memo.tables.lookup (grammar.fingerprint, mode) = some table) :
    table = .ofGrammar grammar mode := by
  obtain ⟨first, last, htables, -⟩ := List.lookup_eq_some_iff.mp h
  obtain ⟨other, ho, hsame, rfl⟩ := hv grammar.fingerprint mode table (by simp [htables])
  rw [ho.eq_of_fingerprint_eq hb hsame]

theorem Valid.build (hv : memo.Valid) {grammar : Grammar} (hb : grammar.Built) (mode : Mode) :
    (memo.build grammar mode).1.Valid ∧ (memo.build grammar mode).2 = .ofGrammar grammar mode := by
  unfold TableMemo.build
  split
  · rename_i table hfound
    exact ⟨hv, hv.eq_of_lookup hb hfound⟩
  · refine ⟨?_, rfl⟩
    intro fingerprint other table hmem
    rcases List.mem_cons.mp hmem with heq | hmem
    · cases heq
      exact ⟨grammar, hb, rfl, rfl⟩
    · exact hv fingerprint other table hmem

-- One call leaves the memo valid, and its answer shows nothing of it.
theorem Valid.answer (hv : memo.Valid) {call : Call} (hb : call.source.Built) :
    (memo.answer call).1.Valid ∧ (memo.answer call).2 = call.direct := by
  cases call with
  | build grammar mode =>
      obtain ⟨hnext, htable⟩ := hv.build hb mode
      exact ⟨hnext, congrArg Except.ok htable⟩
  | buildFrom start grammar mode =>
      cases hstart : grammar.withStart start with
      | error => simp [TableMemo.answer, TableMemo.buildFrom, Call.direct, Call.asked, Except.map, hstart, hv]
      | ok other =>
          obtain ⟨hnext, htable⟩ := hv.build (.restarted hb hstart) mode
          simp only [TableMemo.answer, TableMemo.buildFrom, Call.direct, Call.asked, Call.mode, Except.map, hstart]
          exact ⟨hnext, congrArg Except.ok htable⟩

theorem Valid.answers (hv : memo.Valid) {calls : List Call} (hb : ∀ call ∈ calls, call.source.Built) :
    memo.answers calls = calls.map Call.direct := by
  induction calls generalizing memo with
  | nil => rfl
  | cons call rest ih =>
      obtain ⟨hnext, hanswer⟩ := hv.answer (hb call (List.mem_cons_self ..))
      have hrest := ih hnext fun other ho => hb other (List.mem_cons_of_mem _ ho)
      rw [TableMemo.answers, hanswer, hrest, List.map_cons]

-- Whatever was asked before, an answer is the table of the grammar that is asked
-- for, with that grammar in it: its start symbol, its alternatives and its sets.
theorem answers_empty_eq_direct {calls : List Call} (hb : ∀ call ∈ calls, call.source.Built) :
    empty.answers calls = calls.map Call.direct := valid_empty.answers hb

-- The same rules from two nonterminals, and from a terminal that cannot start them.
def Call.crossed : List Call := [
  .build Rules.crossed.toGrammar .lr1,
  .buildFrom (.nonterminal "A") Rules.crossed.toGrammar .lr1,
  .build (Rules.crossed.restart 4).toGrammar .lr1,
  .buildFrom (.nonterminal "S") (Rules.crossed.restart 4).toGrammar .lr1,
  .buildFrom (.terminal "c") Rules.crossed.toGrammar .lalr]

-- Two of the five calls are answered from the memo, and one is refused.
theorem answers_empty_eq_direct_crossed :
    (∀ call ∈ Call.crossed, call.source.Built) ∧
      (Call.crossed.foldl (fun memo call => (memo.answer call).1) empty).tables.length = 2 ∧
      empty.answers Call.crossed = Call.crossed.map Call.direct := by
  have hrestarted : (Rules.crossed.restart 4).toGrammar.Built :=
    .restarted built_crossed (built_crossed.wellFormed.withStart_eq_ok
      (show Rules.crossed.symbols[4]? = some (.nonterminal "A") from rfl) rfl (by decide) (by decide))
  have hbuilt : ∀ call ∈ Call.crossed, call.source.Built := by
    simp only [Call.crossed, List.forall_mem_cons, Call.source]
    exact ⟨built_crossed, built_crossed, hrestarted, hrestarted, built_crossed, nofun⟩
  exact ⟨hbuilt, by decide +kernel, answers_empty_eq_direct hbuilt⟩

end TableMemo

end IncrementalLR
