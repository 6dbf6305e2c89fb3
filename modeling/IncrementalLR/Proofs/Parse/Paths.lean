import IncrementalLR.Parse.Basic
import IncrementalLR.Proofs.Automaton.Cells
import IncrementalLR.Proofs.Parse.Refinement

namespace IncrementalLR

-- A stack whose states lead along the edges of an automaton. A node that was passed
-- through stays in the state below it.
inductive ParseStack.Follows (graph : StateGraph) : ParseStack → Prop where
  | nil : Follows graph []
  | passed {node : Nat} {stack : ParseStack} :
      Follows graph stack → Follows graph (.passed node stack.state :: stack)
  | counted {frame : Frame} {symbol : Nat} {stack : ParseStack} :
      frame.counts = true → (symbol, frame.state) ∈ graph.edgesFrom stack.state → Follows graph stack →
      Follows graph (frame :: stack)

namespace ParseStack.Follows

variable {grammar : Grammar} {graph : StateGraph} {stack below : ParseStack} {frame : Frame}

theorem tail (hs : Follows graph (frame :: below)) : Follows graph below := by
  cases hs with
  | passed hs => exact hs
  | counted _ _ hs => exact hs

theorem reached (hs : Follows graph stack) : graph.Reached stack.state := by
  induction hs with
  | nil => exact Or.inl rfl
  | passed _ ih => exact ih
  | counted _ he _ => exact Or.inr ⟨_, _, he⟩

-- As many symbols as an item has moved over lie on the stack. Below them is a state
-- that begins its production.
theorem pop (hf : Faithful grammar graph) (hs : Follows graph stack) {production dot : Nat}
    (hi : (graph.state stack.state).HasItem ⟨production, dot⟩) (nodes : List Nat) :
    ∃ children below, popInto nodes dot stack = some (children, below) ∧ Follows graph below ∧
      (graph.state below.state).HasItem ⟨production, 0⟩ := by
  induction hs generalizing dot nodes with
  | nil =>
      obtain rfl : dot = 0 := hf.dot_of_start hi
      exact ⟨nodes, [], rfl, .nil, hi⟩
  | passed hs ih =>
      cases dot with
      | zero => exact ⟨nodes, _, rfl, .passed hs, hi⟩
      | succ dot => exact ih hi _
  | @counted frame symbol stack hcounts he hs ih =>
      cases dot with
      | zero => exact ⟨nodes, _, rfl, .counted hcounts he hs, hi⟩
      | succ dot =>
          rw [popInto, if_pos hcounts]
          exact ih (hf.source he hi).1 _

end ParseStack.Follows

-- A table of an automaton of a grammar, with whatever conflicts there are.
structure SyntaxTable.OfAutomaton (table : SyntaxTable) : Prop where
  build : table = .build table.graph table.grammar
  wellFormed : table.grammar.toRules.WellFormed
  faithful : Faithful table.grammar table.graph

theorem SyntaxTable.ofAutomaton_ofGrammar {grammar : Grammar} (hb : grammar.Built) (mode : Mode) :
    (SyntaxTable.ofGrammar grammar mode).OfAutomaton :=
  ⟨rfl, hb.wellFormed, faithful_build hb.wellFormed mode⟩

namespace SyntaxTable.OfAutomaton

variable {table : SyntaxTable} (ha : table.OfAutomaton) {state : Nat} {symbol : Symbol}

include ha

theorem candidate {action : Action} (h : table.lookup? state symbol = some action) :
    ∃ id, Candidate table.grammar table.graph state id action := by
  rw [lookup?] at h
  split at h
  · rw [ha.build] at h
    exact ⟨_, candidate_of_action? h⟩
  · cases h

theorem edge_of_shift {target : Nat} (h : table.lookup? state symbol = some (.shift target)) :
    ∃ id, (id, target) ∈ table.graph.edgesFrom state := by
  obtain ⟨id, hc⟩ := ha.candidate h
  cases hc with
  | shift he _ => exact ⟨id, he⟩

theorem edge_of_goto {target : Nat} (h : table.lookup? state symbol = some (.goto target)) :
    ∃ id, (id, target) ∈ table.graph.edgesFrom state := by
  obtain ⟨id, hc⟩ := ha.candidate h
  cases hc with
  | goto he _ => exact ⟨id, he⟩

-- A reduction is by a declared production that an item of the state has moved over.
theorem item_of_reduce {production : Nat} (hreached : table.graph.Reached state)
    (h : table.lookup? state symbol = some (.reduce production)) :
    production ≠ startProduction ∧
      (table.graph.state state).HasItem ⟨production, (table.grammar.production production).right.length⟩ := by
  obtain ⟨id, hc⟩ := ha.candidate h
  cases hc with
  | @reduce item _ hadmits hfinal hne =>
      obtain ⟨production, dot⟩ := item
      obtain rfl : dot = (table.grammar.production production).right.length :=
        Nat.le_antisymm (ha.faithful.dot_le hreached hadmits.1) (of_decide_eq_true hfinal)
      exact ⟨hne, hadmits.1⟩

-- Where a reduction is asked for, its symbols lie on the stack, and the state below
-- them knows where to go on.
theorem exists_reduction {stack : ParseStack} {production : Nat} (hs : stack.Follows table.graph)
    (h : table.lookup? stack.state symbol = some (.reduce production)) :
    ∃ children below left target,
      ParseStack.popSymbols (table.grammar.production production).right.length stack = some (children, below) ∧
      (table.grammar.production production).left = some left ∧ table.goto? below.state left = some target ∧
      (left, target) ∈ table.graph.edgesFrom below.state ∧ below.Follows table.graph := by
  obtain ⟨hne, hi⟩ := ha.item_of_reduce hs.reached h
  obtain ⟨children, below, hpop, hbelow, hbegun⟩ := hs.pop ha.faithful hi []
  obtain ⟨left, target, hleft, he⟩ := ha.faithful.edge_of_begun hbelow.reached hbegun hne
  refine ⟨children, below, left, target, hpop, hleft, ?_, he, hbelow⟩
  rw [ha.build]
  exact goto?_of_edge ha.wellFormed ha.faithful he (ha.wellFormed.left_spec hleft).2

end SyntaxTable.OfAutomaton

-- What an attempt may end with that is not a matter of its stack: the tree has no end,
-- or the steps are too many.
def Fault.OffStack : Fault → Prop
  | .missingGoto _ _ | .stackUnderflow _ => False
  | .detachedNode _ | .malformedRoot _ | .noProgress _ => True

-- What is known of where a part of an attempt leads, unless it ends with such a fault.
def Progress.Leads {α : Type} (goes : α → Prop) : Progress α → Prop
  | .ok value => goes value
  | .error (_, fault) => fault.OffStack

namespace Progress.Leads

variable {α β : Type} {goes : α → Prop} {other : β → Prop} {progress : Progress α}

theorem bind {rest : α → Progress β} (hp : progress.Leads goes)
    (hrest : ∀ value, goes value → (rest value).Leads other) : Progress.Leads other (progress >>= rest) := by
  cases progress with
  | ok value => exact hrest value hp
  | error fault => exact hp

theorem map {change : α → β} (hp : progress.Leads goes) (hchange : ∀ value, goes value → other (change value)) :
    Progress.Leads other (progress.map change) := by
  cases progress with
  | ok value => exact hchange value hp
  | error fault => exact hp

theorem imp {next : α → Prop} (hp : progress.Leads goes) (h : ∀ value, goes value → next value) :
    progress.Leads next := by
  cases progress with
  | ok value => exact h value hp
  | error fault => exact hp

end Progress.Leads

-- A run whose stack leads along the edges of the automaton.
def Run.OnPath (graph : StateGraph) (run : Run) : Prop := run.stack.Follows graph

def Step.OnPath (graph : StateGraph) : Step → Prop
  | .continue run _ => run.OnPath graph
  | .accept _ | .reject _ _ => True

namespace Run.OnPath

variable {graph : StateGraph} {run after : Run} {id : Nat}

theorem congr (hr : run.OnPath graph) (hstack : after.stack = run.stack) : after.OnPath graph := by
  rw [OnPath, hstack]
  exact hr

theorem clearChanged (hr : run.OnPath graph) (id : Nat) : (run.clearChanged id).OnPath graph :=
  hr.congr Run.stack_clearChanged

theorem pushPassed (hr : run.OnPath graph) (id : Nat) : (run.pushPassed id).OnPath graph := .passed hr

theorem pushSymbol {symbol target : Nat} (hr : run.OnPath graph) (id : Nat)
    (he : (symbol, target) ∈ graph.edgesFrom run.stack.state) : (run.pushSymbol id target).OnPath graph :=
  .counted rfl he hr

end Run.OnPath

namespace Setting

variable {setting : Setting} {run after : Run} {id : Nat}

theorem leads_next : (setting.next run id).Leads fun _ => True := by
  unfold next
  split
  · trivial
  · trivial

theorem stack_breakDownLeft : (setting.breakDownLeft run id).Leads fun (after, _) => after.stack = run.stack := by
  unfold breakDownLeft
  dsimp only
  split
  · rfl
  · exact leads_next.map fun _ _ => rfl

-- A wildcard takes its tokens before anything is pushed.
theorem stack_spanFrom {target fuel : Nat} {reach : Reach} {nodes : List Nat} :
    (setting.spanFrom target reach fuel nodes run id).Leads fun (_, after, _) => after.stack = run.stack := by
  induction fuel generalizing nodes run id with
  | zero => rfl
  | succ fuel ih =>
      rw [spanFrom]
      dsimp only
      split
      · refine stack_breakDownLeft.bind fun broken hmiddle => ?_
        obtain ⟨middle, next⟩ := broken
        rw [← @Run.stack_clearChanged run id, ← hmiddle]
        exact ih
      · split
        · rfl
        · refine leads_next.bind fun next _ => ?_
          have hstack : ((run.clearChanged id).setState id target).stack = run.stack := Run.stack_clearChanged
          rw [← hstack]
          exact ih

variable (ha : setting.table.OfAutomaton)

include ha

theorem onPath_reduce (hr : run.OnPath setting.table.graph) {symbol : Symbol} {production : Nat}
    (h : setting.action? run symbol = some (.reduce production)) :
    (setting.reduce run production).Leads (Run.OnPath setting.table.graph) := by
  obtain ⟨children, below, left, target, hpop, hleft, hgoto, he, hbelow⟩ := ha.exists_reduction hr h
  unfold reduce
  dsimp only
  rw [show run.stack.popSymbols _ = _ from hpop, hleft]
  dsimp only
  rw [hgoto]
  exact .counted rfl he hbelow

theorem onPath_shiftAgain {shifted : Bool} (hr : run.OnPath setting.table.graph)
    (h : setting.shiftAgain run id = (after, shifted)) : after.OnPath setting.table.graph := by
  unfold shiftAgain at h
  split at h
  · rename_i target haction
    obtain ⟨symbol, he⟩ := ha.edge_of_shift haction
    obtain ⟨rfl, -⟩ := Prod.mk.inj h
    exact hr.pushSymbol id he
  · rename_i target haction
    obtain ⟨symbol, he⟩ := ha.edge_of_goto haction
    obtain ⟨rfl, -⟩ := Prod.mk.inj h
    exact hr.pushSymbol id he
  · split at h
    · obtain ⟨rfl, -⟩ := Prod.mk.inj h
      exact hr.pushPassed id
    · obtain ⟨rfl, -⟩ := Prod.mk.inj h
      exact hr

theorem onPath_shiftAllAgain {ids : List Nat} {shifted : Bool} (hr : run.OnPath setting.table.graph)
    (h : setting.shiftAllAgain run ids = (after, shifted)) : after.OnPath setting.table.graph := by
  induction ids generalizing run with
  | nil =>
      obtain ⟨rfl, -⟩ := Prod.mk.inj h
      exact hr
  | cons id rest ih =>
      rw [shiftAllAgain] at h
      split at h
      · rename_i middle hagain
        exact ih (onPath_shiftAgain ha hr hagain) h
      · rename_i middle hagain
        obtain ⟨rfl, -⟩ := Prod.mk.inj h
        exact onPath_shiftAgain ha hr hagain

theorem edge_of_wildcardTarget? {target : Nat} (h : setting.wildcardTarget? run = some target) :
    ∃ symbol, (symbol, target) ∈ setting.table.graph.edgesFrom run.stack.state := by
  obtain ⟨symbol, -, h⟩ := List.exists_of_findSome?_eq_some h
  split at h
  · rename_i next haction
    obtain rfl := Option.some_inj.mp h
    exact ha.edge_of_shift haction
  · cases h

-- Whatever was broken off and pushed again, the pieces lie along edges from the state
-- below the broken node.
theorem onPath_breakDownRightFrom {fuel : Nat} {shifted : Bool} (hr : run.OnPath setting.table.graph)
    (h : setting.breakDownRightFrom fuel run = (after, shifted)) : after.OnPath setting.table.graph := by
  induction fuel generalizing run with
  | zero =>
      obtain ⟨rfl, -⟩ := Prod.mk.inj h
      exact hr
  | succ fuel ih =>
      rw [breakDownRightFrom] at h
      split at h
      · obtain ⟨rfl, -⟩ := Prod.mk.inj h
        exact hr
      · rename_i frame below hstack
        have hpopped : Run.OnPath setting.table.graph { run with stack := below } := by
          rw [Run.OnPath, hstack] at hr
          exact hr.tail
        dsimp only at h
        split at h
        · rename_i id state
          split at h
          · exact onPath_shiftAgain ha hpopped h
          · split at h
            · rename_i middle hall
              exact ih (onPath_shiftAllAgain ha hpopped hall) h
            · rename_i middle hall
              obtain ⟨rfl, -⟩ := Prod.mk.inj h
              exact onPath_shiftAllAgain ha hpopped hall
        · obtain ⟨rfl, -⟩ := Prod.mk.inj h
          exact hpopped.pushPassed _
        · split at h
          · rename_i target htarget
            obtain ⟨symbol, he⟩ := edge_of_wildcardTarget? ha htarget
            obtain ⟨rfl, -⟩ := Prod.mk.inj h
            exact .counted rfl he hpopped
          · obtain ⟨rfl, -⟩ := Prod.mk.inj h
            exact hpopped

theorem onPath_takeSpan {target : Nat} {reach : Reach} (hr : run.OnPath setting.table.graph) {symbol : Symbol}
    (h : setting.action? run symbol = some (.shift target)) :
    (setting.takeSpan run id target reach).Leads fun (after, _) => after.OnPath setting.table.graph := by
  obtain ⟨symbol, he⟩ := ha.edge_of_shift h
  refine stack_spanFrom.bind fun (nodes, middle, next) hmiddle => ?_
  change ParseStack.Follows _ (.span nodes target :: middle.stack)
  rw [hmiddle]
  exact .counted rfl he hr

theorem onPath_tryWildcards (hr : run.OnPath setting.table.graph) (reaches : List Reach) :
    (setting.tryWildcards run id reaches).Leads (Step.OnPath setting.table.graph) := by
  induction reaches with
  | nil => trivial
  | cons reach rest ih =>
      rw [tryWildcards]
      split
      · rename_i target haction
        exact (onPath_takeSpan ha hr haction).bind fun _ h => h
      · rename_i production haction
        exact (onPath_reduce ha hr haction).bind fun _ h => h
      · exact ih

theorem onPath_withoutAction (hr : run.OnPath setting.table.graph) :
    (setting.withoutAction run id).Leads (Step.OnPath setting.table.graph) := by
  unfold withoutAction
  split
  · dsimp only
    split
    · rename_i middle hbroken
      refine onPath_breakDownRightFrom ha (hr.congr ?_) hbroken
      rfl
    · trivial
  · split
    · exact leads_next.bind fun _ _ => (hr.clearChanged id).pushPassed id
    · exact onPath_tryWildcards ha hr _

theorem onPath_stepTerminal (hr : run.OnPath setting.table.graph) :
    (setting.stepTerminal run id).Leads (Step.OnPath setting.table.graph) := by
  unfold stepTerminal
  split
  · trivial
  · rename_i target haction
    obtain ⟨symbol, he⟩ := ha.edge_of_shift haction
    rw [← @Run.stack_clearChanged run id] at he
    exact leads_next.bind fun _ _ => (hr.clearChanged id).pushSymbol id he
  · rename_i production haction
    exact (onPath_reduce ha hr haction).bind fun _ h => h
  · exact onPath_withoutAction ha hr
  · exact onPath_withoutAction ha hr

theorem onPath_stepNonterminal (hr : run.OnPath setting.table.graph) :
    (setting.stepNonterminal run id).Leads fun (after, _) => after.OnPath setting.table.graph := by
  have hbroken : ∀ {other : Run}, other.stack = run.stack →
      (setting.breakDownLeft other id).Leads fun (after, _) => after.OnPath setting.table.graph := by
    intro other hstack
    exact stack_breakDownLeft.imp fun (after, _) h => hr.congr (h.trans hstack)
  unfold stepNonterminal
  dsimp only
  split
  · exact hbroken Run.stack_clearChanged
  · split
    · rename_i target haction
      obtain ⟨symbol, he⟩ := ha.edge_of_goto haction
      exact leads_next.bind fun _ _ => hr.pushSymbol id he
    · split
      · rename_i production hproduction
        obtain ⟨first, -, hreduce⟩ := Option.bind_eq_some_iff.mp hproduction
        split at hreduce
        · rename_i other haction
          obtain rfl := Option.some_inj.mp hreduce
          exact (onPath_reduce ha hr haction).map fun _ h => h
        · cases hreduce
      · exact hbroken rfl

theorem onPath_step (hr : run.OnPath setting.table.graph) :
    (setting.step run id).Leads (Step.OnPath setting.table.graph) := by
  unfold step
  split
  · exact onPath_stepTerminal ha hr
  · exact (onPath_stepNonterminal ha hr).map fun _ h => h

-- However long an attempt goes on, its stack is never at fault.
theorem offStack_drive {fuel steps : Nat} {last : Run} {fault : Fault} (hr : run.OnPath setting.table.graph)
    (hd : setting.drive fuel steps run id = some (last, .error fault)) : fault.OffStack := by
  induction fuel generalizing steps run id with
  | zero => cases hd
  | succ fuel ih =>
      rw [drive] at hd
      have hcount : (run.count fun counts => { counts with steps := counts.steps + 1 }).OnPath setting.table.graph := hr
      generalize run.count (fun counts => { counts with steps := counts.steps + 1 }) = run at hd hcount
      split at hd
      · obtain ⟨-, he⟩ := Prod.mk.inj (Option.some_inj.mp hd)
        obtain rfl := Except.error.inj he
        trivial
      · have hstep := @onPath_step setting run id ha hcount
        generalize setting.step run id = result at hd hstep
        split at hd
        · obtain ⟨-, he⟩ := Prod.mk.inj (Option.some_inj.mp hd)
          obtain rfl := Except.error.inj he
          exact hstep
        · exact ih hstep hd
        · cases hd
        · cases hd

theorem offStack_attempt {fuel : Nat} {store after : Store} {metrics metrics' : Metrics} {fault : Fault}
    (h : setting.attempt fuel store metrics = some (after, metrics', .error fault)) : fault.OffStack := by
  unfold attempt at h
  dsimp only at h
  split at h
  · cases h
    trivial
  · obtain ⟨⟨last, outcome⟩, hdrive, h⟩ := Option.map_eq_some_iff.mp h
    obtain rfl : outcome = .error fault := by
      dsimp only at h
      split at h
      · cases h
      · exact congrArg (fun result => result.2.2) h
    refine offStack_drive ha ?_ hdrive
    exact ParseStack.Follows.nil

end Setting

namespace Parser

variable {parser parser' : Parser} {fuel : Nat} {store after : Store} {document : Document} {reparse : Bool}

theorem offStack_attempts (ha : parser.table.OfAutomaton) {metrics : Metrics} {fault : Fault}
    (h : parser.attempts fuel store document reparse = some (after, metrics, .error fault)) : fault.OffStack := by
  obtain ⟨⟨middle, metrics', outcome⟩, hfirst, hrest⟩ := Option.bind_eq_some_iff.mp h
  have hsame : outcome = .error fault → fault.OffStack := by
    rintro rfl
    exact Setting.offStack_attempt ha hfirst
  dsimp only at hrest
  split at hrest
  · split at hrest
    · exact Setting.offStack_attempt ha hrest
    · cases hrest
  · exact hsame (congrArg (fun result => result.2.2) (Option.some_inj.mp hrest))

-- Whatever the grammar, its conflicts and precedences, whatever is passed through and
-- whatever the tree, a reduction finds its symbols on the stack and the state to go on.
theorem parse_never_offPath {grammar : Grammar} {mode : Mode} (hb : grammar.Built)
    (htable : parser.table = .ofGrammar grammar mode) {status : Except Fault ParseStatus}
    (hp : parser.parse fuel store document reparse = some (parser', after, status)) :
    (∀ state symbol, status ≠ .error (.missingGoto state symbol)) ∧
      ∀ production, status ≠ .error (.stackUnderflow production) := by
  have ha : parser.table.OfAutomaton := htable ▸ SyntaxTable.ofAutomaton_ofGrammar hb mode
  obtain ⟨⟨last, metrics, outcome⟩, hattempts, hresult⟩ := Option.map_eq_some_iff.mp hp
  have hoff : ∀ fault, status = .error fault → fault.OffStack := by
    rintro fault rfl
    dsimp only at hresult
    split at hresult
    · cases hresult
      exact offStack_attempts ha hattempts
    · cases hresult
    · cases hresult
  exact ⟨fun state symbol h => hoff _ h, fun production h => hoff _ h⟩

end Parser

-- An ambiguous grammar with a wildcard, where a token decides only after "a" whether it
-- is a word of its own.
def Declarations.chained : Declarations := {
  start := none
  rules := [
    ("S", ⟨[.nonterminal "S", .nonterminal "S"], none, none⟩),
    ("S", ⟨[.nonterminal "E", .terminal ";"], none, none⟩),
    ("S", ⟨[.terminal "a", .terminal "."], none, none⟩),
    ("S", ⟨[.wildcard .multiline, .terminal "!"], none, none⟩),
    ("E", ⟨[.terminal "a"], none, none⟩)]
  precedences := [] }

def Rules.chained : Rules := {
  symbols := #[.finish, .epsilon, .nonterminal "S", .nonterminal "E", .terminal ";", .terminal "a", .terminal ".",
    .wildcard .multiline, .terminal "!"]
  productions := #[⟨none, [2], none, none⟩, ⟨some 2, [2, 2], none, none⟩, ⟨some 2, [3, 4], none, none⟩,
    ⟨some 2, [5, 6], none, none⟩, ⟨some 2, [7, 8], none, none⟩, ⟨some 3, [5], none, none⟩]
  start := 2
  precedences := Array.replicate 9 none }

theorem built_chained : Rules.chained.toGrammar.Built :=
  .declared (show Declarations.chained.build = .ok Rules.chained.toGrammar from rfl)

def Parser.chained : Parser := .ofTable (.ofGrammar Rules.chained.toGrammar .lalr) ["_"] true false

def Document.chained : Store × Document :=
  Document.ofTokens .empty [.matched none "_" 0 1, .matched none "a" 1 2, .matched none ";" 2 3,
    .matched none "x" 3 4, .matched none "!" 4 5]

-- After an edit a subtree that was shifted whole is broken down again, between a token
-- that is passed through and those that a wildcard takes.
theorem Parser.parse_never_offPath_chained :
    ∃ store parser' after, Rules.chained.toGrammar.Built ∧ Parser.chained.table.conflicts ≠ [] ∧
      Parser.chained.parse 100 store Document.chained.2 false = some (parser', after, .ok .accepted) ∧
      (parser'.metrics.rightBreakdowns = 1 ∧ parser'.metrics.passedThrough = 1 ∧ parser'.metrics.wildcardSpans = 1) ∧
      (∀ state symbol, (.ok .accepted : Except Fault ParseStatus) ≠ .error (.missingGoto state symbol)) ∧
      ∀ production, (.ok .accepted : Except Fault ParseStatus) ≠ .error (.stackUnderflow production) := by
  have hsteps : ((Parser.chained.parse 100 Document.chained.1 Document.chained.2 false).bind fun first =>
      (Parser.chained.parse 100 (Document.replaceToken first.2.1 4 none ".") Document.chained.2 false).map
        fun second => ((second.1.metrics.rightBreakdowns, second.1.metrics.passedThrough,
          second.1.metrics.wildcardSpans), second.2.2)) = some ((1, 1, 1), .ok .accepted) := by
    decide +kernel
  obtain ⟨first, -, hrest⟩ := Option.bind_eq_some_iff.mp hsteps
  obtain ⟨⟨parser', after, status⟩, hparse, hresult⟩ := Option.map_eq_some_iff.mp hrest
  simp only [Prod.mk.injEq] at hresult
  obtain ⟨hcounts, rfl⟩ := hresult
  exact ⟨_, parser', after, built_chained, by decide +kernel, hparse, hcounts,
    Parser.parse_never_offPath built_chained rfl hparse⟩

end IncrementalLR
