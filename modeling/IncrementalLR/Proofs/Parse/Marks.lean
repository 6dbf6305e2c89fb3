import IncrementalLR.Parse.Basic
import IncrementalLR.Proofs.Tree.Marks

namespace IncrementalLR

-- A run on a store with a mark on each node.
def Run.marked (run : Run) : Run := { run with store := run.store.marked }

def Step.marked : Step → Step
  | .continue run lookahead => .continue run.marked lookahead
  | .accept run => .accept run.marked
  | .reject run lookahead => .reject run.marked lookahead

namespace Progress

variable {α : Type}

-- What a part of an attempt leads to on such a store.
def marked (change : α → α) : Progress α → Progress α
  | .ok value => .ok (change value)
  | .error (run, fault) => .error (run.marked, fault)

end Progress

namespace Run

variable {run : Run} {id state : Nat}

@[simp] theorem store_marked : run.marked.store = run.store.marked := rfl

@[simp] theorem stack_marked : run.marked.stack = run.stack := rfl

@[simp] theorem validating_marked : run.marked.validating = run.validating := rfl

@[simp] theorem brokeDown_marked : run.marked.brokeDown = run.brokeDown := rfl

@[simp] theorem attributes_marked : (run.marked.node id).toAttributes = (run.node id).toAttributes :=
  Store.attributes_marked

@[simp] theorem changed_marked : (run.marked.node id).changed = (run.node id).changed := Store.changed_marked

@[simp] theorem isLeaf_marked : (run.marked.node id).isLeaf = (run.node id).isLeaf := Store.isLeaf_marked

@[simp] theorem key_marked : (run.marked.node id).key = (run.node id).key := Store.key_marked

@[simp] theorem count_marked {change : Metrics → Metrics} : run.marked.count change = (run.count change).marked := rfl

@[simp] theorem setState_marked : run.marked.setState id state = (run.setState id state).marked := by
  simp [setState, marked, Run.node]

@[simp] theorem clearChanged_marked : run.marked.clearChanged id = (run.clearChanged id).marked := by
  by_cases h : (run.store.node id).changed = true
  · simp [clearChanged, Run.node, marked, h]
  · simp [clearChanged, Run.node, h]

@[simp] theorem pushSymbol_marked : run.marked.pushSymbol id state = (run.pushSymbol id state).marked := by
  rw [pushSymbol, setState_marked]
  rfl

@[simp] theorem pushPassed_marked : run.marked.pushPassed id = (run.pushPassed id).marked := by
  rw [pushPassed, stack_marked, setState_marked]
  rfl

end Run

namespace Setting

variable {setting : Setting} {run : Run} {id : Nat}

@[simp] theorem action?_run_marked {symbol : Symbol} : setting.action? run.marked symbol = setting.action? run symbol := rfl

theorem next_marked : setting.next run.marked id = (setting.next run id).marked fun next => next := by
  unfold next
  rw [Run.store_marked, Store.following?_marked]
  cases run.store.following? id with
  | none => rfl
  | some next => rfl

theorem isPassThrough_marked : setting.isPassThrough (run.marked.node id) = setting.isPassThrough (run.node id) := by
  simp [isPassThrough, Run.node]

theorem breakDownLeft_marked :
    setting.breakDownLeft run.marked id = (setting.breakDownLeft run id).marked fun (run, next) => (run.marked, next) := by
  simp only [breakDownLeft, Run.node, Run.count_marked, Run.store_marked, Store.attributes_marked]
  split
  · rfl
  · rw [next_marked]
    cases setting.next _ id with
    | ok next => rfl
    | error fault => rfl

@[simp] theorem links_marked {store : Store} : Change.links store.marked = Change.links store := by
  funext id
  simp [Change.links]

theorem reduce_marked {production : Nat} :
    setting.reduce run.marked production = (setting.reduce run production).marked Run.marked := by
  simp only [reduce, Run.stack_marked]
  split
  · split
    · rfl
    · simp only [Run.store_marked, links_marked, Store.allocateNode, Store.allocate, Store.push_marked,
        Store.size_marked, Store.setChildren_marked, Store.setState_marked, Template.eval_marked,
        Store.setAlternate_marked]
      split <;> rfl
  · rfl

theorem shiftAgain_marked :
    setting.shiftAgain run.marked id = (setting.shiftAgain run id).map Run.marked fun shifted => shifted := by
  rw [shiftAgain, shiftAgain, action?_run_marked, Run.key_marked, isPassThrough_marked, Run.pushPassed_marked]
  split
  · rw [Run.pushSymbol_marked]
    rfl
  · rw [Run.pushSymbol_marked]
    rfl
  · split <;> rfl

theorem shiftAllAgain_marked {ids : List Nat} :
    setting.shiftAllAgain run.marked ids = (setting.shiftAllAgain run ids).map Run.marked fun shifted => shifted := by
  induction ids generalizing run with
  | nil => rfl
  | cons id rest ih =>
      rw [shiftAllAgain, shiftAllAgain, shiftAgain_marked]
      rcases setting.shiftAgain run id with ⟨after, shifted⟩
      cases shifted with
      | true => exact ih
      | false => rfl

theorem wildcardTarget?_marked : setting.wildcardTarget? run.marked = setting.wildcardTarget? run := rfl

theorem breakDownRightFrom_marked {fuel : Nat} :
    setting.breakDownRightFrom fuel run.marked =
      (setting.breakDownRightFrom fuel run).map Run.marked fun shifted => shifted := by
  induction fuel generalizing run with
  | zero => rfl
  | succ fuel ih =>
      rw [breakDownRightFrom, breakDownRightFrom, Run.stack_marked]
      split
      · rfl
      · rename_i frame below _
        have hbelow : { run.marked with stack := below } = Run.marked { run with stack := below } := rfl
        generalize Run.mk run.store below run.changes run.validating run.brokeDown run.metrics = rest at hbelow ⊢
        rw [hbelow]
        cases frame with
        | symbol id state =>
            simp only [Run.isLeaf_marked, Run.attributes_marked]
            split
            · exact shiftAgain_marked
            · rw [shiftAllAgain_marked]
              rcases setting.shiftAllAgain rest _ with ⟨after, shifted⟩
              cases shifted with
              | true => exact ih
              | false => rfl
        | passed id state =>
            simp only [Run.pushPassed_marked]
            rfl
        | span nodes state =>
            simp only [wildcardTarget?_marked]
            split <;> rfl

theorem spanFrom_marked {target fuel : Nat} {reach : Reach} {nodes : List Nat} :
    setting.spanFrom target reach fuel nodes run.marked id =
      (setting.spanFrom target reach fuel nodes run id).marked fun (nodes, run, next) => (nodes, run.marked, next) := by
  induction fuel generalizing nodes run id with
  | zero => rfl
  | succ fuel ih =>
      rw [spanFrom, spanFrom, Run.isLeaf_marked, Run.clearChanged_marked, breakDownLeft_marked, Run.setState_marked]
      split
      · cases setting.breakDownLeft (run.clearChanged id) id with
        | ok value => exact ih
        | error fault => rfl
      · rw [show setting.endsSpan target reach (run.marked.node id) = setting.endsSpan target reach (run.node id) by
          simp [endsSpan]]
        split
        · rfl
        · dsimp only
          rw [next_marked]
          cases setting.next ((run.clearChanged id).setState id target) id with
          | ok next => exact ih
          | error fault => rfl

theorem takeSpan_marked {target : Nat} {reach : Reach} :
    setting.takeSpan run.marked id target reach =
      (setting.takeSpan run id target reach).marked fun (run, next) => (run.marked, next) := by
  rw [takeSpan, takeSpan, Run.store_marked, Store.size_marked, spanFrom_marked]
  cases setting.spanFrom target reach _ [] run id with
  | ok value => rfl
  | error fault => rfl

theorem tryWildcards_marked {reaches : List Reach} :
    setting.tryWildcards run.marked id reaches = (setting.tryWildcards run id reaches).marked Step.marked := by
  induction reaches with
  | nil => rfl
  | cons reach rest ih =>
      rw [tryWildcards, tryWildcards, action?_run_marked]
      split
      · rw [takeSpan_marked]
        cases setting.takeSpan run id _ reach with
        | ok value => rfl
        | error fault => rfl
      · rw [reduce_marked]
        cases setting.reduce run _ with
        | ok value => rfl
        | error fault => rfl
      · exact ih

theorem withoutAction_marked :
    setting.withoutAction run.marked id = (setting.withoutAction run id).marked Step.marked := by
  rw [withoutAction, withoutAction, Run.validating_marked, isPassThrough_marked, Run.clearChanged_marked,
    Run.pushPassed_marked, tryWildcards_marked]
  split
  · have hbroke : { run.marked with validating := false, brokeDown := true } =
        Run.marked { run with validating := false, brokeDown := true } := rfl
    dsimp only
    rw [hbroke, Run.count_marked, breakDownRight, breakDownRight, Run.store_marked, Store.size_marked,
      breakDownRightFrom_marked]
    rcases setting.breakDownRightFrom _ _ with ⟨after, shifted⟩
    cases shifted with
    | true => rfl
    | false => rfl
  · split
    · dsimp only
      rw [Run.count_marked, next_marked]
      cases setting.next _ id with
      | ok next => rfl
      | error fault => rfl
    · rfl

theorem accept_marked : setting.accept run.marked = (setting.accept run).marked := by
  simp [accept, Run.marked]

theorem stepTerminal_marked :
    setting.stepTerminal run.marked id = (setting.stepTerminal run id).marked Step.marked := by
  rw [stepTerminal, stepTerminal, action?_run_marked, Run.key_marked, Run.clearChanged_marked, accept_marked,
    withoutAction_marked]
  split
  · rfl
  · rename_i next _
    have hshifted : { ((run.clearChanged id).pushSymbol id next).marked with validating := false } =
        Run.marked { (run.clearChanged id).pushSymbol id next with validating := false } := rfl
    dsimp only
    rw [Run.pushSymbol_marked, hshifted, Run.count_marked, next_marked]
    cases setting.next _ id with
    | ok next => rfl
    | error fault => rfl
  · rw [reduce_marked]
    cases setting.reduce run _ with
    | ok value => rfl
    | error fault => rfl
  · rfl
  · rfl

theorem reduceBefore?_marked : setting.reduceBefore? run.marked id = setting.reduceBefore? run id := by
  simp [reduceBefore?, Store.firstTerminal?]

theorem stepNonterminal_marked :
    setting.stepNonterminal run.marked id =
      (setting.stepNonterminal run id).marked fun (run, next) => (run.marked, next) := by
  simp only [stepNonterminal, Run.changed_marked, Run.clearChanged_marked, breakDownLeft_marked,
    action?_run_marked, Run.attributes_marked, reduceBefore?_marked, Run.pushSymbol_marked]
  split
  · rfl
  · split
    · rename_i next _
      have hpushed : { (run.pushSymbol id next).marked with validating := true } =
          Run.marked { run.pushSymbol id next with validating := true } := rfl
      rw [hpushed, Run.count_marked, next_marked]
      cases setting.next _ id with
      | ok next => rfl
      | error fault => rfl
    · split
      · rw [reduce_marked]
        cases setting.reduce run _ with
        | ok value => rfl
        | error fault => rfl
      · rfl

theorem step_marked : setting.step run.marked id = (setting.step run id).marked Step.marked := by
  rw [step, step, Run.isLeaf_marked, stepTerminal_marked, stepNonterminal_marked]
  split
  · rfl
  · cases setting.stepNonterminal run id with
    | ok value => rfl
    | error fault => rfl

theorem drive_marked {fuel steps : Nat} :
    setting.drive fuel steps run.marked id = (setting.drive fuel steps run id).map fun (run, outcome) => (run.marked, outcome) := by
  induction fuel generalizing steps run id with
  | zero => rfl
  | succ fuel ih =>
      rw [drive, drive, Run.count_marked]
      generalize run.count (fun counts => { counts with steps := counts.steps + 1 }) = run
      have hlimit : stepLimit run.marked.store = stepLimit run.store := by
        rw [stepLimit, stepLimit, Run.store_marked, Store.size_marked]
      dsimp only
      rw [hlimit, step_marked]
      by_cases h : stepLimit run.store < steps
      · rw [if_pos h, if_pos h]
        rfl
      · rw [if_neg h, if_neg h]
        rcases setting.step run id with fault | step
        · rfl
        · cases step with
          | «continue» run next => exact ih
          | accept run => rfl
          | reject run node => rfl

end Setting

theorem Change.undo_marked {change : Change} {store : Store} : change.undo store.marked = (change.undo store).marked := by
  cases change <;> simp [undo]

namespace Setting

variable {setting : Setting} {run : Run}

theorem rollback_marked {size : Nat} : rollback size run.marked = (rollback size run).marked := by
  have hfold : ∀ (changes : List Change) (store : Store),
      changes.foldl (fun store change => change.undo store) store.marked =
        (changes.foldl (fun store change => change.undo store) store).marked := by
    intro changes
    induction changes with
    | nil => exact fun _ => rfl
    | cons change rest ih =>
        intro store
        rw [List.foldl_cons, List.foldl_cons, Change.undo_marked, ih]
  rw [rollback, rollback, show run.marked.changes = run.changes from rfl, Run.store_marked, hfold,
    Store.truncate_marked]

theorem attempt_marked {fuel : Nat} {store : Store} {metrics : Metrics} :
    setting.attempt fuel store.marked metrics =
      (setting.attempt fuel store metrics).map fun (after, metrics, outcome) => (after.marked, metrics, outcome) := by
  rw [attempt, attempt, Store.following?_marked]
  split
  · rfl
  · rename_i first _
    have hstart : Run.mk store.marked [] [] false false { metrics with attempts := metrics.attempts + 1 } =
        Run.marked ⟨store, [], [], false, false, { metrics with attempts := metrics.attempts + 1 }⟩ := rfl
    dsimp only
    rw [hstart, drive_marked]
    cases setting.drive fuel 1 _ first with
    | none => rfl
    | some result =>
        obtain ⟨run, outcome⟩ := result
        rw [Option.map_some, Option.map_some, Option.map_some, Store.size_marked]
        dsimp only
        split
        · rfl
        · rw [rollback_marked]
          rfl

end Setting

namespace Parser

variable {parser : Parser} {fuel : Nat} {store : Store} {document : Document} {reparse : Bool}

theorem attempts_marked :
    parser.attempts fuel store.marked document reparse =
      (parser.attempts fuel store document reparse).map fun (after, metrics, outcome) =>
        (after.marked, metrics, outcome) := by
  rw [attempts, attempts, Setting.attempt_marked]
  cases (parser.setting document (reparse || parser.reparse)).attempt fuel store default with
  | none => rfl
  | some result =>
      obtain ⟨first, metrics, outcome⟩ := result
      simp only [Option.map_some, Option.bind_eq_bind, Option.bind_some]
      split
      · split
        · exact Setting.attempt_marked
        · rfl
      · rfl

theorem syntaxError_marked {node state : Nat} :
    parser.syntaxError store.marked document node state = parser.syntaxError store document node state := by
  simp [syntaxError, offsetOf, Store.thread, Store.text]

-- Marks make no difference to a parse.
theorem parse_marked :
    parser.parse fuel store.marked document reparse =
      (parser.parse fuel store document reparse).map fun (parser, after, status) => (parser, after.marked, status) := by
  rw [parse, parse, attempts_marked]
  cases parser.attempts fuel store document reparse with
  | none => rfl
  | some result =>
      obtain ⟨last, metrics, outcome⟩ := result
      rcases outcome with fault | outcome
      · rfl
      · cases outcome with
        | accepted => rfl
        | rejected node state unsure => simp [syntaxError_marked]

end Parser

end IncrementalLR
