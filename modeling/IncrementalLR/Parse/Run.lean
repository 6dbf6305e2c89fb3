import IncrementalLR.Ast.Eval
import IncrementalLR.Automaton.Table
import IncrementalLR.Document
import IncrementalLR.Parse.Stack

namespace IncrementalLR

-- Counts of what a parse did. A parse that is rejected may make a second
-- attempt.
structure Metrics where
  attempts : Nat
  steps : Nat
  shifts : Nat
  optimisticShifts : Nat
  reductions : Nat
  leftBreakdowns : Nat
  rightBreakdowns : Nat
  passedThrough : Nat
  wildcardSpans : Nat
deriving DecidableEq, Repr, Inhabited

-- What an attempt works with. If all of the tree is to be parsed anew, no
-- subtree is reused.
structure Setting where
  table : SyntaxTable
  passThrough : List String
  document : Document
  reparse : Bool

-- What an attribute of a node held before an attempt changed it.
inductive Change where
  | parent (node : Nat) (before : Option Nat)
  | left (node : Nat) (before : Option Nat)
  | right (node : Nat) (before : Option Nat)
  | changed (node : Nat) (before : Bool)
  | state (node before : Nat)
deriving DecidableEq, Repr

namespace Change

-- Puts back what the attribute held. Links are revised once more by that, so
-- that their nodes stay pending.
def undo (change : Change) (store : Store) : Store :=
  match change with
  | parent node before => store.revise node fun attributes => { attributes with parent := before }
  | left node before => store.revise node fun attributes => { attributes with left := before }
  | right node before => store.revise node fun attributes => { attributes with right := before }
  | changed node before => store.setChanged node before
  | state node before => store.setState node before

-- The links of a node that a new parent will change, the last to be changed first.
def links (store : Store) (id : Nat) : List Change :=
  let node := store.node id
  [right id node.right, left id node.left, parent id node.parent]

end Change

-- An attempt under way. It is validating after it has shifted a subtree whole,
-- until a terminal is shifted. The newest of its changes comes first.
structure Run where
  store : Store
  stack : ParseStack
  changes : List Change
  validating : Bool
  brokeDown : Bool
  metrics : Metrics
deriving Inhabited

inductive Step where
  | continue (run : Run) (lookahead : Nat)
  | accept (run : Run)
  | reject (run : Run) (lookahead : Nat)

namespace Run

variable (run : Run)

def node (id : Nat) : Node := run.store.node id

def count (change : Metrics → Metrics) : Run := { run with metrics := change run.metrics }

def setState (id state : Nat) : Run :=
  { run with
    store := run.store.setState id state
    changes := .state id (run.node id).state :: run.changes }

def clearChanged (id : Nat) : Run :=
  if (run.node id).changed then
    { run with
      store := run.store.setChanged id false
      changes := .changed id true :: run.changes }
  else run

def pushSymbol (id state : Nat) : Run :=
  { run.setState id state with stack := .symbol id state :: run.stack }

def pushPassed (id : Nat) : Run :=
  let state := run.stack.state
  { run.setState id state with stack := .passed id state :: run.stack }

end Run

-- What a part of an attempt leads to. A fault comes with the run that met it.
abbrev Progress (α : Type) := Except (Run × Fault) α

namespace Setting

variable (setting : Setting)

def action? (run : Run) (symbol : Symbol) : Option Action :=
  setting.table.lookup? run.stack.state symbol

-- The node behind another, which the end of the document always has.
def next (run : Run) (id : Nat) : Progress Nat :=
  match run.store.following? id with
  | some next => .ok next
  | none => .error (run, .malformedRoot setting.document.root)

def isPassThrough (node : Node) : Bool :=
  node.symbol == .epsilon || setting.passThrough.contains node.key.name

-- Goes down to the first child, or past a node that has none.
def breakDownLeft (run : Run) (id : Nat) : Progress (Run × Nat) :=
  let run := run.count fun counts => { counts with leftBreakdowns := counts.leftBreakdowns + 1 }
  match (run.node id).children with
  | child :: _ => .ok (run, child)
  | [] => (setting.next run id).map (run, ·)

-- Takes the nodes of the top symbols off the stack, puts a new node over them
-- and goes on in the state that follows.
def reduce (run : Run) (id : Nat) : Progress Run :=
  let grammar := setting.table.grammar
  let production := grammar.production id
  match run.stack.popSymbols production.right.length, production.left with
  | some (children, below), some left =>
      let symbol := grammar.symbol left
      match setting.table.goto? below.state left with
      | none => .error (run, .missingGoto below.state symbol)
      | some next =>
          let changes := (children.reverse.flatMap (Change.links run.store)) ++ run.changes
          let (store, node) := run.store.allocateNode symbol children
          let store := store.setState node next
          let store :=
            match production.template with
            | some template => store.setAlternate node (template.eval store node)
            | none => store
          .ok ({ run with
            store := store, stack := .symbol node next :: below, changes := changes }.count
              fun counts => { counts with reductions := counts.reductions + 1 })
  | _, _ => .error (run, .stackUnderflow (grammar.displayProduction id))

-- Pushes a node of a broken subtree in the state that the table gives it. False
-- if there is none.
def shiftAgain (run : Run) (id : Nat) : Run × Bool :=
  match setting.action? run (run.node id).key with
  | some (.shift next) | some (.goto next) => (run.pushSymbol id next, true)
  | _ => if setting.isPassThrough (run.node id) then (run.pushPassed id, true) else (run, false)

def shiftAllAgain (run : Run) : List Nat → Run × Bool
  | [] => (run, true)
  | id :: rest =>
      match setting.shiftAgain run id with
      | (run, true) => shiftAllAgain run rest
      | (run, false) => (run, false)

def wildcards : List Symbol := [.wildcard .multiline, .wildcard .singleLine]

-- Where a wildcard shifts to from the top of the stack.
def wildcardTarget? (run : Run) : Option Nat :=
  wildcards.findSome? fun symbol =>
    match setting.action? run symbol with
    | some (.shift target) => some target
    | _ => none

def breakDownRightFrom : Nat → Run → Run × Bool
  | 0, run => (run, false)
  | fuel + 1, run =>
      match run.stack with
      | [] => (run, false)
      | frame :: below =>
          let run := { run with stack := below }
          match frame with
          | .symbol id _ =>
              if (run.node id).isLeaf then setting.shiftAgain run id
              else
                match setting.shiftAllAgain run (run.node id).children with
                | (run, true) => breakDownRightFrom fuel run
                | (run, false) => (run, false)
          | .passed id _ => (run.pushPassed id, true)
          | .span nodes _ =>
              match setting.wildcardTarget? run with
              | some target => ({ run with stack := .span nodes target :: below }, true)
              | none => (run, false)

-- Breaks the top of the stack down until its last leaf lies on the stack alone,
-- in states that the table gives. False if it gives none. Each nonterminal is
-- met once.
def breakDownRight (run : Run) : Run × Bool :=
  setting.breakDownRightFrom (run.store.size + 1) run

-- Whether a wildcard leaves a token to what follows it.
def endsSpan (target : Nat) (reach : Reach) (node : Node) : Bool :=
  node.symbol == .finish ||
    (reach == .singleLine && node.text.toList.contains '\n') ||
    (setting.table.lookup? target node.key).isSome

def spanFrom (target : Nat) (reach : Reach) :
    Nat → List Nat → Run → Nat → Progress (List Nat × Run × Nat)
  | 0, nodes, run, id => .ok (nodes, run, id)
  | fuel + 1, nodes, run, id => do
      let node := run.node id
      if !node.isLeaf then
        let (run, next) ← setting.breakDownLeft (run.clearChanged id) id
        spanFrom target reach fuel nodes run next
      else if setting.endsSpan target reach node then return (nodes, run, id)
      else
        let run := (run.clearChanged id).setState id target
        spanFrom target reach fuel (nodes ++ [id]) run (← setting.next run id)

-- Takes tokens into a wildcard until one ends it. Each node is met once.
def takeSpan (run : Run) (id target : Nat) (reach : Reach) : Progress (Run × Nat) := do
  let (nodes, run, next) ← setting.spanFrom target reach (run.store.size + 1) [] run id
  let run := run.count fun counts => { counts with wildcardSpans := counts.wildcardSpans + 1 }
  return ({ run with stack := .span nodes target :: run.stack }, next)

def tryWildcards (run : Run) (id : Nat) : List Reach → Progress Step
  | [] => .ok (.reject run id)
  | reach :: rest =>
      match setting.action? run (.wildcard reach) with
      | some (.shift target) => do
          let (run, next) ← setting.takeSpan run id target reach
          return .continue run next
      | some (.reduce production) => do return .continue (← setting.reduce run production) id
      | _ => tryWildcards run id rest

-- Without an action a subtree that was shifted whole is taken back. Otherwise
-- the token is passed through, or taken by a wildcard, or rejected.
def withoutAction (run : Run) (id : Nat) : Progress Step :=
  if run.validating then
    let run := { run with validating := false, brokeDown := true }
    let run := run.count fun counts => { counts with rightBreakdowns := counts.rightBreakdowns + 1 }
    match setting.breakDownRight run with
    | (run, true) => .ok (.continue run id)
    | (run, false) => .ok (.reject run id)
  else if setting.isPassThrough (run.node id) then do
    let run := (run.clearChanged id).pushPassed id
    let run := run.count fun counts => { counts with passedThrough := counts.passedThrough + 1 }
    return .continue run (← setting.next run id)
  else setting.tryWildcards run id [.multiline, .singleLine]

-- Puts what was parsed between the ends of the document.
def accept (run : Run) : Run :=
  let document := setting.document
  let children := document.bos :: (run.stack.nodes ++ [document.eos])
  { run with store := (run.store.setChildren document.root children).setChanged document.root false }

def stepTerminal (run : Run) (id : Nat) : Progress Step :=
  match setting.action? run (run.node id).key with
  | some .accept => .ok (.accept (setting.accept run))
  | some (.shift next) => do
      let run := (run.clearChanged id).pushSymbol id next
      let run := { run with validating := false }
      let run := run.count fun counts => { counts with shifts := counts.shifts + 1 }
      return .continue run (← setting.next run id)
  | some (.reduce production) => do return .continue (← setting.reduce run production) id
  | some (.goto _) | none => setting.withoutAction run id

-- The reduction that has to come before a subtree, by its first terminal.
def reduceBefore? (run : Run) (id : Nat) : Option Nat :=
  (run.store.firstTerminal? id).bind fun first =>
    match setting.action? run (run.node first).key with
    | some (.reduce production) => some production
    | _ => none

-- An unchanged subtree is shifted whole where the table lets its symbol follow.
def stepNonterminal (run : Run) (id : Nat) : Progress (Run × Nat) :=
  let node := run.node id
  if setting.reparse || node.changed then setting.breakDownLeft (run.clearChanged id) id
  else
    match setting.action? run node.symbol with
    | some (.goto next) => do
        let run := { run.pushSymbol id next with validating := true }
        let run := run.count fun counts =>
          { counts with optimisticShifts := counts.optimisticShifts + 1 }
        return (run, ← setting.next run id)
    | _ =>
        match setting.reduceBefore? run id with
        | some production => (setting.reduce run production).map (·, id)
        | none => setting.breakDownLeft run id

def step (run : Run) (id : Nat) : Progress Step :=
  if (run.node id).isLeaf then setting.stepTerminal run id
  else (setting.stepNonterminal run id).map fun (run, next) => .continue run next

end Setting

-- How an attempt ends: accepted, or rejected at a node in a state.
inductive Outcome where
  | accepted
  | rejected (node state : Nat) (brokeDown : Bool)
deriving DecidableEq, Repr

namespace Setting

variable (setting : Setting)

-- The steps that an attempt may take over a store.
def stepLimit (store : Store) : Nat := 16 * store.size + 1024

-- Takes steps until the attempt ends. None if the fuel does not last.
def drive : Nat → Nat → Run → Nat → Option (Run × Except Fault Outcome)
  | 0, _, _, _ => none
  | fuel + 1, steps, run, id =>
      let run := run.count fun counts => { counts with steps := counts.steps + 1 }
      if stepLimit run.store < steps then some (run, .error (.noProgress steps))
      else
        match setting.step run id with
        | .error (run, fault) => some (run, .error fault)
        | .ok (.continue run next) => drive fuel (steps + 1) run next
        | .ok (.accept run) => some (run, .ok .accepted)
        | .ok (.reject run node) =>
            some (run, .ok (.rejected node run.stack.state run.brokeDown))

-- Undoes all changes, the newest first, and drops the nodes of the attempt. The
-- nodes that it linked stay pending, and the next commit records them again.
def rollback (size : Nat) (run : Run) : Store :=
  (run.changes.foldl (fun store change => change.undo store) run.store).truncate size

-- One pass over the document. Unless it accepts, the store is rolled back.
def attempt (fuel : Nat) (store : Store) (metrics : Metrics) :
    Option (Store × Metrics × Except Fault Outcome) :=
  let metrics := { metrics with attempts := metrics.attempts + 1 }
  match store.following? setting.document.bos with
  | none => some (store, metrics, .error (.malformedRoot setting.document.root))
  | some first =>
      (setting.drive fuel 1 ⟨store, [], [], false, false, metrics⟩ first).map
        fun (run, outcome) =>
          match outcome with
          | .ok .accepted => (run.store, run.metrics, outcome)
          | _ => (rollback store.size run, run.metrics, outcome)

end Setting

end IncrementalLR
