import IncrementalLR.Automaton.Closure

namespace IncrementalLR

-- Counts of what happened to the successor kernels during a construction, and
-- of the states that were dropped or merged after it.
structure BuildStats where
  created : Nat
  merged : Nat
  requeued : Nat
  lalrMerged : Nat
  pruned : Nat
deriving DecidableEq, Repr, Inhabited

-- The outgoing edges of a state: symbols in order, and the states they lead to.
abbrev Edges := List (Nat × Nat)

-- Closed item sets and the edges between them, with the fingerprint of the
-- grammar that they were built for.
structure StateGraph where
  mode : Mode
  states : Array ItemSet
  edges : Array Edges
  fingerprint : Fingerprint
  stats : BuildStats
deriving DecidableEq

namespace StateGraph

def state (graph : StateGraph) (id : Nat) : ItemSet := graph.states.getD id ∅

def edgesFrom (graph : StateGraph) (id : Nat) : Edges := graph.edges.getD id []

def follow (graph : StateGraph) (id symbol : Nat) : Option Nat := (graph.edgesFrom id).lookup symbol

def size (graph : StateGraph) : Nat := graph.states.size

end StateGraph

-- A construction under way. Each state is a kernel with the symbol over which
-- it was first reached. The pending states are a stack, and a state is settled
-- while it is not on it.
structure Construction where
  kernels : Array ItemSet
  origins : Array (Option Nat)
  settled : Array Bool
  edges : Array Edges
  pending : List Nat
  stats : BuildStats

namespace Construction

def start (mode : Mode) : Construction := {
  kernels := #[.startKernel mode]
  origins := #[none]
  settled := #[false]
  edges := #[[]]
  pending := [0]
  stats := default }

def kernel (building : Construction) (id : Nat) : ItemSet := building.kernels.getD id ∅

-- The first state over a symbol into which a kernel may be merged.
def compatible? (building : Construction) (symbol : Nat) (kernel : ItemSet) : Option Nat :=
  (List.range building.kernels.size).find? fun id =>
    building.origins.getD id none == some symbol && (building.kernel id).weaklyCompatible kernel

-- Merges a kernel into a state. A settled state that grows is pending again.
def mergeInto (building : Construction) (target : Nat) (kernel : ItemSet) : Construction :=
  let merged := (building.kernel target).merge kernel
  let counted := { building with
    kernels := building.kernels.setIfInBounds target merged
    stats := { building.stats with merged := building.stats.merged + 1 } }
  if merged ≠ building.kernel target && building.settled.getD target false then
    { counted with
      settled := counted.settled.setIfInBounds target false
      pending := target :: counted.pending
      stats := { counted.stats with requeued := counted.stats.requeued + 1 } }
  else counted

def create (building : Construction) (symbol : Nat) (kernel : ItemSet) : Construction := {
  kernels := building.kernels.push kernel
  origins := building.origins.push (some symbol)
  settled := building.settled.push false
  edges := building.edges.push []
  pending := building.kernels.size :: building.pending
  stats := { building.stats with created := building.stats.created + 1 } }

def setEdge (symbol target : Nat) : Edges → Edges
  | [] => [(symbol, target)]
  | first :: rest =>
      if symbol < first.1 then (symbol, target) :: first :: rest
      else if symbol = first.1 then (symbol, target) :: rest
      else first :: setEdge symbol target rest

def addEdge (building : Construction) (source symbol target : Nat) : Construction :=
  { building with edges := building.edges.modify source (setEdge symbol target) }

-- Finds or makes the state for a successor kernel.
def connect (building : Construction) (source symbol : Nat) (kernel : ItemSet) : Construction :=
  match building.compatible? symbol kernel with
  | some target => (building.mergeInto target kernel).addEdge source symbol target
  | none => (building.create symbol kernel).addEdge source symbol building.kernels.size

-- Connects a state with its successors, in the order of the symbols.
def process (grammar : Grammar) (mode : Mode) (building : Construction) (id : Nat) : Construction :=
  let closed := (building.kernel id).closure grammar mode
  let settled := { building with settled := building.settled.setIfInBounds id true }
  (closed.nextSymbols grammar).foldl
    (fun building symbol => building.connect id symbol (closed.gotoKernel grammar symbol)) settled

def run (grammar : Grammar) (mode : Mode) : Nat → Construction → Construction
  | 0, building => building
  | fuel + 1, building =>
      match building.pending with
      | [] => building
      | id :: rest => run grammar mode fuel (process grammar mode { building with pending := rest } id)

-- The number of items of a grammar.
def itemCount (grammar : Grammar) : Nat :=
  grammar.productions.foldl (fun count production => count + (production.right.length + 1)) 0

-- No two states over one symbol begin with the same kernel, of which there is
-- one for each choice of items and lookaheads, and each state is taken up again
-- only after one of its lookaheads has grown.
def workBound (grammar : Grammar) : Nat :=
  let size := itemCount grammar * (grammar.symbols.size + 1)
  (grammar.symbols.size * Nat.pow 2 size + 1) * (size + 1)

-- States that can be reached from some states in one step, or are among them.
def reachStep (edges : Array Edges) (reached : List Nat) : List Nat :=
  (List.range edges.size).filter fun id =>
    reached.contains id || reached.any fun source => (edges.getD source []).any (·.2 == id)

def reachable (edges : Array Edges) : List Nat := saturate (reachStep edges) edges.size [0]

-- The states that can be reached from the first, in their old order, closed.
def finish (grammar : Grammar) (mode : Mode) (building : Construction) : StateGraph :=
  let kept := reachable building.edges
  { mode := mode
    states := (kept.map fun id => (building.kernel id).closure grammar mode).toArray
    edges := (kept.map fun id =>
      (building.edges.getD id []).map fun (symbol, target) => (symbol, kept.idxOf target)).toArray
    fingerprint := grammar.fingerprint
    stats := { building.stats with pruned := building.kernels.size - kept.length } }

end Construction

namespace StateGraph

-- The cores of all states, each once, in the order of their first appearance.
def coreSets (graph : StateGraph) : List (List Item) := (graph.states.toList.map ItemSet.cores).eraseDups

-- Merges all states of equal cores into the first of them.
def mergeCores (graph : StateGraph) : StateGraph :=
  let coreSets := graph.coreSets
  let idOf (id : Nat) : Nat := coreSets.idxOf (graph.state id).cores
  let members (cores : List Item) : List Nat :=
    (List.range graph.size).filter fun id => (graph.state id).cores == cores
  { mode := if graph.mode = .lr1 then .lalr else graph.mode
    states := (coreSets.map fun cores =>
      (members cores).foldl (fun set id => set.merge (graph.state id)) ∅).toArray
    edges := (coreSets.map fun cores =>
      ((members cores).flatMap graph.edgesFrom).foldl
        (fun edges (symbol, target) => Construction.setEdge symbol (idOf target) edges) []).toArray
    fingerprint := graph.fingerprint
    stats := { graph.stats with
      lalrMerged := graph.stats.lalrMerged + (graph.size - coreSets.length) } }

def build (grammar : Grammar) (mode : Mode) : StateGraph :=
  let building := Construction.run grammar mode (Construction.workBound grammar) (.start mode)
  let graph := building.finish grammar mode
  if mode = .lalr then graph.mergeCores else graph

end StateGraph

end IncrementalLR
