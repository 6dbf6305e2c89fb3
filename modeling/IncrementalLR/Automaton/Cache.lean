import IncrementalLR.Automaton.Table
import IncrementalLR.Grammar.Source.Basic

namespace IncrementalLR

-- Tables that were built before, by what tells grammars apart and by mode.
structure TableMemo where
  tables : List ((Fingerprint × Mode) × SyntaxTable)

namespace TableMemo

def empty : TableMemo := ⟨[]⟩

variable (memo : TableMemo)

def build (grammar : Grammar) (mode : Mode) : TableMemo × SyntaxTable :=
  match memo.tables.lookup (grammar.fingerprint, mode) with
  | some table => (memo, table)
  | none =>
      let table := SyntaxTable.ofGrammar grammar mode
      (⟨((grammar.fingerprint, mode), table) :: memo.tables⟩, table)

-- The table for the same rules from another nonterminal.
def buildFrom (start : Symbol) (grammar : Grammar) (mode : Mode) :
    Except GrammarError (TableMemo × SyntaxTable) :=
  (grammar.withStart start).map fun grammar => memo.build grammar mode

end TableMemo

-- A grammar text, and whether whitespace mode was asked for.
structure CacheKey where
  text : String
  whitespace : Bool
deriving DecidableEq, Repr, Inhabited

-- What a slot of a cache holds. Others may have damaged it, so that it is no
-- graph or cannot even be read.
inductive CacheEntry where
  | graph (graph : StateGraph)
  | garbage
  | unreadable
deriving DecidableEq

inductive CacheError where
  | read
  | decode
  | mismatch
deriving DecidableEq, Repr

-- Slots for the graphs of grammar texts, in the modes in which their states are
-- built. The LALR mode shares the slot of the LR(1) mode.
structure Cache where
  slots : List ((CacheKey × Mode) × CacheEntry)
deriving DecidableEq

namespace Cache

def empty : Cache := ⟨[]⟩

variable (cache : Cache)

def slot? (key : CacheKey) (mode : Mode) : Option CacheEntry :=
  cache.slots.lookup (key, mode.base)

-- Puts an entry into a slot, whatever it held.
def overwrite (key : CacheKey) (mode : Mode) (entry : CacheEntry) : Cache :=
  ⟨((key, mode.base), entry) :: cache.slots.filter (·.1 != (key, mode.base))⟩

-- The stored graph, if it was built for the grammar. None if the slot is empty.
def load (key : CacheKey) (grammar : Grammar) (mode : Mode) :
    Except CacheError (Option StateGraph) :=
  match cache.slot? key mode with
  | none => .ok none
  | some .unreadable => .error .read
  | some .garbage => .error .decode
  | some (.graph graph) =>
      if graph.fingerprint = grammar.fingerprint then .ok (some graph) else .error .mismatch

-- A slot that is taken stays as it is.
def store (key : CacheKey) (graph : StateGraph) : Cache :=
  match cache.slot? key graph.mode with
  | some _ => cache
  | none => cache.overwrite key graph.mode (.graph graph)

-- The graph in the mode in which states are built, from the cache or else built
-- and stored. A slot that is of no use stays as it is.
def baseGraph (key : CacheKey) (grammar : Grammar) (mode : Mode) : Cache × StateGraph :=
  match cache.load key grammar mode.base with
  | .ok (some graph) => (cache, graph)
  | _ =>
      let graph := StateGraph.build grammar mode.base
      (cache.store key graph, graph)

def loadOrBuild (key : CacheKey) (mode : Mode) :
    Except GrammarError (Cache × GrammarSource × SyntaxTable) := do
  let source ← GrammarSource.parse key.text key.whitespace
  let (cache, graph) := cache.baseGraph key source.grammar mode
  let graph := if mode = .lalr then graph.mergeCores else graph
  return (cache, source, .build graph source.grammar)

end Cache

end IncrementalLR
