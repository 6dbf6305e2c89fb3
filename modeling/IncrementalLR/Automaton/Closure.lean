import IncrementalLR.Automaton.ItemSet
import IncrementalLR.Automaton.Mode

namespace IncrementalLR

namespace ItemSet

-- The lookahead of the items that an item brings in.
def broughtLookahead (grammar : Grammar) (mode : Mode) (entry : Entry) : SymbolSet :=
  match mode with
  | .lr0 => ∅
  | .lr1 | .lalr => grammar.firstWithLookahead (entry.1.remaining grammar.toRules) entry.2

-- The alternatives of the nonterminal after the dot, each with its dot first.
def broughtItems (grammar : Grammar) (item : Item) : List Item :=
  match item.next? grammar.toRules with
  | none => []
  | some next =>
      if (grammar.symbol next).isNonterminal then (grammar.alternatives next).map (⟨·, 0⟩) else []

def closeEntry (grammar : Grammar) (mode : Mode) (set : ItemSet) (entry : Entry) : ItemSet :=
  let lookahead := broughtLookahead grammar mode entry
  (broughtItems grammar entry.1).foldl (fun set item => set.add item lookahead) set

def closeStep (grammar : Grammar) (mode : Mode) (set : ItemSet) : ItemSet :=
  set.entries.foldl (closeEntry grammar mode) set

-- A closure adds at most one item for each production and lets its lookahead
-- grow at most once for each symbol.
def growthBound (grammar : Grammar) : Nat :=
  grammar.productions.size * (grammar.symbols.size + 1) + 1

def closure (grammar : Grammar) (mode : Mode) (set : ItemSet) : ItemSet :=
  saturate (closeStep grammar mode) (growthBound grammar) set

-- Every item with the symbol after its dot, advanced, with its lookahead.
def gotoKernel (grammar : Grammar) (set : ItemSet) (symbol : Nat) : ItemSet :=
  ofList ((set.entries.filter fun entry => entry.1.next? grammar.toRules == some symbol).map
    fun entry => (entry.1.advance, entry.2))

def goto (grammar : Grammar) (mode : Mode) (set : ItemSet) (symbol : Nat) : ItemSet :=
  (set.gotoKernel grammar symbol).closure grammar mode

-- The start rule before the end of input.
def startKernel (mode : Mode) : ItemSet :=
  (∅ : ItemSet).add ⟨startProduction, 0⟩
    (match mode with
    | .lr0 => ∅
    | .lr1 | .lalr => SymbolSet.empty.insert finishId)

-- The symbols after the dots, in order.
def nextSymbols (grammar : Grammar) (set : ItemSet) : List Nat :=
  (SymbolSet.ofList (set.cores.filterMap fun item => item.next? grammar.toRules)).toList

end ItemSet

end IncrementalLR
