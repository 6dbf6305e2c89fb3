import IncrementalLR.Fault
import IncrementalLR.Lexer.Token
import IncrementalLR.Tree.Edit
import IncrementalLR.Tree.Version

namespace IncrementalLR

-- A tree whose root stands over a first token, the content and an end of input.
structure Document where
  root : Nat
  bos : Nat
  eos : Nat
deriving DecidableEq, Repr, Inhabited

namespace Document

def rootSymbol : Symbol := .nonterminal "Root"

-- The symbol, lexer rule and text of the node for a token. Tokens of the layout
-- are known by their names alone.
def tokenContent (token : Token) : Symbol × Option String × String :=
  if token.origin = .layout then (.indentation (token.rule.getD ""), none, "")
  else (.terminal token.text, token.rule, token.text)

def allocateToken (store : Store) (token : Token) : Store × Nat :=
  let (symbol, rule, text) := tokenContent token
  store.allocate symbol rule text

def allocateLeaves : List (Symbol × Option String × String) → Store → Store × List Nat
  | [], store => (store, [])
  | (symbol, rule, text) :: rest, store =>
      let (store, node) := store.allocate symbol rule text
      let (store, nodes) := allocateLeaves rest store
      (store, node :: nodes)

-- A flat document, recorded at the version of the store. Changes to other
-- documents are left to the next commit.
def ofLeaves (store : Store) (leaves : List (Symbol × Option String × String)) : Store × Document :=
  let (store, bos) := store.allocate (.terminal "") none ""
  let (store, eos) := store.allocate .finish none ""
  let (store, nodes) := allocateLeaves leaves store
  let children := bos :: (nodes ++ [eos])
  let (store, root) := store.allocateNode rootSymbol children
  let store := (store.relink root).markChanged root store.version
  let store := (root :: children).foldl (fun store node => store.save node store.version) store
  (store, ⟨root, bos, eos⟩)

def ofTokens (store : Store) (tokens : List Token) : Store × Document :=
  ofLeaves store (tokens.map tokenContent)

variable (document : Document)

-- Puts a node behind an anchor. The node is in the store whether this succeeds
-- or not.
def insertLeafAfter (store : Store) (anchor node : Nat) : Except Fault Store :=
  if anchor = document.eos then .error (.malformedRoot document.root)
  else
    match (store.node anchor).parent with
    | none => .error (.detachedNode anchor)
    | some parent =>
        match store.insertAfter? parent anchor node with
        | none => .error (.detachedNode anchor)
        | some store => .ok (store.markChanged node store.nextVersion)

-- The store after an operation, or the one it falls back on if it fails.
def orElse {α : Type} (fallback : Store) (value : α) : Except Fault Store → Store × Except Fault α
  | .ok store => (store, .ok value)
  | .error fault => (fallback, .error fault)

def insertTokenAfter (store : Store) (anchor : Nat) (token : Token) : Store × Except Fault Nat :=
  let (store, node) := allocateToken store token
  orElse store node (document.insertLeafAfter store anchor node)

-- Puts tokens one behind the other. Those before one that cannot be inserted stay.
def insertTokensAfter (store : Store) (anchor : Nat) : List Token → Store × Except Fault (List Nat)
  | [] => (store, .ok [])
  | token :: rest =>
      match document.insertTokenAfter store anchor token with
      | (store, .error fault) => (store, .error fault)
      | (store, .ok node) =>
          let (store, nodes) := insertTokensAfter store node rest
          (store, nodes.map (node :: ·))

-- Edits in an embedded document mark its hosts changed.
def embed (store : Store) (terminal : Nat) (inner : Document) : Store :=
  (store.setBox terminal inner.root).markChanged terminal store.nextVersion

def insertBoxAfter (store : Store) (anchor : Nat) (language : String) (inner : Document) :
    Store × Except Fault Nat :=
  let (store, node) := store.allocate (.magic language) none ""
  orElse store node
    ((document.insertLeafAfter store anchor node).map fun store => embed store node inner)

def removeToken (store : Store) (node : Nat) : Except Fault Store :=
  if node = document.bos ∨ node = document.eos then .error (.malformedRoot document.root)
  else
    match (store.node node).parent with
    | none => .error (.detachedNode node)
    | some parent =>
        match store.removeChild? parent node with
        | none => .error (.detachedNode node)
        | some store => .ok (store.markChanged parent store.nextVersion)

def replaceToken (store : Store) (node : Nat) (rule : Option String) (text : String) : Store :=
  (store.setToken node rule text).markChanged node store.nextVersion

def markLeavesBelow : Nat → Nat → Store → Store
  | 0, _, store => store
  | fuel + 1, root, store =>
      (store.leaves root).foldl
        (fun store leaf =>
          let store := store.markChanged leaf store.nextVersion
          match (store.node leaf).box with
          | some inner => markLeavesBelow fuel inner store
          | none => store)
        store

-- Moves the whole store to a version. The leaves of the document and of those
-- embedded in it are marked changed, so that all of it is parsed anew.
def undoTo? (store : Store) (version : Nat) : Option Store :=
  (store.restore? version).map fun store => markLeavesBelow store.size document.root store

def redoTo? (store : Store) (version : Nat) : Option Store :=
  if version < store.version then none else document.undoTo? store version

def text (store : Store) : String := store.text document.root

-- The tokens between the two ends, by the thread of the terminals.
def tokens (store : Store) : List Nat :=
  (store.thread document.bos).filter fun node => node != document.bos && node != document.eos

end Document

end IncrementalLR
