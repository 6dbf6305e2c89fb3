import IncrementalLR.Parse.Basic
import IncrementalLR.Proofs.Tree.Cursor

namespace IncrementalLR

-- What lies on the stack, with the trees themselves.
inductive Piece where
  | symbol (tree : Tree) (state : Nat)
  | span (leaves : List (Nat × Label)) (state : Nat)
  | passed (tree : Tree) (state : Nat)

namespace Piece

def frame : Piece → Frame
  | symbol tree state => .symbol tree.id state
  | span leaves state => .span (leaves.map Prod.fst) state
  | passed tree state => .passed tree.id state

def state : Piece → Nat
  | symbol _ state | span _ state | passed _ state => state

def forest : Piece → Forest
  | symbol tree _ | passed tree _ => tree.forest
  | span leaves _ => .ofLeaves leaves

def top (pieces : List Piece) : Nat :=
  match pieces with
  | piece :: _ => piece.state
  | [] => 0

-- All trees from the bottom to the top, behind what stands before them.
def contents (before : Forest) : List Piece → Forest
  | [] => before
  | piece :: below => contents before below ++ piece.forest

-- Takes so many symbols from the top, with what was passed through between them.
def pop (taken : Forest) : Nat → List Piece → Option (Forest × List Piece)
  | 0, pieces => some (taken, pieces)
  | _ + 1, [] => none
  | count + 1, piece :: below =>
      pop (piece.forest ++ taken) (if piece.frame.counts then count else count + 1) below

variable {piece : Piece} {pieces below : List Piece} {before taken children : Forest} {count : Nat}

@[simp] theorem state_frame : piece.frame.state = piece.state := by
  cases piece <;> rfl

@[simp] theorem nodes_frame : piece.frame.nodes = piece.forest.roots := by
  cases piece with
  | symbol tree state => simp [frame, Frame.nodes, forest]
  | span leaves state => simp [frame, Frame.nodes, forest]
  | passed tree state => simp [frame, Frame.nodes, forest]

theorem state_frames : ParseStack.state (pieces.map frame) = top pieces := by
  cases pieces with
  | nil => rfl
  | cons piece below => exact state_frame

theorem roots_contents :
    (contents before pieces).roots = before.roots ++ ParseStack.nodes (pieces.map frame) := by
  induction pieces with
  | nil => simp [contents, ParseStack.nodes]
  | cons piece below ih =>
      rw [contents, Forest.roots_append, ih]
      simp [ParseStack.nodes]

theorem contents_of_pop (before : Forest) (hp : pop taken count pieces = some (children, below)) :
    contents before pieces ++ taken = contents before below ++ children := by
  induction pieces generalizing taken count with
  | nil =>
      cases count with
      | zero =>
          simp only [pop, Option.some_inj, Prod.mk.injEq] at hp
          obtain ⟨rfl, rfl⟩ := hp
          rfl
      | succ count => cases hp
  | cons piece rest ih =>
      cases count with
      | zero =>
          simp only [pop, Option.some_inj, Prod.mk.injEq] at hp
          obtain ⟨rfl, rfl⟩ := hp
          rfl
      | succ count => rw [contents, Forest.append_assoc, ih hp]

theorem popInto_frames :
    ParseStack.popInto taken.roots count (pieces.map frame) =
      (pop taken count pieces).map fun (children, below) => (children.roots, below.map frame) := by
  induction pieces generalizing taken count with
  | nil =>
      cases count with
      | zero => rfl
      | succ count => rfl
  | cons piece below ih =>
      cases count with
      | zero => rfl
      | succ count => rw [List.map_cons, ParseStack.popInto, nodes_frame, ← Forest.roots_append, ih, pop]

theorem popSymbols_frames :
    ParseStack.popSymbols count (pieces.map frame) =
      (pop .nil count pieces).map fun (children, below) => (children.roots, below.map frame) :=
  @popInto_frames pieces .nil count

end Piece

-- A parse under way. The numbers of new nodes start from the size.
structure Scene where
  pieces : List Piece
  ahead : Forest
  size : Nat
  validating : Bool
  brokeDown : Bool

namespace Setting

variable (setting : Setting)

def passes (label : Label) : Bool :=
  label.symbol == .epsilon || setting.passThrough.contains label.key.name

def lookup? (pieces : List Piece) (symbol : Symbol) : Option Action :=
  setting.table.lookup? (Piece.top pieces) symbol

-- Whether the table leaves it to other rules what becomes of a leaf.
def Silent (pieces : List Piece) (label : Label) : Prop :=
  setting.lookup? pieces label.key = none ∨
    ∃ target, setting.lookup? pieces label.key = some (.goto target)

def reduced? (production : Nat) (scene : Scene) : Option Scene :=
  let grammar := setting.table.grammar
  match Piece.pop .nil (grammar.production production).right.length scene.pieces,
    (grammar.production production).left with
  | some (children, below), some left =>
      (setting.table.goto? (Piece.top below) left).map fun next =>
        { scene with
          pieces := .symbol (.node scene.size (grammar.symbol left) false children) next :: below
          size := scene.size + 1 }
  | _, _ => none

-- A piece of a broken subtree in the state that the table gives it.
def again? (tree : Tree) (pieces : List Piece) : Option (List Piece) :=
  match setting.lookup? pieces tree.label.key with
  | some (.shift next) | some (.goto next) => some (.symbol tree next :: pieces)
  | _ =>
      if setting.passes tree.label then some (.passed tree (Piece.top pieces) :: pieces) else none

def allAgain? : Forest → List Piece → Option (List Piece)
  | .nil, pieces => some pieces
  | .leaf id label after, pieces => (setting.again? (.leaf id label) pieces).bind (allAgain? after)
  | .node id symbol changed below after, pieces =>
      (setting.again? (.node id symbol changed below) pieces).bind (allAgain? after)

-- What becomes of the stack when its top is broken down to the last leaf.
inductive BreaksDown : List Piece → List Piece → Prop where
  | leaf {id : Nat} {label : Label} {state : Nat} {below pieces : List Piece} :
      setting.again? (.leaf id label) below = some pieces →
      BreaksDown (.symbol (.leaf id label) state :: below) pieces
  | node {id : Nat} {symbol : Symbol} {changed : Bool} {children : Forest} {state : Nat}
      {below middle pieces : List Piece} :
      setting.allAgain? children below = some middle → BreaksDown middle pieces →
      BreaksDown (.symbol (.node id symbol changed children) state :: below) pieces
  | span {leaves : List (Nat × Label)} {state target : Nat} {reach : Reach} {below : List Piece} :
      setting.lookup? below (.wildcard reach) = some (.shift target) →
      BreaksDown (.span leaves state :: below) (.span leaves target :: below)
  | passed {tree : Tree} {state : Nat} {below : List Piece} :
      BreaksDown (.passed tree state :: below) (.passed tree (Piece.top below) :: below)

end Setting

section Breakdown

variable {setting : Setting} {tree : Tree} {forest before : Forest} {pieces after : List Piece}

theorem allAgain?_before :
    setting.allAgain? (tree.before forest) pieces =
      (setting.again? tree pieces).bind (setting.allAgain? forest) := by
  cases tree with
  | leaf id label => rfl
  | node id symbol changed below => rfl

theorem contents_again? (h : setting.again? tree pieces = some after) :
    Piece.contents before after = Piece.contents before pieces ++ tree.forest := by
  unfold Setting.again? at h
  split at h
  · obtain rfl := Option.some_inj.mp h
    rfl
  · obtain rfl := Option.some_inj.mp h
    rfl
  · split at h
    · obtain rfl := Option.some_inj.mp h
      rfl
    · cases h

theorem contents_allAgain? (h : setting.allAgain? forest pieces = some after) :
    Piece.contents before after = Piece.contents before pieces ++ forest := by
  induction forest using Forest.spine_induction generalizing pieces with
  | nil =>
      obtain rfl := Option.some_inj.mp h
      rw [Forest.append_nil]
  | before tree rest ih =>
      rw [allAgain?_before] at h
      obtain ⟨middle, hfirst, hrest⟩ := Option.bind_eq_some_iff.mp h
      rw [ih hrest, contents_again? hfirst, Forest.append_assoc, Tree.forest_append]

-- Breaking down leaves the leaves on the stack, and drops nodes above them.
theorem Setting.BreaksDown.ids (hb : setting.BreaksDown pieces after) :
    (Piece.contents before after).ids.Sublist (Piece.contents before pieces).ids := by
  induction hb with
  | leaf h =>
      rw [contents_again? h]
      exact List.Sublist.refl _
  | @node id symbol changed children state below middle pieces h _ ih =>
      refine ih.trans ?_
      rw [contents_allAgain? h, Piece.contents, Forest.ids_append, Forest.ids_append]
      refine List.Sublist.append_left ?_ _
      simp [Piece.forest, Tree.forest, Tree.before, Forest.ids]
  | span _ => exact List.Sublist.refl _
  | passed => exact List.Sublist.refl _

theorem Setting.BreaksDown.kept (hb : setting.BreaksDown pieces after) {store : Store}
    (hk : store.Kept (Piece.contents before pieces)) :
    store.Kept (Piece.contents before after) ∧
      (Piece.contents before after).ids.Sublist (Piece.contents before pieces).ids := by
  refine ⟨?_, hb.ids⟩
  induction hb with
  | leaf h =>
      rw [contents_again? h]
      exact hk
  | @node id symbol changed children state below middle pieces h _ ih =>
      obtain ⟨hbelow, hnode⟩ := Store.kept_append.mp hk
      have hchildren := (Store.kept_forest.mp hnode).2.2.2.kept
      refine ih ?_
      rw [contents_allAgain? h]
      exact Store.kept_append.mpr ⟨hbelow, hchildren⟩
  | span _ => exact hk
  | passed => exact hk

end Breakdown

-- Whether a wildcard leaves a leaf to what follows it.
def SyntaxTable.endsSpan (table : SyntaxTable) (target : Nat) (reach : Reach) (label : Label) : Bool :=
  label.symbol == .finish || (reach == .singleLine && label.text.toList.contains '\n') ||
    (table.lookup? target label.key).isSome

-- What a wildcard takes of the trees to come.
inductive Spans : Forest → List (Nat × Label) → Forest → Prop where
  | done {forest : Forest} : Spans forest [] forest
  | descend {id : Nat} {symbol : Symbol} {changed : Bool} {below after rest : Forest}
      {taken : List (Nat × Label)} :
      Spans (below ++ after) taken rest → Spans (.node id symbol changed below after) taken rest
  | take {id : Nat} {label : Label} {after rest : Forest} {taken : List (Nat × Label)} :
      label.symbol ≠ .finish → Spans after taken rest →
      Spans (.leaf id label after) ((id, label.parsed) :: taken) rest

-- What a step that goes on does.
inductive Moves (setting : Setting) (scene : Scene) : Scene → Prop where
  | shift {id next : Nat} {label : Label} {after : Forest} :
      scene.ahead = .leaf id label after → after ≠ .nil →
      setting.lookup? scene.pieces label.key = some (.shift next) →
      Moves setting scene
        { scene with
          pieces := .symbol (.leaf id label.parsed) next :: scene.pieces
          ahead := after
          validating := false }
  | reduce {first : Nat × Label} {production : Nat} {other : Scene} :
      scene.ahead.leaves.head? = some first →
      setting.lookup? scene.pieces first.2.key = some (.reduce production) →
      setting.reduced? production scene = some other → Moves setting scene other
  | breakDown {id : Nat} {label : Label} {after : Forest} {pieces : List Piece} :
      scene.ahead = .leaf id label after → setting.Silent scene.pieces label →
      scene.validating = true → setting.BreaksDown scene.pieces pieces →
      Moves setting scene { scene with pieces := pieces, validating := false, brokeDown := true }
  | pass {id : Nat} {label : Label} {after : Forest} :
      scene.ahead = .leaf id label after → after ≠ .nil → setting.Silent scene.pieces label →
      scene.validating = false → setting.passes label = true →
      Moves setting scene
        { scene with
          pieces := .passed (.leaf id label.parsed) (Piece.top scene.pieces) :: scene.pieces
          ahead := after }
  | span {reach : Reach} {target : Nat} {leaves : List (Nat × Label)} {rest : Forest} :
      scene.validating = false →
      setting.lookup? scene.pieces (.wildcard reach) = some (.shift target) →
      Spans scene.ahead leaves rest →
      Moves setting scene
        { scene with pieces := .span leaves target :: scene.pieces, ahead := rest }
  | reduceSpan {reach : Reach} {production : Nat} {other : Scene} :
      setting.lookup? scene.pieces (.wildcard reach) = some (.reduce production) →
      setting.reduced? production scene = some other → Moves setting scene other
  | descend {id : Nat} {symbol : Symbol} {changed : Bool} {below after : Forest} :
      scene.ahead = .node id symbol changed below after →
      Moves setting scene { scene with ahead := below ++ after }
  | reuse {id next : Nat} {symbol : Symbol} {below after : Forest} :
      setting.reparse = false → scene.ahead = .node id symbol false below after →
      setting.lookup? scene.pieces symbol = some (.goto next) →
      Moves setting scene
        { scene with
          pieces := .symbol (.node id symbol false below) next :: scene.pieces
          ahead := after
          validating := true }

-- Where a parse accepts, or rejects, or meets a fault.
def Accepts (setting : Setting) (scene : Scene) : Prop :=
  ∃ id label after, scene.ahead = .leaf id label after ∧
    setting.lookup? scene.pieces label.key = some .accept

def Rejects (setting : Setting) (scene : Scene) : Prop :=
  ∃ id label after, scene.ahead = .leaf id label after ∧ setting.Silent scene.pieces label ∧
    (scene.validating = true ∨ setting.passes label = false)

inductive Fails (setting : Setting) (scene : Scene) : Prop where
  | shift {id next : Nat} {label : Label} :
      scene.ahead = .leaf id label .nil →
      setting.lookup? scene.pieces label.key = some (.shift next) → Fails setting scene
  | pass {id : Nat} {label : Label} :
      scene.ahead = .leaf id label .nil → setting.passes label = true →
      setting.Silent scene.pieces label → Fails setting scene
  | node {id : Nat} {symbol : Symbol} {changed : Bool} {below : Forest} :
      scene.ahead = .node id symbol changed below .nil → Fails setting scene
  | reduce {first : Nat × Label} {production : Nat} :
      scene.ahead.leaves.head? = some first →
      setting.lookup? scene.pieces first.2.key = some (.reduce production) →
      setting.reduced? production scene = none → Fails setting scene
  | span {reach : Reach} {target : Nat} :
      setting.lookup? scene.pieces (.wildcard reach) = some (.shift target) →
      (∀ entry ∈ scene.ahead.leaves, setting.table.endsSpan target reach entry.2 = false) → Fails setting scene
  | reduceSpan {reach : Reach} {production : Nat} :
      setting.lookup? scene.pieces (.wildcard reach) = some (.reduce production) →
      setting.reduced? production scene = none → Fails setting scene

end IncrementalLR
