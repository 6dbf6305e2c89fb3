import IncrementalLR.Proofs.Parse.Content

namespace IncrementalLR

-- The tokens that documents are made of.
def Label.IsToken (label : Label) : Prop :=
  (∃ name, label.symbol = .terminal name) ∨ ∃ name, label.symbol = .indentation name

theorem Label.IsToken.key {label : Label} (ht : label.IsToken) : ∃ name, label.key = .terminal name := by
  rw [Label.key]
  cases label.rule with
  | some rule => exact ⟨rule, rfl⟩
  | none =>
      rcases ht with ⟨name, h⟩ | ⟨name, h⟩
      · exact ⟨name, by simp [h, Symbol.key]⟩
      · exact ⟨name, by simp [h, Symbol.key]⟩

theorem Label.IsToken.isNonterminal {label : Label} (ht : label.IsToken) : label.symbol.isNonterminal = false := by
  rcases ht with ⟨name, h⟩ | ⟨name, h⟩ <;> rw [h] <;> rfl

theorem Forest.isToken_tokens {forest : Forest} :
    (∀ entry ∈ forest.tokens, entry.2.IsToken) ↔ ∀ entry ∈ forest.leaves, entry.2.IsToken := by
  unfold Forest.tokens
  rw [List.forall_mem_map]
  rfl

namespace Document

def bosLabel : Label := ⟨.terminal "", none, "", false⟩

def eosLabel : Label := ⟨.finish, none, "", false⟩

variable (document : Document)

def opening : Forest := .leaf document.bos bosLabel .nil

def closing : Forest := .leaf document.eos eosLabel .nil

-- The children of the root, with the content between the two ends.
def whole (forest : Forest) : Forest := document.opening ++ (forest ++ document.closing)

-- The same between two leaves that may have other labels.
def framed (first last : Label) (content : Forest) : Forest :=
  .leaf document.bos first (content ++ .leaf document.eos last .nil)

-- Whether a document is in a store, with a forest as its content.
structure Stands (store : Store) (document : Document) (forest : Forest) : Prop
    extends Store.Planted store document.root (document.whole forest) where
  tokens : ∀ entry ∈ forest.leaves, entry.2.IsToken

-- Where a parse of the document starts.
def scene (store : Store) (forest : Forest) : Scene :=
  ⟨[], forest ++ document.closing, store.size, false, false⟩

variable {document} {store other : Store} {forest : Forest}

section Framed

variable {first last : Label} (hp : store.Planted document.root (document.framed first last forest))

include hp

-- The first node to be parsed, and the tree as a parse finds it.
theorem following?_of_framed :
    store.following? document.bos = (forest ++ .leaf document.eos last .nil).roots.head? :=
  @Store.Planted.following? store document.root _ (.leaf document.bos first) hp

theorem exists_following_of_framed :
    ∃ next, store.following? document.bos = some next ∧
      (forest ++ .leaf document.eos last .nil).roots.head? = some next := by
  rw [following?_of_framed hp, Forest.roots_append]
  cases forest.roots with
  | nil => exact ⟨_, rfl, rfl⟩
  | cons next rest => exact ⟨next, rfl, rfl⟩

theorem divides_of_framed :
    store.Divides document.root (.leaf document.bos first .nil) (forest ++ .leaf document.eos last .nil) :=
  @Store.Planted.divides store document.root _ (.leaf document.bos first) hp

theorem shows_of_framed (metrics : Metrics) :
    Shows document.root (.leaf document.bos first .nil) ⟨store, [], [], false, false, metrics⟩
      ⟨[], forest ++ .leaf document.eos last .nil, store.size, false, false⟩ :=
  ⟨rfl, rfl, rfl, rfl, divides_of_framed hp⟩

end Framed

namespace Stands

theorem following? (hs : document.Stands store forest) :
    store.following? document.bos = (forest ++ document.closing).roots.head? :=
  following?_of_framed hs.toPlanted

theorem divides (hs : document.Stands store forest) :
    store.Divides document.root document.opening (forest ++ document.closing) :=
  divides_of_framed hs.toPlanted

theorem shows (hs : document.Stands store forest) (metrics : Metrics) :
    Shows document.root document.opening ⟨store, [], [], false, false, metrics⟩ (document.scene store forest) :=
  shows_of_framed hs.toPlanted metrics

-- What a store holds of the document is left alone by whatever changes no view.
theorem congr (hs : document.Stands store forest) (hsize : store.size ≤ other.size)
    (hv : ∀ id, id < store.size → other.view id = store.view id) : document.Stands other forest :=
  ⟨hs.toPlanted.congr hsize fun id h => hv id (hs.lt_size id h), hs.tokens⟩

end Stands

-- Whether a leaf is the last of what is still to come.
def ClosesWith (last : Nat × Label) (scene : Scene) : Prop := ∃ inner, scene.ahead = inner ++ .leaf last.1 last.2 .nil

-- The same for the end of the input.
def Closes (document : Document) : Scene → Prop := ClosesWith (document.eos, eosLabel)

theorem closes_scene : document.Closes (document.scene store forest) := ⟨forest, rfl⟩

section Closing

variable {setting : Setting} {scene : Scene} {last : Nat × Label} {ahead rest after : Forest}

theorem before_of_append_last {tree : Tree} {inner : Forest}
    (h : tree.before after = inner ++ .leaf last.1 last.2 .nil) :
    inner = .nil ∧ tree = .leaf last.1 last.2 ∧ after = .nil ∨
      ∃ behind, inner = tree.before behind ∧ after = behind ++ .leaf last.1 last.2 .nil := by
  induction inner using Forest.spine_induction with
  | nil =>
      have hclosing : tree.before after = (Tree.leaf last.1 last.2).before .nil := h
      obtain ⟨rfl, rfl⟩ := Tree.before_inj.mp hclosing
      exact Or.inl ⟨rfl, rfl, rfl⟩
  | before first behind _ =>
      rw [Tree.before_append, Tree.before_inj] at h
      obtain ⟨rfl, rfl⟩ := h
      exact Or.inr ⟨behind, rfl, rfl⟩

theorem before_of_append_closing {tree : Tree} {inner : Forest}
    (h : tree.before after = inner ++ document.closing) :
    inner = .nil ∧ tree = .leaf document.eos eosLabel ∧ after = .nil ∨
      ∃ behind, inner = tree.before behind ∧ after = behind ++ document.closing :=
  @before_of_append_last (document.eos, eosLabel) after tree inner h

theorem closes_spans {taken : List (Nat × Label)} (hlast : last.2.symbol = .finish) (hs : Spans ahead taken rest)
    (hc : ∃ inner, ahead = inner ++ .leaf last.1 last.2 .nil) : ∃ inner, rest = inner ++ .leaf last.1 last.2 .nil := by
  induction hs with
  | done => exact hc
  | @descend id symbol changed below after rest taken _ ih =>
      obtain ⟨inner, h⟩ := hc
      rcases @before_of_append_last last after (.node id symbol changed below) inner h with
        ⟨-, h, -⟩ | ⟨behind, rfl, rfl⟩
      · cases h
      · exact ih ⟨below ++ behind, Forest.append_assoc.symm⟩
  | @take id label after rest taken hne _ ih =>
      obtain ⟨inner, h⟩ := hc
      rcases @before_of_append_last last after (.leaf id label) inner h with
        ⟨-, h, -⟩ | ⟨behind, rfl, rfl⟩
      · obtain ⟨-, rfl⟩ := Tree.leaf.inj h
        exact absurd hlast hne
      · exact ih ⟨behind, rfl⟩

theorem ClosesWith.moves {next : Scene} (hlast : last.2.symbol = .finish) (hc : ClosesWith last scene)
    (hm : Moves setting scene next) : ClosesWith last next := by
  obtain ⟨inner, hahead⟩ := hc
  cases hm with
  | @shift id _ label after ha hne _ =>
      rcases @before_of_append_last last after (.leaf id label) inner (ha.symm.trans hahead) with
        ⟨-, -, h⟩ | ⟨behind, -, h⟩
      · exact absurd h hne
      · exact ⟨behind, h⟩
  | reduce _ _ h => exact ⟨inner, (tokens_reduced? .nil h).2.trans hahead⟩
  | breakDown _ _ _ _ => exact ⟨inner, hahead⟩
  | @pass id label after ha hne _ _ _ =>
      rcases @before_of_append_last last after (.leaf id label) inner (ha.symm.trans hahead) with
        ⟨-, -, h⟩ | ⟨behind, -, h⟩
      · exact absurd h hne
      · exact ⟨behind, h⟩
  | span _ _ hs => exact closes_spans hlast hs ⟨inner, hahead⟩
  | reduceSpan _ h => exact ⟨inner, (tokens_reduced? .nil h).2.trans hahead⟩
  | @descend id symbol changed below after ha =>
      rcases @before_of_append_last last after (.node id symbol changed below) inner
        (ha.symm.trans hahead) with ⟨-, h, -⟩ | ⟨behind, -, h⟩
      · cases h
      · exact ⟨below ++ behind, by rw [h, Forest.append_assoc]⟩
  | @reuse id _ symbol below after _ ha _ =>
      rcases @before_of_append_last last after (.node id symbol false below) inner
        (ha.symm.trans hahead) with ⟨-, h, -⟩ | ⟨behind, -, h⟩
      · cases h
      · exact ⟨behind, h⟩

theorem ClosesWith.reachable {next : Scene} (hlast : last.2.symbol = .finish) (hc : ClosesWith last scene)
    (hr : Reachable setting scene next) : ClosesWith last next := by
  induction hr with
  | refl => exact hc
  | tail _ hm ih => exact ih.moves hlast hm

theorem Closes.moves {next : Scene} (hc : document.Closes scene) (hm : Moves setting scene next) :
    document.Closes next := ClosesWith.moves rfl hc hm

theorem Closes.reachable {next : Scene} (hc : document.Closes scene) (hr : Reachable setting scene next) :
    document.Closes next := ClosesWith.reachable rfl hc hr

-- With one leaf to come, that is the end of the input.
theorem Closes.ahead_of_leaves (hc : document.Closes scene) (hl : scene.ahead.leaves.length = 1)
    (hfirst : ∃ id label after, scene.ahead = .leaf id label after) : scene.ahead = document.closing := by
  obtain ⟨inner, hahead⟩ := hc
  obtain ⟨id, label, after, hleaf⟩ := hfirst
  rcases @before_of_append_closing document after (.leaf id label) inner (hleaf.symm.trans hahead) with
    ⟨rfl, -, -⟩ | ⟨behind, rfl, -⟩
  · exact hahead
  · rw [hahead, Forest.leaves_append, List.length_append] at hl
    simp [Tree.before, Forest.leaves] at hl

end Closing

theorem contents_opening (pieces : List Piece) (before : Forest) :
    Piece.contents before pieces = before ++ Piece.contents .nil pieces := by
  induction pieces with
  | nil => simp [Piece.contents]
  | cons piece below ih => rw [Piece.contents, Piece.contents, ih, Forest.append_assoc]

-- What lies on the stack comes between the two ends.
theorem planted_accept {setting : Setting} {run : Run} {scene : Scene} {first last : Label}
    (hs : Shows setting.document.root (.leaf setting.document.bos first .nil) run scene)
    (ha : scene.ahead = .leaf setting.document.eos last .nil) :
    (setting.accept run).store.Planted setting.document.root
        (setting.document.framed first last (Piece.contents .nil scene.pieces)) ∧
      ((setting.accept run).store.node setting.document.root).changed = false ∧
      (setting.accept run).store.size = run.store.size := by
  have hd := hs.divides
  rw [ha, contents_opening] at hd
  obtain ⟨hplanted, hflag⟩ := hd.plant
  rw [Forest.append_assoc] at hplanted hflag
  have hroots : setting.document.bos :: (run.stack.nodes ++ [setting.document.eos]) =
      (setting.document.framed first last (Piece.contents .nil scene.pieces)).roots := by
    rw [hs.stack, framed, Forest.roots, Forest.roots_append, Piece.roots_contents]
    rfl
  unfold Setting.accept
  dsimp only
  rw [hroots]
  exact ⟨hplanted, hflag, by simp⟩

-- What lies on the stack becomes the content of the document.
theorem stands_accept {setting : Setting} {run : Run} {scene : Scene}
    (hs : Shows setting.document.root setting.document.opening run scene)
    (ha : scene.ahead = setting.document.closing)
    (ht : ∀ entry ∈ (Piece.contents .nil scene.pieces).leaves, entry.2.IsToken) :
    setting.document.Stands (setting.accept run).store (Piece.contents .nil scene.pieces) ∧
      ((setting.accept run).store.node setting.document.root).changed = false ∧
      (setting.accept run).store.size = run.store.size := by
  obtain ⟨hplanted, hrest⟩ := @planted_accept setting run scene bosLabel eosLabel hs ha
  exact ⟨⟨hplanted, ht⟩, hrest⟩

end Document

end IncrementalLR
