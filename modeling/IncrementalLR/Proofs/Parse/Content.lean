import IncrementalLR.Proofs.Parse.Attempt

namespace IncrementalLR

namespace Forest

-- The leaves without their flags.
def tokens (forest : Forest) : List (Nat × Label) :=
  forest.leaves.map fun entry => (entry.1, entry.2.parsed)

variable {forest other : Forest}

@[simp] theorem tokens_append : (forest ++ other).tokens = forest.tokens ++ other.tokens := by
  simp [tokens]

end Forest

section

variable {setting : Setting} {before : Forest} {scene other : Scene} {pieces after : List Piece}

theorem Setting.BreaksDown.tokens (hb : setting.BreaksDown pieces after) :
    (Piece.contents before after).tokens = (Piece.contents before pieces).tokens := by
  induction hb with
  | leaf h => rw [contents_again? h, Piece.contents, Piece.forest]
  | @node id symbol changed children state below middle pieces h _ ih =>
      rw [ih, contents_allAgain? h, Piece.contents, Forest.tokens_append, Forest.tokens_append]
      simp [Forest.tokens, Piece.forest, Tree.forest, Tree.before, Forest.leaves]
  | span _ => rfl
  | passed => rfl

theorem Spans.tokens {ahead rest : Forest} {taken : List (Nat × Label)} (hs : Spans ahead taken rest) :
    (Forest.ofLeaves taken ++ rest).tokens = ahead.tokens := by
  induction hs with
  | done => rfl
  | descend _ ih =>
      rw [ih]
      simp [Forest.tokens, Forest.leaves]
  | take _ _ ih =>
      simp only [Forest.tokens, Forest.ofLeaves, Forest.leaf_append, Forest.leaves, List.map_cons] at ih ⊢
      rw [ih]
      rfl

-- A reduction takes trees off the stack and puts a node over them.
theorem reduced?_spec {production : Nat} (h : setting.reduced? production scene = some other) :
    ∃ children below left next,
      Piece.pop .nil (setting.table.grammar.production production).right.length scene.pieces =
        some (children, below) ∧
      (setting.table.grammar.production production).left = some left ∧
      setting.table.goto? (Piece.top below) left = some next ∧
      other = { scene with
        pieces := .symbol (.node scene.size (setting.table.grammar.symbol left) false children) next :: below
        size := scene.size + 1 } := by
  unfold Setting.reduced? at h
  dsimp only at h
  split at h
  · rename_i children below left hpop hleft
    obtain ⟨next, hgoto, rfl⟩ := Option.map_eq_some_iff.mp h
    exact ⟨children, below, left, next, hpop, hleft, hgoto, rfl⟩
  · cases h

theorem tokens_reduced? (before : Forest) {production : Nat} (h : setting.reduced? production scene = some other) :
    (Piece.contents before other.pieces).tokens = (Piece.contents before scene.pieces).tokens ∧
      other.ahead = scene.ahead := by
  obtain ⟨children, below, left, next, hpop, -, -, rfl⟩ := reduced?_spec h
  have hcontents := Piece.contents_of_pop before hpop
  rw [Forest.append_nil] at hcontents
  refine ⟨?_, rfl⟩
  rw [hcontents, Piece.contents, Forest.tokens_append, Forest.tokens_append]
  simp [Forest.tokens, Piece.forest, Tree.forest, Tree.before, Forest.leaves]

-- No step loses a leaf, or changes the order of the leaves.
theorem Moves.tokens (hm : Moves setting scene other) :
    (Piece.contents before other.pieces ++ other.ahead).tokens =
      (Piece.contents before scene.pieces ++ scene.ahead).tokens := by
  simp only [Forest.tokens_append]
  cases hm with
  | shift ha _ _ =>
      simp [ha, Piece.contents, Forest.tokens, Piece.forest, Tree.forest, Tree.before, Forest.leaves,
        Label.parsed]
  | reduce _ _ h =>
      obtain ⟨htokens, hahead⟩ := tokens_reduced? before h
      rw [htokens, hahead]
  | breakDown _ _ _ hb => rw [hb.tokens]
  | pass ha _ _ _ _ =>
      simp [ha, Piece.contents, Forest.tokens, Piece.forest, Tree.forest, Tree.before, Forest.leaves,
        Label.parsed]
  | span _ _ hs =>
      rw [Piece.contents, Piece.forest, Forest.tokens_append, List.append_assoc, ← Forest.tokens_append,
        hs.tokens]
  | reduceSpan _ h =>
      obtain ⟨htokens, hahead⟩ := tokens_reduced? before h
      rw [htokens, hahead]
  | descend ha => simp [ha, Forest.tokens, Forest.leaves]
  | reuse _ ha _ =>
      simp [ha, Piece.contents, Forest.tokens, Piece.forest, Tree.forest, Tree.before, Forest.leaves]

theorem Reachable.tokens (hr : Reachable setting scene other) :
    (Piece.contents before other.pieces ++ other.ahead).tokens =
      (Piece.contents before scene.pieces ++ scene.ahead).tokens := by
  induction hr with
  | refl => rfl
  | tail _ hm ih => exact hm.tokens.trans ih

theorem Spans.ids {ahead rest : Forest} {taken : List (Nat × Label)} (hs : Spans ahead taken rest) :
    (Forest.ofLeaves taken ++ rest).ids.Sublist ahead.ids := by
  induction hs with
  | done => exact List.Sublist.refl _
  | @descend id symbol changed below after rest taken _ ih =>
      have hbelow : (below ++ after).ids = below.ids ++ after.ids := Forest.ids_append
      rw [hbelow] at ih
      exact ih.cons id
  | take _ _ ih => exact ih.cons_cons _

theorem ids_reduced? {production id : Nat} (h : setting.reduced? production scene = some other)
    (hid : id ∈ (Piece.contents before other.pieces ++ other.ahead).ids) :
    id ∈ (Piece.contents before scene.pieces ++ scene.ahead).ids ∨ scene.size ≤ id := by
  obtain ⟨children, below, left, next, hpop, -, -, rfl⟩ := reduced?_spec h
  have hcontents := Piece.contents_of_pop before hpop
  rw [Forest.append_nil] at hcontents
  rw [hcontents]
  simp only [Piece.contents, Piece.forest, Tree.forest, Tree.before, Forest.ids_append, Forest.ids, List.mem_append,
    List.mem_cons, List.append_nil] at hid ⊢
  rcases hid with (hid | rfl | hid) | hid
  · exact Or.inl (Or.inl (Or.inl hid))
  · exact Or.inr (Nat.le_refl _)
  · exact Or.inl (Or.inl (Or.inr hid))
  · exact Or.inl (Or.inr hid)

-- The nodes of the trees have been in them, or are new.
theorem Moves.ids (hm : Moves setting scene other) : scene.size ≤ other.size ∧
    ∀ id ∈ (Piece.contents before other.pieces ++ other.ahead).ids,
      id ∈ (Piece.contents before scene.pieces ++ scene.ahead).ids ∨ scene.size ≤ id := by
  have hsame : ∀ {forest result : Forest}, result.ids ⊆ forest.ids → ∀ id ∈ result.ids, id ∈ forest.ids ∨ scene.size ≤ id :=
    fun h id hid => Or.inl (h hid)
  cases hm with
  | shift ha _ _ =>
      refine ⟨Nat.le_refl _, hsame ?_⟩
      simp [ha, Piece.contents, Piece.forest, Tree.forest, Tree.before, Forest.ids]
  | reduce _ _ h =>
      refine ⟨?_, fun id hid => ids_reduced? h hid⟩
      obtain ⟨_, _, _, _, -, -, -, rfl⟩ := reduced?_spec h
      exact Nat.le_succ _
  | breakDown _ _ _ hb =>
      refine ⟨Nat.le_refl _, hsame ?_⟩
      rw [Forest.ids_append, Forest.ids_append]
      exact (hb.ids.append_right _).subset
  | pass ha _ _ _ _ =>
      refine ⟨Nat.le_refl _, hsame ?_⟩
      simp [ha, Piece.contents, Piece.forest, Tree.forest, Tree.before, Forest.ids]
  | span _ _ hs =>
      refine ⟨Nat.le_refl _, hsame ?_⟩
      have hall := hs.ids.append_left (Piece.contents before scene.pieces).ids
      rw [← Forest.ids_append, ← Forest.ids_append] at hall
      rw [Piece.contents, Piece.forest, Forest.append_assoc]
      exact hall.subset
  | reduceSpan _ h =>
      refine ⟨?_, fun id hid => ids_reduced? h hid⟩
      obtain ⟨_, _, _, _, -, -, -, rfl⟩ := reduced?_spec h
      exact Nat.le_succ _
  | descend ha =>
      refine ⟨Nat.le_refl _, hsame ?_⟩
      rw [ha, Forest.ids_append, Forest.ids_append, Forest.ids_append]
      exact ((List.sublist_cons_self _ _).append_left _).subset
  | reuse _ ha _ =>
      refine ⟨Nat.le_refl _, hsame ?_⟩
      simp [ha, Piece.contents, Piece.forest, Tree.forest, Tree.before, Forest.ids]

theorem Reachable.ids (hr : Reachable setting scene other) : scene.size ≤ other.size ∧
    ∀ id ∈ (Piece.contents before other.pieces ++ other.ahead).ids,
      id ∈ (Piece.contents before scene.pieces ++ scene.ahead).ids ∨ scene.size ≤ id := by
  induction hr with
  | refl => exact ⟨Nat.le_refl _, fun _ => Or.inl⟩
  | tail _ hm ih =>
      obtain ⟨hsize, hids⟩ := @Moves.ids _ before _ _ hm
      refine ⟨Nat.le_trans ih.1 hsize, fun id hid => ?_⟩
      exact (hids id hid).elim (ih.2 id) fun hge => Or.inr (Nat.le_trans ih.1 hge)

end

end IncrementalLR
