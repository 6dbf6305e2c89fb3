import IncrementalLR.Proofs.Document.Standing

namespace IncrementalLR

namespace Store

variable {store : Store} {id other : Nat}

@[simp] theorem view_threadLeaves {before : Option Nat} {leaves : List Nat} :
    (threadLeaves before leaves store).view other = store.view other := by
  induction leaves generalizing before store with
  | nil => rfl
  | cons leaf rest ih =>
      rw [threadLeaves, ih, view_reviseAll_next]
      exact view_revise_of_view fun _ => rfl

@[simp] theorem size_threadLeaves {before : Option Nat} {leaves : List Nat} :
    (threadLeaves before leaves store).size = store.size := by
  induction leaves generalizing before store with
  | nil => rfl
  | cons leaf rest ih => rw [threadLeaves, ih, size_reviseAll, size_revise]

@[simp] theorem view_save {version : Nat} : (store.save id version).view other = store.view other :=
  view_update_of_view fun _ => rfl

@[simp] theorem size_save {version : Nat} : (store.save id version).size = store.size := size_update _

theorem view_saveAll {version : Store → Nat} {ids : List Nat} :
    (ids.foldl (fun store node => store.save node (version store)) store).view other = store.view other := by
  induction ids generalizing store with
  | nil => rfl
  | cons first rest ih => rw [List.foldl_cons, ih, view_save]

theorem size_saveAll {version : Store → Nat} {ids : List Nat} :
    (ids.foldl (fun store node => store.save node (version store)) store).size = store.size := by
  induction ids generalizing store with
  | nil => rfl
  | cons first rest ih => rw [List.foldl_cons, ih, size_save]

-- A node with nothing above it is flagged alone.
theorem markChanged_top {version : Nat} (ha : (store.node id).above = none) :
    (store.markChanged id version).size = store.size ∧
      (∀ other, other ≠ id → (store.markChanged id version).view other = store.view other) ∧
      ((store.markChanged id version).view id).parsed = (store.view id).parsed := by
  have hfrom : ∀ fuel, (markChangedFrom version fuel id store).size = store.size ∧
      (∀ other, other ≠ id → (markChangedFrom version fuel id store).view other = store.view other) ∧
      ((markChangedFrom version fuel id store).view id).parsed = (store.view id).parsed := by
    intro fuel
    cases fuel with
    | zero => exact ⟨rfl, fun _ _ => rfl, rfl⟩
    | succ fuel =>
        rw [markChangedFrom]
        split
        · exact ⟨rfl, fun _ _ => rfl, rfl⟩
        · rw [ha]
          refine ⟨size_update _, fun other h => view_update_ne _ h, ?_⟩
          dsimp only
          rw [view, node_update]
          split
          · rfl
          · rfl
  exact hfrom store.size

end Store

-- The label of a leaf that nobody has flagged.
def Label.ofContent (content : Symbol × Option String × String) : Label :=
  ⟨content.1, content.2.1, content.2.2, false⟩

theorem Document.isToken_tokenContent (token : Token) : (Label.ofContent (tokenContent token)).IsToken := by
  unfold tokenContent
  split
  · exact Or.inr ⟨_, rfl⟩
  · exact Or.inl ⟨_, rfl⟩

namespace Document

-- New leaves, numbered from the first on.
def enumerate (first : Nat) : List (Symbol × Option String × String) → List (Nat × Label)
  | [] => []
  | content :: rest => (first, .ofContent content) :: enumerate (first + 1) rest

variable {store : Store} {first : Nat} {contents : List (Symbol × Option String × String)}

theorem enumerate_labels : (enumerate first contents).map Prod.snd = contents.map .ofContent := by
  induction contents generalizing first with
  | nil => rfl
  | cons content rest ih => rw [enumerate, List.map_cons, List.map_cons, ih]

theorem enumerate_ids : (enumerate first contents).map Prod.fst = List.range' first contents.length := by
  induction contents generalizing first with
  | nil => rfl
  | cons content rest ih => rw [enumerate, List.map_cons, ih, List.length_cons, List.range'_succ]

theorem allocateLeaves_spec (hc : ∀ content ∈ contents, (Label.ofContent content).symbol.isNonterminal = false) :
    (allocateLeaves contents store).2 = (enumerate store.size contents).map Prod.fst ∧
      (allocateLeaves contents store).1.size = store.size + contents.length ∧
      (∀ id, id < store.size → (allocateLeaves contents store).1.view id = store.view id) ∧
      (allocateLeaves contents store).1.Kept (.ofLeaves (enumerate store.size contents)) := by
  induction contents generalizing store with
  | nil => exact ⟨rfl, rfl, fun _ _ => rfl, trivial⟩
  | cons content rest ih =>
      obtain ⟨symbol, rule, text⟩ := content
      obtain ⟨hnodes, hsize, hview, hkept⟩ :=
        @ih (store.push (.new symbol rule text)) fun content h => hc content (by simp [h])
      have hfirst : (store.push (.new symbol rule text)).view store.size =
          ⟨.ofContent (symbol, rule, text), [], none, none, none, none⟩ := Store.view_push_self _
      rw [Store.size_push] at hnodes hsize hview hkept
      simp only [allocateLeaves, Store.allocate]
      refine ⟨?_, ?_, fun id h => ?_, ⟨⟨?_, ?_, hc _ (by simp)⟩, hkept⟩⟩
      · rw [hnodes]
        rfl
      · rw [hsize, List.length_cons]
        omega
      · rw [hview id (by omega), Store.view_push_lt _ h]
      · rw [hview _ (Nat.lt_succ_self _), hfirst]
      · rw [hview _ (Nat.lt_succ_self _), hfirst]

-- The children of a new root are recorded with it.
theorem rooted_root {root : Nat} {forest : Forest} (hroot : root = store.size) (hk : store.Kept forest)
    (hn : forest.ids.Nodup) (hlt : ∀ id ∈ forest.ids, id < store.size) (version : Nat) (saved : Store → Nat)
    (ids : List Nat) :
    (ids.foldl (fun store node => store.save node (saved store))
      (((store.allocateNode rootSymbol forest.roots).1.relink root).markChanged root version)).Rooted root forest := by
  obtain ⟨hholds, hself, -⟩ := @Store.holds_allocateNode store _ rootSymbol hk hn hlt rfl
  have hsize := @Store.size_allocateNode store rootSymbol forest.roots
  generalize (store.allocateNode rootSymbol forest.roots).1 = built at hholds hself hsize ⊢
  rw [← hroot] at hholds hself
  have hview : (built.relink root).view root = _ := Store.view_threadLeaves.trans hself
  have habove : ((built.relink root).node root).above = none := by
    rw [Node.above, show ((built.relink root).node root).parent = none from
      congrArg View.parent hview, show ((built.relink root).node root).host = none from
      congrArg View.host hview]
    rfl
  obtain ⟨hmarkedsize, hmarked, hflag⟩ := @Store.markChanged_top _ _ version habove
  have hlast : ∀ id, (ids.foldl (fun store node => store.save node (saved store))
      ((built.relink root).markChanged root version)).view id =
      ((built.relink root).markChanged root version).view id :=
    fun id => Store.view_saveAll
  have hlastsize : (ids.foldl (fun store node => store.save node (saved store))
      ((built.relink root).markChanged root version)).size = store.size + 1 :=
    Store.size_saveAll.trans (hmarkedsize.trans (Store.size_threadLeaves.trans hsize))
  generalize ids.foldl (fun store node => store.save node (saved store))
    ((built.relink root).markChanged root version) = last at hlast hlastsize ⊢
  have hfresh : root ∉ forest.ids := fun h => by
    have := hlt _ h
    omega
  have hparsed : (last.view root).parsed =
      ⟨rootLabel, forest.roots, none, none, none, none⟩ := by
    rw [hlast, hflag, hview]
    rfl
  have ⟨hparent, hright, hchildren, hhost⟩ := @View.links_of_parsed _ ⟨rootLabel,
    forest.roots, none, none, none, none⟩ hparsed
  refine ⟨⟨congrArg View.label hparsed, hparent, hright, hchildren, ?_, List.nodup_cons.mpr ⟨hfresh, hn⟩,
    fun id h => ?_⟩, hhost⟩
  · refine Store.Linked.congr (hholds.2.2.2) fun id h => ?_
    rw [hlast, hmarked id fun he => hfresh (he ▸ h)]
    exact Store.view_threadLeaves
  · rw [hlastsize]
    rcases List.mem_cons.mp h with rfl | h
    · omega
    · exact Nat.lt_succ_of_lt (hlt id h)

-- A flat document has the leaves as its content.
theorem rooted_ofLeaves (store : Store)
    (hleaf : ∀ content ∈ contents, (Label.ofContent content).symbol.isNonterminal = false) :
    (ofLeaves store contents).1.Rooted (ofLeaves store contents).2.root
      ((ofLeaves store contents).2.whole (.ofLeaves (enumerate (store.size + 2) contents))) := by
  obtain ⟨hnodes, hsize, hview, hkept⟩ :=
    @allocateLeaves_spec ((store.push (.new (.terminal "") none "")).push (.new .finish none "")) _ hleaf
  have hbos : ((store.push (.new (.terminal "") none "")).push (.new .finish none "")).view store.size =
      (Node.new (.terminal "") none "").view := by
    rw [Store.view_push_lt _ (by simp), Store.view_push_self]
  have heos : ((store.push (.new (.terminal "") none "")).push (.new .finish none "")).view (store.size + 1) =
      (Node.new .finish none "").view := by
    rw [← Store.size_push (.new (.terminal "") none ""), Store.view_push_self]
  rw [Store.size_push, Store.size_push] at hnodes hsize hview hkept
  rw [← hview _ (by omega)] at hbos heos
  unfold ofLeaves
  simp only [Store.allocate, Store.allocateNode_snd, Store.size_push]
  generalize allocateLeaves contents ((store.push (.new (.terminal "") none "")).push (.new .finish none "")) =
    allocated at hnodes hsize hview hkept hbos heos ⊢
  obtain ⟨filled, nodes⟩ := allocated
  dsimp only at hnodes hsize hview hkept hbos heos ⊢
  have hroots : store.size :: (nodes ++ [store.size + 1]) =
      ((⟨filled.size, store.size, store.size + 1⟩ : Document).whole
        (.ofLeaves (enumerate (store.size + 2) contents))).roots := by
    rw [hnodes, whole, Forest.roots_append, Forest.roots_append, Forest.roots_ofLeaves]
    rfl
  have hids : ((⟨filled.size, store.size, store.size + 1⟩ : Document).whole
      (.ofLeaves (enumerate (store.size + 2) contents))).ids =
      store.size :: (List.range' (store.size + 2) contents.length ++ [store.size + 1]) := by
    rw [whole, Forest.ids_append, Forest.ids_append, Forest.ids_ofLeaves, enumerate_ids]
    rfl
  rw [hroots]
  refine rooted_root rfl ?_ ?_ ?_ _ Store.version _
  · refine Store.kept_append.mpr ⟨⟨⟨?_, ?_, rfl⟩, trivial⟩, Store.kept_append.mpr ⟨hkept, ⟨?_, ?_, rfl⟩, trivial⟩⟩
    · exact congrArg View.label hbos
    · exact congrArg View.children hbos
    · exact congrArg View.label heos
    · exact congrArg View.children heos
  · rw [hids, List.nodup_cons, List.nodup_append]
    refine ⟨?_, List.nodup_range', by simp, ?_⟩
    · simp [List.mem_range']
      omega
    · intro id h other ho
      simp only [List.mem_range', List.mem_singleton] at h ho
      omega
  · rw [hids, hsize]
    intro id h
    simp only [List.mem_cons, List.mem_append, List.mem_range', List.not_mem_nil, or_false] at h
    omega

theorem mem_enumerate {entry : Nat × Label} (h : entry ∈ enumerate first contents) :
    ∃ content ∈ contents, entry.2 = .ofContent content := by
  have hlabel := List.mem_map_of_mem (f := Prod.snd) h
  rw [enumerate_labels] at hlabel
  obtain ⟨content, hcontent, he⟩ := List.mem_map.mp hlabel
  exact ⟨content, hcontent, he.symm⟩

theorem stands_ofLeaves (store : Store) (ht : ∀ content ∈ contents, (Label.ofContent content).IsToken) :
    (ofLeaves store contents).2.Stands (ofLeaves store contents).1
      (.ofLeaves (enumerate (store.size + 2) contents)) := by
  refine ⟨(rooted_ofLeaves store fun content h => (ht content h).isNonterminal).toPlanted, fun entry h => ?_⟩
  rw [Forest.leaves_ofLeaves] at h
  obtain ⟨content, hcontent, he⟩ := mem_enumerate h
  exact he ▸ ht content hcontent

theorem stands_ofTokens (store : Store) (tokens : List Token) :
    (ofTokens store tokens).2.Stands (ofTokens store tokens).1
      (.ofLeaves (enumerate (store.size + 2) (tokens.map tokenContent))) := by
  refine stands_ofLeaves store fun content h => ?_
  obtain ⟨token, -, rfl⟩ := List.mem_map.mp h
  exact isToken_tokenContent token

end Document

-- A word of the grammar that crosses A and B.
def Token.crossed : List Token := [.matched none "a" 0 1, .matched none "c" 1 2, .matched none "d" 2 3]

end IncrementalLR
