import IncrementalLR.Proofs.Document.Derivation
import IncrementalLR.Proofs.Document.Drafts
import IncrementalLR.Proofs.Document.Reuse
import IncrementalLR.Proofs.Parse.Likeness

namespace IncrementalLR

namespace Document

variable {document : Document} {store after : Store} {forest content : Forest}
  {contents : List (Symbol × Option String × String)} {id : Nat}

section Ornaments

theorem ornaments_insertTokenAfter {anchor : Nat} {token : Token} :
    ((document.insertTokenAfter store anchor token).1.node id).ornaments = (store.node id).ornaments := by
  unfold insertTokenAfter allocateToken Store.allocate
  dsimp only
  cases h : document.insertLeafAfter (store.push _) anchor store.size with
  | error fault => exact Store.ornaments_push
  | ok after =>
      obtain ⟨parent, placed, -, hplaced, rfl⟩ := insertLeafAfter_spec h
      exact Store.ornaments_markChanged.trans
        ((Node.ornaments_of_unkept (Store.unkept_insertAfter? hplaced)).trans Store.ornaments_push)

theorem ornaments_removeToken {node : Nat} (h : document.removeToken store node = .ok after) :
    (after.node id).ornaments = (store.node id).ornaments := by
  obtain ⟨parent, placed, -, hplaced, rfl⟩ := removeToken_spec h
  exact Store.ornaments_markChanged.trans (Node.ornaments_of_unkept (Store.unkept_removeChild? hplaced))

theorem ornaments_replaceToken {node : Nat} {rule : Option String} {text : String} :
    ((replaceToken store node rule text).node id).ornaments = (store.node id).ornaments :=
  Store.ornaments_markChanged.trans Store.ornaments_setToken

theorem ornaments_allocateLeaves :
    ((allocateLeaves contents store).1.node id).ornaments = (store.node id).ornaments := by
  induction contents generalizing store with
  | nil => rfl
  | cons content rest ih => exact ih.trans Store.ornaments_push

theorem ornaments_ofLeaves : ((ofLeaves store contents).1.node id).ornaments = (store.node id).ornaments := by
  unfold ofLeaves
  simp only [Store.allocate, Store.allocateNode_snd, Store.ornaments_saveAll, Store.ornaments_markChanged,
    Store.ornaments_relink, Store.ornaments_allocateNode, ornaments_allocateLeaves, Store.ornaments_push]

end Ornaments

-- A document that is not embedded, whose nodes above the tokens have the values that their
-- productions make of them. Nothing hangs on other nodes.
structure Annotated (setting : Setting) (document : Document) (store : Store) (forest : Forest) : Prop where
  stands : document.Stands store forest
  yields : forest.Throughout (setting.Yields store)
  host : (store.view document.root).host = none
  bare : ∀ id ∈ document.root :: (document.whole forest).leaves.map Prod.fst, (store.node id).Bare

theorem mem_ids_whole (h : id ∈ document.root :: (document.whole forest).leaves.map Prod.fst) :
    id ∈ document.root :: (document.whole forest).ids :=
  List.cons_subset_cons _ Forest.leaves_sublist.subset h

theorem mem_leaves_whole : id ∈ (document.whole forest).leaves.map Prod.fst ↔
    id = document.bos ∨ id ∈ forest.leaves.map Prod.fst ∨ id = document.eos := by
  rw [whole, Forest.leaves_append, Forest.leaves_append, List.map_append, List.map_append, List.mem_append,
    List.mem_append]
  exact or_congr List.mem_singleton (or_congr_right List.mem_singleton)

variable {setting : Setting}

-- A flat document has nothing above its tokens.
theorem annotated_ofLeaves (store : Store) (ht : ∀ content ∈ contents, (Label.ofContent content).IsToken) :
    (ofLeaves store contents).2.Annotated setting (ofLeaves store contents).1
      (.ofLeaves (enumerate (store.size + 2) contents)) := by
  refine ⟨stands_ofLeaves store ht, Forest.throughout_ofLeaves,
    (rooted_ofLeaves store fun content h => (ht content h).isNonterminal).host, fun id hid => ?_⟩
  obtain ⟨ids, hopens, hends⟩ := exists_opens store contents
  have hnew := hopens.spans.2.2.2
  refine Node.Bare.congr (@Store.bare_of_size_le store id ?_) ornaments_ofLeaves
  rcases List.mem_cons.mp hid with rfl | hid
  · exact hnew _ hends.root
  · rcases mem_leaves_whole.mp hid with rfl | hid | rfl
    · exact hnew _ hends.bos
    · rw [Forest.leaves_ofLeaves, enumerate_ids] at hid
      have := (List.mem_range'_1.mp hid).1
      omega
    · exact hnew _ hends.eos

-- The tokens of a document, put down again in a flat one.
theorem Stands.exists_flat (hs : document.Stands store forest) (setting : Setting) (other : Store) :
    ∃ entries, (ofLeaves other (document.contents store)).2.Annotated setting (ofLeaves other (document.contents store)).1
        (.ofLeaves entries) ∧
      forest.tokens.map Prod.snd = (Forest.ofLeaves entries).tokens.map Prod.snd := by
  have hlabels := hs.contents
  have hcontents : ∀ content ∈ document.contents store, (Label.ofContent content).IsToken := by
    intro content h
    have hmem := List.mem_map_of_mem (f := Label.ofContent) h
    rw [hlabels] at hmem
    obtain ⟨entry, hentry, hlabel⟩ := List.mem_map.mp hmem
    exact hlabel ▸ Forest.isToken_tokens.mpr hs.tokens entry hentry
  refine ⟨_, annotated_ofLeaves other hcontents, ?_⟩
  have hsame := congrArg (List.map Label.parsed) (@enumerate_labels (other.size + 2) (document.contents store))
  rw [List.map_map, List.map_map] at hsame
  rw [← hlabels, Forest.tokens, Forest.leaves_ofLeaves, List.map_map]
  exact hsame.symm

-- Values depend on the table and on what is passed through alone.
theorem Annotated.transfer {second : Setting} (ha : document.Annotated setting store forest)
    (htable : second.table = setting.table) (hpass : second.passThrough = setting.passThrough) :
    document.Annotated second store forest :=
  ⟨ha.stands, ha.yields.imp fun _ _ _ _ _ hy => hy.congr htable hpass, ha.host, ha.bare⟩

-- Nothing is lost where all nodes are as they were to the tree and to values.
theorem Annotated.congr (ha : document.Annotated setting store forest) (hsize : store.size ≤ after.size)
    (hv : ∀ id, id < store.size → after.view id = store.view id)
    (ho : ∀ id, id < store.size → (after.node id).ornaments = (store.node id).ornaments) :
    document.Annotated setting after forest := by
  have hs := ha.stands.congr hsize hv
  refine ⟨hs, ?_, (congrArg View.host (hv _ ha.stands.root_lt)).trans ha.host, fun id hid => ?_⟩
  · refine Setting.renew ha.yields hs.kept fun id hid => congrArg Prod.fst (ho id (ha.stands.lt_size id ?_))
    rw [whole, Forest.ids_append, Forest.ids_append]
    exact List.mem_cons_of_mem _ (List.mem_append_right _ (List.mem_append_left _ hid))
  · exact (ha.bare id hid).congr (ho id (ha.stands.lt_size id (mem_ids_whole hid)))

-- Nor in an edit, which flags all nodes whose values it could touch.
theorem Annotated.edited (ha : document.Annotated setting store forest) (he : document.Edited store forest after content)
    (ho : ∀ id, (after.node id).ornaments = (store.node id).ornaments) : document.Annotated setting after content := by
  refine ⟨he.stands, ?_, he.host, fun id hid => ?_⟩
  · exact Setting.renew (he.throughout ha.yields) he.stands.kept fun id _ => congrArg Prod.fst (ho id)
  · have hold : id ∈ document.root :: (document.whole forest).leaves.map Prod.fst → (after.node id).Bare :=
      fun h => (ha.bare id h).congr (ho id)
    rcases List.mem_cons.mp hid with rfl | hid
    · exact hold List.mem_cons_self
    · have hleaf : id = document.bos ∨ id ∈ forest.leaves.map Prod.fst ∨ id = document.eos → (after.node id).Bare :=
        fun h => hold (List.mem_cons_of_mem _ (mem_leaves_whole.mpr h))
      rcases mem_leaves_whole.mp hid with h | h | h
      · exact hleaf (Or.inl h)
      · obtain ⟨entry, hentry, rfl⟩ := List.mem_map.mp h
        rcases he.leaves entry hentry with ⟨before, hbefore, hsame⟩ | hnew
        · exact hleaf (Or.inr (Or.inl (hsame ▸ List.mem_map_of_mem hbefore)))
        · exact (Store.bare_of_size_le (Nat.le_of_eq hnew.symm)).congr (ho _)
      · exact hleaf (Or.inr (Or.inr h))

section Parse

variable {table : SyntaxTable} {passThrough : List String}

-- What accepts leaves nodes with their values again, over the same tokens.
theorem Annotated.parse (hapt : ∀ reparse, Setting.Apt ⟨table, passThrough, document, reparse⟩ false)
    (ha : document.Annotated ⟨table, passThrough, document, false⟩ store forest) {parser parser' : Parser}
    (htable : parser.table = table) (hpass : parser.passThrough = passThrough) {fuel : Nat} {reparse : Bool}
    (hp : parser.parse fuel store document reparse = some (parser', after, .ok .accepted)) :
    ∃ content, document.Annotated ⟨table, passThrough, document, false⟩ after content ∧
      content.tokens = forest.tokens ∧
      Setting.Lone ⟨table, passThrough, document, false⟩ false table.grammar.start content := by
  have ho : ∀ id, id < store.size → (after.node id).ornaments = (store.node id).ornaments := fun id hlt =>
    show (after.node id).idle.ornaments = (store.node id).idle.ornaments by rw [Parser.parse_idle hp hlt]
  obtain ⟨reparse', middle, metrics, metrics', hr, hattempt⟩ := Parser.attempt_of_accepted hp
  have hsetting : parser.setting document reparse' = ⟨table, passThrough, document, reparse'⟩ := by
    rw [← htable, ← hpass]
    rfl
  rw [hsetting] at hattempt
  have hmiddle : document.Annotated ⟨table, passThrough, document, false⟩ middle forest :=
    ha.congr (Nat.le_of_eq hr.size.symm) (fun id _ => hr.view id) fun id _ =>
      show (middle.node id).unmarked.ornaments = (store.node id).unmarked.ornaments by rw [hr.unmarked]
  have hyields := (@transfer _ _ _ _ ⟨table, passThrough, document, reparse'⟩ hmiddle rfl rfl).yields
  obtain ⟨content, hstands, htokens, hlone, hcontent⟩ :=
    Setting.attempt_yields (hapt reparse') hmiddle.stands hyields hattempt
  refine ⟨content, transfer ⟨hstands, hcontent, ?_, fun id hid => ?_⟩ rfl rfl, htokens, hlone.congr rfl rfl⟩
  · exact (Parser.host_parse hp ha.stands.root_lt).trans ha.host
  · have hids : content.leaves.map Prod.fst = forest.leaves.map Prod.fst := by
      have hmap := congrArg (List.map Prod.fst) htokens
      rwa [Forest.tokens, Forest.tokens, List.map_map, List.map_map] at hmap
    have hold : id ∈ document.root :: (document.whole forest).leaves.map Prod.fst := by
      refine (List.mem_cons.mp hid).elim (fun h => h ▸ List.mem_cons_self) fun h => List.mem_cons_of_mem _ ?_
      rwa [mem_leaves_whole, ← hids, ← mem_leaves_whole]
    exact (ha.bare id hold).congr (ho id (ha.stands.lt_size id (mem_ids_whole hold)))

-- All through a session nodes have their values.
theorem Session.annotated (hapt : ∀ reparse, Setting.Apt ⟨table, passThrough, document, reparse⟩ false)
    (hs : Session table passThrough document store) :
    ∃ forest, document.Annotated ⟨table, passThrough, document, false⟩ store forest := by
  have hstill : ∀ symbol below, Setting.Whole ⟨table, passThrough, document, false⟩ false symbol below → below.Still :=
    fun _ _ h => h.still
  induction hs with
  | @opened store opened tokens h =>
      have htokens : ∀ content ∈ tokens.map tokenContent, (Label.ofContent content).IsToken := by
        intro content h
        obtain ⟨token, -, rfl⟩ := List.mem_map.mp h
        exact isToken_tokenContent token
      have ha := @annotated_ofLeaves _ ⟨table, passThrough, document, false⟩ store htokens
      rw [show ofLeaves store (tokens.map tokenContent) = (opened, document) from h] at ha
      exact ⟨_, ha⟩
  | @insert store anchor token _ hanchor ih =>
      obtain ⟨forest, ha⟩ := ih
      have hplace : anchor = document.eos ∨ anchor = document.bos ∨ ∃ entry ∈ forest.leaves, entry.1 = anchor := by
        rcases List.mem_cons.mp hanchor with h | h
        · exact Or.inr (Or.inl h)
        · rcases List.mem_append.mp h with h | h
          · exact Or.inr (Or.inr (ha.stands.mem_content h))
          · exact Or.inl (List.mem_singleton.mp h)
      obtain ⟨content, hedited⟩ := exists_insertTokenAfter hstill ha.stands (Setting.settled_of_yields ha.yields) ha.host
        hplace token
      exact ⟨content, ha.edited hedited fun _ => ornaments_insertTokenAfter⟩
  | @remove store after node _ hnode hremove ih =>
      obtain ⟨forest, ha⟩ := ih
      obtain ⟨entry, hentry, rfl⟩ := ha.stands.mem_content hnode
      obtain ⟨after', content, hafter, hedited⟩ := exists_removeToken hstill ha.stands
        (Setting.settled_of_yields ha.yields) ha.host hentry
      rw [hremove] at hafter
      obtain rfl := Except.ok.inj hafter
      exact ⟨content, ha.edited hedited fun _ => ornaments_removeToken hremove⟩
  | @replace store node rule text _ hnode ih =>
      obtain ⟨forest, ha⟩ := ih
      obtain ⟨entry, hentry, rfl⟩ := ha.stands.mem_content hnode
      obtain ⟨content, hedited⟩ := exists_replaceToken hstill ha.stands (Setting.settled_of_yields ha.yields) ha.host
        hentry rule text
      exact ⟨content, ha.edited hedited fun _ => ornaments_replaceToken⟩
  | @parse store after parser parser' reparse fuel status _ htable hpass hp ih =>
      obtain ⟨forest, ha⟩ := ih
      rcases Parser.parse_remarks (Store.closed_all store) (Document.within_all _) hp with ⟨rfl, -⟩ | ⟨-, hr⟩
      · obtain ⟨content, hcontent, -, -⟩ := ha.parse hapt htable hpass hp
        exact ⟨content, hcontent⟩
      · exact ⟨forest, ha.congr (Nat.le_of_eq hr.size.symm) (fun id _ => hr.view id) fun id _ =>
          show (after.node id).unmarked.ornaments = (store.node id).unmarked.ornaments by rw [hr.unmarked]⟩
  | @commit store _ ih =>
      obtain ⟨forest, ha⟩ := ih
      exact ⟨forest, ha.congr (Nat.le_of_eq Store.size_commit.symm) (fun _ _ => Store.view_commit) fun _ _ =>
        Store.ornaments_commit⟩

end Parse

end Document

end IncrementalLR
