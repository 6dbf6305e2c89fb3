import IncrementalLR.Proofs.Document.Timeline
import IncrementalLR.Proofs.Tree.Texts
import Mathlib.Algebra.GroupWithZero.Nat

namespace IncrementalLR

open Text

theorem Text.byteLength_join {texts : List String} :
    byteLength (String.join texts).toList = (texts.map fun text => byteLength text.toList).sum := by
  induction texts with
  | nil => rfl
  | cons first rest ih =>
      rw [String.join_cons, String.toList_append, byteLength_append, ih, List.map_cons, List.sum_cons]

theorem sliceBytes?_join (before behind : List String) (text : String) :
    sliceBytes? (String.join (before ++ text :: behind)) (byteLength (String.join before).toList)
      (byteLength (String.join before).toList + byteLength text.toList) = some text := by
  have hslice := sliceBytes?_append (String.join before).toList text.toList (String.join behind).toList
  have hjoin : String.join (before ++ text :: behind) =
      String.ofList ((String.join before).toList ++ text.toList ++ (String.join behind).toList) := by
    rw [String.join_append, String.join_cons, ← String.toList_append, ← String.toList_append, String.ofList_toList,
      String.append_assoc]
  rwa [← hjoin, byteLength_append, String.ofList_toList] at hslice

namespace Setting

variable {setting : Setting} {store after : Store} {first last : Label} {forest : Forest} {fuel node state : Nat}
  {metrics metrics' : Metrics} {brokeDown : Bool}

-- What is rejected is the next of the tokens, and no step adds to them.
theorem mem_of_rejected (hg : setting.table.grammar.toRules.WellFormed)
    (hp : store.Planted setting.document.root (setting.document.framed first last forest))
    (h : setting.attempt fuel store metrics = some (after, metrics', .ok (.rejected node state brokeDown))) :
    node ∈ forest.leaves.map Prod.fst ++ [setting.document.eos] := by
  obtain ⟨start, run, hstart, hdrive, -⟩ := drive_of_attempt h
  rw [Document.following?_of_framed hp] at hstart
  have hshows := Document.shows_of_framed hp { metrics with attempts := metrics.attempts + 1 }
  rcases drive_concludes hshows hstart hg hdrive with hc | ⟨_, _, hfault⟩
  · generalize hresult : (run, (Except.ok (Outcome.rejected node state brokeDown) : Except Fault Outcome)) = result at hc
    cases hc with
    | accepted => cases hresult
    | failed => cases hresult
    | @rejected _ other id _ hr hrejects hnext =>
        obtain rfl : node = id := by
          cases hresult
          rfl
        obtain ⟨id, label, behind, hahead, -, -⟩ := hrejects
        obtain rfl : id = node := by rwa [hahead, Forest.roots, List.head?_cons, Option.some_inj] at hnext
        have htokens : _ = (forest ++ Forest.leaf setting.document.eos last .nil).tokens := @Reachable.tokens _ .nil _ _ hr
        have hmem : (id, label.parsed) ∈ (forest ++ Forest.leaf setting.document.eos last .nil).tokens := by
          rw [← htokens, Forest.tokens_append, hahead]
          exact List.mem_append_right _ List.mem_cons_self
        obtain ⟨entry, hentry, he⟩ := List.mem_map.mp hmem
        rw [Forest.leaves_append] at hentry
        have hid := List.mem_map_of_mem (f := Prod.fst) hentry
        rw [List.map_append, show entry.1 = id from congrArg Prod.fst he] at hid
        exact hid
  · cases hfault

end Setting

-- The error of what rejects is the one for the store that it leaves behind.
theorem Parser.attempt_of_rejected {parser parser' : Parser} {document : Document} {store after : Store} {fuel node : Nat}
    {reparse : Bool} (hp : parser.parse fuel store document reparse = some (parser', after, .ok (.rejected node))) :
    ∃ reparse' middle metrics metrics' state brokeDown, store.Remarked (fun _ => True) middle ∧
      (parser.setting document reparse').attempt fuel middle metrics =
        some (after, metrics', .ok (.rejected node state brokeDown)) ∧
      parser'.error = some (parser.syntaxError after document node state) := by
  obtain ⟨⟨last, metrics', outcome⟩, hattempts, hresult⟩ := Option.map_eq_some_iff.mp hp
  obtain ⟨state, brokeDown, rfl, rfl, herror⟩ : ∃ state brokeDown, outcome = .ok (.rejected node state brokeDown) ∧
      last = after ∧ parser'.error = some (parser.syntaxError after document node state) := by
    dsimp only at hresult
    split at hresult
    · cases hresult
    · cases hresult
    · cases hresult
      exact ⟨_, _, rfl, rfl, rfl⟩
  obtain ⟨reparse', middle, metrics, hr, hattempt, -⟩ :=
    attempt_of_attempts (Store.closed_all store) document.within_all hattempts
  exact ⟨reparse', middle, metrics, metrics', state, brokeDown, hr, hattempt, herror⟩

namespace Document.Threaded

variable {document : Document} {store after : Store} {forest : Forest} {node : Nat} {before behind : List Nat}

section

variable (ht : document.Threaded store forest)

include ht

theorem tokens_eq_content : document.tokens store = document.content store := by
  rw [Document.tokens, ht.thread, Document.content]

-- The tokens stand between the two ends, and each node stands there once.
theorem leaves_eq : store.leaves document.root = document.bos :: (document.tokens store ++ [document.eos]) ∧
    (document.bos :: (document.tokens store ++ [document.eos])).Nodup := by
  obtain ⟨first, last, content, rfl, -, -⟩ := ht.frames
  have hcontent : document.tokens store = content.leaves.map Prod.fst := by
    rw [← content_of_framed ht.toPlanted, ht.tokens_eq_content]
  have hleaves := leaves_of_framed ht.toPlanted
  rw [← hcontent] at hleaves
  refine ⟨hleaves, ?_⟩
  rw [← hleaves, ht.toPlanted.leaves]
  exact (List.nodup_cons.mp ht.nodup).2.sublist Forest.leaves_sublist

theorem mem_leaves (hnode : node ∈ document.tokens store ++ [document.eos]) : node ∈ forest.leaves.map Prod.fst := by
  rw [← ht.toPlanted.leaves, ht.leaves_eq.1]
  exact List.mem_cons_of_mem _ hnode

theorem not_loops_roots (hl : ¬store.Loops document.root) : ∀ id ∈ forest.roots, ¬store.Loops id := by
  intro id h hloops
  have hroots : (store.node document.root).children = forest.roots := ht.children
  exact hl (hloops.of_enters (.child ht.toPlanted.not_isLeaf (hroots.symm ▸ h)))

-- The first end has no text of its own.
theorem text_bos (hbox : (store.node document.bos).box = none) : store.text document.bos = "" := by
  obtain ⟨first, last, content, rfl, ⟨hbos, -⟩, -⟩ := ht.frames
  have hholds : store.Holds (.leaf document.bos first) := ht.linked.kept.1
  have htext : (store.node document.bos).text = "" := by
    rw [show (store.node document.bos).text = first.parsed.text from congrArg Label.text hholds.1, hbos]
    rfl
  obtain ⟨less, hless⟩ := Nat.exists_eq_add_of_lt
    (ht.lt_size document.bos (List.mem_cons_of_mem _ List.mem_cons_self))
  rw [Store.text, hless, Store.textBelow]
  simp only [hholds.isLeaf, if_true, hbox, htext]

theorem text_eq_join (hbox : (store.node document.bos).box = none) (hl : ¬store.Loops document.root) :
    document.text store = String.join ((document.tokens store ++ [document.eos]).map store.text) := by
  have hroots : (store.node document.root).children = forest.roots := ht.children
  have hleaf : (store.node document.root).isLeaf = false := ht.toPlanted.not_isLeaf
  have hleaves : forest.leaves.map (fun entry => store.text entry.1) = (store.leaves document.root).map store.text := by
    rw [ht.toPlanted.leaves, List.map_map]
    rfl
  rw [Document.text, Store.text_eq hl, if_neg (ne_true_of_eq_false hleaf), hroots,
    ht.linked.kept.join_texts (ht.not_loops_roots hl), hleaves, ht.leaves_eq.1, List.map_cons, String.join_cons,
    ht.text_bos hbox, String.empty_append]

-- The offset of a token is summed up along the thread, from the first end on.
theorem offsetOf_eq (hbox : (store.node document.bos).box = none)
    (hplace : document.tokens store ++ [document.eos] = before ++ node :: behind) :
    Parser.offsetOf store document node = byteLength (String.join (before.map store.text)).toList := by
  obtain ⟨hleaves, hn⟩ := ht.leaves_eq
  rw [hplace] at hleaves hn
  have hbefore : ∀ id ∈ document.bos :: before, (id != node) = true := by
    intro id h
    rw [bne_iff_ne]
    rw [← List.cons_append] at hn
    exact (List.nodup_append.mp hn).2.2 id h node List.mem_cons_self
  have htake : (store.thread document.bos).takeWhile (· != node) = document.bos :: before := by
    rw [ht.thread, hleaves, ← List.cons_append, List.takeWhile_append_of_pos hbefore,
      List.takeWhile_cons_of_neg (by simp), List.append_nil]
  rw [Parser.offsetOf, htake, List.foldl_cons, ht.text_bos hbox, byteLength_join, List.map_map, List.sum_eq_foldl,
    List.foldl_map]
  rfl

end

end Document.Threaded

-- Whether an error points at one of the tokens of a document, or at its end. The text at the
-- place of the error is that of the token, which is the text of a document that is embedded
-- in it. This is as far as the text of the document has an end.
structure SyntaxError.Points (error : SyntaxError) (document : Document) (store : Store) : Prop where
  ne_bos : error.node ≠ document.bos
  place : ∃ before behind, document.tokens store ++ [document.eos] = before ++ error.node :: behind ∧
    error.start = (before.map fun token => byteLength (store.text token).toList).sum
  slice : ¬store.Loops document.root →
    sliceBytes? (document.text store) error.start error.stop = some (store.text error.node) ∧
      store.text error.node =
        match (store.node error.node).box with
        | some inner => store.text inner
        | none => (store.node error.node).text

namespace Document

variable {document : Document} {store after : Store} {forest : Forest} {node state version : Nat}

theorem Threaded.points (ht : document.Threaded store forest) (hbox : (store.node document.bos).box = none)
    (hnode : node ∈ document.tokens store ++ [document.eos]) (parser : Parser) :
    (parser.syntaxError store document node state).Points document store := by
  obtain ⟨before, behind, hplace⟩ := List.append_of_mem hnode
  have hstart := ht.offsetOf_eq hbox hplace
  refine ⟨fun he => ?_, ⟨before, behind, hplace, ?_⟩, fun hl => ⟨?_, ?_⟩⟩
  · exact (List.nodup_cons.mp ht.leaves_eq.2).1 (he ▸ hnode)
  · refine hstart.trans ?_
    rw [byteLength_join, List.map_map]
    rfl
  · have htext := ht.text_eq_join hbox hl
    rw [hplace, List.map_append, List.map_cons] at htext
    simp only [Parser.syntaxError, hstart, htext]
    exact sliceBytes?_join _ _ _
  · obtain ⟨entry, hentry, rfl⟩ := List.mem_map.mp (ht.mem_leaves hnode)
    have hends := ht.linked.kept.not_loops (ht.not_loops_roots hl) entry hentry
    exact (Store.text_eq hends).trans (if_pos (ht.linked.kept.leaf hentry).isLeaf)

theorem content_remarked {inside : Nat → Prop} (hr : store.Remarked inside after) :
    document.content after = document.content store := by
  rw [content, content, Store.leaves, Store.leaves, hr.size, Store.leavesBelow_congr fun _ => hr.attributes]

theorem Threaded.remarked {inside : Nat → Prop} (ht : document.Threaded store forest) (hr : store.Remarked inside after) :
    ∃ forest, document.Threaded after forest :=
  ⟨_, ht.congr (fun id h => hr.size.symm ▸ ht.lt_size id h) fun _ _ => hr.attributes⟩

-- A parse that is rejected points at a token, at its place once the parse has been undone.
theorem Threaded.points_of_rejected {parser parser' : Parser} {fuel : Nat} {reparse : Bool} (hb : parser.IsBuilt)
    (ht : document.Threaded store forest) (hbox : (store.node document.bos).box = none)
    (hp : parser.parse fuel store document reparse = some (parser', after, .ok (.rejected node))) :
    node < store.size ∧ document.tokens after = document.tokens store ∧
      ∃ error, parser'.error = some error ∧ error.node = node ∧ error.Points document after := by
  obtain ⟨grammar, graph, hbuilt, htable⟩ := hb
  obtain ⟨reparse', middle, metrics, metrics', state, brokeDown, hmiddle, hattempt, herror⟩ := Parser.attempt_of_rejected hp
  have hafter := ((Parser.parse_remarks (Store.closed_all store) (Document.within_all _) hp).resolve_left
    fun h => nomatch h.1).2
  obtain ⟨attempted, hattempted⟩ := ht.remarked hmiddle
  obtain ⟨left, hleft⟩ := ht.remarked hafter
  have htokens : document.tokens after = document.tokens store := by
    rw [hleft.tokens_eq_content, ht.tokens_eq_content, content_remarked hafter]
  have hnode : node ∈ document.tokens store ++ [document.eos] := by
    obtain ⟨first, last, content, rfl, -, -⟩ := hattempted.frames
    have hmem := @Setting.mem_of_rejected (parser.setting document reparse') _ _ first last content _ _ _ _ _ _
      (show parser.table.grammar.toRules.WellFormed by rw [htable]; exact hbuilt.wellFormed) hattempted.toPlanted hattempt
    rw [ht.tokens_eq_content, ← content_remarked hmiddle, content_of_framed hattempted.toPlanted]
    exact hmem
  have hlt : node < store.size :=
    ht.lt_size node (List.mem_cons_of_mem _ (Forest.leaves_sublist.subset (ht.mem_leaves hnode)))
  refine ⟨hlt, htokens, _, herror, rfl, hleft.points ?_ (htokens ▸ hnode) parser⟩
  rw [hafter.box, hbox]

theorem box_undoTo? {id : Nat} (h : document.undoTo? store version = some after) :
    (after.node id).box = (store.node id).box := by
  obtain ⟨restored, hr, he⟩ := undoTo?_spec h
  exact he.box.trans hr.box

end Document

-- A parser that passes through a token.
def Parser.lenient : Parser := .ofTable (.ofGrammar Rules.crossed.toGrammar .lr1) ["x"] true false

namespace Timeline

variable {stray : Bool} {documents : List Document} {store after : Store} {recordings : List Recording}
  {document : Document}

theorem arena (ht : Timeline stray documents store recordings) : Arena documents store := by
  induction ht with
  | empty => exact .empty
  | create tokens _ ih => exact @Arena.edit _ _ _ (.create tokens) ih trivial rfl
  | edit _ hf he hrun ih =>
      have hafter := ih.edit hf hrun
      rwa [he.opened] at hafter
  | commit _ ih => exact ih.commit
  | undo _ h ih => exact ih.undo h
  | redo _ h ih => exact ih.redo h

-- Nothing is ever embedded in the first end of a document.
theorem box_bos (ht : Timeline stray documents store recordings) :
    ∀ document ∈ documents, (store.node document.bos).box = none := by
  induction ht with
  | empty => exact nofun
  | @create documents store recordings tokens _ ih =>
      obtain ⟨ids, hopens, hwithin⟩ := Document.exists_opens store (tokens.map Document.tokenContent)
      refine List.forall_mem_cons.mpr ⟨?_, fun document hd => hopens.box.trans (ih document hd)⟩
      have hnode := Store.node_of_size_le (hopens.spans.2.2.2 _ hwithin.bos)
      exact hopens.box.trans (congrArg Node.box hnode)
  | @edit documents store after recordings edit ht hf he hrun ih =>
      intro document hd
      obtain ⟨region, hh⟩ := ht.arena.houses
      have ho := hh.owns document hd
      exact ((Edit.run_drafts he hrun).box _ (ho.lt_size _ ho.within.bos)).trans (ih document hd)
  | commit _ ih => exact fun document hd => Store.box_commit.trans (ih document hd)
  | undo _ h ih => exact fun document hd => (Document.box_undoTo? h).trans (ih document hd)
  | redo _ h ih =>
      exact fun document hd => (Document.box_undoTo? (Document.undoTo?_of_redoTo? h)).trans (ih document hd)

-- Whatever has been done to documents in an arena, an error points at a token of the document
-- that is parsed, at its place in the text.
theorem rejection_points (ht : Timeline stray documents store recordings) (hd : document ∈ documents)
    (hexisted : (store.node document.root).history.existedAt store.version = true) {parser parser' : Parser}
    {fuel node : Nat} {reparse : Bool} (hb : parser.IsBuilt)
    (hp : parser.parse fuel store document reparse = some (parser', after, .ok (.rejected node))) :
    node < store.size ∧ document.tokens after = document.tokens store ∧
      ∃ error, parser'.error = some error ∧ error.node = node ∧ error.Points document after := by
  obtain ⟨region, hh⟩ := ht.arena.houses
  have ho := hh.owns document hd
  obtain ⟨forest, hthreaded, -⟩ := ho.alive (ho.existed.mpr (beq_iff_eq.mp hexisted))
  exact hthreaded.points_of_rejected hb (ht.box_bos document hd) hp

-- What is embedded is edited, before and after a version is gone back to. The parser passes
-- through the token in front of the box.
theorem rejection_points_embedded :
    ∃ store recordings parser' after error,
      (Timeline true [Document.inner, Document.outer] store recordings ∧
        (store.node Document.outer.root).history.existedAt store.version = true ∧ Parser.lenient.IsBuilt ∧
        Parser.lenient.parse 100 store Document.outer false = some (parser', after, .ok (.rejected 8))) ∧
      (8 < store.size ∧ Document.outer.tokens after = Document.outer.tokens store ∧
        parser'.error = some error ∧ error.node = 8 ∧ error.Points Document.outer after) ∧
      (error.start, error.stop, Document.outer.text after) = (1, 3, "xé") ∧ ¬after.Loops Document.outer.root := by
  have hsteps : (((Edit.insertBox Document.outer 2 "l" Document.inner).run
      (Document.ofTokens (Document.ofTokens .empty [.matched none "x" 0 1]).1 [.matched none "a" 0 1]).1).bind fun boxed =>
    ((Edit.replace 6 none "b").run boxed.commit).bind fun later =>
      (Document.outer.undoTo? later.commit 1).bind fun undone =>
        ((Edit.replace 6 none "é").run undone).bind fun store =>
          (Parser.lenient.parse 100 store Document.outer false).map fun result =>
            ((Document.inner.tokens boxed.commit, Document.inner.tokens undone),
              decide ((store.node Document.outer.root).history.existedAt store.version = true ∧
                result.2.2 = .ok (.rejected 8) ∧ result.2.1.ranks fun id => [0, 0, 0, 3, 0, 0, 0, 1, 2].getD id 0),
              result.1.error.map fun error => (error.start, error.stop, Document.outer.text result.2.1))) =
      some (([6], [6]), true, some (1, 3, "xé")) := by
    decide +kernel
  obtain ⟨boxed, hbox, hrest⟩ := Option.bind_eq_some_iff.mp hsteps
  obtain ⟨later, hlater, hrest⟩ := Option.bind_eq_some_iff.mp hrest
  obtain ⟨undone, hundo, hrest⟩ := Option.bind_eq_some_iff.mp hrest
  obtain ⟨store, hstore, hrest⟩ := Option.bind_eq_some_iff.mp hrest
  obtain ⟨⟨parser', after, status⟩, hp, hresult⟩ := Option.map_eq_some_iff.mp hrest
  simp only [Prod.mk.injEq] at hresult
  obtain ⟨⟨hbefore, hbehind⟩, hreached, hplace⟩ := hresult
  obtain ⟨hexisted, rfl, hranks⟩ := of_decide_eq_true hreached
  have hopened := ((@Timeline.empty true).create [.matched none "x" 0 1]).create [.matched none "a" 0 1]
  have hboxed := @Timeline.edit _ _ _ _ _ (.insertBox Document.outer 2 "l" Document.inner) hopened
    ⟨List.mem_cons_of_mem _ (List.mem_singleton_self _), .child (by decide), by decide⟩
    ⟨List.mem_cons_self, nofun⟩ hbox
  have hleft := @Timeline.edit _ _ _ _ _ (.replace 6 none "b") hboxed.commit
    ⟨Document.inner, List.mem_cons_self, hbefore ▸ List.mem_singleton_self _⟩ trivial hlater
  have hedited := @Timeline.edit _ _ _ _ _ (.replace 6 none "é") (hleft.commit.undo hundo)
    ⟨Document.inner, List.mem_cons_self, hbehind ▸ List.mem_singleton_self _⟩ trivial hstore
  have hbuilt : Parser.lenient.IsBuilt := ⟨_, _, built_crossed, rfl⟩
  obtain ⟨hlt, htokens, error, herror, hnode, hpoints⟩ :=
    rejection_points hedited (List.mem_cons_of_mem _ (List.mem_singleton_self _)) hexisted hbuilt hp
  rw [herror] at hplace
  exact ⟨store, _, parser', after, error, ⟨hedited, hexisted, hbuilt, hp⟩, ⟨hlt, htokens, herror, hnode, hpoints⟩,
    Option.some_inj.mp hplace, Store.not_loops_of_ranks hranks⟩

end Timeline

end IncrementalLR
