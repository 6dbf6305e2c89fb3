import IncrementalLR.Proofs.Document.Settling
import IncrementalLR.Proofs.Parse.Rollback
import IncrementalLR.Proofs.Parse.Soundness

namespace IncrementalLR

namespace Document

-- The tokens of a document by its tree, and what a flat document of them is made of.
def content (document : Document) (store : Store) : List Nat :=
  (store.leaves document.root).filter fun id => id != document.bos && id != document.eos

def contents (document : Document) (store : Store) : List (Symbol × Option String × String) :=
  (document.content store).map fun id => ((store.node id).symbol, (store.node id).rule, (store.node id).text)

-- What may become of a document that is edited at its tokens, parsed with one table
-- and committed.
inductive Session (table : SyntaxTable) (passThrough : List String) (document : Document) : Store → Prop where
  | opened {store opened : Store} {tokens : List Token} :
      ofTokens store tokens = (opened, document) → Session table passThrough document opened
  | insert {store : Store} {anchor : Nat} {token : Token} :
      Session table passThrough document store →
      anchor ∈ document.bos :: (document.content store ++ [document.eos]) →
      Session table passThrough document (document.insertTokenAfter store anchor token).1
  | remove {store after : Store} {node : Nat} :
      Session table passThrough document store → node ∈ document.content store →
      document.removeToken store node = .ok after → Session table passThrough document after
  | replace {store : Store} {node : Nat} {rule : Option String} {text : String} :
      Session table passThrough document store → node ∈ document.content store →
      Session table passThrough document (replaceToken store node rule text)
  | parse {store after : Store} {parser parser' : Parser} {reparse : Bool} {fuel : Nat}
      {status : Except Fault ParseStatus} :
      Session table passThrough document store → parser.table = table → parser.passThrough = passThrough →
      parser.parse fuel store document reparse = some (parser', after, status) →
      Session table passThrough document after
  | commit {store : Store} :
      Session table passThrough document store → Session table passThrough document store.commit

variable {document : Document} {store after : Store} {forest : Forest}

section Framed

variable {first last : Label} (hp : store.Planted document.root (document.framed first last forest))

include hp

theorem leaves_of_framed : store.leaves document.root = document.bos :: (forest.leaves.map Prod.fst ++ [document.eos]) := by
  rw [hp.leaves, framed, Forest.leaves, Forest.leaves_append, List.map_cons, List.map_append]
  rfl

theorem ends_not_mem_of_framed : document.bos ∉ forest.ids ∧ document.eos ∉ forest.ids ∧ document.bos ≠ document.eos := by
  obtain ⟨hbos, hrest⟩ := List.nodup_cons.mp (List.nodup_cons.mp hp.nodup).2
  rw [Forest.ids_append] at hbos hrest
  refine ⟨fun h => hbos (List.mem_append_left _ h), fun h => ?_, fun h => ?_⟩
  · exact (List.nodup_append.mp hrest).2.2 document.eos h document.eos List.mem_cons_self rfl
  · exact hbos (List.mem_append_right _ (h ▸ List.mem_cons_self))

theorem content_of_framed : document.content store = forest.leaves.map Prod.fst := by
  obtain ⟨hbos, heos, -⟩ := ends_not_mem_of_framed hp
  have hall : (forest.leaves.map Prod.fst).filter (fun id => id != document.bos && id != document.eos) =
      forest.leaves.map Prod.fst := by
    refine List.filter_eq_self.mpr fun id h => ?_
    obtain ⟨entry, hentry, rfl⟩ := List.mem_map.mp h
    have hmem := Forest.ids_subset_of_leaves hentry
    rw [Bool.and_eq_true, bne_iff_ne, bne_iff_ne]
    exact ⟨fun he => hbos (he ▸ hmem), fun he => heos (he ▸ hmem)⟩
  rw [Document.content, leaves_of_framed hp, List.filter_cons_of_neg (by simp), List.filter_append, hall,
    List.filter_cons_of_neg (by simp), List.filter_nil, List.append_nil]

theorem contents_of_framed : (document.contents store).map Label.ofContent = forest.tokens.map Prod.snd := by
  rw [Document.contents, content_of_framed hp, Forest.tokens, List.map_map, List.map_map, List.map_map]
  refine List.map_congr_left fun entry h => ?_
  have hlabel := hp.linked.kept.label (show entry ∈ (document.framed first last forest).leaves by
    rw [framed, Forest.leaves, Forest.leaves_append]
    exact List.mem_cons_of_mem _ (List.mem_append_left _ h))
  change Label.parsed (store.view entry.1).label = entry.2.parsed
  rw [hlabel]

end Framed

theorem Stands.leaves (hs : document.Stands store forest) :
    store.leaves document.root = document.bos :: (forest.leaves.map Prod.fst ++ [document.eos]) :=
  leaves_of_framed hs.toPlanted

theorem Stands.ends_not_mem (hs : document.Stands store forest) :
    document.bos ∉ forest.ids ∧ document.eos ∉ forest.ids ∧ document.bos ≠ document.eos :=
  ends_not_mem_of_framed hs.toPlanted

theorem Stands.content (hs : document.Stands store forest) : document.content store = forest.leaves.map Prod.fst :=
  content_of_framed hs.toPlanted

theorem Stands.mem_content (hs : document.Stands store forest) {id : Nat} (h : id ∈ document.content store) :
    ∃ entry ∈ forest.leaves, entry.1 = id := by
  rw [hs.content] at h
  exact List.mem_map.mp h

theorem Stands.contents (hs : document.Stands store forest) :
    (document.contents store).map Label.ofContent = forest.tokens.map Prod.snd :=
  contents_of_framed hs.toPlanted

end Document

namespace Setting

variable {setting : Setting} {loose : Bool} {store after : Store} {forest : Forest} {fuel : Nat}

-- What accepts or rejects is a drive from the first node on.
theorem drive_of_attempt {metrics metrics' : Metrics} {outcome : Outcome}
    (h : setting.attempt fuel store metrics = some (after, metrics', .ok outcome)) :
    ∃ first run, store.following? setting.document.bos = some first ∧
      setting.drive fuel 1 ⟨store, [], [], false, false, { metrics with attempts := metrics.attempts + 1 }⟩ first =
        some (run, .ok outcome) ∧ (outcome = .accepted → run.store = after) := by
  cases hfirst : store.following? setting.document.bos with
  | none =>
      rw [attempt, hfirst] at h
      cases h
  | some first =>
      obtain ⟨run, hdrive, -, hafter⟩ := drive_of_following hfirst h
      exact ⟨first, run, rfl, hdrive, fun haccepted => (hafter (congrArg Except.ok haccepted)).symm⟩

-- An attempt that accepts has come to a scene that is accepted.
theorem exists_scene_of_accepted {first last : Label} {metrics metrics' : Metrics}
    (hg : setting.table.grammar.toRules.WellFormed)
    (hp : store.Planted setting.document.root (setting.document.framed first last forest))
    (h : setting.attempt fuel store metrics = some (after, metrics', .ok .accepted)) :
    ∃ run scene, (setting.accept run).store = after ∧
      Reachable setting ⟨[], forest ++ .leaf setting.document.eos last .nil, store.size, false, false⟩ scene ∧
      Accepts setting scene ∧ Shows setting.document.root (.leaf setting.document.bos first .nil) run scene := by
  obtain ⟨start, run, hstart, hdrive, hstore⟩ := drive_of_attempt h
  obtain rfl := hstore rfl
  rw [Document.following?_of_framed hp] at hstart
  have hshows := Document.shows_of_framed hp { metrics with attempts := metrics.attempts + 1 }
  rcases drive_concludes hshows hstart hg hdrive with hc | ⟨_, _, hfault⟩
  · generalize hresult : (run, (Except.ok Outcome.accepted : Except Fault Outcome)) = result at hc
    cases hc with
    | accepted hr haccepts hends =>
        obtain ⟨rfl, -⟩ := Prod.mk.inj hresult
        exact ⟨_, _, rfl, hr, haccepts, hends⟩
    | rejected => cases hresult
    | failed => cases hresult
  · cases hfault

-- What an accepted document has become: its tokens are still there, and the trees
-- over them are those of the grammar.
theorem attempt_accepted (ha : setting.Apt loose) (hs : setting.document.Stands store forest)
    (hset : forest.Settled (setting.Whole loose)) {metrics metrics' : Metrics}
    (h : setting.attempt fuel store metrics = some (after, metrics', .ok .accepted)) :
    ∃ content, setting.document.Stands after content ∧ content.Settled (setting.Whole loose) ∧
      content.tokens = forest.tokens ∧ setting.Lone loose setting.table.grammar.start content := by
  obtain ⟨run, scene, rfl, hr, haccepts, hshows⟩ := exists_scene_of_accepted ha.wellFormed hs.toPlanted h
  have ht : ∀ entry ∈ forest.tokens, entry.2.IsToken := Forest.isToken_tokens.mpr hs.tokens
  have hsound := (sound_scene hset).reachable ha ht hr
  have hahead := hsound.ahead_of_accepts ha.toRegular ht haccepts
  obtain ⟨hstands, htotal⟩ := hsound.stands ht hahead hshows
  obtain ⟨settled, hstacks⟩ := hsound.accepts ha haccepts
  exact ⟨_, hstands, hstacks.contents_settled, htotal, (hstacks.lone ha.wellFormed.start_nonterminal).2⟩

end Setting

theorem Store.Remarked.view {inside : Nat → Prop} {store other : Store} (hr : store.Remarked inside other) (id : Nat) :
    other.view id = store.view id := by
  change (other.node id).unmarked.view = (store.node id).unmarked.view
  rw [hr.unmarked]

theorem Document.Stands.remarked {inside : Nat → Prop} {document : Document} {store other : Store} {forest : Forest}
    (hs : document.Stands store forest) (hr : store.Remarked inside other) : document.Stands other forest :=
  hs.congr (Nat.le_of_eq hr.size.symm) fun id _ => hr.view id

theorem Parser.attempt_of_accepted {parser parser' : Parser} {document : Document} {store after : Store} {fuel : Nat}
    {reparse : Bool} (hp : parser.parse fuel store document reparse = some (parser', after, .ok .accepted)) :
    ∃ reparse' middle metrics metrics', store.Remarked (fun _ => True) middle ∧
      (parser.setting document reparse').attempt fuel middle metrics = some (after, metrics', .ok .accepted) := by
  obtain ⟨reparse', middle, metrics, outcome, hr, hattempt, hstatus⟩ :=
    attempt_of_parse (Store.closed_all store) document.within_all hp
  obtain rfl := Outcome.eq_accepted_of_status hstatus.symm
  exact ⟨reparse', middle, metrics, _, hr, hattempt⟩

-- A parse leaves the parser what it was made with.
theorem Parser.made_parse {parser parser' : Parser} {document : Document} {store after : Store} {fuel : Nat}
    {reparse : Bool} {status : Except Fault ParseStatus}
    (hp : parser.parse fuel store document reparse = some (parser', after, status)) :
    parser'.table = parser.table ∧ parser'.passThrough = parser.passThrough ∧ parser'.reparse = parser.reparse := by
  obtain ⟨⟨last, metrics, outcome⟩, -, hresult⟩ := Option.map_eq_some_iff.mp hp
  dsimp only at hresult
  split at hresult
  · cases hresult
    exact ⟨rfl, rfl, rfl⟩
  · cases hresult
    exact ⟨rfl, rfl, rfl⟩
  · cases hresult
    exact ⟨rfl, rfl, rfl⟩

theorem Parser.table_parse {parser parser' : Parser} {document : Document} {store after : Store} {fuel : Nat}
    {reparse : Bool} {status : Except Fault ParseStatus}
    (hp : parser.parse fuel store document reparse = some (parser', after, status)) : parser'.table = parser.table :=
  (made_parse hp).1

theorem Parser.host_parse {parser parser' : Parser} {document : Document} {store after : Store} {fuel id : Nat}
    {reparse : Bool} {status : Except Fault ParseStatus}
    (hp : parser.parse fuel store document reparse = some (parser', after, status)) (hlt : id < store.size) :
    (after.view id).host = (store.view id).host :=
  show (after.node id).idle.host = (store.node id).idle.host by rw [Parser.parse_idle hp hlt]

namespace Document

variable {table : SyntaxTable} {passThrough : List String} {loose : Bool} {document : Document} {store : Store}

-- The document rests through all of a session if it does so when an attempt accepts.
theorem Session.rests_of_accepted {whole : Symbol → Forest → Prop} (hw : ∀ symbol below, whole symbol below → below.Still)
    (haccepted : ∀ {reparse : Bool} {fuel : Nat} {store after : Store} {forest : Forest} {metrics metrics' : Metrics},
      document.Stands store forest → forest.Settled whole →
      Setting.attempt ⟨table, passThrough, document, reparse⟩ fuel store metrics = some (after, metrics', .ok .accepted) →
      ∃ content, document.Stands after content ∧ content.Settled whole)
    (hs : Session table passThrough document store) : document.Rests whole store := by
  induction hs with
  | @opened store opened tokens h =>
      have htokens : ∀ content ∈ tokens.map tokenContent, (Label.ofContent content).IsToken := by
        intro content h
        obtain ⟨token, -, rfl⟩ := List.mem_map.mp h
        exact isToken_tokenContent token
      have hstands := stands_ofLeaves store htokens
      have hrooted := rooted_ofLeaves store fun content h => (htokens content h).isNonterminal
      rw [show ofLeaves store (tokens.map tokenContent) = (opened, document) from h] at hstands hrooted
      exact ⟨_, hstands, Forest.settled_ofLeaves, hrooted.host⟩
  | @insert store anchor token _ hanchor ih =>
      obtain ⟨forest, hs, hset, hhost⟩ := ih
      refine Rests.insertTokenAfter hw hs hset hhost ?_ token
      rcases List.mem_cons.mp hanchor with h | h
      · exact Or.inr (Or.inl h)
      · rcases List.mem_append.mp h with h | h
        · exact Or.inr (Or.inr (hs.mem_content h))
        · exact Or.inl (List.mem_singleton.mp h)
  | @remove store after node _ hnode hremove ih =>
      obtain ⟨forest, hs, hset, hhost⟩ := ih
      obtain ⟨entry, hentry, rfl⟩ := hs.mem_content hnode
      obtain ⟨after', hafter, hrests⟩ := Rests.removeToken hw hs hset hhost hentry
      rw [hremove] at hafter
      obtain rfl := Except.ok.inj hafter
      exact hrests
  | @replace store node rule text _ hnode ih =>
      obtain ⟨forest, hs, hset, hhost⟩ := ih
      obtain ⟨entry, hentry, rfl⟩ := hs.mem_content hnode
      exact Rests.replaceToken hw hs hset hhost hentry rule text
  | @parse store after parser parser' reparse fuel status _ htable hpass hp ih =>
      obtain ⟨forest, hs, hset, hhost⟩ := ih
      rcases Parser.parse_remarks (Store.closed_all store) (Document.within_all _) hp with
        ⟨rfl, -⟩ | ⟨-, hr⟩
      · obtain ⟨reparse', middle, metrics, metrics', hr, hattempt⟩ := Parser.attempt_of_accepted hp
        have hsetting : parser.setting document reparse' = ⟨table, passThrough, document, reparse'⟩ := by
          rw [← htable, ← hpass]
          rfl
        rw [hsetting] at hattempt
        obtain ⟨content, hstands, hsettled⟩ := haccepted (hs.remarked hr) hset hattempt
        exact ⟨content, hstands, hsettled, (Parser.host_parse hp hs.root_lt).trans hhost⟩
      · exact ⟨forest, hs.remarked hr, hset, (Parser.host_parse hp hs.root_lt).trans hhost⟩
  | @commit store _ ih =>
      obtain ⟨forest, hs, hset, hhost⟩ := ih
      exact ⟨forest, hs.congr (Nat.le_of_eq Store.size_commit.symm) fun id _ => Store.view_commit, hset,
        (congrArg View.host Store.view_commit).trans hhost⟩

theorem Session.rests (ha : ∀ reparse, Setting.Apt ⟨table, passThrough, document, reparse⟩ loose)
    (hs : Session table passThrough document store) :
    document.Rests (Setting.Whole ⟨table, passThrough, document, false⟩ loose) store := by
  refine hs.rests_of_accepted (fun _ _ h => Setting.Whole.still h) fun {reparse} _ _ _ _ _ _ hstands hset hattempt => ?_
  have hset' := hset.imp fun _ _ h => @Setting.Whole.reparse _ _ _ reparse _ h
  obtain ⟨content, hcontent, hsettled, -, -⟩ := Setting.attempt_accepted (ha reparse) hstands hset' hattempt
  exact ⟨content, hcontent, hsettled.imp fun _ _ h => @Setting.Whole.reparse _ _ _ false _ h⟩

end Document

def Parser.crossed : Parser := .ofTable (.ofGrammar Rules.crossed.toGrammar .lr1) [] true false

def Document.crossed : Store × Document := Document.ofTokens .empty Token.crossed

-- The last token is replaced once all of them have been parsed, so that the node
-- between the others is not that of the production any more.
theorem Document.session_crossed :
    ∃ store parser' after, Session (.ofGrammar Rules.crossed.toGrammar .lr1) [] Document.crossed.2 store ∧
      Parser.crossed.parse 100 store Document.crossed.2 false = some (parser', after, .ok .accepted) := by
  have hsteps : ((Parser.crossed.parse 100 Document.crossed.1 Document.crossed.2 false).bind fun first =>
      (Parser.crossed.parse 100 (Document.replaceToken first.2.1 4 none "e") Document.crossed.2 false).map
        fun second => (Document.crossed.2.content first.2.1, second.2.2)) = some ([2, 3, 4], .ok .accepted) := by
    decide +kernel
  obtain ⟨⟨parser, parsed, status⟩, hfirst, hrest⟩ := Option.bind_eq_some_iff.mp hsteps
  obtain ⟨⟨parser', after, status'⟩, hsecond, hrest⟩ := Option.map_eq_some_iff.mp hrest
  obtain ⟨hcontent, rfl⟩ := Prod.mk.inj hrest
  have hopened : Session (.ofGrammar Rules.crossed.toGrammar .lr1) [] Document.crossed.2 Document.crossed.1 :=
    @Session.opened _ _ _ .empty _ Token.crossed rfl
  have hparsed := hopened.parse rfl rfl hfirst
  refine ⟨_, parser', after, hparsed.replace ?_, hsecond⟩
  rw [hcontent]
  decide

end IncrementalLR
