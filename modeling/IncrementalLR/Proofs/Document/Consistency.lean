import IncrementalLR.Proofs.Document.Arena

namespace IncrementalLR

namespace Edit

-- The documents of an arena once an edit has been made.
def opened (documents : List Document) (store : Store) : Edit → List Document
  | create tokens => (Document.ofTokens store tokens).2 :: documents
  | _ => documents

-- Whether an edit is one of documents of the arena. It need not be one of those that
-- exist at the version of the store.
def Fits (documents : List Document) (store : Store) : Edit → Prop
  | create _ | embed _ _ => True
  | insert document anchor _ | insertBox document anchor _ _ =>
      document ∈ documents ∧ store.Below document.root anchor ∧ anchor ≠ document.eos
  | remove document node =>
      document ∈ documents ∧ store.Below document.root node ∧ node ≠ document.root ∧ node ≠ document.bos ∧
        node ≠ document.eos
  | replace node _ _ => ∃ document ∈ documents, node ∈ document.tokens store
  | parse parser _ document _ => document ∈ documents ∧ parser.IsBuilt

-- What an edit does to the tokens of a document that exists.
def Effect (document : Document) (store after : Store) : Edit → Prop
  | insert other anchor token =>
      if other = document then (document.insertTokenAfter store anchor token).2 = .ok store.size ∧
        document.Inserts store after anchor (store.size, .ofContent (Document.tokenContent token))
      else document.sequence after = document.sequence store
  | insertBox other anchor language inner =>
      if other = document then (document.insertBoxAfter store anchor language inner).2 = .ok store.size ∧
        document.Inserts store after anchor (store.size, ⟨.magic language, none, "", false⟩)
      else document.sequence after = document.sequence store
  | remove other node =>
      if other = document then document.removeToken store node = .ok after ∧ document.Removes store after node
      else document.sequence after = document.sequence store
  | replace node rule text =>
      if node ∈ document.tokens store then document.Replaces store after node rule text
      else document.sequence after = document.sequence store
  | create _ | embed _ _ | parse _ _ _ _ => document.sequence after = document.sequence store

-- Whether an edit comes back with a fault.
def Fails (store : Store) : Edit → Prop
  | insert document anchor token => ∃ fault, (document.insertTokenAfter store anchor token).2 = .error fault
  | insertBox document anchor language inner =>
      ∃ fault, (document.insertBoxAfter store anchor language inner).2 = .error fault
  | remove document node => ∃ fault, document.removeToken store node = .error fault
  | create _ | embed _ _ | replace _ _ _ | parse _ _ _ _ => False

end Edit

-- What may become of documents that share one store, by edits, parses and commits, and
-- by going to other versions.
inductive Arena : List Document → Store → Prop where
  | empty : Arena [] .empty
  | edit {documents : List Document} {store after : Store} {edit : Edit} :
      Arena documents store → edit.Fits documents store → edit.run store = some after →
      Arena (edit.opened documents store) after
  | commit {documents : List Document} {store : Store} : Arena documents store → Arena documents store.commit
  | undo {documents : List Document} {store after : Store} {document : Document} {version : Nat} :
      Arena documents store → document.undoTo? store version = some after → Arena documents after
  | redo {documents : List Document} {store after : Store} {document : Document} {version : Nat} :
      Arena documents store → document.redoTo? store version = some after → Arena documents after

-- Whether the links of a document agree with one another: those between its nodes, and
-- the thread of its leaves in both directions.
structure Document.Consistent (store : Store) (document : Document) : Prop where
  ends : ∃ inner, (store.node document.root).children = document.bos :: (inner ++ [document.eos])
  links : ∀ id, id = document.root ∨ store.Below document.root id →
    store.Chain id none none (store.node id).children
  thread : store.thread document.bos = store.leaves document.root
  ending : (store.leaves document.root).getLast? = some document.eos
  apart : (store.leaves document.root).Nodup
  threads : store.Threads none none (store.leaves document.root)

namespace Document

variable {document : Document} {store : Store} {forest : Forest}

theorem Threaded.consistent (ht : document.Threaded store forest) : document.Consistent store := by
  obtain ⟨inner, hroots⟩ := ht.frames.roots
  obtain ⟨between, hleaves⟩ := ht.frames.leaves
  refine ⟨⟨inner, ht.children.trans hroots⟩, fun id h => ?_, ht.thread, ?_, ?_, ?_⟩
  · rcases h with rfl | h
    · rw [show (store.node document.root).children = forest.roots from ht.children]
      exact (Store.linked_iff_chain.mp ht.linked).2
    · exact (ht.linked.children (ht.mem_of_below h)).1
  · rw [ht.toPlanted.leaves, hleaves, ← List.cons_append, List.getLast?_concat]
  · rw [ht.toPlanted.leaves]
    exact (List.nodup_cons.mp ht.nodup).2.sublist Forest.leaves_sublist
  · rw [ht.toPlanted.leaves]
    exact ht.threads

end Document

theorem Store.Below.of_attributes {store after : Store} {root id : Nat} (h : after.Below root id)
    (ha : ∀ id, (after.node id).toAttributes = (store.node id).toAttributes) : store.Below root id := by
  induction h with
  | child h => exact .child (ha _ ▸ h)
  | further _ h ih => exact .further ih (ha _ ▸ h)

theorem Document.symbol_tokenContent {token : Token} :
    (Document.tokenContent token).1.isNonterminal = false ∧ (Document.tokenContent token).1 ≠ .finish := by
  unfold Document.tokenContent
  split
  · exact ⟨rfl, nofun⟩
  · exact ⟨rfl, nofun⟩

theorem Document.symbol_tokenContents {tokens : List Token} :
    ∀ content ∈ tokens.map Document.tokenContent, content.1.isNonterminal = false ∧ content.1 ≠ .finish := by
  intro content h
  obtain ⟨token, -, rfl⟩ := List.mem_map.mp h
  exact symbol_tokenContent

theorem Document.sequence_still {document : Document} {store after : Store} (hs : store.Still after) :
    document.sequence after = document.sequence store := by
  have hattributes := fun id => (hs.node id).attributes
  rw [Document.sequence, Document.sequence, Store.leaves, Store.leaves, hs.size, Store.leavesBelow_congr hattributes]
  refine List.map_congr_left fun id _ => ?_
  exact congrArg (fun attributes : Attributes => (id, Label.mk attributes.symbol attributes.rule attributes.text false))
    (hattributes id)

-- What holds of documents that share one store. Each has nodes of its own.
structure Store.Houses (store : Store) (documents : List Document) (region : Document → Nat → Prop) : Prop where
  logged : store.Logged
  owns : ∀ document ∈ documents, document.Owns store (region document)
  apart : ∀ document ∈ documents, ∀ other ∈ documents, document ≠ other → ∀ id, region document id → ¬region other id

namespace Store.Houses

variable {store after : Store} {documents : List Document} {region : Document → Nat → Prop} {document : Document}

-- A step on the nodes of one document.
theorem steps (hh : store.Houses documents region) (hd : document ∈ documents) (hs : store.Steps (region document) after)
    (ho : document.Owns after (store.WithNew after (region document))) : ∃ region, after.Houses documents region := by
  refine ⟨fun other => if other = document then store.WithNew after (region document) else region other,
    hs.logged hh.logged, fun other hother => ?_, fun first hfirst second hsecond hne id => ?_⟩
  · by_cases h : other = document
    · rw [if_pos h, h]
      exact ho
    · rw [if_neg h]
      exact ((hh.owns other hother).beside hh.logged hs fun id => hh.apart other hother document hd h id).1
  · have hlt : ∀ other ∈ documents, other ≠ document → region other id → ¬store.WithNew after (region document) id :=
      fun other hother h hid hnew => hnew.elim (hh.apart other hother document hd h id hid) fun hnew =>
        Nat.not_lt.mpr hnew.1 ((hh.owns other hother).lt_size id hid)
    by_cases h : first = document
    · rw [if_pos h, if_neg fun he => hne (h.trans he.symm)]
      exact fun hid hsecondid => hlt second hsecond (fun he => hne (h.trans he.symm)) hsecondid hid
    · rw [if_neg h]
      by_cases he : second = document
      · rw [if_pos he]
        exact hlt first hfirst h
      · rw [if_neg he]
        exact hh.apart first hfirst second hsecond hne id

-- A step on one document does to it what it does if it exists, and nothing to others.
theorem outcome (hh : store.Houses documents region) (hd : document ∈ documents) (hs : store.Steps (region document) after)
    (ho : document.Owns after (store.WithNew after (region document))) (holds : Document → Prop)
    (hholds : (store.node document.root).deleted = false → holds document ∧ document.Renews store after) :
    (∃ region, after.Houses documents region) ∧ ∀ other ∈ documents, (store.node other.root).deleted = false →
      (if document = other then holds other else other.sequence after = other.sequence store) ∧
        other.Renews store after := by
  refine ⟨hh.steps hd hs ho, fun other hother hexists => ?_⟩
  by_cases hne : document = other
  · subst hne
    rw [if_pos rfl]
    exact hholds hexists
  · rw [if_neg hne]
    exact ((hh.owns other hother).beside hh.logged hs fun id => hh.apart other hother document hd (Ne.symm hne) id).2 hexists

-- A step that changes nothing that versions keep.
theorem still (hh : store.Houses documents region) (hs : store.Still after) : after.Houses documents region :=
  ⟨hh.logged.still hs, fun document hd => (hh.owns document hd).still hh.logged hs, hh.apart⟩

theorem commit (hh : store.Houses documents region) : store.commit.Houses documents region :=
  ⟨hh.logged.commit, fun document hd => (hh.owns document hd).commit hh.logged, hh.apart⟩

theorem undoTo? (hh : store.Houses documents region) {version : Nat} (h : document.undoTo? store version = some after) :
    after.Houses documents region := by
  obtain ⟨restored, hr, he⟩ := Document.undoTo?_spec h
  have hrestored : restored.Houses documents region :=
    ⟨hh.logged.restored hr, fun other hother => (hh.owns other hother).restored hh.logged hr, hh.apart⟩
  exact hrestored.still he.still

theorem create (hh : store.Houses documents region) (tokens : List Token) :
    (∃ region, (Document.ofTokens store tokens).1.Houses ((Document.ofTokens store tokens).2 :: documents) region) ∧
      ∀ document ∈ documents, (store.node document.root).deleted = false →
        document.sequence (Document.ofTokens store tokens).1 = document.sequence store ∧
          document.Renews store (Document.ofTokens store tokens).1 := by
  have hleaf := @Document.symbol_tokenContents tokens
  obtain ⟨hlogged, ids, -, hnew, hothers⟩ := Document.owns_ofLeaves hh.logged hleaf
  change (Document.ofTokens store tokens).1.Logged at hlogged
  change (Document.ofTokens store tokens).2.Owns (Document.ofTokens store tokens).1 _ at hnew
  generalize hopened : (Document.ofTokens store tokens).2 = opened at hnew ⊢
  refine ⟨⟨fun other => if other = opened then (· ∈ ids) else region other, hlogged, fun other hother => ?_,
    fun first hfirst second hsecond hne id => ?_⟩, fun other hother => (hothers other _ (hh.owns other hother)).2.2⟩
  · by_cases h : other = opened
    · rw [if_pos h, h]
      exact hnew
    · rw [if_neg h]
      exact (hothers other _ (hh.owns other ((List.mem_cons.mp hother).resolve_left h))).1
  · have hold : ∀ other ∈ opened :: documents, other ≠ opened → region other id → id ∉ ids := fun other hother h =>
      (hothers other _ (hh.owns other ((List.mem_cons.mp hother).resolve_left h))).2.1 id
    by_cases h : first = opened
    · rw [if_pos h, if_neg fun he => hne (h.trans he.symm)]
      exact fun hid hsecondid => hold second hsecond (fun he => hne (h.trans he.symm)) hsecondid hid
    · rw [if_neg h]
      by_cases he : second = opened
      · rw [if_pos he]
        exact hold first hfirst h
      · rw [if_neg he]
        exact hh.apart first ((List.mem_cons.mp hfirst).resolve_left h) second
          ((List.mem_cons.mp hsecond).resolve_left he) hne id

end Store.Houses

namespace Edit

theorem node_orElse {fallback : Store} {result : Except Fault Store} {value id : Nat} {fault : Fault}
    (h : (Document.orElse fallback value result).2 = .error fault) :
    (Document.orElse fallback value result).1.node id = fallback.node id := by
  cases result with
  | ok after => cases h
  | error fault => rfl

-- An edit that fails may leave a new node behind, but those that there were are as they were.
theorem node_of_fails {store after : Store} {edit : Edit} {id : Nat} (hf : edit.Fails store)
    (h : edit.run store = some after) (hlt : id < store.size) : after.node id = store.node id := by
  have hne : id ≠ store.size := Nat.ne_of_lt hlt
  cases edit with
  | insert document anchor token =>
      obtain ⟨fault, hfault⟩ := hf
      obtain rfl := Option.some_inj.mp h
      exact (node_orElse hfault).trans (by rw [Store.node_push, if_neg hne])
  | insertBox document anchor language inner =>
      obtain ⟨fault, hfault⟩ := hf
      obtain rfl := Option.some_inj.mp h
      exact (node_orElse hfault).trans (by rw [Store.node_push, if_neg hne])
  | remove document node =>
      obtain ⟨fault, hfault⟩ := hf
      rw [run, hfault] at h
      rw [Option.some_inj.mp h]
  | create _ | embed _ _ | replace _ _ _ | parse _ _ _ _ => exact hf.elim

section Houses

variable {store after : Store} {documents : List Document} {region : Document → Nat → Prop} {document inner : Document}
  {edit : Edit} {anchor node : Nat} {token : Token} {language text : String} {rule : Option String}

variable (hh : store.Houses documents region)

include hh

theorem insert_houses (hf : (insert document anchor token).Fits documents store) :
    (∃ region, (document.insertTokenAfter store anchor token).1.Houses documents region) ∧
      ∀ other ∈ documents, (store.node other.root).deleted = false →
        (insert document anchor token).Effect other store (document.insertTokenAfter store anchor token).1 ∧
          other.Renews store (document.insertTokenAfter store anchor token).1 := by
  obtain ⟨hd, hb, heos⟩ := hf
  obtain ⟨hleaf, hfinish⟩ := @Document.symbol_tokenContent token
  rcases @Document.Owns.insertLeaf document store _ anchor _ (Document.tokenContent token).2.1
    (Document.tokenContent token).2.2 (hh.owns document hd) hh.logged hb heos hleaf hfinish with
    ⟨after, hok, hsteps, howns, hinserts⟩ | ⟨hmissing, ⟨fault, herror⟩, hsteps, howns⟩
  · have hrun : document.insertTokenAfter store anchor token = (after, .ok store.size) :=
      congrArg (Document.orElse _ store.size) hok
    rw [hrun]
    exact hh.outcome hd hsteps howns (fun other => (other.insertTokenAfter store anchor token).2 = .ok store.size ∧
      other.Inserts store after anchor (store.size, .ofContent (Document.tokenContent token)))
        fun hexists => ⟨⟨congrArg Prod.snd hrun, (hinserts hexists).1⟩, (hinserts hexists).2⟩
  · rw [show document.insertTokenAfter store anchor token = (_, .error fault) from
      congrArg (Document.orElse _ store.size) herror]
    exact hh.outcome hd hsteps howns _ fun hexists => by cases hmissing.symm.trans hexists

theorem insertBox_houses (hf : (insertBox document anchor language inner).Fits documents store) :
    (∃ region, (document.insertBoxAfter store anchor language inner).1.Houses documents region) ∧
      ∀ other ∈ documents, (store.node other.root).deleted = false →
        (insertBox document anchor language inner).Effect other store
          (document.insertBoxAfter store anchor language inner).1 ∧
            other.Renews store (document.insertBoxAfter store anchor language inner).1 := by
  obtain ⟨hd, hb, heos⟩ := hf
  have hbox : ∀ result, document.insertLeafAfter (store.push (.new (.magic language) none "")) anchor store.size = result →
      document.insertBoxAfter store anchor language inner = Document.orElse (store.push (.new (.magic language) none ""))
        store.size (result.map fun after => Document.embed after store.size inner) := by
    rintro result rfl
    rfl
  rcases @Document.Owns.insertLeaf document store _ anchor (.magic language) none "" (hh.owns document hd) hh.logged hb
    heos rfl nofun with ⟨after, hok, hsteps, howns, hinserts⟩ | ⟨hmissing, ⟨fault, herror⟩, hsteps, howns⟩
  · have hrun : document.insertBoxAfter store anchor language inner =
        (Document.embed after store.size inner, .ok store.size) := hbox _ hok
    have hembed : after.Still (Document.embed after store.size inner) := Document.embed_still
    obtain ⟨⟨region, hafter⟩, heffect⟩ := hh.outcome hd hsteps howns
      (fun other => (other.insertBoxAfter store anchor language inner).2 = .ok store.size ∧
        other.Inserts store after anchor (store.size, ⟨.magic language, none, "", false⟩))
      fun hexists => ⟨⟨congrArg Prod.snd hrun, (hinserts hexists).1⟩, (hinserts hexists).2⟩
    rw [hrun]
    refine ⟨⟨region, hafter.still hembed⟩, fun other hother hexists => ?_⟩
    obtain ⟨hholds, hrenews⟩ := heffect other hother hexists
    refine ⟨?_, fun id h => hrenews id (h.of_attributes fun id => (hembed.node id).attributes)⟩
    simpa only [Effect, Document.Inserts, Document.sequence_still hembed] using hholds
  · rw [show document.insertBoxAfter store anchor language inner = (_, .error fault) from hbox _ herror]
    exact hh.outcome hd hsteps howns _ fun hexists => by cases hmissing.symm.trans hexists

theorem remove_houses (hf : (remove document node).Fits documents store) (h : (remove document node).run store = some after) :
    (∃ region, after.Houses documents region) ∧ ∀ other ∈ documents, (store.node other.root).deleted = false →
      (remove document node).Effect other store after ∧ other.Renews store after := by
  obtain ⟨hd, hb, hroot, hbos, heos⟩ := hf
  rw [run] at h
  rcases (hh.owns document hd).removeToken hh.logged hb hroot hbos heos with
    ⟨removed, hok, hsteps, howns, hremoves⟩ | ⟨hmissing, fault, herror⟩
  · rw [hok] at h
    obtain rfl := Option.some_inj.mp h
    exact hh.outcome hd hsteps howns (fun other => other.removeToken store node = .ok removed ∧
      other.Removes store removed node) fun hexists => ⟨⟨hok, (hremoves hexists).1⟩, (hremoves hexists).2⟩
  · rw [herror] at h
    obtain rfl := Option.some_inj.mp h
    refine ⟨⟨region, hh⟩, fun other hother hexists => ⟨?_, fun _ => Or.inl⟩⟩
    dsimp only [Effect]
    rw [if_neg fun heq => by cases hmissing.symm.trans (heq ▸ hexists)]

theorem replace_houses (hf : (replace node rule text).Fits documents store) :
    (∃ region, (Document.replaceToken store node rule text).Houses documents region) ∧
      ∀ other ∈ documents, (store.node other.root).deleted = false →
        (replace node rule text).Effect other store (Document.replaceToken store node rule text) ∧
          other.Renews store (Document.replaceToken store node rule text) := by
  obtain ⟨document, hd, hmem⟩ := hf
  have htokens : ∀ other ∈ documents, node ∈ other.tokens store → region other node := fun other hother h =>
    (hh.owns other hother).closed.threadFrom (hh.owns other hother).within.bos (List.mem_of_mem_filter h)
  obtain ⟨hsteps, howns, hreplaces⟩ := (hh.owns document hd).replaceToken hh.logged hmem
  obtain ⟨hafter, heffect⟩ := hh.outcome hd hsteps howns
    (fun other => other.Replaces store (Document.replaceToken store node rule text) node rule text) hreplaces
  refine ⟨hafter, fun other hother hexists => ?_⟩
  obtain ⟨hother', hrenews⟩ := heffect other hother hexists
  refine ⟨?_, hrenews⟩
  dsimp only [Effect]
  by_cases hne : document = other
  · subst hne
    rw [if_pos rfl] at hother'
    rwa [if_pos hmem]
  · rw [if_neg hne] at hother'
    rwa [if_neg fun h => hh.apart document hd other hother hne node (htokens document hd hmem) (htokens other hother h)]

theorem parse_houses {parser parser' : Parser} {fuel : Nat} {reparse : Bool} {status : Except Fault ParseStatus}
    (hf : (parse parser fuel document reparse).Fits documents store)
    (hp : parser.parse fuel store document reparse = some (parser', after, status)) :
    (∃ region, after.Houses documents region) ∧ ∀ other ∈ documents, (store.node other.root).deleted = false →
      other.sequence after = other.sequence store ∧ other.Renews store after := by
  obtain ⟨hd, hbuilt⟩ := hf
  obtain ⟨hsteps, howns, hsame⟩ := (hh.owns document hd).parse hh.logged hbuilt hp
  simpa only [ite_self] using hh.outcome hd hsteps howns (fun other => other.sequence after = other.sequence store) hsame

-- One edit keeps the documents apart, and its effect is the one on a list.
theorem run_houses (hf : edit.Fits documents store) (h : edit.run store = some after) :
    (∃ region, after.Houses (edit.opened documents store) region) ∧
      ∀ document ∈ documents, (store.node document.root).deleted = false →
        edit.Effect document store after ∧ document.Renews store after := by
  cases edit with
  | create tokens =>
      obtain rfl := Option.some_inj.mp h
      exact hh.create tokens
  | insert document anchor token =>
      obtain rfl := Option.some_inj.mp h
      exact insert_houses hh hf
  | insertBox document anchor language inner =>
      obtain rfl := Option.some_inj.mp h
      exact insertBox_houses hh hf
  | embed terminal inner =>
      obtain rfl := Option.some_inj.mp h
      have hembed : store.Still (Document.embed store terminal inner) := Document.embed_still
      exact ⟨⟨region, hh.still hembed⟩,
        fun _ _ _ => ⟨Document.sequence_still hembed, fun _ h => Or.inl (h.of_attributes fun id => (hembed.node id).attributes)⟩⟩
  | remove document node => exact remove_houses hh hf h
  | replace node rule text =>
      obtain rfl := Option.some_inj.mp h
      exact replace_houses hh hf
  | parse parser fuel document reparse =>
      obtain ⟨⟨parser', last, status⟩, hp, rfl⟩ := Option.map_eq_some_iff.mp h
      exact parse_houses hh hf hp

end Houses

end Edit

namespace Arena

variable {documents : List Document} {store : Store}

theorem houses (ha : Arena documents store) : ∃ region, store.Houses documents region := by
  induction ha with
  | empty => exact ⟨fun _ _ => False, Store.logged_empty, nofun, nofun⟩
  | edit _ hf hrun ih =>
      obtain ⟨region, hh⟩ := ih
      exact (Edit.run_houses hh hf hrun).1
  | commit _ ih =>
      obtain ⟨region, hh⟩ := ih
      exact ⟨region, hh.commit⟩
  | undo _ h ih =>
      obtain ⟨region, hh⟩ := ih
      exact ⟨region, hh.undoTo? h⟩
  | redo _ h ih =>
      obtain ⟨region, hh⟩ := ih
      exact ⟨region, hh.undoTo? (Document.undoTo?_of_redoTo? h)⟩

-- The links of every document that exists agree with one another. Edits do to its tokens
-- what they would do to a list, and those that fail leave all nodes alone.
theorem documents_consistent (ha : Arena documents store) :
    (∀ document ∈ documents, (store.node document.root).history.existedAt store.version = true →
      document.Consistent store ∧ ∀ (edit : Edit) (after : Store), edit.Fits documents store → edit.run store = some after →
        edit.Effect document store after) ∧
      ∀ (edit : Edit) (after : Store), edit.Fails store → edit.run store = some after →
        ∀ id, id < store.size → after.node id = store.node id := by
  obtain ⟨region, hh⟩ := ha.houses
  refine ⟨fun document hd hexisted => ?_, fun edit after hf hrun id => Edit.node_of_fails hf hrun⟩
  have ho := hh.owns document hd
  have hexists := ho.existed.mpr (beq_iff_eq.mp hexisted)
  refine ⟨?_, fun edit after hf hrun => ((Edit.run_houses hh hf hrun).2 document hd hexists).1⟩
  obtain ⟨forest, ht, -⟩ := ho.alive hexists
  exact ht.consistent

-- The last token is removed once all of them have been parsed. The version before that is
-- gone back to, so that another token can be put in behind the one that is there again.
theorem documents_consistent_crossed :
    ∃ store, Arena [Document.crossed.2] store ∧
      (store.node Document.crossed.2.root).history.existedAt store.version = true ∧
      Document.crossed.2.Consistent store ∧
      ((Edit.insert Document.crossed.2 4 (.matched none "e" 3 4)).Fits [Document.crossed.2] store) ∧
      Document.crossed.2.Inserts store (Document.crossed.2.insertTokenAfter store 4 (.matched none "e" 3 4)).1 4
        (store.size, ⟨.terminal "e", none, "e", false⟩) := by
  have hsteps : ((Parser.crossed.parse 100 Document.crossed.1 Document.crossed.2 false).bind fun first =>
      ((Edit.remove Document.crossed.2 4).run first.2.1.commit).bind fun removed =>
        (Document.crossed.2.undoTo? removed.commit 0).map fun store =>
          ((first.2.1.commit.node 5).children, (first.2.1.commit.node 7).children, (store.node 5).children,
            (store.node 5).history.existedAt store.version)) = some ([0, 7, 1], [2, 6, 4], [0, 2, 3, 4, 1], true) := by
    decide +kernel
  obtain ⟨⟨parser, parsed, status⟩, hparse, hrest⟩ := Option.bind_eq_some_iff.mp hsteps
  obtain ⟨removed, hremove, hrest⟩ := Option.bind_eq_some_iff.mp hrest
  obtain ⟨store, hundo, hrest⟩ := Option.map_eq_some_iff.mp hrest
  obtain ⟨htop, hrest⟩ := Prod.mk.inj hrest
  obtain ⟨hinner, hrest⟩ := Prod.mk.inj hrest
  obtain ⟨hchildren, hexisted⟩ := Prod.mk.inj hrest
  have hopened : Arena [Document.crossed.2] Document.crossed.1 :=
    @Arena.edit [] .empty Document.crossed.1 (.create Token.crossed) .empty trivial rfl
  have hparsed : Arena [Document.crossed.2] parsed :=
    @Arena.edit _ _ parsed (.parse Parser.crossed 100 Document.crossed.2 false) hopened
      ⟨List.mem_singleton_self _, _, _, built_crossed, rfl⟩ (Option.map_eq_some_iff.mpr ⟨_, hparse, rfl⟩)
  have hbelow : parsed.commit.Below 5 4 := .further (.child (show 7 ∈ (parsed.commit.node 5).children by rw [htop]; decide))
    (by rw [hinner]; decide)
  have hremoved : Arena [Document.crossed.2] removed :=
    @Arena.edit _ _ removed (.remove Document.crossed.2 4) hparsed.commit
      ⟨List.mem_singleton_self _, hbelow, by decide, by decide, by decide⟩ hremove
  have harena : Arena [Document.crossed.2] store := hremoved.commit.undo hundo
  have hfits : (Edit.insert Document.crossed.2 4 (.matched none "e" 3 4)).Fits [Document.crossed.2] store :=
    ⟨List.mem_singleton_self _, .child (by rw [show Document.crossed.2.root = 5 from rfl, hchildren]; decide), by decide⟩
  obtain ⟨hconsistent, heffect⟩ := (documents_consistent harena).1 Document.crossed.2 (List.mem_singleton_self _) hexisted
  exact ⟨store, harena, hexisted, hconsistent, hfits,
    (heffect _ _ hfits rfl : if Document.crossed.2 = Document.crossed.2 then _ else _).2⟩

end Arena

end IncrementalLR
