import IncrementalLR.Proofs.Document.Session

namespace IncrementalLR

-- Lists with some of the entries left out.
inductive Erases {α : Type} (drops : α → Prop) : List α → List α → Prop where
  | nil : Erases drops [] []
  | keep {first : α} {rest kept : List α} : Erases drops rest kept → Erases drops (first :: rest) (first :: kept)
  | drop {first : α} {rest kept : List α} :
      drops first → Erases drops rest kept → Erases drops (first :: rest) kept

namespace Erases

variable {α β : Type} {drops : α → Prop} {entries others kept rest : List α}

theorem refl (drops : α → Prop) (entries : List α) : Erases drops entries entries := by
  induction entries with
  | nil => exact .nil
  | cons first rest ih => exact .keep ih

theorem append (he : Erases drops entries kept) (ho : Erases drops others rest) :
    Erases drops (entries ++ others) (kept ++ rest) := by
  induction he with
  | nil => exact ho
  | keep _ ih => exact .keep ih
  | drop hdrops _ ih => exact .drop hdrops ih

theorem all (h : ∀ entry ∈ entries, drops entry) : Erases drops entries [] := by
  induction entries with
  | nil => exact .nil
  | cons first rest ih =>
      obtain ⟨hfirst, hrest⟩ := List.forall_mem_cons.mp h
      exact .drop hfirst (ih hrest)

theorem map {others : β → Prop} (change : α → β) (he : Erases drops entries kept)
    (h : ∀ entry ∈ entries, drops entry → others (change entry)) : Erases others (entries.map change) (kept.map change) := by
  induction he with
  | nil => exact .nil
  | keep _ ih => exact .keep (ih fun entry hmem => h entry (List.mem_cons_of_mem _ hmem))
  | drop hdrops _ ih =>
      exact .drop (h _ List.mem_cons_self hdrops) (ih fun entry hmem => h entry (List.mem_cons_of_mem _ hmem))

theorem subset (he : Erases drops entries kept) : kept ⊆ entries := by
  induction he with
  | nil => exact List.Subset.refl _
  | keep _ ih => exact List.cons_subset_cons _ ih
  | drop _ _ ih => exact List.subset_cons_of_subset _ ih

end Erases

-- The words that are derived from sequences of symbols. A token is known under one
-- symbol, and wildcards stand for any tokens.
inductive Generates (grammar : Grammar) : List Nat → List Symbol → Prop where
  | nil : Generates grammar [] []
  | token {terminal : Nat} {sequence : List Nat} {word : List Symbol} :
      (grammar.symbol terminal).isTerminal = true → Generates grammar sequence word →
      Generates grammar (terminal :: sequence) (grammar.symbol terminal :: word)
  | wildcard {symbol : Nat} {sequence : List Nat} {taken word : List Symbol} :
      (grammar.symbol symbol).isWildcard = true → Generates grammar sequence word →
      Generates grammar (symbol :: sequence) (taken ++ word)
  | production {production left : Nat} {sequence : List Nat} {below word : List Symbol} :
      (grammar.production production).left = some left →
      Generates grammar (grammar.production production).right below → Generates grammar sequence word →
      Generates grammar (left :: sequence) (below ++ word)

def Node.Passes (passThrough : List String) (node : Node) : Prop :=
  node.isLeaf = true ∧ passThrough.contains node.key.name = true

namespace Store

-- Whether nodes stand for symbols one by one, apart from leaves that were passed
-- through. A wildcard takes any leaves.
inductive Spells (store : Store) (grammar : Grammar) (passThrough : List String) : List Nat → List Nat → Prop where
  | nil : Spells store grammar passThrough [] []
  | passed {sequence rest : List Nat} {id : Nat} :
      (store.node id).Passes passThrough → Spells store grammar passThrough sequence rest →
      Spells store grammar passThrough sequence (id :: rest)
  | symbol {symbol id : Nat} {sequence rest : List Nat} :
      (store.node id).key = grammar.symbol symbol → Spells store grammar passThrough sequence rest →
      Spells store grammar passThrough (symbol :: sequence) (id :: rest)
  | wildcard {symbol : Nat} {sequence taken rest : List Nat} :
      (grammar.symbol symbol).isWildcard = true → (∀ id ∈ taken, (store.node id).isLeaf = true) →
      Spells store grammar passThrough sequence rest →
      Spells store grammar passThrough (symbol :: sequence) (taken ++ rest)

-- The nodes below a node.
inductive Below (store : Store) (id : Nat) : Nat → Prop where
  | child {child : Nat} : child ∈ (store.node id).children → Below store id child
  | further {inner child : Nat} : Below store id inner → child ∈ (store.node inner).children → Below store id child

-- Whether the tree of a document is one of a grammar. Between the ends stands one
-- node of the start symbol, all nodes are those of productions, and the tokens make
-- up a word, as far as none of them was passed through.
structure Derived (store : Store) (grammar : Grammar) (passThrough : List String) (document : Document) : Prop where
  top : ∃ before id behind,
    (store.node document.root).children = document.bos :: (before ++ id :: behind ++ [document.eos]) ∧
      (∀ other ∈ before ++ behind, (store.node other).Passes passThrough) ∧
      (store.node id).symbol = grammar.symbol grammar.start
  below : ∀ id, store.Below document.root id → (store.node id).symbol.isNonterminal = true →
    ∃ production left, (grammar.production production).left = some left ∧
      grammar.symbol left = (store.node id).symbol ∧
      store.Spells grammar passThrough (grammar.production production).right (store.node id).children
  word : ∃ kept, Erases (fun id => (store.node id).Passes passThrough) (document.content store) kept ∧
    Generates grammar [grammar.start] (kept.map fun id => (store.node id).key)

end Store

namespace Setting

variable {setting : Setting} {loose settled : Bool} {sequence : List Nat} {forest : Forest} {store : Store}

theorem passes_of_isParsed {label : Label} (hp : label.IsParsed) (h : setting.passes label = true) :
    setting.passThrough.contains label.key.name = true := by
  rw [passes, Bool.or_eq_true] at h
  refine h.resolve_left fun he => ?_
  rcases hp.2 with ⟨name, hsymbol⟩ | ⟨name, hsymbol⟩
  · rw [hsymbol] at he
    cases he
  · rw [hsymbol] at he
    cases he

theorem Regular.symbol_of_isToken (hr : setting.Regular) {label : Label} {id : Nat} (ht : label.IsToken)
    (hid : setting.idOf? label.key = some id) : setting.table.grammar.symbol id = label.key := by
  obtain ⟨name, hname⟩ := ht.key
  rw [hr.symbol_of_idOf? hid, hname]
  rfl

-- The word of trees that stand for symbols.
theorem Covers.generates (hr : setting.Regular) (hc : setting.Covers loose settled sequence forest) :
    ∃ kept, Erases (fun entry => setting.passThrough.contains entry.2.key.name = true) forest.leaves kept ∧
      Generates setting.table.grammar sequence (kept.map fun entry => entry.2.key) := by
  induction hc with
  | nil => exact ⟨[], .nil, .nil⟩
  | passed hp hl _ ih =>
      obtain ⟨kept, he, hg⟩ := ih
      exact ⟨kept, .drop (passes_of_isParsed hp hl.1) he, hg⟩
  | token hp hid ht _ _ ih =>
      obtain ⟨kept, he, hg⟩ := ih
      refine ⟨_ :: kept, .keep he, ?_⟩
      rw [List.map_cons, ← hr.symbol_of_isToken hp.2 hid]
      exact .token (Rules.mem_terminals.mp ht).2.1 hg
  | @span settled wildcard sequence entries after _ hwild _ _ ih =>
      obtain ⟨kept, he, hg⟩ := ih
      refine ⟨entries ++ kept, ?_, ?_⟩
      · rw [Forest.leaves_append, Forest.leaves_ofLeaves]
        exact (Erases.refl _ entries).append he
      · rw [List.map_append]
        exact .wildcard hwild hg
  | node hleft _ _ ihbelow ih =>
      obtain ⟨below, hbelow, hgbelow⟩ := ihbelow
      obtain ⟨kept, he, hg⟩ := ih
      refine ⟨below ++ kept, hbelow.append he, ?_⟩
      rw [List.map_append]
      exact .production hleft hgbelow hg

theorem passes_of_holds_leaf {id : Nat} {label : Label} (hh : store.Holds (.leaf id label))
    (hp : label.IsParsed) (h : setting.passes label = true) : (store.node id).Passes setting.passThrough := by
  refine ⟨hh.isLeaf, ?_⟩
  rw [show (store.node id).key = label.key from hh.key]
  exact passes_of_isParsed hp h

theorem isLeaf_of_kept {entries : List (Nat × Label)} (hk : store.Kept (.ofLeaves entries)) :
    ∀ id ∈ entries.map Prod.fst, (store.node id).isLeaf = true := by
  refine List.forall_mem_map.mpr fun entry h => ?_
  exact (hk.leaf (Forest.leaves_ofLeaves.symm ▸ h)).isLeaf

-- Trees that stand for symbols, by their roots.
theorem Covers.spells (hr : setting.Regular) (hc : setting.Covers loose settled sequence forest)
    (hk : store.Kept forest) :
    store.Spells setting.table.grammar setting.passThrough sequence forest.roots := by
  induction hc with
  | nil => exact .nil
  | passed hp hl _ ih => exact .passed (passes_of_holds_leaf hk.1 hp hl.1) (ih hk.2)
  | @token settled terminal sequence id label after hp hid ht _ _ ih =>
      refine .symbol ?_ (ih hk.2)
      rw [hr.symbol_of_isToken hp.2 hid]
      exact hk.1.key
  | @span settled wildcard sequence entries after _ hwild _ _ ih =>
      obtain ⟨hentries, hafter⟩ := Store.kept_append.mp hk
      rw [Forest.roots_append, Forest.roots_ofLeaves]
      exact .wildcard hwild (isLeaf_of_kept hentries) (ih hafter)
  | @node settled production left id sequence below after hleft _ _ _ ih =>
      refine .symbol ?_ (ih hk.2)
      have hkey : (store.node id).key = (Tree.node id (setting.table.grammar.symbol left) false below).label.key := hk.1.key
      rw [hkey]
      exact key_of_isNonterminal (hr.wellFormed.left_spec hleft).2

-- A node between tokens that were passed through.
theorem Lone.still {left : Nat} (hl : setting.Lone loose left forest) : forest.Still := by
  cases hl with
  | intro _ hcovers hbefore hbehind _ =>
      exact Forest.still_append.mpr ⟨Forest.still_ofLeaves fun entry h => (hbefore entry h).1.1, rfl, hcovers.still,
        Forest.still_ofLeaves fun entry h => (hbehind entry h).1.1⟩

theorem Lone.generates (hr : setting.Regular) {left : Nat} (hl : setting.Lone loose left forest) :
    ∃ kept, Erases (fun entry => setting.passThrough.contains entry.2.key.name = true) forest.leaves kept ∧
      Generates setting.table.grammar [left] (kept.map fun entry => entry.2.key) := by
  cases hl with
  | intro hleft hcovers hbefore hbehind _ =>
      obtain ⟨kept, herases, hgenerates⟩ := hcovers.generates hr
      refine ⟨[] ++ (kept ++ []), ?_, ?_⟩
      · simp only [Forest.leaves_append, Forest.leaves_ofLeaves, Forest.leaves]
        exact (Erases.all fun entry h => passes_of_isParsed (hbefore entry h).1 (hbefore entry h).2.1).append
          (herases.append (.all fun entry h => passes_of_isParsed (hbehind entry h).1 (hbehind entry h).2))
      · rw [List.nil_append, List.map_append]
        exact .production hleft hgenerates .nil

theorem Lone.top {left : Nat} (hl : setting.Lone loose left forest) (hk : store.Kept forest) :
    ∃ before id behind, forest.roots = before ++ id :: behind ∧
      (∀ other ∈ before ++ behind, (store.node other).Passes setting.passThrough) ∧
      (store.node id).symbol = setting.table.grammar.symbol left := by
  cases hl with
  | @intro production id before behind below _ _ hbefore hbehind _ =>
      obtain ⟨hkbefore, hknode, hkbehind⟩ := Store.kept_append.mp hk
      have hpasses : ∀ {entries : List (Nat × Label)}, store.Kept (.ofLeaves entries) →
          (∀ entry ∈ entries, entry.2.IsParsed ∧ setting.passes entry.2 = true) →
          ∀ id ∈ entries.map Prod.fst, (store.node id).Passes setting.passThrough :=
        fun hentries hall => List.forall_mem_map.mpr fun entry h =>
          passes_of_holds_leaf (hentries.leaf (Forest.leaves_ofLeaves.symm ▸ h)) (hall entry h).1 (hall entry h).2
      refine ⟨before.map Prod.fst, id, behind.map Prod.fst, ?_, ?_, congrArg Label.symbol hknode.1⟩
      · rw [Forest.roots_append, Forest.roots_ofLeaves, Forest.roots, Forest.roots_ofLeaves]
      · exact List.forall_mem_append.mpr
          ⟨hpasses hkbefore fun entry h => ⟨(hbefore entry h).1, (hbefore entry h).2.1⟩, hpasses hkbehind hbehind⟩

end Setting

-- The nodes below a root are those of its trees.
theorem Store.Planted.mem_of_below {store : Store} {forest : Forest} {root id : Nat} (hp : store.Planted root forest)
    (hb : store.Below root id) : id ∈ forest.ids := by
  induction hb with
  | child h =>
      rw [show (store.node root).children = forest.roots from hp.children] at h
      exact Forest.mem_ids_of_roots h
  | further _ h ih => exact (hp.linked.children ih).2 h

-- A node of settled trees without flags is a leaf, or the tree below it is whole.
theorem Store.Kept.whole {store : Store} {whole : Symbol → Forest → Prop} {forest : Forest} {id : Nat}
    (hk : store.Kept forest) (hset : forest.Settled whole) (hstill : forest.Still) (h : id ∈ forest.ids) :
    (store.node id).isLeaf = true ∨ ∃ symbol below, store.Holds (.node id symbol false below) ∧ whole symbol below := by
  induction forest with
  | nil => cases h
  | leaf first label after ih =>
      rcases List.mem_cons.mp h with rfl | h
      · exact Or.inl hk.1.isLeaf
      · exact ih hk.2 hset hstill.2 h
  | node first symbol changed below after ihbelow ih =>
      obtain ⟨rfl, hbelow, hafter⟩ := hstill
      rcases List.mem_cons.mp h with rfl | h
      · exact Or.inr ⟨symbol, below, hk.1, hset.1 rfl⟩
      · rcases List.mem_append.mp h with h | h
        · exact ihbelow hk.1.2.2.2.kept hset.2.1 hbelow h
        · exact ih hk.2 hset.2.2 hafter h

namespace Document

variable {setting : Setting} {loose : Bool} {document : Document} {store : Store} {content : Forest}

theorem Stands.kept (hs : document.Stands store content) : store.Kept content := by
  have hk := hs.linked.kept
  rw [Document.whole, Store.kept_append, Store.kept_append] at hk
  exact hk.2.1

theorem still_whole : (document.whole content).Still ↔ content.Still := by
  rw [Document.whole, Forest.still_append, Forest.still_append]
  exact ⟨fun h => h.2.1, fun h => ⟨⟨rfl, trivial⟩, h, ⟨rfl, trivial⟩⟩⟩

-- A document whose content is one node of the start symbol is a derivation.
theorem Stands.derived (hr : setting.Regular) (hs : document.Stands store content)
    (hset : content.Settled (setting.Whole loose)) (hlone : setting.Lone loose setting.table.grammar.start content) :
    store.Derived setting.table.grammar setting.passThrough document := by
  have hk := hs.kept
  refine ⟨?_, fun id hbelow hnonterminal => ?_, ?_⟩
  · obtain ⟨before, id, behind, hroots, hpasses, hsymbol⟩ := hlone.top hk
    refine ⟨before, id, behind, hs.children.trans ?_, hpasses, hsymbol⟩
    rw [Document.whole, Forest.roots_append, Forest.roots_append, hroots]
    rfl
  · rcases hs.linked.kept.whole (settled_whole.mpr hset) (still_whole.mpr hlone.still)
      (hs.mem_of_below hbelow) with hleaf | ⟨symbol, below, hh, hwhole⟩
    · rw [Node.isLeaf, hnonterminal] at hleaf
      cases hleaf
    · obtain ⟨production, left, hleft, rfl, hcovers⟩ := hwhole
      refine ⟨production, left, hleft, (congrArg Label.symbol hh.1).symm, ?_⟩
      rw [show (store.node id).children = below.roots from hh.2.1]
      exact hcovers.spells hr hh.2.2.2.kept
  · obtain ⟨kept, herases, hgenerates⟩ := hlone.generates hr
    have hkey : ∀ entry ∈ content.leaves, (store.node entry.1).key = entry.2.key := fun entry h => (hk.leaf h).key
    refine ⟨kept.map Prod.fst, ?_, ?_⟩
    · rw [hs.content]
      refine herases.map Prod.fst fun entry h hpass => ⟨(hk.leaf h).isLeaf, ?_⟩
      rw [hkey entry h]
      exact hpass
    · rw [List.map_map, show kept.map ((fun id => (store.node id).key) ∘ Prod.fst) =
        kept.map fun entry => entry.2.key from List.map_congr_left fun entry h => hkey entry (herases.subset h)]
      exact hgenerates

theorem contents_of_tokens {other : Store} {before : Forest} (hs : document.Stands store before)
    (ho : document.Stands other content) (ht : content.tokens = before.tokens) :
    document.contents other = document.contents store := by
  have hinjective : Function.Injective Label.ofContent := by
    rintro ⟨symbol, rule, text⟩ ⟨symbol', rule', text'⟩ h
    cases h
    rfl
  refine List.map_injective_iff.mpr hinjective ?_
  rw [ho.contents, hs.contents, ht]

-- Accepted trees are derivations, whatever has been reused: any session may lead up
-- to the parse, and the tables may have conflicts and wildcards.
theorem derived_of_accepted {grammar : Grammar} {mode : Mode} (hb : grammar.Built) {passThrough : List String}
    (hapart : ∀ id ∈ grammar.nonterminals, (grammar.symbol id).name ∉ passThrough)
    (hs : Session (.ofGrammar grammar mode) passThrough document store) {parser parser' : Parser}
    (htable : parser.table = .ofGrammar grammar mode) (hpass : parser.passThrough = passThrough) {fuel : Nat}
    {reparse : Bool} {after : Store}
    (h : parser.parse fuel store document reparse = some (parser', after, .ok .accepted)) :
    after.Derived grammar passThrough document ∧ document.contents after = document.contents store := by
  have hapt : ∀ reparse, Setting.Apt ⟨.ofGrammar grammar mode, passThrough, document, reparse⟩ true := by
    refine fun reparse => ⟨⟨rfl, hb.wellFormed, faithful_build hb.wellFormed mode, fun id hid => ?_⟩, .inl rfl, .inl rfl⟩
    rw [List.contains_eq_mem, decide_eq_false_iff_not]
    exact hapart id (Rules.mem_nonterminals.mpr hid)
  obtain ⟨forest, hstands, hset, -⟩ := hs.rests hapt
  obtain ⟨reparse', middle, metrics, metrics', hr, hattempt⟩ := Parser.attempt_of_accepted h
  have hmiddle := hstands.remarked hr
  rw [Parser.setting, htable, hpass] at hattempt
  obtain ⟨content, hcontent, hsettled, htokens, hlone⟩ := Setting.attempt_accepted (hapt reparse') hmiddle
    (hset.imp fun _ _ h => @Setting.Whole.reparse _ _ _ reparse' _ h) hattempt
  exact ⟨hcontent.derived (hapt reparse').toRegular hsettled hlone, contents_of_tokens hstands hcontent htokens⟩

theorem derived_of_accepted_crossed :
    ∃ store parser' after,
      (Rules.crossed.toGrammar.Built ∧
        (∀ id ∈ Rules.crossed.nonterminals, (Rules.crossed.symbol id).name ∉ ([] : List String)) ∧
        Session (.ofGrammar Rules.crossed.toGrammar .lr1) [] Document.crossed.2 store ∧
        Parser.crossed.parse 100 store Document.crossed.2 false = some (parser', after, .ok .accepted)) ∧
      after.Derived Rules.crossed.toGrammar [] Document.crossed.2 ∧
        Document.crossed.2.contents after = Document.crossed.2.contents store := by
  obtain ⟨store, parser', after, hsession, hparse⟩ := session_crossed
  exact ⟨store, parser', after, ⟨built_crossed, fun _ _ => List.not_mem_nil, hsession, hparse⟩,
    derived_of_accepted built_crossed (fun _ _ => List.not_mem_nil) hsession rfl rfl hparse⟩

end Document

end IncrementalLR
