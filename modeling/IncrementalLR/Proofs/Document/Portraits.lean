import IncrementalLR.Proofs.Document.Annotation

namespace IncrementalLR

-- A copy of a subtree with the abstract values that its nodes have, as they are shown.
inductive Portrait where
  | node (symbol : Symbol) (text : String) (value : Option String) (children : List Portrait)
deriving Inhabited

namespace Store

section

variable (store : Store)

def portraitBelow : Nat → Nat → Portrait
  | 0, _ => default
  | fuel + 1, id =>
      let node := store.node id
      .node node.symbol node.text (node.alternate.map (AstValue.display store)) (node.children.map (portraitBelow fuel))

def portrait (id : Nat) : Portrait := store.portraitBelow store.size id

end

variable {store store' : Store} {root root' : Nat} {forest other : Forest}

-- Nodes that match and that are labelled alike are shown alike, if what is below them is.
theorem Matches.portrait {id id' fuel fuel' : Nat} (hm : store.Matches store' id id')
    (hlabel : (store.view id).label.parsed = (store'.view id').label.parsed)
    (hbelow : (store.view id).children.map (store.portraitBelow fuel) =
      (store'.view id').children.map (store'.portraitBelow fuel')) :
    store.portraitBelow (fuel + 1) id = store'.portraitBelow (fuel' + 1) id' := by
  have hsymbol : (store.node id).symbol = (store'.node id').symbol := congrArg Label.symbol hlabel
  have htext : (store.node id).text = (store'.node id').text := congrArg Label.text hlabel
  have hchildren : (store.node id).children.map (store.portraitBelow fuel) =
      (store'.node id').children.map (store'.portraitBelow fuel') := hbelow
  have hvalue : (store.node id).alternate.map (AstValue.display store) =
      (store'.node id').alternate.map (AstValue.display store') := by
    obtain ⟨-, halternate⟩ := hm
    generalize (store.node id).alternate = value at halternate ⊢
    generalize (store'.node id').alternate = value' at halternate ⊢
    cases halternate with
    | none => rfl
    | some h => exact congrArg some (AstValue.display_alike h)
  rw [portraitBelow, portraitBelow]
  simp only [hsymbol, htext, hchildren, hvalue]

-- The text of a root is that of its trees.
theorem Planted.text (hp : store.Planted root forest) (hbare : ∀ entry ∈ forest.leaves, (store.node entry.1).Bare) :
    store.text root = String.join forest.texts := by
  have hlength := length_le_size hp.nodup hp.lt_size
  obtain ⟨fuel, hfuel⟩ := Nat.exists_eq_add_of_le' (Nat.le_trans (Nat.le_add_left 1 _) hlength)
  rw [hfuel] at hlength
  have htexts := hp.linked.kept.texts hbare (Nat.le_of_succ_le_succ hlength)
  have hchildren : (store.node root).children = forest.roots := hp.children
  rw [Store.text, hfuel, textBelow]
  simp only [if_neg (ne_true_of_eq_false hp.not_isLeaf), hchildren, htexts]

end Store

namespace Forest

variable {store store' : Store} {forest other : Forest}

-- Trees that match are shown alike.
theorem Alike.portraits (ha : forest.Alike (store.Matches store') other) (hk : store.Kept forest)
    (hk' : store'.Kept other) {fuel fuel' : Nat} (hf : forest.ids.length ≤ fuel) (hf' : other.ids.length ≤ fuel') :
    forest.roots.map (store.portraitBelow fuel) = other.roots.map (store'.portraitBelow fuel') := by
  induction ha generalizing fuel fuel' with
  | nil => rfl
  | leaf hm _ ih =>
      obtain ⟨⟨hlabel, hnone, -⟩, hafter⟩ := hk
      obtain ⟨⟨hlabel', hnone', -⟩, hafter'⟩ := hk'
      rw [ids, List.length_cons] at hf hf'
      obtain ⟨fuel, rfl⟩ := Nat.exists_eq_add_of_le' (Nat.le_trans (Nat.le_add_left 1 _) hf)
      obtain ⟨fuel', rfl⟩ := Nat.exists_eq_add_of_le' (Nat.le_trans (Nat.le_add_left 1 _) hf')
      refine List.cons_eq_cons.mpr ⟨hm.portrait (by rw [hlabel, hlabel']) (by rw [hnone, hnone']; rfl), ?_⟩
      exact ih hafter hafter' (Nat.le_of_succ_le hf) (Nat.le_of_succ_le hf')
  | node hm _ _ ihbelow ih =>
      obtain ⟨⟨hlabel, hroots, -, hbelow⟩, hafter⟩ := hk
      obtain ⟨⟨hlabel', hroots', -, hbelow'⟩, hafter'⟩ := hk'
      rw [ids, List.length_cons, List.length_append] at hf hf'
      obtain ⟨fuel, rfl⟩ := Nat.exists_eq_add_of_le' (Nat.le_trans (Nat.le_add_left 1 _) hf)
      obtain ⟨fuel', rfl⟩ := Nat.exists_eq_add_of_le' (Nat.le_trans (Nat.le_add_left 1 _) hf')
      have hinside := ihbelow hbelow.kept hbelow'.kept (show _ ≤ fuel by omega) (show _ ≤ fuel' by omega)
      rw [← hroots, ← hroots'] at hinside
      refine List.cons_eq_cons.mpr ⟨hm.portrait ?_ hinside, ih hafter hafter' (by omega) (by omega)⟩
      rw [hlabel, hlabel']
      rfl

end Forest

namespace Document

variable {document document' : Document} {store store' : Store} {setting : Setting} {content content' : Forest}

theorem Annotated.bare_whole (ha : document.Annotated setting store content) :
    ∀ entry ∈ (document.whole content).leaves, (store.node entry.1).Bare := fun entry h =>
  ha.bare entry.1 (List.mem_cons_of_mem _ (List.mem_map_of_mem h))

-- Documents of a table without conflicts whose trees are the same are shown alike, values
-- of nodes included.
theorem Annotated.portrait (htable : setting.table = .build setting.table.graph setting.table.grammar)
    (hc : Deterministic setting.table.grammar setting.table.graph) (hm : setting.table.graph.mode ≠ .lr0)
    (ha : document.Annotated setting store content) (ha' : document'.Annotated setting store' content')
    (hs : content.Still) (hs' : content'.Still) (hsnapshots : content.snapshots = content'.snapshots)
    (hlabels : content.tokens.map Prod.snd = content'.tokens.map Prod.snd) :
    store.portrait document.root = store'.portrait document'.root := by
  have hkept := ha.stands.linked.kept
  have hkept' := ha'.stands.linked.kept
  have hlength := Store.length_le_size ha.stands.nodup ha.stands.lt_size
  have hlength' := Store.length_le_size ha'.stands.nodup ha'.stands.lt_size
  have hwhole : (document.whole content).snapshots = (document'.whole content').snapshots := by
    simp only [whole, Forest.snapshots_append, hsnapshots]
    rfl
  have hleaves : (document.whole content).leaves.map Prod.snd = (document'.whole content').leaves.map Prod.snd := by
    rw [hs.tokens, hs'.tokens] at hlabels
    simp only [whole, Forest.leaves_append, List.map_append, hlabels]
    rfl
  obtain ⟨halike, -⟩ := @Forest.alike_of_snapshots _ _ _ _ hkept hkept' (still_whole.mpr hs) (still_whole.mpr hs')
    hwhole [] [] (by rw [List.append_nil, List.append_nil, hleaves])
  have hmatches := Setting.matches_of_alike htable hc hm halike (still_whole.mpr hs) (still_whole.mpr hs')
    (throughout_whole.mpr ha.yields) (throughout_whole.mpr ha'.yields) hkept hkept' ha.bare_whole ha'.bare_whole
    (Nat.le_of_succ_le hlength) (Nat.le_of_succ_le hlength')
  have hroot : store.Matches store' document.root document'.root := by
    refine ⟨?_, ?_⟩
    · rw [ha.stands.text ha.bare_whole, ha'.stands.text ha'.bare_whole, halike.texts]
    · rw [(ha.bare _ List.mem_cons_self).1, (ha'.bare _ List.mem_cons_self).1]
      exact .none
  obtain ⟨fuel, hfuel⟩ := Nat.exists_eq_add_of_le' (Nat.le_trans (Nat.le_add_left 1 _) hlength)
  obtain ⟨fuel', hfuel'⟩ := Nat.exists_eq_add_of_le' (Nat.le_trans (Nat.le_add_left 1 _) hlength')
  rw [hfuel] at hlength
  rw [hfuel'] at hlength'
  rw [Store.portrait, Store.portrait, hfuel, hfuel']
  refine hroot.portrait (ha.stands.label.trans ha'.stands.label.symm) ?_
  rw [ha.stands.children, ha'.stands.children]
  exact hmatches.portraits hkept hkept' (Nat.le_of_succ_le_succ hlength) (Nat.le_of_succ_le_succ hlength')

-- Abstract values follow edits: what a parse accepts after any session is shown as what a
-- parse of a flat document with the same tokens makes of it, values of nodes included.
theorem parse_portrait_afresh {grammar : Grammar} {mode : Mode} (hb : grammar.Built) (hmode : mode ≠ .lr0)
    (hwild : grammar.toRules.Avoids Symbol.isWildcard)
    (hconflicts : (SyntaxTable.ofGrammar grammar mode).conflicts = []) {passThrough : List String}
    (hapart : ∀ symbol ∈ grammar.symbols, symbol ≠ .epsilon → symbol.name ∉ passThrough)
    (hs : Session (.ofGrammar grammar mode) passThrough document store) {parser parser' fresh : Parser}
    (htable : parser.table = .ofGrammar grammar mode) (hpass : parser.passThrough = passThrough)
    {fuel : Nat} {reparse : Bool} {after : Store}
    (hp : parser.parse fuel store document reparse = some (parser', after, .ok .accepted))
    (hfresh : fresh.table = .ofGrammar grammar mode) (hfreshpass : fresh.passThrough = passThrough) (other : Store)
    (again : Bool) :
    let flat := ofLeaves other (document.contents store)
    ∃ least fresh' after',
      (∀ fuel, least ≤ fuel → fresh.parse fuel flat.1 flat.2 again = some (fresh', after', .ok .accepted)) ∧
      after.portrait document.root = after'.portrait flat.2.root := by
  have hapt : ∀ document reparse, Setting.Apt ⟨.ofGrammar grammar mode, passThrough, document, reparse⟩ false :=
    fun document reparse => (strict_setting hb hwild hapart document reparse).toApt
  have hc : Deterministic grammar (.build grammar mode) :=
    ⟨hb.wellFormed, faithful_build hb.wellFormed mode, hwild, hconflicts⟩
  have hmode' : (SyntaxTable.ofGrammar grammar mode).graph.mode ≠ .lr0 := by
    rw [show (SyntaxTable.ofGrammar grammar mode).graph.mode = mode from mode_build grammar mode]
    exact hmode
  obtain ⟨forest, ha⟩ := hs.annotated (hapt document)
  obtain ⟨content, hcontent, htokens, hlone⟩ := ha.parse (hapt document) htable hpass hp
  -- a parse afresh finds the same trees
  obtain ⟨entries, hflat, hlabels⟩ := @Stands.exists_flat _ _ _ ha.stands
    ⟨.ofGrammar grammar mode, passThrough, (ofLeaves other (document.contents store)).2, false⟩ other
  obtain ⟨least, fresh', after', parsed, hparse, hparsed, hsnapshots⟩ :=
    Parser.parse_of_lone hc rfl hfresh hfreshpass hflat.stands hlone (htokens ▸ hlabels) again
  refine ⟨least, fresh', after', hparse, ?_⟩
  -- and its nodes have their values too
  obtain ⟨second, hsecond, hsecondtokens, hsecondlone⟩ :=
    hflat.parse (hapt _) hfresh hfreshpass (hparse least (Nat.le_refl _))
  have hcopies : second.snapshots = parsed.snapshots :=
    Snapshot.ofRoot_inj (hsecond.stands.snapshot_root.symm.trans hparsed.snapshot_root)
  refine hcontent.portrait rfl hc hmode' (hsecond.transfer rfl rfl) hlone.still hsecondlone.still
    (hcopies.trans hsnapshots).symm ?_
  rw [htokens, hsecondtokens, hlabels]

end Document

-- Sums of numbers. What adds nothing has the value of its number.
def Declarations.sums : Declarations := {
  start := none
  rules := [
    ("E", ⟨[.nonterminal "T"], none, some "#0"⟩),
    ("E", ⟨[.nonterminal "E", .terminal "plus", .nonterminal "T"], none, some "Plus(left=#0, right=#2)"⟩),
    ("T", ⟨[.terminal "n"], none, some "#0"⟩)]
  precedences := [] }

def Template.first : Template := .value (.lookup ⟨0, none⟩)

def Template.plus : Template :=
  .node (.mk "Plus" (.value "left" (.lookup ⟨0, none⟩) (.value "right" (.lookup ⟨2, none⟩) .nil)))

def Rules.sums : Rules := {
  symbols := #[.finish, .epsilon, .nonterminal "E", .nonterminal "T", .terminal "plus", .terminal "n"]
  productions := #[⟨none, [2], none, none⟩, ⟨some 2, [3], none, some .first⟩, ⟨some 2, [2, 4, 3], none, some .plus⟩,
    ⟨some 3, [5], none, some .first⟩]
  start := 2
  precedences := Array.replicate 6 none }

theorem built_sums : Rules.sums.toGrammar.Built := by
  have hrules : Declarations.sums.build.map Grammar.toRules = .ok Rules.sums := by decide +kernel
  cases hbuild : Declarations.sums.build with
  | error error =>
      rw [hbuild] at hrules
      cases hrules
  | ok grammar =>
      rw [hbuild] at hrules
      obtain ⟨rules, sets, rfl⟩ := grammar
      obtain rfl : rules = Rules.sums := Except.ok.inj hrules
      exact .declared hbuild

def Parser.sums : Parser := .ofTable (.ofGrammar Rules.sums.toGrammar .lr1) [] true false

def Token.sums : List Token :=
  [.matched (some "n") "1" 0 1, .matched (some "plus") "+" 1 2, .matched (some "n") "2" 2 3]

def Document.sums : Store × Document := Document.ofTokens .empty Token.sums

-- The last token is replaced once all of them have been parsed. The first term is reused,
-- with its value, in a node that has a new one.
theorem Document.session_sums :
    ∃ store parser' after, Session (.ofGrammar Rules.sums.toGrammar .lr1) [] Document.sums.2 store ∧
      Parser.sums.parse 100 store Document.sums.2 false = some (parser', after, .ok .accepted) ∧
      (after.node Document.sums.2.root).children.filterMap
        (fun id => (after.node id).alternate.map (AstValue.display after)) = ["Plus(left=\"1\", right=\"3\")"] := by
  have hsteps : ((Parser.sums.parse 100 Document.sums.1 Document.sums.2 false).bind fun first =>
      (Parser.sums.parse 100 (Document.replaceToken first.2.1.commit 4 (some "n") "3") Document.sums.2 false).map
        fun second => (Document.sums.2.content first.2.1.commit, second.2.2,
          (second.2.1.node Document.sums.2.root).children.filterMap
            fun id => (second.2.1.node id).alternate.map (AstValue.display second.2.1))) =
      some ([2, 3, 4], .ok .accepted, ["Plus(left=\"1\", right=\"3\")"]) := by
    decide +kernel
  obtain ⟨⟨parser, parsed, status⟩, hfirst, hrest⟩ := Option.bind_eq_some_iff.mp hsteps
  obtain ⟨⟨parser', after, status'⟩, hsecond, hrest⟩ := Option.map_eq_some_iff.mp hrest
  obtain ⟨hcontent, hrest⟩ := Prod.mk.inj hrest
  obtain ⟨rfl, hvalues⟩ := Prod.mk.inj hrest
  have hopened : Session (.ofGrammar Rules.sums.toGrammar .lr1) [] Document.sums.2 Document.sums.1 :=
    @Session.opened _ _ _ .empty _ Token.sums rfl
  refine ⟨_, parser', after, (hopened.parse rfl rfl hfirst).commit.replace ?_, hsecond, hvalues⟩
  rw [hcontent]
  decide

theorem Document.parse_portrait_afresh_sums :
    ∃ store parser' after,
      (Rules.sums.toGrammar.Built ∧ Mode.lr1 ≠ .lr0 ∧ Rules.sums.Avoids Symbol.isWildcard ∧
        (SyntaxTable.ofGrammar Rules.sums.toGrammar .lr1).conflicts = [] ∧
        (∀ symbol ∈ Rules.sums.symbols, symbol ≠ .epsilon → symbol.name ∉ ([] : List String)) ∧
        Session (.ofGrammar Rules.sums.toGrammar .lr1) [] Document.sums.2 store ∧
        Parser.sums.parse 100 store Document.sums.2 false = some (parser', after, .ok .accepted)) ∧
      let flat := ofLeaves .empty (Document.sums.2.contents store)
      ∃ least fresh' after',
        (∀ fuel, least ≤ fuel →
          Parser.sums.parse fuel flat.1 flat.2 true = some (fresh', after', .ok .accepted)) ∧
        after.portrait Document.sums.2.root = after'.portrait flat.2.root := by
  obtain ⟨store, parser', after, hsession, hparse, -⟩ := session_sums
  have hconflicts : (SyntaxTable.ofGrammar Rules.sums.toGrammar .lr1).conflicts = [] := by decide +kernel
  exact ⟨store, parser', after, ⟨built_sums, nofun, Rules.avoids_of_all rfl, hconflicts, fun _ _ _ => List.not_mem_nil,
      hsession, hparse⟩,
    parse_portrait_afresh built_sums (show Mode.lr1 ≠ .lr0 from nofun) (Rules.avoids_of_all rfl) hconflicts
      (fun _ _ _ => List.not_mem_nil) hsession rfl rfl hparse rfl rfl .empty true⟩

end IncrementalLR
