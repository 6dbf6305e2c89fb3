import IncrementalLR.Proofs.Document.Modes
import IncrementalLR.Proofs.Parse.Sifting

namespace IncrementalLR

namespace Store

-- A copy of a subtree without some of its nodes, or nothing if it is one of them.
def snapshotsBelowWithout (store : Store) (drops : Nat → Bool) : Nat → Nat → List Snapshot
  | 0, _ => []
  | fuel + 1, id =>
      if drops id then []
      else
        let node := store.node id
        [.node node.symbol node.text (node.children.flatMap (snapshotsBelowWithout store drops fuel))]

def snapshotsWithout (store : Store) (drops : Nat → Bool) (id : Nat) : List Snapshot :=
  store.snapshotsBelowWithout drops store.size id

variable {store : Store} {drops : Nat → Bool} {labels : Label → Bool} {forest : Forest} {fuel root : Nat}

theorem Kept.snapshotsWithout (hk : store.Kept forest) (hnode : ∀ id, (store.node id).isLeaf = false → drops id = false)
    (hleaf : ∀ entry ∈ forest.leaves, drops entry.1 = labels entry.2) (hf : forest.ids.length ≤ fuel) :
    forest.roots.flatMap (store.snapshotsBelowWithout drops fuel) = (forest.without labels).snapshots := by
  induction forest generalizing fuel with
  | nil => rfl
  | leaf id label after ih =>
      obtain ⟨hhere, hafter⟩ := List.forall_mem_cons.mp hleaf
      rw [Forest.ids, List.length_cons] at hf
      obtain ⟨fuel, rfl⟩ := Nat.exists_eq_add_of_le' (Nat.le_trans (Nat.le_add_left 1 _) hf)
      rw [Forest.roots, List.flatMap_cons, ih hk.2 hafter (by omega), snapshotsBelowWithout,
        show drops id = labels label from hhere]
      cases h : labels label with
      | true => rw [if_pos rfl, Forest.without_leaf_of_pos h, List.nil_append]
      | false =>
          obtain ⟨rfl, hchildren, -⟩ := hk.1
          have hnone : (store.node id).children = [] := hchildren
          rw [if_neg Bool.false_ne_true, Forest.without_leaf_of_neg h]
          simp only [hnone, List.flatMap_nil]
          rfl
  | node id symbol changed below after ihbelow ih =>
      obtain ⟨hbelow, hafter⟩ := List.forall_mem_append.mp hleaf
      have hkeeps := hnode id hk.1.not_isLeaf
      obtain ⟨⟨hlabel, hchildren, -, hlinked⟩, hrest⟩ := hk
      rw [Forest.ids, List.length_cons, List.length_append] at hf
      obtain ⟨fuel, rfl⟩ := Nat.exists_eq_add_of_le' (Nat.le_trans (Nat.le_add_left 1 _) hf)
      have hsymbol : (store.node id).symbol = symbol := congrArg Label.symbol hlabel
      have htext : (store.node id).text = "" := congrArg Label.text hlabel
      have hroots : (store.node id).children = below.roots := hchildren
      rw [Forest.roots, List.flatMap_cons, ih hrest hafter (by omega), snapshotsBelowWithout, hkeeps,
        if_neg Bool.false_ne_true, Forest.without]
      simp only [hsymbol, htext, hroots]
      rw [ihbelow hlinked.kept hbelow (by omega)]
      rfl

theorem Planted.snapshotsWithout (hp : store.Planted root forest) (hroot : drops root = false) :
    ∃ fuel, forest.ids.length ≤ fuel ∧ store.snapshotsWithout drops root =
      [.node Document.rootSymbol "" (forest.roots.flatMap (store.snapshotsBelowWithout drops fuel))] := by
  have hlength := length_le_size hp.nodup hp.lt_size
  obtain ⟨fuel, hfuel⟩ := Nat.exists_eq_add_of_le' (Nat.le_trans (Nat.le_add_left 1 _) hlength)
  have hsymbol : (store.node root).symbol = Document.rootSymbol := congrArg Label.symbol hp.label
  have htext : (store.node root).text = "" := congrArg Label.text hp.label
  have hchildren : (store.node root).children = forest.roots := hp.children
  refine ⟨fuel, ?_, ?_⟩
  · rw [List.length_cons] at hlength
    omega
  · rw [Store.snapshotsWithout, hfuel, snapshotsBelowWithout, hroot, if_neg Bool.false_ne_true]
    simp only [hsymbol, htext, hchildren]

end Store

namespace Document

-- Whether a node is a token of a document that tables look up under one of some names.
def bears (document : Document) (names : List String) (store : Store) (id : Nat) : Bool :=
  (store.node id).isLeaf && id != document.bos && names.contains (store.node id).key.name

-- Whether two parses end alike but for tokens of some names, which the second document does
-- not have: both accept, and without these tokens the first tree is the second one, or both
-- reject at the same place of the other tokens and the end of the input, or both fail.
inductive EndsAlikeBut (names : List String) (document : Document) (store : Store) (other : Document)
    (fresh : Store) : Store × Except Fault ParseStatus → Store × Except Fault ParseStatus → Prop where
  | accepted {after after' : Store} :
      after.snapshotsWithout (document.bears names after) document.root = [after'.snapshot other.root] →
      EndsAlikeBut names document store other fresh (after, .ok .accepted) (after', .ok .accepted)
  | rejected {after after' : Store} {place node node' : Nat} :
      ((document.content store).filter (fun id => !document.bears names store id) ++ [document.eos])[place]? =
        some node →
      (other.content fresh ++ [other.eos])[place]? = some node' →
      EndsAlikeBut names document store other fresh (after, .ok (.rejected node)) (after', .ok (.rejected node'))
  | failed {after after' : Store} {fault fault' : Fault} :
      EndsAlikeBut names document store other fresh (after, .error fault) (after', .error fault')

end Document

namespace Setting

variable {setting : Setting} {store : Store} {forest : Forest}

theorem tokens_without : (forest.without setting.passes).tokens =
    forest.tokens.filter fun entry => !setting.passes entry.2 := by
  rw [Forest.tokens, Forest.leaves_without, Forest.tokens, List.filter_map]
  rfl

theorem bears_leaf (hs : setting.document.Stands store forest) {entry : Nat × Label} (h : entry ∈ forest.leaves) :
    setting.document.bears setting.passThrough store entry.1 = setting.passes entry.2 := by
  have hmem : entry ∈ (setting.document.whole forest).leaves := by
    rw [Document.whole, Forest.leaves_append, Forest.leaves_append]
    exact List.mem_append_right _ (List.mem_append_left _ h)
  have hholds := hs.linked.kept.leaf hmem
  have hbos : entry.1 ≠ setting.document.bos := fun he => hs.ends_not_mem.1 (he ▸ Forest.ids_subset_of_leaves h)
  have hkey : (store.node entry.1).key = entry.2.key := hholds.key
  rw [Document.bears, hholds.isLeaf, bne_iff_ne.mpr hbos, hkey, passes_of_isToken (hs.tokens entry h)]
  rfl

-- The tokens of a document that are not passed through.
theorem content_without (hs : setting.document.Stands store forest) :
    (setting.document.content store).filter (fun id => !setting.document.bears setting.passThrough store id) =
      (forest.without setting.passes).leaves.map Prod.fst := by
  rw [hs.content, Forest.leaves_without, List.filter_map]
  refine congrArg (List.map Prod.fst) (List.filter_congr fun entry h => ?_)
  rw [Function.comp_apply, bears_leaf hs h]

-- The copy of the root without what is passed through.
theorem snapshotsWithout_root (hclosing : setting.passes Document.eosLabel = false)
    (hs : setting.document.Stands store forest) :
    store.snapshotsWithout (setting.document.bears setting.passThrough store) setting.document.root =
      [.ofRoot (forest.without setting.passes).snapshots] := by
  have hnode : ∀ id, (store.node id).isLeaf = false →
      setting.document.bears setting.passThrough store id = false := by
    intro id h
    rw [Document.bears, h]
    rfl
  obtain ⟨fuel, hfuel, hcopy⟩ := hs.toPlanted.snapshotsWithout (hnode _ hs.toPlanted.not_isLeaf)
  rw [Document.whole, Forest.ids_append, Forest.ids_append, List.length_append, List.length_append] at hfuel
  obtain ⟨hbos, hrest⟩ := Store.kept_append.mp hs.linked.kept
  obtain ⟨hforest, heos⟩ := Store.kept_append.mp hrest
  -- the two ends stay, whatever name the first of them has
  have hopening : ∀ entry ∈ setting.document.opening.leaves,
      setting.document.bears setting.passThrough store entry.1 = false := by
    intro entry h
    obtain rfl := List.mem_singleton.mp h
    simp [Document.bears]
  have hlast : ∀ entry ∈ setting.document.closing.leaves,
      setting.document.bears setting.passThrough store entry.1 = false := by
    intro entry h
    obtain rfl := List.mem_singleton.mp h
    have hkey : (store.node setting.document.eos).key = Document.eosLabel.key := heos.1.key
    rw [passes, Bool.or_eq_false_iff] at hclosing
    rw [Document.bears, hkey, hclosing.2, Bool.and_false]
  have hcopies := hforest.snapshotsWithout hnode (fun _ => bears_leaf hs) (show forest.ids.length ≤ fuel by omega)
  have hfirst := @Store.Kept.snapshotsWithout _ _ (fun _ => false) _ fuel hbos hnode hopening (by omega)
  have hend := @Store.Kept.snapshotsWithout _ _ (fun _ => false) _ fuel heos hnode hlast (by omega)
  rw [hcopy, Document.whole, Forest.roots_append, Forest.roots_append, List.flatMap_append, List.flatMap_append,
    hfirst, hcopies, hend]
  rfl

-- The leaves of a document as the leaf parser gets them that gets nothing of what is
-- passed through.
def sifted (setting : Setting) (forest : Forest) : List Leaf :=
  setting.leaves ((forest ++ setting.document.closing).without setting.passes)

theorem leaves_without :
    setting.leaves (forest.without setting.passes) = (setting.leaves forest).filter fun leaf => !leaf.passes := by
  rw [leaves, Forest.leaves_without, leaves, List.filter_map]
  rfl

theorem without_closing (hclosing : setting.passes Document.eosLabel = false) :
    (forest ++ setting.document.closing).without setting.passes =
      forest.without setting.passes ++ setting.document.closing := by
  rw [Forest.without_append]
  exact congrArg _ (Forest.without_leaf_of_neg hclosing)

end Setting

-- Whether a parse ends as the leaf parser does that gets nothing of what is passed through.
inductive Sifts (setting : Setting) (forest : Forest) (machine : Machine) : Store × Except Fault ParseStatus → Prop where
  | accepted {after : Store} {content : Forest} :
      machine.verdict? setting.table = some .accepts → setting.document.Stands after content →
      content.tokens = forest.tokens →
      (content.without setting.passes).snapshots = (machine.slots.map Slot.copy).reverse →
      Sifts setting forest machine (after, .ok .accepted)
  | rejected {after : Store} {place node : Nat} :
      machine.verdict? setting.table = some .rejects →
      place + machine.leaves.length = (setting.sifted forest).length →
      ((forest.without setting.passes).leaves.map Prod.fst ++ [setting.document.eos])[place]? = some node →
      Sifts setting forest machine (after, .ok (.rejected node))
  | failed {after : Store} {fault : Fault} :
      machine.verdict? setting.table = some .fails → Sifts setting forest machine (after, .error fault)

theorem Sifts.exists_verdict {setting : Setting} {forest : Forest} {machine : Machine}
    {result : Store × Except Fault ParseStatus} (hs : Sifts setting forest machine result) :
    ∃ verdict, machine.verdict? setting.table = some verdict := by
  cases hs with
  | accepted hv _ _ _ => exact ⟨_, hv⟩
  | rejected hv _ _ => exact ⟨_, hv⟩
  | failed hv => exact ⟨_, hv⟩

namespace Setting

variable {setting : Setting} {store : Store} {forest : Forest} {scene : Scene}

-- The place of the next token among those that are not passed through.
theorem Sound.place_sift (hd : setting.Strict) (hs : setting.Sound false forest.tokens scene) {id : Nat} {label : Label}
    {after : Forest} (hahead : scene.ahead = .leaf id label after) (hkept : setting.passes label = false) :
    ∃ place, place + (setting.machine (setting.sift scene)).leaves.length = (setting.sifted forest).length ∧
      ((forest.without setting.passes).leaves.map Prod.fst ++ [setting.document.eos])[place]? = some id := by
  obtain ⟨inner, hinner, htotal⟩ := hs.total
  have hrest : (setting.sift scene).ahead = inner.without setting.passes ++ setting.document.closing := by
    rw [sift, hinner]
    exact without_closing hd.closing
  have htokens : ((Piece.contents .nil scene.pieces).without setting.passes ++ inner.without setting.passes).tokens =
      (forest.without setting.passes).tokens := by
    rw [← Forest.without_append, tokens_without, htotal, tokens_without]
  have hnext : inner.without setting.passes ++ setting.document.closing = .leaf id label (after.without setting.passes) := by
    rw [← hrest, sift, hahead, Forest.without_leaf_of_neg hkept]
  refine ⟨((Piece.contents .nil scene.pieces).without setting.passes).leaves.length, ?_,
    Document.getElem?_place htokens hnext⟩
  have hlength := congrArg List.length htokens
  rw [Forest.tokens, Forest.tokens, List.length_map, List.length_map, Forest.leaves_append, List.length_append] at hlength
  rw [machine, hrest, sifted, without_closing hd.closing, Setting.leaves, List.length_map, List.length_map,
    Forest.leaves_append, List.length_append, Forest.leaves_append, List.length_append, ← hlength, Nat.add_assoc]

-- A parse that reuses nothing ends as the leaf parser does that gets nothing of what is
-- passed through, if that makes only so many reductions.
theorem attempt_sifts (hd : setting.Strict) (hstands : setting.document.Stands store forest)
    (hset : forest.Settled (setting.Whole false))
    (hflat : setting.reparse = true ∨ ∃ entries, forest = .ofLeaves entries)
    (hsettles : Machine.Settles setting.table (setting.sifted forest)) (metrics : Metrics) :
    ∃ least after metrics' outcome machine,
      (∀ fuel, least ≤ fuel → setting.attempt fuel store metrics = some (after, metrics', outcome)) ∧
      (∀ node state, outcome ≠ .ok (.rejected node state true)) ∧
      Machine.Steps setting.table ⟨[], setting.sifted forest⟩ machine ∧
      Sifts setting forest machine (after, outcome.map Outcome.status) := by
  have ht := Forest.isToken_tokens.mpr hstands.tokens
  have hplain := hd.plain.resolve_left Bool.false_ne_true
  have hp := @plain_scene setting forest store hflat
  have hs := @sound_scene setting false store _ hset
  have htracks := hd.tracks ht
  have hacc := htracks.acc ⟨hp, hs⟩ (hsettles.acc .refl)
  obtain ⟨least, run, outcome, hattempt, hconcludes⟩ := attempt_of_acc hplain hd.wellFormed hstands hacc metrics
  generalize hresult : (run, outcome) = result at hconcludes
  cases hconcludes with
  | @accepted run' scene hr haccepts hshows =>
      obtain ⟨rfl, rfl⟩ := Prod.mk.inj hresult
      obtain ⟨⟨-, hscene⟩, hsteps⟩ := htracks.reachable ⟨hp, hs⟩ hr
      obtain ⟨settled, spelled, hstacks, -⟩ := hscene.stack
      have hahead := hscene.ahead_of_accepts hd.toRegular ht haccepts
      obtain ⟨hcontent, htokens⟩ := hscene.stands ht hahead hshows
      refine ⟨least, _, _, _, _, hattempt, nofun, hsteps,
        .accepted (hscene.verdict?_accepts hd ht haccepts) hcontent htokens ?_⟩
      rw [← hstacks.contents_sift, snapshots_contents hstacks.isSpan_sift]
      rfl
  | @rejected run' scene id state hr hrejects hid =>
      obtain ⟨rfl, rfl⟩ := Prod.mk.inj hresult
      obtain ⟨⟨hplain', hscene⟩, hsteps⟩ := htracks.reachable ⟨hp, hs⟩ hr
      have hverdict := hscene.verdict?_rejects hplain' hrejects
      have hflag : (scene.brokeDown || scene.validating) = false := by
        rw [(hp.reachable hd.wellFormed hplain hr).2.1, hplain'.validating]
        rfl
      obtain ⟨other, label, after, hahead, -, hpasses⟩ := hrejects
      rw [hahead] at hid
      obtain rfl := Option.some_inj.mp hid
      rw [hplain'.validating] at hpasses
      obtain ⟨place, hplace, hnode⟩ := hscene.place_sift hd hahead (hpasses.resolve_left Bool.false_ne_true)
      refine ⟨least, _, _, _, _, hattempt, ?_, hsteps, .rejected hverdict hplace hnode⟩
      rw [hflag]
      nofun
  | @failed run' scene fault hr hfails =>
      obtain ⟨rfl, rfl⟩ := Prod.mk.inj hresult
      obtain ⟨⟨-, hscene⟩, hsteps⟩ := htracks.reachable ⟨hp, hs⟩ hr
      exact ⟨least, _, _, _, _, hattempt, nofun, hsteps, .failed (hscene.verdict?_fails hd ht hfails)⟩

end Setting

-- Two parses in which the leaf parser gets the same end alike, if one of them passes
-- nothing through.
theorem Sifts.endsAlikeBut {setting other : Setting} {store fresh : Store} {forest forest' : Forest}
    {machine : Machine} {result result' : Store × Except Fault ParseStatus}
    (hs : Sifts setting forest machine result) (ho : Sifts other forest' machine result')
    (htable : other.table = setting.table) (hsifted : other.sifted forest' = setting.sifted forest)
    (hclosing : setting.passes Document.eosLabel = false) (hstands : setting.document.Stands store forest)
    (hstands' : other.document.Stands fresh forest') (hnone : ∀ entry ∈ forest'.leaves, other.passes entry.2 = false) :
    setting.document.EndsAlikeBut setting.passThrough store other.document fresh result result' := by
  have hwithout : ∀ {content : Forest}, content.tokens = forest'.tokens → content.without other.passes = content := by
    intro content htokens
    have htokens' : ∀ entry ∈ content.tokens, other.passes entry.2 = false := by
      rw [htokens]
      exact List.forall_mem_map.mpr hnone
    exact Forest.without_eq_self (List.forall_mem_map.mp htokens')
  cases hs with
  | accepted hv hcontent htokens hcopies =>
      cases ho with
      | accepted hv' hcontent' htokens' hcopies' =>
          refine .accepted ?_
          rw [Setting.snapshotsWithout_root hclosing hcontent, hcontent'.snapshot_root, hcopies, ← hcopies', hwithout htokens']
      | rejected hv' _ _ => cases hv.symm.trans (htable ▸ hv')
      | failed hv' => cases hv.symm.trans (htable ▸ hv')
  | rejected hv hplace hnode =>
      cases ho with
      | accepted hv' _ _ _ => cases hv.symm.trans (htable ▸ hv')
      | rejected hv' hplace' hnode' =>
          rw [hsifted] at hplace'
          obtain rfl := Nat.add_right_cancel (hplace.trans hplace'.symm)
          rw [hwithout rfl, ← hstands'.content] at hnode'
          rw [← Setting.content_without hstands] at hnode
          exact .rejected hnode hnode'
      | failed hv' => cases hv.symm.trans (htable ▸ hv')
  | failed hv =>
      cases ho with
      | accepted hv' _ _ _ => cases hv.symm.trans (htable ▸ hv')
      | rejected hv' _ _ => cases hv.symm.trans (htable ▸ hv')
      | failed _ => exact .failed

namespace Parser

variable {parser : Parser} {document : Document} {store after : Store} {reparse : Bool}

theorem exists_parse_of_attempt {metrics : Metrics} {outcome : Except Fault Outcome}
    (hsure : ∀ node state, outcome ≠ .ok (.rejected node state true)) :
    ∃ parser', ∀ fuel,
      (parser.setting document (reparse || parser.reparse)).attempt fuel store default = some (after, metrics, outcome) →
      parser.parse fuel store document reparse = some (parser', after, outcome.map Outcome.status) := by
  rcases outcome with fault | outcome
  · exact ⟨_, fun fuel h => by rw [parse, attempts, h]; rfl⟩
  · cases outcome with
    | accepted => exact ⟨_, fun fuel h => by rw [parse, attempts, h]; rfl⟩
    | rejected node state unsure =>
        cases unsure with
        | true => exact absurd rfl (hsure node state)
        | false => exact ⟨_, fun fuel h => by rw [parse, attempts, h]; rfl⟩

theorem parse_of_le {fuel more : Nat} {result : Parser × Store × Except Fault ParseStatus} (hle : fuel ≤ more)
    (h : parser.parse fuel store document reparse = some result) :
    parser.parse more store document reparse = some result := by
  unfold parse at h ⊢
  obtain ⟨⟨after, metrics, outcome⟩, ha, rfl⟩ := Option.map_eq_some_iff.mp h
  refine Option.map_eq_some_iff.mpr ⟨(after, metrics, outcome), ?_, rfl⟩
  unfold attempts at ha ⊢
  obtain ⟨⟨first, counts, ended⟩, hfirst, hrest⟩ := Option.bind_eq_some_iff.mp ha
  refine Option.bind_eq_some_iff.mpr ⟨_, Setting.attempt_of_le hle hfirst, ?_⟩
  dsimp only at hrest ⊢
  split at hrest
  · split at hrest
    · rename_i hexact
      rw [if_pos hexact]
      exact Setting.attempt_of_le hle hrest
    · rename_i hexact
      rw [if_neg hexact]
      exact hrest
  · exact hrest

end Parser

-- Whether reductions come to an end, whatever tokens a parser gets.
def SyntaxTable.Settles (table : SyntaxTable) : Prop :=
  ∀ tokens : List Token, Machine.Settles table (tokens.map (Token.leaf table.grammar) ++ [.finish])

namespace Document

variable {grammar : Grammar} {mode : Mode} {passThrough : List String} {parser : Parser}

-- What is left for the leaf parser of a fresh document.
theorem sifted_ofTokens (hw : grammar.toRules.WellFormed) (hfinish : Symbol.finish.name ∉ passThrough)
    (document : Document) (reparse : Bool) (first : Nat) (tokens : List Token) :
    Setting.sifted ⟨.ofGrammar grammar mode, passThrough, document, reparse⟩
        (Forest.ofLeaves (enumerate first (tokens.map tokenContent))) =
      (tokens.filter fun token => !passThrough.contains token.lookupName).map (Token.leaf grammar) ++ [.finish] := by
  have hfilter : passThrough.contains Symbol.finish.name = false := by
    rw [List.contains_eq_mem, decide_eq_false_iff_not]
    exact hfinish
  rw [Setting.sifted, Setting.leaves_without, Setting.leaves_append, Setting.leaves_closing, Setting.leaves_eq_tokens]
  refine (congrArg (List.filter fun leaf => !leaf.passes)
    (input_ofTokens_passing hw passThrough document reparse first tokens)).trans ?_
  rw [List.filter_append, List.filter_map, List.filter_cons_of_pos (by simp [hfinish]), List.filter_nil]
  refine congrArg₂ (· ++ ·) (List.map_congr_left fun token h => ?_) ?_
  · have hkept := (List.mem_filter.mp h).2
    simp only [Function.comp_apply, Bool.not_eq_true'] at hkept
    rw [hkept]
    rfl
  · rw [hfilter]
    rfl

-- A parse of a fresh document comes to an end.
theorem parse_ofTokens_sifts (hb : grammar.Built) (hwild : grammar.toRules.Avoids Symbol.isWildcard)
    (hsettles : (SyntaxTable.ofGrammar grammar mode).Settles)
    (hapart : ∀ symbol ∈ grammar.symbols, symbol ≠ .epsilon → symbol.name ∉ passThrough)
    (htable : parser.table = .ofGrammar grammar mode) (hpass : parser.passThrough = passThrough) (store : Store)
    (tokens : List Token) (reparse : Bool) :
    let document := ofTokens store tokens
    let setting : Setting := ⟨.ofGrammar grammar mode, passThrough, document.2, reparse || parser.reparse⟩
    let forest := Forest.ofLeaves (enumerate (store.size + 2) (tokens.map tokenContent))
    ∃ least parser' after outcome machine,
      (∀ fuel, least ≤ fuel → parser.parse fuel document.1 document.2 reparse = some (parser', after, outcome)) ∧
      Machine.Steps setting.table ⟨[], setting.sifted forest⟩ machine ∧ Sifts setting forest machine (after, outcome) := by
  intro document setting forest
  have hfinish : Symbol.finish.name ∉ passThrough :=
    hapart .finish (Array.mem_of_getElem? hb.wellFormed.finish) (by decide)
  have hsettles' : Machine.Settles setting.table (setting.sifted forest) := by
    rw [sifted_ofTokens hb.wellFormed hfinish]
    exact hsettles _
  obtain ⟨least, after, metrics, outcome, machine, hattempt, hsure, hsteps, hsifts⟩ :=
    @Setting.attempt_sifts setting _ _ (strict_setting hb hwild hapart document.2 _) (stands_ofTokens store tokens)
      Forest.settled_ofLeaves (Or.inr ⟨_, rfl⟩) hsettles' default
  have hsetting : parser.setting document.2 (reparse || parser.reparse) = setting := by
    rw [Parser.setting, htable, hpass]
  obtain ⟨parser', hparse⟩ := @Parser.exists_parse_of_attempt parser document.2 document.1 after reparse metrics _ hsure
  exact ⟨least, parser', after, _, machine, fun fuel hfuel => hparse fuel (hsetting ▸ hattempt fuel hfuel), hsteps, hsifts⟩

-- Tokens that are passed through and that the grammar does not know are invisible to a
-- parse: without them it ends alike, whatever conflicts the table has. It fails only
-- if the end of the input stands in a right side.
theorem parse_ofTokens_endsAlikeBut (hb : grammar.Built) (hwild : grammar.toRules.Avoids Symbol.isWildcard)
    (hsettles : (SyntaxTable.ofGrammar grammar mode).Settles)
    (hapart : ∀ symbol ∈ grammar.symbols, symbol ≠ .epsilon → symbol.name ∉ passThrough) {other : Parser}
    (htable : parser.table = .ofGrammar grammar mode) (htable' : other.table = .ofGrammar grammar mode)
    (hpass : parser.passThrough = passThrough) (hpass' : other.passThrough = passThrough) (store fresh : Store)
    (tokens : List Token) (reparse reparse' : Bool) :
    let document := ofTokens store tokens
    let document' := ofTokens fresh (tokens.filter fun token => !passThrough.contains token.lookupName)
    ∃ least parser' after outcome other' after' outcome',
      (∀ fuel, least ≤ fuel →
        parser.parse fuel document.1 document.2 reparse = some (parser', after, outcome) ∧
        other.parse fuel document'.1 document'.2 reparse' = some (other', after', outcome')) ∧
      document.2.EndsAlikeBut passThrough document.1 document'.2 document'.1 (after, outcome) (after', outcome') ∧
      (grammar.toRules.Avoids (· == .finish) → ∃ status, outcome = .ok status) := by
  intro document document'
  have hw := hb.wellFormed
  have hfinish : Symbol.finish.name ∉ passThrough :=
    hapart .finish (Array.mem_of_getElem? hw.finish) (by decide)
  obtain ⟨least, parser', after, outcome, machine, hparse, hsteps, hsifts⟩ :=
    parse_ofTokens_sifts hb hwild hsettles hapart htable hpass store tokens reparse
  obtain ⟨most, other', after', outcome', machine', hparse', hsteps', hsifts'⟩ :=
    parse_ofTokens_sifts hb hwild hsettles hapart htable' hpass' fresh
      (tokens.filter fun token => !passThrough.contains token.lookupName) reparse'
  have hsifted := @sifted_ofTokens grammar mode _ hw hfinish document.2 (reparse || parser.reparse) (store.size + 2) tokens
  have hsifted' := @sifted_ofTokens grammar mode _ hw hfinish document'.2 (reparse' || other.reparse) (fresh.size + 2)
    (tokens.filter fun token => !passThrough.contains token.lookupName)
  simp only [List.filter_filter, Bool.and_self] at hsifted'
  rw [← hsifted] at hsifted'
  rw [hsifted'] at hsteps'
  obtain ⟨verdict, hverdict⟩ := hsifts.exists_verdict
  obtain ⟨verdict', hverdict'⟩ := hsifts'.exists_verdict
  obtain rfl := hsteps.eq_of_verdict? hsteps' hverdict hverdict'
  refine ⟨max least most, parser', after, outcome, other', after', outcome', fun fuel hfuel => ?_, ?_, fun havoids => ?_⟩
  · exact ⟨hparse fuel (Nat.le_trans (Nat.le_max_left _ _) hfuel),
      hparse' fuel (Nat.le_trans (Nat.le_max_right _ _) hfuel)⟩
  · refine hsifts.endsAlikeBut hsifts' rfl hsifted' (strict_setting hb hwild hapart document.2 _).closing
      (stands_ofTokens store tokens) (stands_ofTokens fresh _) fun entry h => ?_
    rw [Forest.leaves_ofLeaves] at h
    obtain ⟨content, hcontent, hlabel⟩ := mem_enumerate h
    obtain ⟨token, htoken, rfl⟩ := List.mem_map.mp hcontent
    rw [hlabel, Setting.passes_of_isToken (isToken_tokenContent token)]
    exact (Bool.not_eq_true' _).mp (List.mem_filter.mp htoken).2
  · cases hsifts with
    | accepted => exact ⟨_, rfl⟩
    | rejected => exact ⟨_, rfl⟩
    | failed hv =>
        rw [hsifted] at hsteps
        refine absurd hv (@Machine.not_fails _ _ hw (faithful_build hw mode) havoids _ .finish _ rfl Token.leaf_plain hsteps)

end Document

-- A grammar of sums that is ambiguous.
def Declarations.summed : Declarations := {
  start := none
  rules := [
    ("E", ⟨[.nonterminal "E", .terminal "+", .nonterminal "E"], none, none⟩),
    ("E", ⟨[.terminal "a"], none, none⟩)]
  precedences := [] }

def Rules.summed : Rules := {
  symbols := #[.finish, .epsilon, .nonterminal "E", .terminal "+", .terminal "a"]
  productions := #[⟨none, [2], none, none⟩, ⟨some 2, [2, 3, 2], none, none⟩, ⟨some 2, [4], none, none⟩]
  start := 2
  precedences := Array.replicate 5 none }

theorem built_summed : Rules.summed.toGrammar.Built :=
  .declared (show Declarations.summed.build = .ok Rules.summed.toGrammar from rfl)

-- A terminal weighs more than the nonterminal.
theorem settles_summed (mode : Mode) : (SyntaxTable.ofGrammar Rules.summed.toGrammar mode).Settles := by
  intro tokens
  exact Machine.settles_of_lightens built_summed.wellFormed (faithful_build built_summed.wellFormed mode)
    (show Rules.summed.Lightens fun symbol => if symbol = 2 then 1 else 2 from Rules.lightens_of_all rfl)
    Token.leaf_plain

def Parser.summed : Parser := .ofTable (.ofGrammar Rules.summed.toGrammar .lalr) ["_"] true false

-- A sum with tokens to pass through before, within and behind it.
def Token.summed : List Token :=
  [.matched none "_" 0 1, .matched none "a" 1 2, .matched none "_" 2 3, .matched none "+" 3 4,
    .matched none "a" 4 5, .matched none "_" 5 6]

namespace Document

theorem parse_ofTokens_endsAlikeBut_summed :
    (Rules.summed.toGrammar.Built ∧ Rules.summed.Avoids Symbol.isWildcard ∧
      (SyntaxTable.ofGrammar Rules.summed.toGrammar .lalr).conflicts ≠ [] ∧ Parser.summed.table.Settles ∧
      (∀ symbol ∈ Rules.summed.symbols, symbol ≠ .epsilon → symbol.name ∉ ["_"]) ∧
      (Token.summed.filter fun token => !(["_"].contains token.lookupName)).length = 3) ∧
    let document := ofTokens .empty Token.summed
    let document' := ofTokens .empty (Token.summed.filter fun token => !(["_"].contains token.lookupName))
    ∃ least parser' after outcome other' after' outcome',
      (∀ fuel, least ≤ fuel →
        Parser.summed.parse fuel document.1 document.2 false = some (parser', after, outcome) ∧
        Parser.summed.parse fuel document'.1 document'.2 false = some (other', after', outcome')) ∧
      document.2.EndsAlikeBut ["_"] document.1 document'.2 document'.1 (after, outcome) (after', outcome') ∧
      (Rules.summed.Avoids (· == .finish) → ∃ status, outcome = .ok status) := by
  have hwild : Rules.summed.Avoids Symbol.isWildcard := Rules.avoids_of_all rfl
  have hapart : ∀ symbol ∈ Rules.summed.symbols, symbol ≠ .epsilon → symbol.name ∉ ["_"] := by decide
  exact ⟨⟨built_summed, hwild, by decide +kernel, settles_summed .lalr, hapart, by decide +kernel⟩,
    parse_ofTokens_endsAlikeBut built_summed hwild (settles_summed .lalr) hapart rfl rfl rfl rfl .empty .empty
      Token.summed false false⟩

end Document

end IncrementalLR
