import IncrementalLR.Proofs.Document.Threaded
import IncrementalLR.Proofs.Tree.Records

namespace IncrementalLR

-- Whether a parser is one for a grammar, whatever graph its table was made of.
def Parser.IsBuilt (parser : Parser) : Prop := ∃ grammar graph, grammar.Built ∧ parser.table = .build graph grammar

namespace Setting

open Document

variable {setting : Setting} {grammar : Grammar} {graph : StateGraph} {pieces : List Piece} {symbol : Symbol}
  {scene : Scene} {last : Nat × Label} {content : Forest}

-- No token but the end of the input is accepted.
theorem finish_of_accept (hw : grammar.toRules.WellFormed) (ht : setting.table = .build graph grammar)
    (h : setting.lookup? pieces symbol = some .accept) : symbol = .finish := by
  rw [lookup?_eq] at h
  obtain ⟨id, hid, haction⟩ := Option.bind_eq_some_iff.mp h
  have hsymbol : grammar.symbol id = symbol.key := by
    rw [idOf?, ht] at hid
    exact Rules.symbol_of_getElem? (hw.symbolId?_eq_some.mp hid)
  rw [ht] at haction
  generalize haccept : Action.accept = action at haction
  cases candidate_of_action? haction with
  | accept =>
      rw [hw.symbol_finish] at hsymbol
      cases symbol with
      | finish => rfl
      | _ => cases hsymbol
  | shift => cases haccept
  | reduce => cases haccept
  | goto => cases haccept

-- A parse that accepts has come to the last leaf, which alone is an end of input.
theorem ahead_of_accepts (hw : grammar.toRules.WellFormed) (ht : setting.table = .build graph grammar)
    (hc : ClosesWith last scene) (hinner : ∀ entry ∈ content.leaves, entry.2.symbol ≠ .finish)
    (htokens : (Piece.contents .nil scene.pieces ++ scene.ahead).tokens = (content ++ .leaf last.1 last.2 .nil).tokens)
    (ha : Accepts setting scene) :
    scene.ahead = .leaf last.1 last.2 .nil ∧ (Piece.contents .nil scene.pieces).tokens = content.tokens := by
  obtain ⟨inner, hahead⟩ := hc
  have hcontent : (Piece.contents .nil scene.pieces).tokens ++ inner.tokens = content.tokens := by
    rw [hahead, Forest.tokens_append, Forest.tokens_append, Forest.tokens_append, ← List.append_assoc] at htokens
    exact List.append_cancel_right htokens
  obtain ⟨id, label, after, hleaf, haction⟩ := ha
  rcases @before_of_append_last last after (.leaf id label) inner (hleaf.symm.trans hahead) with
    ⟨rfl, -, -⟩ | ⟨behind, rfl, -⟩
  · refine ⟨hahead, ?_⟩
    rw [← hcontent]
    exact (List.append_nil _).symm
  · have hmem : (id, label.parsed) ∈ content.tokens := by
      rw [← hcontent]
      exact List.mem_append_right _ List.mem_cons_self
    obtain ⟨entry, hentry, he⟩ := List.mem_map.mp hmem
    have hsymbol : entry.2.symbol = label.symbol := congrArg (fun entry => entry.2.symbol) he
    have hkey := finish_of_accept hw ht haction
    refine absurd ?_ (hinner entry hentry)
    rw [hsymbol]
    rw [Label.key] at hkey
    split at hkey
    · cases hkey
    · cases hs : label.symbol with
      | finish => rfl
      | _ =>
          rw [hs] at hkey
          cases hkey

-- What an attempt puts below the root, once it accepts.
theorem attempt_plants {store after : Store} {first last : Label} {metrics metrics' : Metrics} {fuel : Nat}
    (hg : grammar.toRules.WellFormed) (ht : setting.table = .build graph grammar)
    (hp : store.Planted setting.document.root (setting.document.framed first last content)) (hlast : last.symbol = .finish)
    (hinner : ∀ entry ∈ content.leaves, entry.2.symbol ≠ .finish)
    (h : setting.attempt fuel store metrics = some (after, metrics', .ok .accepted)) :
    ∃ result, after.Planted setting.document.root (setting.document.framed first last result) ∧
      result.tokens = content.tokens ∧ (∀ id ∈ result.ids, id ∈ content.ids ∨ store.size ≤ id) := by
  obtain ⟨run, scene, rfl, hr, haccepts, hends⟩ := exists_scene_of_accepted (ht ▸ hg) hp h
  have hcloses : ClosesWith (setting.document.eos, last) scene := ClosesWith.reachable hlast ⟨content, rfl⟩ hr
  obtain ⟨hahead, htokens⟩ := ahead_of_accepts hg ht hcloses hinner (@Reachable.tokens _ .nil _ _ hr) haccepts
  have hplanted := (planted_accept hends hahead).1
  refine ⟨Piece.contents .nil scene.pieces, hplanted, htokens, fun id hid => ?_⟩
  have hmem := (@Reachable.ids _ .nil _ _ hr).2 id (by rw [Forest.ids_append]; exact List.mem_append_left _ hid)
  refine hmem.imp_left fun hmem => ?_
  have hne : id ≠ setting.document.eos := by
    have hn := (List.nodup_cons.mp (List.nodup_cons.mp hplanted.nodup).2).2
    rw [Forest.ids_append] at hn
    exact (List.nodup_append.mp hn).2.2 id hid _ List.mem_cons_self
  have hold : id ∈ (content ++ Forest.leaf setting.document.eos last .nil).ids := hmem
  rw [Forest.ids_append] at hold
  exact (List.mem_append.mp hold).resolve_right fun h => hne (List.mem_singleton.mp h)

end Setting

namespace Document

variable {parser parser' : Parser} {document : Document} {store after : Store} {forest : Forest} {fuel : Nat}
  {reparse : Bool} {status : Except Fault ParseStatus}

-- An accepted parse has come to the end of the document with all trees before it on the
-- stack, and has put them below the root.
theorem Threaded.exists_scene_of_accepted (hb : parser.IsBuilt) (ht : document.Threaded store forest)
    (hp : parser.parse fuel store document reparse = some (parser', after, .ok .accepted)) :
    ∃ reparse' middle first last content scene, store.Remarked (fun _ => True) middle ∧
      (forest.reflag fun id => (middle.node id).changed) = document.framed first last content ∧
      Reachable (parser.setting document reparse') ⟨[], content ++ .leaf document.eos last .nil, middle.size, false, false⟩
        scene ∧
      Accepts (parser.setting document reparse') scene ∧ scene.ahead = .leaf document.eos last .nil ∧
      after.Planted document.root (document.framed first last (Piece.contents .nil scene.pieces)) ∧
      (after.node document.root).changed = false := by
  obtain ⟨grammar, graph, hbuilt, htable⟩ := hb
  obtain ⟨reparse', middle, metrics, metrics', hr, hattempt⟩ := Parser.attempt_of_accepted hp
  have hmiddle := ht.congr (fun id h => hr.size.symm ▸ ht.lt_size id h) fun id _ => hr.attributes
  obtain ⟨first, last, content, hforest, hends, hinner⟩ := hmiddle.frames
  have hfinish : last.symbol = .finish := (congrArg Label.symbol hends.2 : last.parsed.symbol = _)
  have htable' : (parser.setting document reparse').table = .build graph grammar := htable
  obtain ⟨run, scene, rfl, hreach, haccepts, hshows⟩ :=
    Setting.exists_scene_of_accepted (htable' ▸ hbuilt.wellFormed) (hforest ▸ hmiddle.toPlanted) hattempt
  have hcloses : ClosesWith (document.eos, last) scene := ClosesWith.reachable hfinish ⟨content, rfl⟩ hreach
  obtain ⟨hahead, -⟩ := Setting.ahead_of_accepts hbuilt.wellFormed htable' hcloses hinner
    (@Reachable.tokens _ .nil _ _ hreach) haccepts
  obtain ⟨hplanted, hflag, -⟩ := planted_accept hshows hahead
  exact ⟨reparse', middle, first, last, content, scene, hr, hforest, hreach, haccepts, hahead, hplanted, hflag⟩

-- A parse leaves the tokens of the document as they are, whatever becomes of the trees.
theorem Threaded.parse (hb : parser.IsBuilt) (ht : document.Threaded store forest)
    (hp : parser.parse fuel store document reparse = some (parser', after, status)) :
    ∃ result, document.Becomes store forest after result ∧ document.sequence after = document.sequence store := by
  have hidle : ∀ id, id < store.size → (after.node id).prevTerminal = (store.node id).prevTerminal ∧
      (after.node id).nextTerminal = (store.node id).nextTerminal := by
    intro id hlt
    have h := Parser.parse_idle hp hlt
    exact ⟨show (after.node id).idle.prevTerminal = (store.node id).idle.prevTerminal by rw [h],
      show (after.node id).idle.nextTerminal = (store.node id).idle.nextTerminal by rw [h]⟩
  rcases Parser.parse_remarks (Store.closed_all store) (Document.within_all _) hp with ⟨rfl, -⟩ | ⟨-, hr⟩
  · obtain ⟨grammar, graph, hbuilt, htable⟩ := hb
    obtain ⟨reparse', middle, metrics, metrics', hr, hattempt⟩ := Parser.attempt_of_accepted hp
    have hmiddle := ht.congr (fun id h => hr.size.symm ▸ ht.lt_size id h) fun id _ => hr.attributes
    obtain ⟨first, last, content, hforest, hends, hinner⟩ := hmiddle.frames
    have hfinish : last.symbol = .finish := (congrArg Label.symbol hends.2 : last.parsed.symbol = _)
    obtain ⟨result, hplanted, htokens, hids⟩ := @Setting.attempt_plants (parser.setting document reparse') grammar graph
      content middle after first last metrics metrics' fuel hbuilt.wellFormed htable (hforest ▸ hmiddle.toPlanted)
      hfinish hinner hattempt
    have hall : (document.framed first last result).tokens = forest.tokens := by
      rw [← @Forest.tokens_reflag (fun id => (middle.node id).changed) forest, hforest]
      simp only [framed, Forest.tokens, Forest.leaves, Forest.leaves_append, List.map_cons, List.map_append] at htokens ⊢
      rw [htokens]
    have hleaves : (document.framed first last result).leaves.map Prod.fst = forest.leaves.map Prod.fst := by
      have hmap := congrArg (List.map Prod.fst) hall
      rwa [Forest.tokens, Forest.tokens, List.map_map, List.map_map] at hmap
    have hafter : document.Threaded after (document.framed first last result) := by
      refine ⟨hplanted, ⟨first, last, result, rfl, hends, fun entry h => ?_⟩, ?_⟩
      · have hmem : (entry.1, entry.2.parsed) ∈ content.tokens := htokens ▸ List.mem_map_of_mem h
        obtain ⟨old, hold, he⟩ := List.mem_map.mp hmem
        have hsymbol : old.2.symbol = entry.2.symbol := congrArg (fun entry => entry.2.symbol) he
        exact hsymbol ▸ hinner old hold
      · rw [hleaves]
        refine ht.threads.congr fun id h => ?_
        have hid := hidle id (ht.lt_size id (List.mem_cons_of_mem _ (Forest.leaves_sublist.subset h)))
        exact hid
    refine ⟨_, ⟨hafter, fun id hid => ?_⟩, by rw [hafter.sequence, ht.sequence, hall]⟩
    rw [← @Forest.ids_reflag (fun id => (middle.node id).changed) forest, hforest]
    simp only [framed, Forest.ids, Forest.ids_append, List.mem_cons, List.mem_append, List.not_mem_nil, or_false] at hid ⊢
    rcases hid with hid | hid | hid
    · exact Or.inl (Or.inl hid)
    · exact (hids id hid).imp (fun h => Or.inr (Or.inl h)) fun h => hr.size ▸ h
    · exact Or.inl (Or.inr (Or.inr hid))
  · have hlt : ∀ id ∈ document.root :: forest.ids, id < after.size := fun id h => hr.size.symm ▸ ht.lt_size id h
    have hafter := ht.congr hlt fun id _ => hr.attributes
    refine ⟨_, ⟨hafter, fun id hid => Or.inl (Forest.ids_reflag ▸ hid)⟩, ?_⟩
    rw [hafter.sequence, ht.sequence, Forest.tokens_reflag]

end Document

end IncrementalLR
