import IncrementalLR.Proofs.Document.Fresh
import IncrementalLR.Proofs.Parse.Stacking
import IncrementalLR.Proofs.Tree.Planted
import IncrementalLR.Proofs.Tree.Gap

namespace IncrementalLR

theorem Store.Planted.stands {document : Document} {store : Store} {forest : Forest}
    (hp : store.Planted document.root (document.whole forest)) (ht : ∀ entry ∈ forest.leaves, entry.2.IsToken) :
    document.Stands store forest := ⟨hp, ht⟩

namespace Store.Rooted

variable {store other : Store} {root id anchor new version : Nat} {gap : Gap} {tree : Tree} {forest : Forest}
  {label fresh : Label}

theorem above (hr : store.Rooted root forest) : (store.node root).above = none := by
  rw [Node.above, show (store.node root).parent = none from hr.parent, show (store.node root).host = none from hr.host]
  rfl

-- Flags above a gap, and maybe in it.
theorem flagged {filling : Forest} (hr : store.Rooted root (gap.fill forest))
    (hs : other.Surrounds root gap.flag filling.roots) (hsize : other.size = store.size)
    (hparsed : ∀ id, (other.view id).parsed = (store.view id).parsed) (hkept : other.Kept filling)
    (hids : filling.ids = forest.ids) (hroots : filling.roots = forest.roots) :
    other.Rooted root (gap.flag.fill filling) := by
  have hperm : (root :: (gap.flag.fill filling).ids).Perm (root :: (gap.fill forest).ids) := by
    refine (Gap.ids_fill.trans ?_).cons root
    rw [hids, Gap.ids_flag]
    exact Gap.ids_fill.symm
  have hroot := hparsed root
  have ⟨hparent, hright, hchildren, hhost⟩ := View.links_of_parsed hroot
  refine ⟨⟨?_, hparent.trans hr.parent, hright.trans hr.right, ?_, linked_fill.mpr ⟨hs, hkept⟩,
    hperm.nodup_iff.mpr hr.nodup, fun id h => hsize ▸ hr.lt_size id (hperm.mem_iff.mp h)⟩, hhost.trans hr.host⟩
  · exact (show (other.view root).parsed.label = (store.view root).parsed.label by rw [hroot]).trans hr.label
  · rw [hchildren, hr.children, Gap.roots_flag, Gap.roots_congr hroots]

theorem mark_parent (hr : store.Rooted root (gap.fill .nil)) (hcalm : gap.Calm) (version : Nat) :
    (store.markChanged (gap.parent root) version).Rooted root (gap.flag.fill .nil) := by
  obtain ⟨hs, hf⟩ := @Surrounds.mark store root version gap [] store.size hr.surrounds hr.gap_nodup hcalm hr.above
    hr.gap_lt hr.rungs_lt
  exact @flagged _ _ _ _ _ .nil hr hs hf.size hf.parsed trivial rfl rfl

theorem mark_leaf {front : Forest} (hr : store.Rooted root (gap.fill (front ++ .leaf new fresh .nil)))
    (hcalm : gap.Calm) (hflagged : fresh.changed = true → gap.Flagged) (version : Nat) :
    (store.markChanged new version).Rooted root
      (gap.flag.fill (front ++ .leaf new { fresh with changed := true } .nil)) := by
  have hn := hr.apart
  have hlt := hr.lt
  rw [← List.cons_append, Forest.ids_append] at hn hlt
  obtain ⟨hgap, hrow, hapart⟩ := List.nodup_append.mp hn
  obtain ⟨hfront, hleaf⟩ := kept_append.mp hr.kept
  have hlabel : (store.view new).label = fresh := hleaf.1.1
  have hnew : new ∉ root :: gap.ids := fun h => hapart new h new (List.mem_append_right _ List.mem_cons_self) rfl
  have hparent : (store.view new).parent = some (gap.parent root) := by
    refine hr.surrounds.chain.parent_mem ?_
    simp [Gap.siblings, Forest.roots]
  have hsize : gap.rungs.length + 1 < store.size := by
    refine @length_le_size store (new :: root :: gap.rungs) (List.nodup_cons.mpr ⟨fun h => hnew ?_, ?_⟩) fun id h => ?_
    · exact (Gap.rungs_sublist.cons_cons root).subset h
    · exact hgap.sublist (Gap.rungs_sublist.cons_cons root)
    · rcases List.mem_cons.mp h with rfl | h
      · exact hlt _ (List.mem_append_right _ (List.mem_append_right _ List.mem_cons_self))
      · exact hr.gap_lt id ((Gap.rungs_sublist.cons_cons root).subset h)
  obtain ⟨hs, hf, hmarked⟩ := @Surrounds.mark_leaf store root version gap
    (front ++ .leaf new fresh .nil).roots new store.size hr.surrounds hgap hnew hparent hcalm
    (hlabel ▸ hflagged) hr.above
    (List.forall_mem_cons.mpr ⟨hlt new (List.mem_append_right _ (List.mem_append_right _ List.mem_cons_self)), hr.gap_lt⟩)
    hsize
  have hids : (front ++ .leaf new { fresh with changed := true } .nil).ids = (front ++ .leaf new fresh .nil).ids := by
    simp [Forest.ids]
  have hroots : (front ++ .leaf new { fresh with changed := true } .nil).roots =
      (front ++ .leaf new fresh .nil).roots := by
    simp [Forest.roots]
  refine hr.flagged (hroots ▸ hs) hf.size hf.parsed (kept_append.mpr ⟨?_, ⟨?_, ?_, hleaf.1.2.2⟩, trivial⟩) hids hroots
  · refine hfront.congr (List.nodup_append.mp hrow).1 fun id h => hf.outside id fun hmem => ?_
    rcases List.mem_cons.mp hmem with rfl | hmem
    · exact (List.nodup_append.mp hrow).2.2 _ h _ List.mem_cons_self rfl
    · refine hapart id ?_ id (List.mem_append_left _ h) rfl
      rcases List.mem_append.mp hmem with hmem | hmem
      · exact List.mem_cons_of_mem _ (Gap.rungs_subset hmem)
      · exact List.mem_singleton.mp hmem ▸ List.mem_cons_self
  · exact hmarked.trans (by rw [hlabel])
  · exact (View.links_of_parsed (hf.parsed new)).2.2.1.trans hleaf.1.2.1

end Store.Rooted

-- Trees without a flag.
def Forest.Still : Forest → Prop
  | nil => True
  | leaf _ label after => label.changed = false ∧ after.Still
  | node _ _ changed below after => changed = false ∧ below.Still ∧ after.Still

theorem Forest.still_append {forest other : Forest} : (forest ++ other).Still ↔ forest.Still ∧ other.Still := by
  induction forest with
  | nil => exact (and_iff_right trivial).symm
  | leaf id label after ih => rw [leaf_append, Still, Still, ih, and_assoc]
  | node id symbol changed below after _ ih => rw [node_append, Still, Still, ih, and_assoc, and_assoc]

theorem Forest.still_ofLeaves {entries : List (Nat × Label)} (h : ∀ entry ∈ entries, entry.2.changed = false) :
    (ofLeaves entries).Still := by
  induction entries with
  | nil => trivial
  | cons entry rest ih =>
      obtain ⟨hfirst, hrest⟩ := List.forall_mem_cons.mp h
      exact ⟨hfirst, ih hrest⟩

-- Trees without flags have their leaves for tokens.
theorem Forest.Still.tokens {forest : Forest} (hs : forest.Still) : forest.tokens = forest.leaves := by
  induction forest with
  | nil => rfl
  | leaf id label after ih =>
      obtain ⟨hchanged, hafter⟩ := hs
      have hparsed : label.parsed = label := by
        rw [Label.parsed, ← hchanged]
      exact List.cons_eq_cons.mpr ⟨congrArg (Prod.mk id) hparsed, ih hafter⟩
  | node id symbol changed below after ihbelow ih =>
      obtain ⟨-, hbelow, hafter⟩ := hs
      exact List.map_append.trans (congrArg₂ (· ++ ·) (ihbelow hbelow) (ih hafter))

-- What is whole has been parsed as it stands.
theorem Setting.Covers.still {setting : Setting} {loose settled : Bool} {sequence : List Nat} {forest : Forest}
    (hc : setting.Covers loose settled sequence forest) : forest.Still := by
  induction hc with
  | nil => trivial
  | passed hp _ _ ih => exact ⟨hp.1, ih⟩
  | token hp _ _ _ _ ih => exact ⟨hp.1, ih⟩
  | span _ _ hp _ ih => exact Forest.still_append.mpr ⟨Forest.still_ofLeaves fun entry h => (hp entry h).1, ih⟩
  | node _ _ _ ihbelow ih => exact ⟨rfl, ihbelow, ih⟩

theorem Setting.Whole.still {setting : Setting} {loose : Bool} {symbol : Symbol} {below : Forest}
    (hw : setting.Whole loose symbol below) : below.Still := by
  obtain ⟨_, _, _, _, hc⟩ := hw
  exact hc.still

theorem Forest.settled_iff {whole : Symbol → Forest → Prop} {forest : Forest} :
    forest.Settled whole ↔ forest.Throughout fun _ symbol below => whole symbol below := by
  induction forest with
  | nil => exact Iff.rfl
  | leaf id label after ih => exact ih
  | node id symbol changed below after ihbelow ih => rw [Settled, Throughout, ihbelow, ih]

namespace Gap

variable {whole : Symbol → Forest → Prop} {gap : Gap} {forest filling : Forest}

theorem settled_fill (h : (gap.fill forest).Settled whole) : forest.Settled whole :=
  Forest.settled_iff.mpr (throughout_fill (Forest.settled_iff.mp h))

section

variable (hw : ∀ symbol below, whole symbol below → below.Still)

include hw

-- Nodes above a flag are flagged.
theorem flagged_of_settled (h : (gap.fill forest).Settled whole) (hs : ¬forest.Still) : gap.Flagged := by
  induction gap generalizing forest with
  | top before after => trivial
  | inside outer id symbol changed before after ih =>
      have hnode : Forest.Settled whole (.node id symbol changed (before ++ (forest ++ after)) .nil) := settled_fill h
      have hchanged : changed = true := by
        by_contra hne
        have hstill := hw _ _ (hnode.1 (eq_false_of_ne_true hne))
        exact hs (Forest.still_append.mp (Forest.still_append.mp hstill).2).1
      refine ⟨hchanged, ih h fun hstill => ?_⟩
      cases hchanged.symm.trans hstill.1

theorem calm_of_settled (h : (gap.fill forest).Settled whole) : gap.Calm := by
  induction gap generalizing forest with
  | top before after => trivial
  | inside outer id symbol changed before after ih =>
      refine ⟨fun hchanged => flagged_of_settled hw h fun hstill => ?_, ih h⟩
      cases hchanged.symm.trans hstill.1

end

end Gap

namespace Document

variable {document : Document} {store other : Store} {forest : Forest} {whole : Symbol → Forest → Prop}
  {holds : Nat → Symbol → Forest → Prop}

theorem throughout_whole : (document.whole forest).Throughout holds ↔ forest.Throughout holds := by
  rw [Document.whole, Forest.throughout_append, Forest.throughout_append]
  exact ⟨fun h => h.2.1, fun h => ⟨trivial, h, trivial⟩⟩

theorem settled_whole : (document.whole forest).Settled whole ↔ forest.Settled whole := by
  rw [Document.whole, Forest.settled_append, Forest.settled_append]
  exact ⟨fun h => h.2.1, fun h => ⟨trivial, h, trivial⟩⟩

-- The gap of a token, filled with anything, is in the content again.
theorem exists_gap {entry : Nat × Label} (h : entry ∈ forest.leaves) :
    ∃ gap : Gap, document.whole forest = gap.fill (.leaf entry.1 entry.2 .nil) ∧
      ∀ filling : Forest, ∃ content, gap.flag.fill filling = document.whole content ∧
        ∀ other ∈ content.leaves, other ∈ forest.leaves ∨ other ∈ filling.leaves := by
  obtain ⟨gap, rfl⟩ := Gap.exists_fill h
  refine ⟨(Gap.top document.opening document.closing).inner gap, ?_, fun filling => ⟨gap.flag.fill filling, ?_, ?_⟩⟩
  · rw [Gap.fill_inner]
    rfl
  · rw [Gap.flag_inner, Gap.fill_inner]
    rfl
  · obtain ⟨first, last, hleaves⟩ := gap.exists_leaves
    intro other h
    rw [(hleaves _).2, List.mem_append, List.mem_append] at h
    rw [(hleaves _).1]
    rcases h with h | h | h
    · exact Or.inl (List.mem_append_left _ h)
    · exact Or.inr h
    · exact Or.inl (List.mem_append_right _ (List.mem_append_right _ h))

theorem exists_gap_behind {anchor : Nat} (h : anchor = document.bos ∨ ∃ entry ∈ forest.leaves, entry.1 = anchor) :
    ∃ (gap : Gap) (label : Label), document.whole forest = gap.fill (.leaf anchor label .nil) ∧
      ∀ inserted : Forest, ∃ content, gap.flag.fill (.leaf anchor label inserted) = document.whole content ∧
        ∀ other ∈ content.leaves, other ∈ forest.leaves ∨ other ∈ inserted.leaves := by
  rcases h with rfl | ⟨entry, hentry, rfl⟩
  · refine ⟨.top .nil (forest ++ document.closing), bosLabel, rfl, fun inserted => ⟨inserted ++ forest, ?_, ?_⟩⟩
    · rw [Document.whole, Forest.append_assoc]
      rfl
    · intro other hother
      rw [Forest.leaves_append] at hother
      exact (List.mem_append.mp hother).symm
  · obtain ⟨gap, hwhole, hfill⟩ := @exists_gap document _ _ hentry
    refine ⟨gap, entry.2, hwhole, fun inserted => ?_⟩
    obtain ⟨content, hcontent, hleaves⟩ := hfill (.leaf entry.1 entry.2 inserted)
    refine ⟨content, hcontent, fun other hother => (hleaves other hother).elim Or.inl fun hmem => ?_⟩
    rcases List.mem_cons.mp hmem with rfl | hmem
    · exact Or.inl hentry
    · exact Or.inr hmem

-- What an edit makes of a document that is not embedded. Nodes without a flag are those
-- from before, and so are the leaves but for a new one.
structure Edited (document : Document) (store : Store) (forest : Forest) (after : Store) (content : Forest) : Prop where
  stands : document.Stands after content
  host : (after.view document.root).host = none
  throughout : ∀ {holds : Nat → Symbol → Forest → Prop}, forest.Throughout holds → content.Throughout holds
  leaves : ∀ entry ∈ content.leaves, (∃ before ∈ forest.leaves, before.1 = entry.1) ∨ entry.1 = store.size

-- A gap that is filled with leaves has nothing new above leaves.
theorem throughout_filled {gap : Gap} {label : Label} {anchor : Nat} {filling content : Forest}
    (hwhole : document.whole forest = gap.fill (.leaf anchor label .nil))
    (hcontent : gap.flag.fill filling = document.whole content) (hfilling : filling.Throughout holds)
    (hf : forest.Throughout holds) : content.Throughout holds := by
  have hall : (document.whole forest).Throughout holds := throughout_whole.mpr hf
  rw [hwhole] at hall
  have hfilled := Gap.throughout_flag hall hfilling
  rw [hcontent] at hfilled
  exact throughout_whole.mp hfilled

-- Whether the document stands in a store and is not embedded, with trees of which
-- nothing has been changed without a flag.
def Rests (document : Document) (whole : Symbol → Forest → Prop) (store : Store) : Prop :=
  ∃ forest, document.Stands store forest ∧ forest.Settled whole ∧ (store.view document.root).host = none

theorem Edited.rests {content : Forest} (he : document.Edited store forest other content) (hset : forest.Settled whole) :
    document.Rests whole other :=
  ⟨content, he.stands, Forest.settled_iff.mpr (he.throughout (Forest.settled_iff.mp hset)), he.host⟩

section

variable (hw : ∀ symbol below, whole symbol below → below.Still)

include hw

-- A token is put in behind a token, or first.
theorem exists_insertTokenAfter {anchor : Nat} (hs : document.Stands store forest) (hset : forest.Settled whole)
    (hhost : (store.view document.root).host = none)
    (ha : anchor = document.eos ∨ anchor = document.bos ∨ ∃ entry ∈ forest.leaves, entry.1 = anchor) (token : Token) :
    ∃ content, document.Edited store forest (document.insertTokenAfter store anchor token).1 content := by
  obtain ⟨⟨symbol, rule, text⟩, hcontent⟩ : ∃ content, tokenContent token = content := ⟨_, rfl⟩
  have htoken : (Label.ofContent (symbol, rule, text)).IsToken := hcontent ▸ isToken_tokenContent token
  simp only [Document.insertTokenAfter, allocateToken, hcontent, Store.allocate]
  have hpushed : document.Stands (store.push (.new symbol rule text)) forest :=
    hs.congr (by simp) fun id h => Store.view_push_lt _ h
  have hpushedhost : ((store.push (.new symbol rule text)).view document.root).host = none := by
    rw [Store.view_push_lt _ hs.root_lt]
    exact hhost
  have hfresh : (store.push (.new symbol rule text)).Holds (.leaf store.size (.ofContent (symbol, rule, text))) := by
    refine ⟨?_, ?_, ?_⟩
    · rw [Store.view_push_self]
      rfl
    · rw [Store.view_push_self]
      rfl
    · rcases htoken with ⟨name, h⟩ | ⟨name, h⟩ <;> rw [h] <;> rfl
  have hsize : (store.push (.new symbol rule text)).size = store.size + 1 := Store.size_push _
  generalize store.push (.new symbol rule text) = pushed at hpushed hpushedhost hfresh hsize ⊢
  unfold insertLeafAfter
  by_cases heos : anchor = document.eos
  · rw [if_pos heos]
    exact ⟨forest, hpushed, hpushedhost, fun h => h, fun entry h => Or.inl ⟨entry, h, rfl⟩⟩
  · rw [if_neg heos]
    obtain ⟨gap, label, hwhole, hfill⟩ := @exists_gap_behind document _ _ (ha.resolve_left heos)
    have hp := hpushed.toPlanted
    have hsettled := (@settled_whole document _ _).mpr hset
    rw [hwhole] at hp hsettled
    have hnew : store.size ∉ document.root :: (gap.fill (.leaf anchor label .nil)).ids := by
      rw [← hwhole]
      exact fun h => Nat.lt_irrefl _ (hs.lt_size _ h)
    obtain ⟨result, hresult, -, hplaced, hsame⟩ :=
      @Store.Planted.insert _ _ _ _ (.leaf anchor label) _ hp hnew (by omega) hfresh
    have hparent : (pushed.node anchor).parent = some (gap.parent document.root) :=
      (@Store.Planted.place _ _ _ (.leaf anchor label) hp).1
    simp only [Tree.id] at hresult
    rw [hparent]
    simp only [hresult]
    obtain ⟨content, hcontent, hleaves⟩ :=
      hfill (.leaf store.size { Label.ofContent (symbol, rule, text) with changed := true } .nil)
    have hmarked := @Store.Rooted.mark_leaf result document.root store.size gap _ (.leaf anchor label .nil)
      ⟨hplaced, hsame.trans hpushedhost⟩
      (Gap.calm_of_settled hw hsettled) (fun h => absurd h Bool.false_ne_true) result.nextVersion
    change Store.Rooted _ _ (gap.flag.fill (.leaf anchor label (.leaf store.size
      { Label.ofContent (symbol, rule, text) with changed := true } .nil))) at hmarked
    have hfilled : ∀ {holds : Nat → Symbol → Forest → Prop}, forest.Throughout holds → content.Throughout holds :=
      throughout_filled hwhole hcontent trivial
    rw [hcontent] at hmarked
    refine ⟨content, hmarked.toPlanted.stands fun entry h => ?_, hmarked.host, hfilled, fun entry h => ?_⟩
    · rcases hleaves entry h with h | h
      · exact hs.tokens entry h
      · obtain rfl := List.mem_singleton.mp h
        exact htoken
    · rcases hleaves entry h with h | h
      · exact Or.inl ⟨entry, h, rfl⟩
      · obtain rfl := List.mem_singleton.mp h
        exact Or.inr rfl

theorem Rests.insertTokenAfter {anchor : Nat} (hs : document.Stands store forest) (hset : forest.Settled whole)
    (hhost : (store.view document.root).host = none)
    (ha : anchor = document.eos ∨ anchor = document.bos ∨ ∃ entry ∈ forest.leaves, entry.1 = anchor) (token : Token) :
    document.Rests whole (document.insertTokenAfter store anchor token).1 := by
  obtain ⟨content, hedited⟩ := exists_insertTokenAfter hw hs hset hhost ha token
  exact hedited.rests hset

-- A token is taken out.
theorem exists_removeToken {entry : Nat × Label} (hs : document.Stands store forest) (hset : forest.Settled whole)
    (hhost : (store.view document.root).host = none)
    (he : entry ∈ forest.leaves) :
    ∃ after content, document.removeToken store entry.1 = .ok after ∧ document.Edited store forest after content := by
  obtain ⟨gap, hwhole, hfill⟩ := @exists_gap document _ _ he
  have hends : ¬(entry.1 = document.bos ∨ entry.1 = document.eos) := by
    have hn := (List.nodup_cons.mp hs.nodup).2
    have hmem := Forest.ids_subset_of_leaves he
    rw [Document.whole, Forest.ids_append, Forest.ids_append] at hn
    obtain ⟨-, hrest, hbos⟩ := List.nodup_append.mp hn
    rintro (h | h)
    · exact hbos document.bos List.mem_cons_self entry.1 (List.mem_append_left _ hmem) h.symm
    · exact (List.nodup_append.mp hrest).2.2 entry.1 hmem document.eos List.mem_cons_self h
  have hp := hs.toPlanted
  have hsettled := (@settled_whole document _ _).mpr hset
  rw [hwhole] at hp hsettled
  obtain ⟨result, hresult, -, -, hremoved, hsame⟩ := @Store.Planted.remove _ _ _ (.leaf entry.1 entry.2) hp
  have hparent : (store.node entry.1).parent = some (gap.parent document.root) :=
    (@Store.Planted.place _ _ _ (.leaf entry.1 entry.2) hp).1
  simp only [Tree.id] at hresult
  unfold Document.removeToken
  rw [if_neg hends, hparent]
  simp only [hresult]
  obtain ⟨content, hcontent, hleaves⟩ := hfill .nil
  have hmarked := Store.Rooted.mark_parent ⟨hremoved, hsame.trans hhost⟩ (Gap.calm_of_settled hw hsettled) result.nextVersion
  have hfilled : ∀ {holds : Nat → Symbol → Forest → Prop}, forest.Throughout holds → content.Throughout holds :=
    throughout_filled hwhole hcontent trivial
  rw [hcontent] at hmarked
  refine ⟨_, content, rfl, hmarked.toPlanted.stands fun other h => ?_, hmarked.host, hfilled, fun other h => ?_⟩
  · exact hs.tokens other ((hleaves other h).resolve_right List.not_mem_nil)
  · exact Or.inl ⟨other, (hleaves other h).resolve_right List.not_mem_nil, rfl⟩

theorem Rests.removeToken {entry : Nat × Label} (hs : document.Stands store forest) (hset : forest.Settled whole)
    (hhost : (store.view document.root).host = none)
    (he : entry ∈ forest.leaves) :
    ∃ after, document.removeToken store entry.1 = .ok after ∧ document.Rests whole after := by
  obtain ⟨after, content, hafter, hedited⟩ := exists_removeToken hw hs hset hhost he
  exact ⟨after, hafter, hedited.rests hset⟩

-- A token becomes another one.
theorem exists_replaceToken {entry : Nat × Label} (hs : document.Stands store forest) (hset : forest.Settled whole)
    (hhost : (store.view document.root).host = none)
    (he : entry ∈ forest.leaves) (rule : Option String) (text : String) :
    ∃ content, document.Edited store forest (Document.replaceToken store entry.1 rule text) content := by
  obtain ⟨gap, hwhole, hfill⟩ := @exists_gap document _ _ he
  obtain ⟨id, label⟩ := entry
  have hp := hs.toPlanted
  have hsettled := (@settled_whole document _ _).mpr hset
  rw [hwhole] at hp hsettled
  have htoken : Label.IsToken ⟨Store.renamed label.symbol text, rule, text, label.changed⟩ := by
    rcases hs.tokens _ he with ⟨name, h⟩ | ⟨name, h⟩
    · exact Or.inl ⟨text, by rw [show label.symbol = _ from h]; rfl⟩
    · exact Or.inr ⟨name, by rw [show label.symbol = _ from h]; rfl⟩
  have hsymbol : (Store.renamed label.symbol text).isNonterminal = false := by
    rcases htoken with ⟨name, h⟩ | ⟨name, h⟩ <;> rw [show Store.renamed label.symbol text = _ from h] <;> rfl
  have hlabel : (store.view id).label = label := hp.kept.1.1
  have hlt : id < store.size := @Store.Planted.subtree_lt _ _ _ (.leaf id label) hp id List.mem_cons_self
  have hview : ∀ other, (store.setToken id rule text).view other = if other = id then
      { store.view other with
        label := ⟨Store.renamed (store.view other).label.symbol text, rule, text, (store.view other).label.changed⟩ }
      else store.view other := fun other =>
    Store.view_revise (fun view => { view with
      label := ⟨Store.renamed view.label.symbol text, rule, text, view.label.changed⟩ }) (fun _ => rfl) hlt
  have hrenamed := @Store.Planted.relabel store (store.setToken id rule text) _ _ _ _ _ hp (Store.size_revise _)
    (by rw [hview, if_pos rfl, hlabel]) (fun other h => by rw [hview, if_neg h]) hsymbol
  have hmarked := @Store.Rooted.mark_leaf (store.setToken id rule text) document.root id gap _ .nil
    ⟨hrenamed.1, hrenamed.2.trans hhost⟩
    (Gap.calm_of_settled hw hsettled) (fun hchanged => Gap.flagged_of_settled hw hsettled fun hstill => by
      cases hchanged.symm.trans hstill.1) (store.setToken id rule text).nextVersion
  obtain ⟨content, hcontent, hleaves⟩ := hfill (.leaf id ⟨Store.renamed label.symbol text, rule, text, true⟩ .nil)
  change Store.Rooted _ _ (gap.flag.fill (.leaf id ⟨Store.renamed label.symbol text, rule, text, true⟩ .nil)) at hmarked
  have hfilled : ∀ {holds : Nat → Symbol → Forest → Prop}, forest.Throughout holds → content.Throughout holds :=
    throughout_filled hwhole hcontent trivial
  rw [hcontent] at hmarked
  refine ⟨content, hmarked.toPlanted.stands fun other h => ?_, hmarked.host, hfilled, fun other h => ?_⟩
  · rcases hleaves other h with h | h
    · exact hs.tokens other h
    · obtain rfl := List.mem_singleton.mp h
      exact htoken
  · rcases hleaves other h with h | h
    · exact Or.inl ⟨other, h, rfl⟩
    · obtain rfl := List.mem_singleton.mp h
      exact Or.inl ⟨_, he, rfl⟩

theorem Rests.replaceToken {entry : Nat × Label} (hs : document.Stands store forest) (hset : forest.Settled whole)
    (hhost : (store.view document.root).host = none)
    (he : entry ∈ forest.leaves) (rule : Option String) (text : String) :
    document.Rests whole (Document.replaceToken store entry.1 rule text) := by
  obtain ⟨content, hedited⟩ := exists_replaceToken hw hs hset hhost he rule text
  exact hedited.rests hset

end

end Document

end IncrementalLR
