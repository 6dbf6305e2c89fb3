import IncrementalLR.Proofs.Parse.Annotation
import IncrementalLR.Proofs.Tree.Ornaments

namespace IncrementalLR

-- What brings an item in brings in that of any other production for the same symbol.
theorem Item.Brings.twin {rules : Rules} {production other left dot : Nat} {source : Item}
    (hleft : (rules.production production).left = some left) (hother : (rules.production other).left = some left)
    (hb : source.Brings rules ⟨production, dot⟩) : source.Brings rules ⟨other, dot⟩ := by
  obtain ⟨next, hnext, hleft', hzero⟩ := hb
  exact ⟨next, hnext, hother.trans (hleft.symm.trans hleft'), hzero⟩

-- Where an item may be followed by a terminal, so may the item of another production with
-- the same two sides.
theorem Valid.twin {rules : Rules} (hw : rules.WellFormed) {production other left dot terminal : Nat}
    {spelled : List Nat} (hleft : (rules.production production).left = some left)
    (hother : (rules.production other).left = some left)
    (hright : (rules.production other).right = (rules.production production).right)
    (hv : Valid rules spelled ⟨production, dot⟩ terminal) : Valid rules spelled ⟨other, dot⟩ terminal := by
  generalize hitem : (⟨production, dot⟩ : Item) = item at hv
  induction hv generalizing dot with
  | start =>
      rw [show production = startProduction from congrArg Item.production hitem, hw.start_left] at hleft
      cases hleft
  | @advanced spelled source symbol terminal _ hnext ih =>
      obtain ⟨production', before⟩ := source
      obtain ⟨rfl, rfl⟩ : production = production' ∧ dot = before + 1 := by simpa [Item.advance] using hitem
      have hnext' : (⟨other, before⟩ : Item).next? rules = some symbol := by
        rw [Item.next?, hright]
        exact hnext
      exact .advanced (ih rfl) hnext'
  | begun hs hb hbegins =>
      obtain rfl := hitem
      exact .begun hs (hb.twin hleft hother) hbegins
  | passed hv hb hvanishes _ =>
      obtain rfl := hitem
      exact .passed hv (hb.twin hleft hother) hvanishes

-- A table without conflicts does not reduce by a production that has a twin.
theorem Deterministic.production_unique {grammar : Grammar} {graph : StateGraph} (hc : Deterministic grammar graph)
    (hm : graph.mode ≠ .lr0) {production other left state terminal : Nat}
    (huses : (SyntaxTable.build graph grammar).action? state terminal = some (.reduce production))
    (hleft : (grammar.production production).left = some left) (hother : (grammar.production other).left = some left)
    (hright : (grammar.production other).right = (grammar.production production).right) : other = production := by
  generalize hreduce : Action.reduce production = action at huses
  cases candidate_of_action? huses with
  | accept => cases hreduce
  | shift => cases hreduce
  | goto => cases hreduce
  | @reduce item terminal hadmits hfinal hne =>
      obtain ⟨production', dot⟩ := item
      obtain rfl := Action.reduce.inj hreduce
      have hsees := hadmits.2.resolve_left fun h => hm h.1
      obtain ⟨spelled, hv⟩ := hc.faithful.justified _ _ _ hsees.2
      have htwin := hv.twin hc.wellFormed hleft hother hright
      obtain ⟨slots, hp⟩ := Path.exists_of_spells hc.faithful hv.spells
      have hnot : ∀ {production}, (grammar.production production).left = some left → production ≠ startProduction := by
        rintro production h rfl
        rw [hc.wellFormed.start_left] at h
        cases h
      -- both items are complete in one state that sees the terminal behind them
      have hfirst := hc.action? (.reduce ⟨hp.hasItem hc.faithful hv.spells, Or.inr ⟨hm, hp.sees hc.faithful hm hv⟩⟩
        hfinal (hnot hleft)) fun _ h => by cases h
      have hsecond := hc.action? (.reduce ⟨hp.hasItem hc.faithful htwin.spells,
        Or.inr ⟨hm, hp.sees hc.faithful hm htwin⟩⟩ (by rwa [Item.isFinal, hright]) (hnot hother)) fun _ h => by cases h
      exact Action.reduce.inj (Option.some_inj.mp (hsecond.symm.trans hfirst))

-- Trees of one shape with the same labels, of nodes that have something in common.
inductive Forest.Alike (same : Nat → Nat → Prop) : Forest → Forest → Prop where
  | nil : Alike same .nil .nil
  | leaf {id other : Nat} {label : Label} {after after' : Forest} :
      same id other → Alike same after after' → Alike same (.leaf id label after) (.leaf other label after')
  | node {id other : Nat} {symbol : Symbol} {changed changed' : Bool} {below below' after after' : Forest} :
      same id other → Alike same below below' → Alike same after after' →
      Alike same (.node id symbol changed below after) (.node other symbol changed' below' after')

namespace Forest

variable {forest other : Forest}

-- Trees without flags are alike if copies of them are the same, and the labels of their
-- leaves as well. Labels may go on behind the trees, so that those of a subtree can be told
-- from the ones behind it.
theorem alike_of_snapshots {store store' : Store} (hk : store.Kept forest) (hk' : store'.Kept other)
    (hs : forest.Still) (hs' : other.Still) (hsnapshots : forest.snapshots = other.snapshots)
    {behind behind' : List Label}
    (hlabels : forest.leaves.map Prod.snd ++ behind = other.leaves.map Prod.snd ++ behind') :
    forest.Alike (fun _ _ => True) other ∧ behind = behind' := by
  induction forest generalizing other behind behind' with
  | nil =>
      cases other with
      | nil => exact ⟨.nil, hlabels⟩
      | leaf => cases hsnapshots
      | node => cases hsnapshots
  | leaf id label after ih =>
      cases other with
      | nil => cases hsnapshots
      | leaf id' label' after' =>
          obtain ⟨-, hrest⟩ := List.cons.inj hsnapshots
          obtain ⟨rfl, hbehind⟩ := List.cons.inj hlabels
          obtain ⟨hafter, hsame⟩ := ih hk.2 hk'.2 hs.2 hs'.2 hrest hbehind
          exact ⟨.leaf trivial hafter, hsame⟩
      | node id' symbol changed below after' =>
          have hsymbol : label.symbol = symbol := (Snapshot.node.inj (List.cons.inj hsnapshots).1).1
          cases hk.1.2.2.symm.trans (hsymbol ▸ hk'.1.2.2.1)
  | node id symbol changed below after ihbelow ih =>
      cases other with
      | nil => cases hsnapshots
      | leaf id' label after' =>
          have hsymbol : symbol = label.symbol := (Snapshot.node.inj (List.cons.inj hsnapshots).1).1
          cases (hsymbol ▸ hk.1.2.2.1).symm.trans hk'.1.2.2
      | node id' symbol' changed' below' after' =>
          obtain ⟨hnode, hrest⟩ := List.cons.inj hsnapshots
          obtain ⟨rfl, -, hinside⟩ := Snapshot.node.inj hnode
          simp only [leaves, List.map_append, List.append_assoc] at hlabels
          obtain ⟨hbelow, hlater⟩ := ihbelow hk.1.2.2.2.kept hk'.1.2.2.2.kept hs.2.1 hs'.2.1 hinside hlabels
          obtain ⟨hafter, hsame⟩ := ih hk.2 hk'.2 hs.2.2 hs'.2.2 hrest hlater
          exact ⟨.node trivial hbelow hafter, hsame⟩

end Forest

namespace Setting

variable {setting : Setting} {settled settled' : Bool} {sequence sequence' : List Nat} {forest other after : Forest}

-- What strict trees stand for, from their first tree.
theorem Covers.of_nil (hc : setting.Covers false settled sequence .nil) : sequence = [] := by
  generalize hforest : Forest.nil = forest at hc
  cases hc with
  | nil => rfl
  | span hloose => cases hloose
  | passed => cases hforest
  | token => cases hforest
  | node => cases hforest

theorem Covers.of_leaf {id : Nat} {label : Label} (hc : setting.Covers false settled sequence (.leaf id label after)) :
    setting.idOf? label.key = none ∧ setting.Covers false settled sequence after ∨
      ∃ terminal rest, sequence = terminal :: rest ∧ setting.idOf? label.key = some terminal ∧
        setting.Covers false true rest after := by
  generalize hforest : Forest.leaf id label after = forest at hc
  cases hc with
  | passed _ hlets hafter =>
      cases hforest
      exact Or.inl ⟨(hlets.2.resolve_left Bool.false_ne_true).2, hafter⟩
  | token _ hid _ _ hafter =>
      cases hforest
      exact Or.inr ⟨_, _, rfl, hid, hafter⟩
  | span hloose => cases hloose
  | nil => cases hforest
  | node => cases hforest

theorem Covers.of_node {id : Nat} {symbol : Symbol} {changed : Bool} {below : Forest}
    (hc : setting.Covers false settled sequence (.node id symbol changed below after)) :
    ∃ production left rest, sequence = left :: rest ∧ (setting.table.grammar.production production).left = some left ∧
      setting.table.grammar.symbol left = symbol ∧ setting.Covers false false rest after := by
  generalize hforest : Forest.node id symbol changed below after = forest at hc
  cases hc with
  | node hleft _ hafter =>
      cases hforest
      exact ⟨_, _, _, rfl, hleft, rfl, hafter⟩
  | span hloose => cases hloose
  | nil => cases hforest
  | passed => cases hforest
  | token => cases hforest

theorem left_unique (hw : setting.table.grammar.toRules.WellFormed) {production other left left' : Nat}
    (hleft : (setting.table.grammar.production production).left = some left)
    (hother : (setting.table.grammar.production other).left = some left')
    (hsymbol : setting.table.grammar.symbol left' = setting.table.grammar.symbol left) : left' = left := by
  obtain ⟨hlt, hn⟩ := hw.left_spec hleft
  obtain ⟨hlt', hn'⟩ := hw.left_spec hother
  have hsame := idOf?_symbol hw hlt' hn'
  rw [hsymbol, idOf?_symbol hw hlt hn] at hsame
  exact (Option.some_inj.mp hsame).symm

-- Trees that are alike stand for no other symbols.
theorem Covers.sequence_unique (hw : setting.table.grammar.toRules.WellFormed) {same : Nat → Nat → Prop}
    (ha : forest.Alike same other)
    (hc : setting.Covers false settled sequence forest) (ho : setting.Covers false settled' sequence' other) :
    sequence' = sequence := by
  induction ha generalizing settled settled' sequence sequence' with
  | nil => rw [hc.of_nil, ho.of_nil]
  | leaf _ _ ih =>
      rcases hc.of_leaf with ⟨hnone, hc⟩ | ⟨terminal, rest, rfl, hid, hc⟩
      · rcases ho.of_leaf with ⟨-, ho⟩ | ⟨_, _, -, hid, -⟩
        · exact ih hc ho
        · cases hnone.symm.trans hid
      · rcases ho.of_leaf with ⟨hnone, -⟩ | ⟨_, _, rfl, hid', ho⟩
        · cases hid.symm.trans hnone
        · rw [ih hc ho, Option.some_inj.mp (hid'.symm.trans hid)]
  | node _ _ _ _ ih =>
      obtain ⟨_, left, rest, rfl, hleft, hsymbol, hc⟩ := hc.of_node
      obtain ⟨_, left', rest', rfl, hleft', hsymbol', ho⟩ := ho.of_node
      rw [ih hc ho, left_unique hw hleft hleft' (hsymbol'.trans hsymbol.symm)]

end Setting

theorem Forest.Alike.texts {same : Nat → Nat → Prop} {forest other : Forest} (ha : forest.Alike same other) :
    forest.texts = other.texts := by
  induction ha with
  | nil => rfl
  | leaf _ _ ih => rw [Forest.texts, Forest.texts, ih]
  | node _ _ _ ihbelow ih => rw [Forest.texts, Forest.texts, ihbelow, ih]

-- Whether two nodes have the same text, and abstract values that are put together alike of
-- nodes with the same texts.
structure Store.Matches (store other : Store) (id id' : Nat) : Prop where
  text : store.text id = other.text id'
  alternate : Option.Rel (AstValue.Alike fun id id' => store.text id = other.text id')
    (store.node id).alternate (other.node id').alternate

section

variable {store store' : Store} {forest other : Forest}

theorem Store.Matches.value {id id' : Nat} (hm : store.Matches store' id id') :
    AstValue.Alike (fun id id' => store.text id = store'.text id') ((store.node id).alternate.getD (.node id))
      ((store'.node id').alternate.getD (.node id')) := by
  obtain ⟨htext, halternate⟩ := hm
  generalize (store.node id).alternate = value at halternate ⊢
  generalize (store'.node id').alternate = value' at halternate ⊢
  cases halternate with
  | none =>
      rw [Option.getD_none, Option.getD_none, AstValue.Alike]
      exact htext
  | some h => exact h

-- What templates count of trees that match has values that are alike.
theorem Forest.Alike.values (ha : forest.Alike (store.Matches store') other) :
    List.Forall₂ (AstValue.Alike fun id id' => store.text id = store'.text id') (forest.values store)
      (other.values store') := by
  induction ha with
  | nil => exact .nil
  | leaf hm _ ih =>
      rw [Forest.values, Forest.values]
      split
      · exact .cons hm.value ih
      · exact ih
  | node hm _ _ _ ih =>
      rw [Forest.values, Forest.values]
      split
      · exact .cons hm.value ih
      · exact ih

-- Trees that are alike match, where each node has the value that a production of a table
-- without conflicts makes of it: there is one such production only.
theorem Setting.matches_of_alike {setting : Setting} {same : Nat → Nat → Prop}
    (htable : setting.table = .build setting.table.graph setting.table.grammar)
    (hc : Deterministic setting.table.grammar setting.table.graph) (hm : setting.table.graph.mode ≠ .lr0)
    (ha : forest.Alike same other) (hs : forest.Still) (hs' : other.Still)
    (hy : forest.Throughout (setting.Yields store)) (hy' : other.Throughout (setting.Yields store'))
    (hk : store.Kept forest) (hk' : store'.Kept other)
    (hbare : ∀ entry ∈ forest.leaves, (store.node entry.1).Bare)
    (hbare' : ∀ entry ∈ other.leaves, (store'.node entry.1).Bare)
    (hsize : forest.ids.length ≤ store.size) (hsize' : other.ids.length ≤ store'.size) :
    forest.Alike (store.Matches store') other := by
  have htexts : forest.roots.map store.text = other.roots.map store'.text :=
    (hk.texts hbare hsize).trans (ha.texts.trans (hk'.texts hbare' hsize').symm)
  induction ha with
  | nil => exact .nil
  | leaf _ _ ih =>
      obtain ⟨htext, hrest⟩ := List.cons.inj htexts
      obtain ⟨hfirst, hafter⟩ := List.forall_mem_cons.mp hbare
      obtain ⟨hfirst', hafter'⟩ := List.forall_mem_cons.mp hbare'
      rw [Forest.ids, List.length_cons] at hsize hsize'
      refine .leaf ⟨htext, ?_⟩ (ih hs.2 hs'.2 hy hy' hk.2 hk'.2 hafter hafter' (by omega) (by omega) hrest)
      rw [hfirst.1, hfirst'.1]
      exact .none
  | @node id id' symbol changed changed' below below' after after' _ hbelow _ ihbelow ih =>
      obtain ⟨htext, hrest⟩ := List.cons.inj htexts
      obtain ⟨hinside, hafter⟩ := List.forall_mem_append.mp hbare
      obtain ⟨hinside', hafter'⟩ := List.forall_mem_append.mp hbare'
      rw [Forest.ids, List.length_cons, List.length_append] at hsize hsize'
      have hkept := hk.1.2.2.2.kept
      have hkept' := hk'.1.2.2.2.kept
      have hsizes : below.ids.length ≤ store.size ∧ below'.ids.length ≤ store'.size := ⟨by omega, by omega⟩
      have hmatches := ihbelow hs.2.1 hs'.2.1 hy.2.1 hy'.2.1 hkept hkept' hinside hinside' hsizes.1 hsizes.2
        ((hkept.texts hinside hsizes.1).trans (hbelow.texts.trans (hkept'.texts hinside' hsizes.2).symm))
      refine .node ⟨htext, ?_⟩ hmatches
        (ih hs.2.2 hs'.2.2 hy.2.2 hy'.2.2 hk.2 hk'.2 hafter hafter' (by omega) (by omega) hrest)
      have hyields := hy.1 hs.1
      have hyields' := hy'.1 hs'.1
      obtain ⟨production, left, ⟨state, terminal, huses⟩, hleft, hsymbol, hcovers, halternate⟩ := hyields.made
      obtain ⟨production', left', -, hleft', hsymbol', hcovers', halternate'⟩ := hyields'.made
      obtain rfl := left_unique hc.wellFormed hleft hleft' (hsymbol'.trans hsymbol.symm)
      have hright := hcovers.sequence_unique hc.wellFormed hbelow hcovers'
      rw [htable] at huses
      obtain rfl := hc.production_unique hm huses hleft hleft' hright
      have hakin : Template.Akin (fun id id' => store.text id = store'.text id') store id store' id' := by
        refine ⟨?_, ?_⟩
        · rw [hyields.holds.values, hyields'.holds.values]
          exact hmatches.values
        · have hname := congrArg (fun label : Label => label.symbol.name) hyields.holds.1
          exact hname.trans (congrArg (fun label : Label => label.symbol.name) hyields'.holds.1).symm
      rw [halternate, halternate']
      cases (setting.table.grammar.production production').template with
      | none => exact .none
      | some template => exact Template.eval_alike hakin template

end

end IncrementalLR
