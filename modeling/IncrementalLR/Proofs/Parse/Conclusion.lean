import IncrementalLR.Proofs.Parse.Agreement
import IncrementalLR.Proofs.Parse.Liveness

namespace IncrementalLR

namespace Setting

-- The leaves of a document as the leaf parser gets them.
def input (setting : Setting) (tokens : List (Nat × Label)) : List Leaf :=
  tokens.map (fun entry => setting.leaf entry.2) ++ [setting.leaf Document.eosLabel]

variable {setting : Setting} {tokens : List (Nat × Label)} {start scene other : Scene} {settled : Bool}
  {spelled : List Nat} {pieces : List Piece} {forest : Forest}

theorem leaves_closing : setting.leaves setting.document.closing = [setting.leaf Document.eosLabel] := rfl

theorem leaves_eq_tokens : setting.leaves forest = forest.tokens.map fun entry => setting.leaf entry.2 := by
  rw [leaves, Forest.tokens, List.map_map]
  rfl

-- No token is the end of the input.
theorem leaf_ne_finish (hw : setting.table.grammar.toRules.WellFormed) {label : Label} (ht : label.IsToken) :
    (setting.leaf label).symbol ≠ some finishId := by
  intro h
  obtain ⟨name, hkey⟩ := ht.key
  have hsymbol := hw.finish.symm.trans (hw.symbolId?_eq_some.mp h)
  rw [hkey] at hsymbol
  cases hsymbol

theorem Sound.leaves {loose : Bool} (hs : setting.Sound loose tokens scene) :
    setting.leaves (Piece.contents .nil scene.pieces) ++ setting.leaves scene.ahead = setting.input tokens := by
  obtain ⟨inner, hinner, htotal⟩ := hs.total
  rw [hinner, leaves_append, ← List.append_assoc, ← leaves_append, leaves_closing, input, leaves_eq_tokens, htotal]

theorem Sound.exists_leaf {loose : Bool} (hs : setting.Sound loose tokens scene) :
    ∃ first rest, scene.ahead.leaves = first :: rest := by
  obtain ⟨inner, hinner, -⟩ := hs.total
  cases h : scene.ahead.leaves with
  | nil =>
      rw [hinner, Forest.leaves_append] at h
      exact absurd h (by simp [Document.closing, Forest.leaves])
  | cons first rest => exact ⟨first, rest, rfl⟩

-- Whatever ends the validation leaves a settled stack behind.
theorem Sound.settled_of_validated (ha : setting.Apt false) (ht : ∀ entry ∈ tokens, entry.2.IsToken)
    (hs : setting.Sound false tokens scene) (hm : Moves setting scene other) (hv : scene.validating = true)
    (ho : other.validating = false) : ∃ spelled, setting.Stacks false true spelled other.pieces := by
  obtain ⟨settled, spelled, hstacks, -⟩ := hs.stack
  cases hm with
  | shift hahead hne haction => exact hs.stacks_shift ha ht hahead hne haction hstacks
  | reduce _ _ h =>
      obtain ⟨_, _, _, _, -, -, -, rfl⟩ := reduced?_spec h
      cases hv.symm.trans ho
  | breakDown _ _ _ hb =>
      obtain ⟨last, rest, hrest, hlast⟩ := hb.stack ha.toRegular hstacks
      exact ⟨rest, hlast.resolve_left Bool.false_ne_true ▸ hrest⟩
  | pass _ _ _ hno _ => cases hv.symm.trans hno
  | span hno _ _ => cases hv.symm.trans hno
  | reduceSpan haction _ =>
      rw [ha.plain.resolve_left Bool.false_ne_true] at haction
      cases haction
  | descend _ => cases hv.symm.trans ho
  | reuse _ _ _ => cases ho

theorem Stacks.isSpan {loose : Bool} (hs : setting.Stacks loose settled spelled pieces) (hstrict : loose = false) :
    ∀ piece ∈ pieces, piece.isSpan = false := by
  induction hs with
  | nil => exact nofun
  | passed _ _ _ ih => exact List.forall_mem_cons.mpr ⟨rfl, ih⟩
  | token _ _ _ _ _ _ ih => exact List.forall_mem_cons.mpr ⟨rfl, ih⟩
  | span hloose => cases hloose.symm.trans hstrict
  | node _ _ _ _ ih => exact List.forall_mem_cons.mpr ⟨rfl, ih⟩

-- Except while it validates, a parse stands where the leaf parser comes by.
theorem Sound.steps (he : setting.Exact) (ht : ∀ entry ∈ tokens, entry.2.IsToken)
    (hs : setting.Sound false tokens start) (hempty : start.pieces = []) (hr : Reachable setting start other)
    (hv : other.validating = false) :
    Machine.Steps setting.table ⟨[], setting.input tokens⟩ (setting.machine other) := by
  induction hr with
  | refl =>
      rw [← hs.leaves, hempty, machine, hempty]
      exact .refl
  | @tail scene other hr hm ih =>
      have hscene := hs.reachable he.toApt ht hr
      cases hvalidating : scene.validating with
      | false =>
          obtain ⟨settled, spelled, hstacks, -⟩ := hscene.stack
          rcases hm.machine he.wellFormed (he.plain.resolve_left Bool.false_ne_true) (hstacks.isSpan rfl) with
            h | ⟨h, -⟩ | ⟨h, -⟩ | ⟨-, h⟩
          · exact (ih hvalidating).tail h
          · exact h ▸ ih hvalidating
          · cases hvalidating.symm.trans h
          · cases hv.symm.trans h
      | true =>
          obtain ⟨spelled, hstacks⟩ := hscene.settled_of_validated he.toApt ht hm hvalidating hv
          have hother := hscene.moves he.toApt ht hm
          obtain ⟨first, rest, hfirst⟩ := hother.exists_leaf
          have hsteps := @Stacks.steps _ _ _ _ (setting.leaf first.2) he hstacks
            (rest.map fun entry => setting.leaf entry.2) (Or.inl rfl)
          have hahead : setting.leaves other.ahead =
              setting.leaf first.2 :: rest.map fun entry => setting.leaf entry.2 := by
            rw [Setting.leaves, hfirst, List.map_cons]
          rw [← hahead, hother.leaves] at hsteps
          exact hsteps

theorem Sound.along (he : setting.Exact) (hs : setting.Sound false tokens scene) : setting.Along scene.pieces := by
  obtain ⟨settled, spelled, hstacks, -⟩ := hs.stack
  exact ⟨⟨spelled, hstacks.path he.toRegular⟩, hstacks.isSpan rfl⟩

theorem Exact.ofAutomaton (he : setting.Exact) : setting.table.OfAutomaton := ⟨he.table, he.wellFormed, he.faithful⟩

-- No parse of a document meets a fault.
theorem Sound.not_fails (he : setting.Exact) (hs : setting.Sound false tokens scene) : ¬Fails setting scene := by
  obtain ⟨inner, hinner, -⟩ := hs.total
  exact (hs.along he).not_fails he.ofAutomaton he.free.finish he.closing ⟨inner, hinner⟩

-- A parse goes on only so far.
theorem Sound.acc (he : setting.Exact) (hm : setting.table.graph.mode ≠ .lr0) (hs : setting.Sound false tokens scene) :
    Acc (fun after scene => Moves setting scene after) scene :=
  (hs.along he).acc he.ofAutomaton he.free hm (he.plain.resolve_left Bool.false_ne_true)

-- How a parse ends unless it is cut short. Where it accepts or rejects, the leaf
-- parser does. Only a parse that has reused something may be unsure.
inductive Agrees (setting : Setting) (tokens : List (Nat × Label)) (start : Scene) :
    Run × Except Fault Outcome → Prop where
  | accepted {run : Run} {scene : Scene} {slots : List Slot} :
      Machine.Steps setting.table ⟨[], setting.input tokens⟩ ⟨slots, [setting.leaf Document.eosLabel]⟩ →
      Machine.Accepts setting.table ⟨slots, [setting.leaf Document.eosLabel]⟩ →
      (slots.map Slot.copy).reverse = (Piece.contents .nil scene.pieces).snapshots →
      setting.Sound false tokens scene → scene.ahead = setting.document.closing →
      Shows setting.document.root setting.document.opening run scene →
      Agrees setting tokens start (setting.accept run, .ok .accepted)
  | rejected {run : Run} {scene : Scene} {id state : Nat} {label : Label} {after : Forest} :
      Machine.Steps setting.table ⟨[], setting.input tokens⟩ (setting.machine scene) →
      (setting.machine scene).next setting.table = none →
      ¬Machine.Accepts setting.table (setting.machine scene) →
      setting.Sound false tokens scene → scene.ahead = .leaf id label after →
      Agrees setting tokens start (run, .ok (.rejected id state false))
  | unsure {run : Run} {id state : Nat} :
      ¬Plain setting start → Agrees setting tokens start (run, .ok (.rejected id state true))

-- The leaf parser accepts the leaves of a tree for the start symbol, with that tree as its
-- result.
theorem Lone.accepts (hc : Deterministic setting.table.grammar setting.table.graph)
    (htable : setting.table = .build setting.table.graph setting.table.grammar)
    (hl : setting.Lone false setting.table.grammar.start forest)
    (hfinish : setting.table.grammar.toRules.Avoids (· == .finish) ∨
      ∀ leaf ∈ setting.leaves forest, leaf.symbol ≠ some finishId) :
    ∃ slots, (slots.map Slot.copy).reverse = forest.snapshots ∧
      Machine.Steps setting.table ⟨[], setting.leaves forest ++ [setting.leaf Document.eosLabel]⟩
        ⟨slots, [setting.leaf Document.eosLabel]⟩ ∧
      Machine.Accepts setting.table ⟨slots, [setting.leaf Document.eosLabel]⟩ := by
  obtain ⟨hleft, hcovers, hbefore, -, hbehind⟩ := hl
  rename_i production id before behind below
  obtain rfl := hbehind.resolve_left Bool.false_ne_true
  have hpassing : ∀ leaf ∈ before.map fun entry => setting.leaf entry.2, leaf.Passed := by
    intro leaf h
    obtain ⟨entry, hentry, rfl⟩ := List.mem_map.mp h
    obtain ⟨-, hpasses, hnone⟩ := hbefore entry hentry
    exact ⟨hpasses, hnone.resolve_left Bool.false_ne_true⟩
  have hd := Derives.node hleft hcovers.derives_right .nil
  rw [List.append_nil] at hd
  have hlast : (setting.leaf Document.eosLabel).symbol = some finishId := by
    rw [leaf, idOf?]
    exact hc.wellFormed.symbolId?_eq_some.mpr hc.wellFormed.finish
  have hapart : setting.table.grammar.toRules.Avoids (· == .finish) ∨
      ∀ leaf ∈ setting.leaves below, leaf.symbol ≠ some finishId := by
    refine hfinish.imp_right fun h leaf hleaf => h leaf ?_
    rw [leaves_append, leaves_node]
    exact List.mem_append_right _ (List.mem_append_left _ hleaf)
  obtain ⟨slots, hcopies, hsteps, hends⟩ :=
    @Deterministic.accepts_derives _ _ hc _ _ [] _ _ hpassing hd hlast hapart
  rw [← htable] at hsteps hends
  refine ⟨slots, ?_, ?_, hends⟩
  · rw [hcopies]
    simp [Forest.snapshots, Forest.ofLeaves, Forest.snapshots_ofLeaves, Setting.leaf, Function.comp_def]
  · simpa [Forest.ofLeaves, show setting.leaves .nil = [] from rfl] using hsteps

theorem agrees_accept (he : setting.Exact) (ht : ∀ entry ∈ tokens, entry.2.IsToken)
    (hs : setting.Sound false tokens scene) (haccepts : Accepts setting scene) {run : Run}
    (hshows : Shows setting.document.root setting.document.opening run scene) :
    setting.Agrees tokens start (setting.accept run, .ok .accepted) := by
  have hahead := hs.ahead_of_accepts he.toRegular ht haccepts
  obtain ⟨settled, hstacks⟩ := hs.accepts he.toApt haccepts
  have hlone := (hstacks.lone he.wellFormed.start_nonterminal).2
  obtain ⟨slots, hcopies, hsteps, hends⟩ := hlone.accepts he.free.deterministic he.table (Or.inl he.free.finish)
  have hinput := hs.leaves
  rw [hahead, leaves_closing] at hinput
  exact .accepted (hinput ▸ hsteps) hends hcopies hs hahead hshows

theorem agrees_reject (he : setting.Exact) (ht : ∀ entry ∈ tokens, entry.2.IsToken)
    (hs : setting.Sound false tokens start) (hempty : start.pieces = []) (hbroke : start.brokeDown = false)
    (hr : Reachable setting start scene) (hrejects : Rejects setting scene) {run : Run} {id state : Nat}
    (hid : scene.ahead.roots.head? = some id) :
    setting.Agrees tokens start (run, .ok (.rejected id state (scene.brokeDown || scene.validating))) := by
  have hplain := he.plain.resolve_left Bool.false_ne_true
  cases hflag : scene.brokeDown || scene.validating with
  | true =>
      refine .unsure fun hp => ?_
      obtain ⟨hp', hsame, -⟩ := hp.reachable he.wellFormed hplain hr
      rw [hsame, hbroke, hp'.validating] at hflag
      cases hflag
  | false =>
      obtain ⟨-, hvalidating⟩ := Bool.or_eq_false_iff.mp hflag
      obtain ⟨other, label, after, hahead, hsilent, hpasses⟩ := hrejects
      rw [hvalidating] at hpasses
      have hpasses := hpasses.resolve_left Bool.false_ne_true
      rw [hahead] at hid
      obtain rfl := Option.some_inj.mp hid
      obtain ⟨hhalts, hnot⟩ := halts_of_silent hahead hsilent hpasses
      exact .rejected (hs.steps he ht hempty hr hvalidating) hhalts hnot (hs.reachable he.toApt ht hr) hahead

theorem Concludes.agrees (he : setting.Exact) (ht : ∀ entry ∈ tokens, entry.2.IsToken)
    (hs : setting.Sound false tokens start) (hempty : start.pieces = []) (hbroke : start.brokeDown = false)
    {result : Run × Except Fault Outcome}
    (hc : Concludes setting setting.document.root setting.document.opening start result) :
    setting.Agrees tokens start result := by
  cases hc with
  | accepted hr haccepts hshows => exact agrees_accept he ht (hs.reachable he.toApt ht hr) haccepts hshows
  | rejected hr hrejects hid => exact agrees_reject he ht hs hempty hbroke hr hrejects hid
  | failed hr hfails => exact absurd hfails ((hs.reachable he.toApt ht hr).not_fails he)

end Setting

end IncrementalLR
