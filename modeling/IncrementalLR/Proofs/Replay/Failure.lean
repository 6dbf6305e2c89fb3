import IncrementalLR.Proofs.Document.Embedding
import IncrementalLR.Proofs.Document.Pointing
import IncrementalLR.Replay.Run

namespace IncrementalLR

namespace Replay

-- What may become of a replay of an empty document by commands, also by such as fail. The
-- lexer may be any.
inductive Reached : Replay → Prop where
  | opened {source : GrammarSource} {table : SyntaxTable} {lexer : Lexer} :
      (ofTokens source table lexer []).parser.IsBuilt → Reached (ofTokens source table lexer [])
  | run {replay : Replay} {fuel : Nat} {command : Command} {step : Step} :
      Reached replay → replay.run fuel command = some step → Reached step.1

-- Whether a token index is out of range.
def Exceeds (replay : Replay) (error : RunError) (index : Nat) : Prop :=
  (replay.document.tokens replay.store).length ≤ index ∧
    error = .tokenOutOfRange index (replay.document.tokens replay.store).length

-- Whether a text is not matched from end to end.
def Mismatches (replay : Replay) (error : RunError) (text : String) : Prop :=
  ∃ first rest, (replay.lexer.tokenizeFragment text).errors = first :: rest ∧ error = .unmatchedText first text

-- What a command may fail with.
def Causes (replay : Replay) (error : RunError) : Command → Prop
  | .insert .start text => replay.Mismatches error text
  | .insert (.token index) text => replay.Exceeds error index ∨ replay.Mismatches error text
  | .remove index => replay.Exceeds error index
  | .replace index text => replay.Exceeds error index ∨ replay.Mismatches error text ∨
      ∃ tokens, replay.lex text = .ok tokens ∧ tokens.length ≠ 1 ∧ error = .notOneToken text tokens.length
  | .parse | .reparse => ∃ fault, error = .fault fault
  | .undo version => replay.store.newest < version ∧ error = .noVersionToUndo version
  | .redo version => (version < replay.store.version ∨ replay.store.newest < version) ∧ error = .noVersionToRedo version
  | .commit | .text | .tree | .ast => False

-- What holds of a replay after whatever commands. The document exists at all versions.
structure Sound (replay : Replay) : Prop where
  built : replay.parser.IsBuilt
  arena : Arena [replay.document] replay.store
  existed : ∀ version, replay.document.ExistedAt replay.store version

-- What a command comes to.
structure Goes (replay : Replay) (command : Command) (step : Step) : Prop where
  sound : step.1.Sound
  document : step.1.document = replay.document
  failed : ∀ error, step.2 = .error error →
    replay.Causes error command ∧ replay.store.Remarked (fun _ => True) step.1.store

variable {replay : Replay} {command : Command} {store : Store} {error : RunError} {text : String} {index node anchor : Nat}
  {tokens : List Token} {fuel version : Nat}

theorem lex_spec : replay.lex text = .ok (replay.lexer.tokenizeFragment text).tokens ∨
    ∃ error, replay.lex text = .error error ∧ replay.Mismatches error text := by
  unfold lex
  dsimp only
  split
  · rename_i first rest herrors
    exact Or.inr ⟨_, rfl, first, rest, herrors, rfl⟩
  · exact Or.inl rfl

theorem token_spec : (∃ node ∈ replay.document.tokens replay.store, replay.token index = .ok node) ∨
    ∃ error, replay.token index = .error error ∧ replay.Exceeds error index := by
  unfold token
  dsimp only
  split
  · rename_i node hnode
    exact Or.inl ⟨node, List.mem_of_getElem? hnode, rfl⟩
  · rename_i hnone
    exact Or.inr ⟨_, rfl, List.getElem?_eq_none_iff.mp hnone, rfl⟩

theorem lexOne_spec : (∃ token, replay.lexOne text = .ok token) ∨
    ∃ error, replay.lexOne text = .error error ∧ (replay.Mismatches error text ∨
      ∃ tokens, replay.lex text = .ok tokens ∧ tokens.length ≠ 1 ∧ error = .notOneToken text tokens.length) := by
  rcases @lex_spec replay text with hlex | ⟨error, hlex, hcause⟩
  · rw [lexOne, hlex]
    rcases (replay.lexer.tokenizeFragment text).tokens with _ | ⟨token, _ | ⟨second, rest⟩⟩
    · exact Or.inr ⟨_, rfl, Or.inr ⟨_, rfl, by simp, rfl⟩⟩
    · exact Or.inl ⟨token, rfl⟩
    · exact Or.inr ⟨_, rfl, Or.inr ⟨_, rfl, by simp, rfl⟩⟩
  · refine Or.inr ⟨error, ?_, Or.inl hcause⟩
    rw [lexOne, hlex]
    rfl

namespace Sound

variable (hs : replay.Sound)

include hs

theorem owns : ∃ region, replay.store.Houses [replay.document] region ∧
    replay.document.Owns replay.store (region replay.document) ∧
    (replay.store.node replay.document.root).deleted = false := by
  obtain ⟨region, hh⟩ := hs.arena.houses
  have ho := hh.owns _ (List.mem_singleton_self _)
  exact ⟨region, hh, ho, ho.existed.mpr (hs.existed _)⟩

theorem threaded : ∃ forest, replay.document.Threaded replay.store forest := by
  obtain ⟨region, -, ho, hexists⟩ := hs.owns
  obtain ⟨forest, ht, -⟩ := ho.alive hexists
  exact ⟨forest, ht⟩

theorem goes_failed (hc : replay.Causes error command) : replay.Goes command (replay.failed error) :=
  ⟨hs, rfl, fun _ he => ⟨Except.error.inj he ▸ hc, .refl _ _⟩⟩

omit hs in
theorem goes_ok {replay' : Replay} {output : String} (hs : replay'.Sound) (hd : replay'.document = replay.document) :
    replay.Goes command (replay', .ok output) := ⟨hs, hd, fun _ he => nomatch he⟩

omit hs in
theorem goes_silent (hs : Sound { replay with store := store }) : replay.Goes command (replay.silent store) :=
  goes_ok hs rfl

-- An edit of the document leaves its past alone.
theorem edit {edit : Edit} (hf : edit.Fits [replay.document] replay.store)
    (he : edit.Embeds true [replay.document] replay.store) (hrun : edit.run replay.store = some store) :
    Sound { replay with store := store } := by
  have harena := hs.arena.edit hf hrun
  rw [he.opened] at harena
  exact ⟨hs.built, harena, fun version => (hs.existed version).of_history ((Edit.run_drafts he hrun).history _)⟩

theorem commit : Sound { replay with store := replay.store.commit } := by
  obtain ⟨region, hh, -, hexists⟩ := hs.owns
  refine ⟨hs.built, hs.arena.commit, fun version => ?_⟩
  refine hh.logged.deleted_commit.trans ?_
  split
  · rw [hexists]
  · exact hs.existed _

theorem undo (h : replay.document.undoTo? replay.store version = some store) : Sound { replay with store := store } :=
  ⟨hs.built, hs.arena.undo h, fun version => (hs.existed version).of_history ((Document.undoTo?_unrecorded h).history _)⟩

-- A token goes in behind any that is not the last end, and another one may go in behind it.
theorem insertToken (hb : replay.store.Below replay.document.root anchor) (heos : anchor ≠ replay.document.eos) (token : Token) :
    ∃ after node, replay.document.insertTokenAfter replay.store anchor token = (after, .ok node) ∧
      Sound { replay with store := after } ∧ after.Below replay.document.root node ∧ node ≠ replay.document.eos := by
  obtain ⟨region, hh, ho, hexists⟩ := hs.owns
  have hf : (Edit.insert replay.document anchor token).Fits [replay.document] replay.store :=
    ⟨List.mem_singleton_self _, hb, heos⟩
  have heffect := ((Edit.run_houses hh hf rfl).2 _ (List.mem_singleton_self _) hexists).1
  rw [Edit.Effect, if_pos rfl] at heffect
  obtain ⟨hok, front, back, -, hsequence, -⟩ := heffect
  have hafter : Sound { replay with store := (replay.document.insertTokenAfter replay.store anchor token).1 } :=
    @edit _ _ hs (.insert replay.document anchor token) hf trivial rfl
  refine ⟨_, replay.store.size, Prod.ext rfl hok, hafter, ?_, ?_⟩
  · obtain ⟨forest, ht⟩ := hafter.threaded
    refine (ht.below_of_mem_leaves ?_).1
    rw [← Document.map_fst_sequence, hsequence, List.map_append]
    exact List.mem_append_right _ List.mem_cons_self
  · exact fun he => Nat.lt_irrefl _ (he ▸ ho.lt_size _ ho.within.eos)

theorem insertTokens (hb : replay.store.Below replay.document.root anchor) (heos : anchor ≠ replay.document.eos) :
    ∃ after nodes, replay.document.insertTokensAfter replay.store anchor tokens = (after, .ok nodes) ∧
      Sound { replay with store := after } := by
  induction tokens generalizing replay anchor with
  | nil => exact ⟨_, _, rfl, hs⟩
  | cons token rest ih =>
      obtain ⟨middle, node, hfirst, hmiddle, hbelow, hne⟩ := hs.insertToken hb heos token
      obtain ⟨after, nodes, hrest, hafter⟩ := ih hmiddle hbelow hne
      refine ⟨after, node :: nodes, ?_, hafter⟩
      rw [Document.insertTokensAfter, hfirst]
      dsimp only at hrest ⊢
      rw [hrest]
      rfl

-- A token stands where another may be put in, and from where it may be taken out.
theorem token_places (h : node ∈ replay.document.tokens replay.store) :
    replay.store.Below replay.document.root node ∧ node ≠ replay.document.root ∧ node ≠ replay.document.bos ∧
      node ≠ replay.document.eos := by
  obtain ⟨forest, ht⟩ := hs.threaded
  obtain ⟨hleaf, hbos, heos⟩ := ht.mem_tokens h
  obtain ⟨hbelow, hroot⟩ := ht.below_of_mem_leaves hleaf
  exact ⟨hbelow, hroot, hbos, heos⟩

theorem bos_places : replay.store.Below replay.document.root replay.document.bos ∧
    replay.document.bos ≠ replay.document.eos := by
  obtain ⟨forest, ht⟩ := hs.threaded
  obtain ⟨hleaves, hn⟩ := ht.leaves_eq
  refine ⟨(ht.below_of_mem_leaves ?_).1, fun he => (List.nodup_cons.mp hn).1 ?_⟩
  · rw [hleaves]
    exact List.mem_cons_self
  · exact List.mem_append_right _ (List.mem_singleton.mpr he)

-- Once there is an anchor, and tokens for it, they all go in.
theorem goes_insert_behind {after : Anchor} (hplace : replay.anchor after = .ok anchor)
    (hb : replay.store.Below replay.document.root anchor) (heos : anchor ≠ replay.document.eos)
    (hmismatches : ∀ error, replay.Mismatches error text → replay.Causes error (.insert after text)) :
    replay.Goes (.insert after text) (replay.insert after text) := by
  unfold insert
  rw [hplace]
  rcases @lex_spec replay text with hlex | ⟨error, hlex, hcause⟩
  · obtain ⟨store, nodes, hinserted, hsound⟩ :=
      @insertTokens _ _ (replay.lexer.tokenizeFragment text).tokens hs hb heos
    rw [hlex]
    dsimp only
    rw [hinserted]
    exact goes_silent hsound
  · rw [hlex]
    exact hs.goes_failed (hmismatches error hcause)

theorem goes_insert (after : Anchor) : replay.Goes (.insert after text) (replay.insert after text) := by
  cases after with
  | start =>
      obtain ⟨hbelow, heos⟩ := hs.bos_places
      exact hs.goes_insert_behind rfl hbelow heos fun _ h => h
  | token index =>
      rcases @token_spec replay index with ⟨node, hnode, htoken⟩ | ⟨error, htoken, hcause⟩
      · obtain ⟨hbelow, -, -, heos⟩ := hs.token_places hnode
        exact hs.goes_insert_behind htoken hbelow heos fun _ => Or.inr
      · rw [insert, show replay.anchor (.token index) = .error error from htoken]
        exact hs.goes_failed (Or.inl hcause)

theorem goes_remove : replay.Goes (.remove index) (replay.remove index) := by
  unfold remove
  rcases @token_spec replay index with ⟨node, hnode, htoken⟩ | ⟨error, htoken, hcause⟩
  · obtain ⟨region, hh, -, hexists⟩ := hs.owns
    obtain ⟨hbelow, hroot, hbos, heos⟩ := hs.token_places hnode
    have hf : (Edit.remove replay.document node).Fits [replay.document] replay.store :=
      ⟨List.mem_singleton_self _, hbelow, hroot, hbos, heos⟩
    obtain ⟨after, hrun⟩ : ∃ after, (Edit.remove replay.document node).run replay.store = some after := by
      rw [Edit.run]
      split
      · exact ⟨_, rfl⟩
      · exact ⟨_, rfl⟩
    have heffect := ((Edit.run_houses hh hf hrun).2 _ (List.mem_singleton_self _) hexists).1
    rw [Edit.Effect, if_pos rfl] at heffect
    rw [htoken]
    dsimp only
    rw [heffect.1]
    exact goes_silent (hs.edit hf trivial hrun)
  · rw [htoken]
    exact hs.goes_failed hcause

theorem goes_replace : replay.Goes (.replace index text) (replay.replace index text) := by
  unfold replace
  rcases @token_spec replay index with ⟨node, hnode, htoken⟩ | ⟨error, htoken, hcause⟩
  · rw [htoken]
    rcases @lexOne_spec replay text with ⟨token, hlex⟩ | ⟨error, hlex, hcause⟩
    · rw [hlex]
      have hf : (Edit.replace node token.rule token.text).Fits [replay.document] replay.store :=
        ⟨_, List.mem_singleton_self _, hnode⟩
      exact goes_silent (hs.edit hf trivial rfl)
    · rw [hlex]
      exact hs.goes_failed (Or.inr hcause)
  · rw [htoken]
    exact hs.goes_failed (Or.inl hcause)

theorem goes_parse {reparse : Bool} {step : Step} (hcause : ∀ fault, replay.Causes (.fault fault) command)
    (h : replay.parse fuel reparse = some step) : replay.Goes command step := by
  obtain ⟨⟨parser', after, status⟩, hp, rfl⟩ := Option.map_eq_some_iff.mp h
  have hf : (Edit.parse replay.parser fuel replay.document reparse).Fits [replay.document] replay.store :=
    ⟨List.mem_singleton_self _, hs.built⟩
  have hedited := @edit _ after hs (.parse replay.parser fuel replay.document reparse) hf trivial
    (Option.map_eq_some_iff.mpr ⟨_, hp, rfl⟩)
  obtain ⟨grammar, graph, hbuilt, htable⟩ := hs.built
  have hsound : Sound { replay with parser := parser', store := after } :=
    ⟨⟨grammar, graph, hbuilt, (Parser.table_parse hp).trans htable⟩, hedited.arena, hedited.existed⟩
  have hremarked := Parser.parse_remarks (Store.closed_all replay.store) (Document.within_all _) hp
  dsimp only
  split
  · refine ⟨hsound, rfl, fun error he => ⟨?_, (hremarked.resolve_left fun h => nomatch h.1).2⟩⟩
    obtain rfl := Except.error.inj he
    exact hcause _
  · exact goes_ok hsound rfl
  · exact goes_ok hsound rfl

theorem goes_travel {result : Option Store} (hundo : ∀ after, result = some after →
      ∃ version, replay.document.undoTo? replay.store version = some after)
    (hcause : result = none → replay.Causes error command) : replay.Goes command (replay.travel error result) := by
  cases result with
  | none => exact hs.goes_failed (hcause rfl)
  | some after =>
      obtain ⟨version, h⟩ := hundo after rfl
      exact goes_silent (hs.undo h)

theorem goes_run {step : Step} (h : replay.run fuel command = some step) : replay.Goes command step := by
  cases command with
  | insert after text =>
      obtain rfl := Option.some_inj.mp h
      exact hs.goes_insert after
  | remove index =>
      obtain rfl := Option.some_inj.mp h
      exact hs.goes_remove
  | replace index text =>
      obtain rfl := Option.some_inj.mp h
      exact hs.goes_replace
  | parse => exact hs.goes_parse (fun fault => ⟨fault, rfl⟩) h
  | reparse => exact hs.goes_parse (fun fault => ⟨fault, rfl⟩) h
  | commit =>
      obtain rfl := Option.some_inj.mp h
      exact goes_ok hs.commit rfl
  | undo version =>
      obtain rfl := Option.some_inj.mp h
      exact hs.goes_travel (fun after h => ⟨version, h⟩) fun hnone => ⟨Document.undoTo?_eq_none.mp hnone, rfl⟩
  | redo version =>
      obtain rfl := Option.some_inj.mp h
      refine hs.goes_travel (fun after h => ⟨version, Document.undoTo?_of_redoTo? h⟩) fun hnone => ⟨?_, rfl⟩
      rw [Document.redoTo?] at hnone
      split at hnone
      · rename_i hlt
        exact Or.inl hlt
      · exact Or.inr (Document.undoTo?_eq_none.mp hnone)
  | text | tree | ast =>
      obtain rfl := Option.some_inj.mp h
      exact goes_ok hs rfl

end Sound

theorem sound_ofTokens {source : GrammarSource} {table : SyntaxTable} {lexer : Lexer}
    (hb : (ofTokens source table lexer []).parser.IsBuilt) : (ofTokens source table lexer []).Sound := by
  have hleaf := @Document.symbol_tokenContents []
  obtain ⟨-, ids, hopens, hnew, -⟩ := @Document.owns_ofLeaves .empty _ Store.logged_empty hleaf
  exact ⟨hb, @Arena.edit [] .empty _ (.create []) .empty trivial rfl, fun version =>
    (Store.Records.existedAt_opened hopens hnew).mpr ⟨Nat.zero_le version, rfl⟩⟩

-- However a command goes, the document is sound after it.
theorem Reached.sound (hr : Reached replay) : replay.Sound := by
  induction hr with
  | opened hb => exact sound_ofTokens hb
  | run _ h ih => exact (ih.goes_run h).sound

theorem Reached.start {source : GrammarSource} {table : SyntaxTable} (h : Replay.start source table = .ok replay)
    (hb : replay.parser.IsBuilt) : Reached replay := by
  rw [Replay.start] at h
  cases hlexer : Lexer.ofGrammar source with
  | error error =>
      rw [hlexer] at h
      cases h
  | ok lexer =>
      rw [hlexer] at h
      cases h
      exact .opened hb

theorem Reached.runEach {commands : List Command} {replay' : Replay} {outputs : List String} {failure : Option RunError}
    (hr : Reached replay) (h : Replay.runEach fuel commands replay = some (replay', outputs, failure)) : Reached replay' := by
  induction commands generalizing replay outputs with
  | nil =>
      cases h
      exact hr
  | cons command rest ih =>
      obtain ⟨⟨next, result⟩, hrun, h⟩ := Option.bind_eq_some_iff.mp h
      have hnext : Reached next := hr.run hrun
      cases result with
      | error error =>
          cases h
          exact hnext
      | ok output =>
          obtain ⟨⟨last, others, failure⟩, hrest, h⟩ := Option.bind_eq_some_iff.mp h
          cases h
          exact ih hnext hrest

-- A command that fails leaves the document as it was, and all nodes but for marks of what
-- the next commit records. Tokens go in and out unless there are none at an index, or what
-- is to go in is not matched.
theorem run_error_leaves {replay' : Replay} (hr : Reached replay)
    (h : replay.run fuel command = some (replay', .error error)) :
    replay.Causes error command ∧ replay'.document = replay.document ∧
      replay'.store.size = replay.store.size ∧ replay'.store.version = replay.store.version ∧
      replay'.store.newest = replay.store.newest ∧
      ∀ id, (replay'.store.node id).unmarked = (replay.store.node id).unmarked := by
  have hgoes := hr.sound.goes_run h
  obtain ⟨hcause, hremarked⟩ := hgoes.failed error rfl
  exact ⟨hcause, hgoes.document, hremarked.size, hremarked.alike.version, hremarked.alike.newest, hremarked.unmarked⟩

def crossed : Replay :=
  .ofTokens ⟨Rules.crossed.toGrammar, [], default⟩ (.ofGrammar Rules.crossed.toGrammar .lr1)
    ⟨["a", "b", "c", "d", "e"].map fun text => ⟨none, .literal text.toList⟩, false⟩ []

-- A version is gone back to, without the last token. What is put in for it has a character
-- that no rule matches, so that not even what is in front of that goes in.
theorem run_error_leaves_crossed :
    ∃ replay replay' error, (Reached replay ∧
      replay.run 100 (.insert (.token 1) "d?d") = some (replay', .error error)) ∧
      (error = .unmatchedText ⟨1, 2, "?"⟩ "d?d" ∧ replay.document.text replay.store = "ac") ∧
      replay.Causes error (.insert (.token 1) "d?d") ∧ replay'.document = replay.document ∧
      replay'.store.size = replay.store.size ∧ replay'.store.version = replay.store.version ∧
      replay'.store.newest = replay.store.newest ∧
      ∀ id, (replay'.store.node id).unmarked = (replay.store.node id).unmarked := by
  have hsteps : ((Replay.runEach 100 [.insert .start "ac", .commit, .insert (.token 1) "d", .parse, .commit, .undo 1]
      crossed).bind fun reached => (reached.1.run 100 (.insert (.token 1) "d?d")).map fun last =>
        (reached.1.document.text reached.1.store, reached.2.1, last.2)) =
      some ("ac", ["", "version 1\n", "", "accepted\n", "version 2\n", ""],
        .error (.unmatchedText ⟨1, 2, "?"⟩ "d?d")) := by
    decide +kernel
  obtain ⟨⟨replay, outputs, failure⟩, hreached, hrest⟩ := Option.bind_eq_some_iff.mp hsteps
  obtain ⟨⟨replay', result⟩, hrun, hresult⟩ := Option.map_eq_some_iff.mp hrest
  simp only [Prod.mk.injEq] at hresult
  obtain ⟨htext, -, rfl⟩ := hresult
  have hr : Reached replay := (Reached.opened ⟨_, _, built_crossed, rfl⟩).runEach hreached
  exact ⟨replay, replay', _, ⟨hr, hrun⟩, ⟨rfl, htext⟩, run_error_leaves hr hrun⟩

end Replay

end IncrementalLR
