import IncrementalLR.Proofs.Parse.Liveness

namespace IncrementalLR

namespace SyntaxTable

variable (table : SyntaxTable)

-- The states that a wildcard leads to.
def wildcardTargets (state : Nat) : List Nat :=
  Setting.wildcards.filterMap fun symbol =>
    match table.lookup? state symbol with
    | some (.shift target) => some target
    | _ => none

-- Whether no wildcard may come right behind another one, which may have taken nothing.
def Spaced : Prop := ∀ state, ∀ target ∈ table.wildcardTargets state, table.wildcardTargets target = []

variable {table} {state target : Nat} {reach : Reach}

theorem mem_wildcardTargets (h : table.lookup? state (.wildcard reach) = some (.shift target)) :
    target ∈ table.wildcardTargets state := by
  refine List.mem_filterMap.mpr ⟨.wildcard reach, ?_, by rw [h]⟩
  cases reach with
  | multiline => exact List.mem_cons_self
  | singleLine => exact List.mem_cons_of_mem _ List.mem_cons_self

theorem wildcardTargets_of_size_le (h : table.rows.size ≤ state) : table.wildcardTargets state = [] := by
  have hnone : ∀ symbol, table.lookup? state symbol = none := by
    intro symbol
    rw [lookup?]
    split
    · rw [action?, row, Array.getD_eq_getD_getElem?, Array.getElem?_eq_none h]
      rfl
    · rfl
  exact List.filterMap_eq_nil_iff.mpr fun symbol _ => by rw [hnone]

theorem spaced_of_all
    (h : ((List.range table.rows.size).all fun state =>
      (table.wildcardTargets state).all fun target => (table.wildcardTargets target).isEmpty) = true) :
    table.Spaced := by
  intro state target htarget
  by_cases hlt : state < table.rows.size
  · exact List.isEmpty_iff.mp (List.all_eq_true.mp (List.all_eq_true.mp h state (List.mem_range.mpr hlt)) target htarget)
  · rw [wildcardTargets_of_size_le (Nat.le_of_not_lt hlt)] at htarget
    cases htarget

end SyntaxTable

namespace Setting

variable (setting : Setting)

-- What keeps a parse up to a last leaf from faults: no wildcard takes nothing but once in
-- a row, and the last leaf is neither shifted nor passed through.
structure Sheltered (last : Nat × Label) : Prop where
  ofAutomaton : setting.table.OfAutomaton
  spaced : setting.table.Spaced
  finish : setting.table.grammar.toRules.Avoids (· == .finish)
  label : last.2.parsed = Document.eosLabel
  passes : setting.passes last.2 = false

-- What there is to do before a parse must end or reduce. A wildcard that takes nothing
-- counts only where there may be one.
def cost (scene : Scene) : Nat :=
  2 * scene.weight + if (setting.table.wildcardTargets (Piece.top scene.pieces)).isEmpty then 0 else 1

-- Whether a drive goes on from one run to another, each with the node before which it is.
def Continues (before after : Run × Nat) : Prop :=
  setting.step (before.1.count fun counts => { counts with steps := counts.steps + 1 }) before.2 =
    .ok (.continue after.1 after.2)

-- The runs that an attempt comes to.
def Comes (store : Store) (metrics : Metrics) (run : Run) (id : Nat) : Prop :=
  ∃ first, store.following? setting.document.bos = some first ∧
    Relation.ReflTransGen setting.Continues
      (⟨store, [], [], false, false, { metrics with attempts := metrics.attempts + 1 }⟩, first) (run, id)

-- Whether an attempt makes only so many nodes, one by each reduction, however long it goes on.
def Within (store : Store) (metrics : Metrics) (bound : Nat) : Prop :=
  ∀ run id, setting.Comes store metrics run id → run.store.size ≤ bound

def Settles (store : Store) (metrics : Metrics) : Prop := ∃ bound, setting.Within store metrics bound

-- What holds of a run on a document after so many steps. Nodes that have been made pay for
-- steps to come.
structure Stage (before : Forest) (last : Nat × Label) (steps : Nat) (run : Run) (id : Nat) (scene : Scene) :
    Prop where
  onPath : run.OnPath setting.table.graph
  shows : Shows setting.document.root before run scene
  head : scene.ahead.roots.head? = some id
  closes : Document.ClosesWith last scene
  budget : steps + setting.cost scene ≤ 4 * scene.size + 2

variable {setting} {before : Forest} {last : Nat × Label} {steps fuel bound id : Nat} {run : Run} {scene other : Scene}

-- Each step leaves less to do, unless it makes a node.
theorem cost_moves (hs : setting.table.Spaced) (hm : Moves setting scene other) :
    setting.cost other < setting.cost scene ∧ other.size = scene.size ∨
      setting.cost other ≤ setting.cost scene + 1 ∧ other.size = scene.size + 1 := by
  have hflag : ∀ targets : List Nat, (if targets.isEmpty then 0 else 1) ≤ 1 := fun targets => by split <;> omega
  have hother := hflag (setting.table.wildcardTargets (Piece.top other.pieces))
  rcases hm.weight_cases with ⟨hweight, hsize⟩ | ⟨hweight, hsize⟩ | ⟨reach, target, haction, rfl⟩
  · left
    refine ⟨?_, hsize⟩
    unfold cost
    omega
  · right
    refine ⟨?_, hsize⟩
    unfold cost
    omega
  · left
    have htarget := SyntaxTable.mem_wildcardTargets haction
    have hnone : setting.table.wildcardTargets target = [] := hs _ _ htarget
    have hsome : (setting.table.wildcardTargets (Piece.top scene.pieces)).isEmpty = false :=
      List.isEmpty_eq_false_iff.mpr (List.ne_nil_of_mem htarget)
    refine ⟨?_, rfl⟩
    rw [cost, cost, hsome]
    change 2 * scene.weight + (if (setting.table.wildcardTargets target).isEmpty then 0 else 1) < 2 * scene.weight + 1
    rw [hnone]
    exact Nat.lt_succ_self _

namespace Stage

variable (hsheltered : setting.Sheltered last) (h : setting.Stage before last steps run id scene)

include hsheltered h

-- One step ends the parse without a fault, or it leads to another stage.
theorem step :
    (∃ after outcome, ∀ fuel, setting.drive (fuel + 1) steps run id = some (after, .ok outcome)) ∨
      ∃ after next other, setting.Continues (run, id) (after, next) ∧ Moves setting scene other ∧
        setting.Stage before last (steps + 1) after next other ∧
        ∀ fuel, setting.drive (fuel + 1) steps run id = setting.drive fuel (steps + 1) after next := by
  have hcount := h.shows.count fun counts => { counts with steps := counts.steps + 1 }
  have hlimit : ¬stepLimit (run.count fun counts => { counts with steps := counts.steps + 1 }).store < steps := by
    have hbudget := h.budget
    rw [stepLimit, hcount.size]
    omega
  have hanswers := hcount.answers_step h.head hsheltered.ofAutomaton.wellFormed
  have honPath := @onPath_step setting (run.count fun counts => { counts with steps := counts.steps + 1 }) id
    hsheltered.ofAutomaton h.onPath
  generalize hstep : setting.step (run.count fun counts => { counts with steps := counts.steps + 1 }) id = result
    at hanswers honPath
  cases hanswers with
  | @«continue» after other next hm hshows hnext =>
      refine Or.inr ⟨after, next, other, hstep, hm, ⟨honPath, hshows, hnext, ?_, ?_⟩, fun fuel => ?_⟩
      · exact h.closes.moves (congrArg Label.symbol hsheltered.label) hm
      · have hbudget := h.budget
        rcases cost_moves hsheltered.spaced hm with ⟨hcost, hsize⟩ | ⟨hcost, hsize⟩ <;> omega
      · rw [drive, hstep, if_neg hlimit]
  | accept _ _ => exact Or.inl ⟨_, _, fun fuel => by rw [drive, hstep, if_neg hlimit]⟩
  | reject _ _ => exact Or.inl ⟨_, _, fun fuel => by rw [drive, hstep, if_neg hlimit]⟩
  | fault hf =>
      refine absurd hf (not_fails hsheltered.ofAutomaton hsheltered.finish hsheltered.label hsheltered.passes ?_ h.closes)
      rw [← h.shows.stack]
      exact h.onPath

-- However long a parse goes on, it ends without a fault if at all.
theorem drive_ok {after : Run} {result : Except Fault Outcome}
    (hd : setting.drive fuel steps run id = some (after, result)) : ∃ outcome, result = .ok outcome := by
  induction fuel generalizing steps run id scene with
  | zero => cases hd
  | succ fuel ih =>
      rcases h.step hsheltered with ⟨last, outcome, hend⟩ | ⟨next, nextId, other, -, -, hstage, hnext⟩
      · rw [hend] at hd
        cases hd
        exact ⟨outcome, rfl⟩
      · rw [hnext] at hd
        exact ih hstage hd

-- A parse that makes only so many nodes ends.
theorem drive_ends
    (hbound : ∀ after next, Relation.ReflTransGen setting.Continues (run, id) (after, next) → after.store.size ≤ bound) :
    ∃ least after outcome, ∀ fuel, least ≤ fuel → setting.drive fuel steps run id = some (after, .ok outcome) := by
  induction hmeasure : 2 * (bound - scene.size) + setting.cost scene using Nat.strong_induction_on
    generalizing steps run id scene with
  | _ measure ih =>
      rcases h.step hsheltered with ⟨after, outcome, hend⟩ | ⟨next, nextId, other, hcontinues, hm, hstage, hnext⟩
      · refine ⟨1, after, outcome, fun fuel hfuel => ?_⟩
        obtain ⟨fuel, rfl⟩ := Nat.exists_eq_add_of_le' hfuel
        exact hend fuel
      · have hsize := hbound next nextId (.single hcontinues)
        rw [hstage.shows.size] at hsize
        have hless : 2 * (bound - other.size) + setting.cost other < measure := by
          rcases cost_moves hsheltered.spaced hm with ⟨hcost, hsame⟩ | ⟨hcost, hsame⟩ <;> omega
        obtain ⟨least, after, outcome, hdrive⟩ :=
          ih _ hless hstage (fun after id hreached => hbound after id (.head hcontinues hreached)) rfl
        refine ⟨least + 1, after, outcome, fun fuel hfuel => ?_⟩
        obtain ⟨fuel, rfl⟩ := Nat.exists_eq_add_of_le' (Nat.le_trans (Nat.le_add_left 1 _) hfuel)
        rw [hnext]
        exact hdrive fuel (Nat.le_of_succ_le_succ hfuel)

end Stage

section Attempts

variable {store after : Store} {metrics metrics' : Metrics} {first last : Label} {content : Forest}
  (hsheltered : setting.Sheltered (setting.document.eos, last))
  (hp : store.Planted setting.document.root (setting.document.framed first last content))

include hp

theorem stage_of_framed (metrics : Metrics) {id : Nat} (hid : store.following? setting.document.bos = some id) :
    setting.Stage (.leaf setting.document.bos first .nil) (setting.document.eos, last) 1
      ⟨store, [], [], false, false, metrics⟩ id
      ⟨[], content ++ .leaf setting.document.eos last .nil, store.size, false, false⟩ := by
  obtain ⟨next, hnext, hhead⟩ := Document.exists_following_of_framed hp
  obtain rfl := Option.some_inj.mp (hid.symm.trans hnext)
  refine ⟨.nil, Document.shows_of_framed hp metrics, hhead, ⟨content, rfl⟩, ?_⟩
  have hlength : (content ++ .leaf setting.document.eos last .nil).ids.length ≤ store.size :=
    Nat.le_of_succ_le (Nat.le_of_succ_le (Store.length_le_size hp.nodup hp.lt_size))
  have hweight : Scene.weight ⟨[], content ++ .leaf setting.document.eos last .nil, store.size, false, false⟩ =
      2 * (content ++ .leaf setting.document.eos last .nil).ids.length := rfl
  rw [cost, hweight]
  dsimp only
  split <;> omega

include hsheltered

theorem attempt_ok {result : Except Fault Outcome}
    (h : setting.attempt fuel store metrics = some (after, metrics', result)) : ∃ outcome, result = .ok outcome := by
  obtain ⟨id, hid, -⟩ := Document.exists_following_of_framed hp
  obtain ⟨run, hdrive, -, -⟩ := drive_of_following hid h
  exact (stage_of_framed hp _ hid).drive_ok hsheltered hdrive

theorem attempt_ends (hsettles : setting.Settles store metrics) :
    ∃ least after metrics' outcome, ∀ fuel, least ≤ fuel →
      setting.attempt fuel store metrics = some (after, metrics', .ok outcome) := by
  obtain ⟨id, hid, -⟩ := Document.exists_following_of_framed hp
  obtain ⟨bound, hbound⟩ := hsettles
  obtain ⟨least, run, outcome, hdrive⟩ := (stage_of_framed hp _ hid).drive_ends hsheltered
    fun after next hreached => hbound after next ⟨id, hid, hreached⟩
  obtain ⟨after, -, hattempt⟩ := exists_attempt_of_drive hid
  exact ⟨least, after, _, outcome, fun fuel hfuel => hattempt fuel (hdrive fuel hfuel)⟩

end Attempts

-- An attempt that ends has come to only so many runs.
theorem bounded_of_drive {after : Run} {outcome : Outcome} (hd : setting.drive fuel steps run id = some (after, .ok outcome)) :
    ∃ bound, ∀ other next, Relation.ReflTransGen setting.Continues (run, id) (other, next) → other.store.size ≤ bound := by
  induction fuel generalizing steps run id with
  | zero => cases hd
  | succ fuel ih =>
      by_cases hgoes : ∃ middle, setting.Continues (run, id) middle
      · obtain ⟨⟨middle, next⟩, hmiddle⟩ := hgoes
        have hstep : setting.step (run.count fun counts => { counts with steps := counts.steps + 1 }) id =
            .ok (.continue middle next) := hmiddle
        rw [drive, hstep] at hd
        split at hd
        · cases hd
        · obtain ⟨bound, hbound⟩ := ih hd
          refine ⟨max run.store.size bound, fun other last hreached => ?_⟩
          rcases Relation.ReflTransGen.cases_head hreached with hsame | ⟨second, hsecond, hrest⟩
          · cases hsame
            exact Nat.le_max_left _ _
          · cases (Except.ok.inj (hmiddle.symm.trans hsecond))
            exact Nat.le_trans (hbound other last hrest) (Nat.le_max_right _ _)
      · refine ⟨run.store.size, fun other last hreached => ?_⟩
        rcases Relation.ReflTransGen.cases_head hreached with hsame | ⟨second, hsecond, -⟩
        · cases hsame
          exact Nat.le_refl _
        · exact absurd ⟨second, hsecond⟩ hgoes

theorem settles_of_attempt {store after : Store} {metrics metrics' : Metrics} {outcome : Outcome}
    (h : setting.attempt fuel store metrics = some (after, metrics', .ok outcome)) : setting.Settles store metrics := by
  cases hfirst : store.following? setting.document.bos with
  | none =>
      rw [attempt, hfirst] at h
      cases h
  | some first =>
      obtain ⟨run, hdrive, -, -⟩ := drive_of_following hfirst h
      obtain ⟨bound, hbound⟩ := bounded_of_drive hdrive
      refine ⟨bound, fun other next hcomes => ?_⟩
      obtain ⟨start, hstart, hreached⟩ := hcomes
      obtain rfl := Option.some_inj.mp (hfirst.symm.trans hstart)
      exact hbound other next hreached

end Setting

end IncrementalLR
