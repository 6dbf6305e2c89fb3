import IncrementalLR.Parse.Basic
import IncrementalLR.Proofs.Parse.Refinement
import Mathlib.Logic.Relation

namespace IncrementalLR

-- Scenes that a parse comes to.
def Reachable (setting : Setting) : Scene → Scene → Prop := Relation.ReflTransGen (Moves setting)

-- How a parse from a scene ends, unless it is cut short.
inductive Concludes (setting : Setting) (root : Nat) (before : Forest) (scene : Scene) :
    Run × Except Fault Outcome → Prop where
  | accepted {run : Run} {other : Scene} :
      Reachable setting scene other → Accepts setting other → Shows root before run other →
      Concludes setting root before scene (setting.accept run, .ok .accepted)
  | rejected {run : Run} {other : Scene} {id state : Nat} :
      Reachable setting scene other → Rejects setting other → other.ahead.roots.head? = some id →
      Concludes setting root before scene
        (run, .ok (.rejected id state (other.brokeDown || other.validating)))
  | failed {run : Run} {other : Scene} {fault : Fault} :
      Reachable setting scene other → Fails setting other →
      Concludes setting root before scene (run, .error fault)

-- Nodes that are still to come count twice, since each of them may be shifted
-- whole and taken back.
def Scene.weight (scene : Scene) : Nat := 2 * scene.ahead.ids.length + if scene.validating then 1 else 0

section

variable {setting : Setting} {root : Nat} {before : Forest} {scene other : Scene} {run : Run}
  {fuel steps id : Nat} {result : Run × Except Fault Outcome}

theorem Concludes.head (hm : Moves setting scene other) (hc : Concludes setting root before other result) :
    Concludes setting root before scene result := by
  cases hc with
  | accepted hr ha hs => exact .accepted (hr.head hm) ha hs
  | rejected hr ha hid => exact .rejected (hr.head hm) ha hid
  | failed hr hf => exact .failed (hr.head hm) hf

theorem drive_concludes (hs : Shows root before run scene) (hid : scene.ahead.roots.head? = some id)
    (hg : setting.table.grammar.toRules.WellFormed)
    (hd : setting.drive fuel steps run id = some result) :
    Concludes setting root before scene result ∨
      ∃ last steps, result = (last, .error (.noProgress steps)) := by
  induction fuel generalizing steps run id scene with
  | zero => cases hd
  | succ fuel ih =>
      rw [Setting.drive] at hd
      have hcount := hs.count fun counts => { counts with steps := counts.steps + 1 }
      generalize run.count (fun counts => { counts with steps := counts.steps + 1 }) = run at hd hcount
      split at hd
      · exact Or.inr ⟨_, _, (Option.some_inj.mp hd).symm⟩
      · have hanswers : Answers setting root before scene id (setting.step run id) :=
          hcount.answers_step hid hg
        generalize setting.step run id = step at hd hanswers
        cases hanswers with
        | «continue» hm hshows hnext => exact (ih hshows hnext hd).imp_left (·.head hm)
        | accept ha hshows =>
            obtain rfl := Option.some_inj.mp hd
            exact Or.inl (.accepted .refl ha hshows)
        | reject hr hbroke =>
            obtain rfl := Option.some_inj.mp hd
            rw [hbroke]
            exact Or.inl (.rejected .refl hr hid)
        | fault hf =>
            obtain rfl := Option.some_inj.mp hd
            exact Or.inl (.failed .refl hf)

-- A wildcard leaves less to come, unless it takes nothing.
theorem Spans.length_lt {ahead rest : Forest} {leaves : List (Nat × Label)} (hs : Spans ahead leaves rest) :
    rest.ids.length < ahead.ids.length ∨ leaves = [] ∧ rest = ahead := by
  have hle : ∀ {ahead rest : Forest} {leaves : List (Nat × Label)}, Spans ahead leaves rest →
      rest.ids.length ≤ ahead.ids.length := by
    intro ahead rest leaves hs
    induction hs with
    | done => exact Nat.le_refl _
    | descend _ ih =>
        rw [Forest.ids_append] at ih
        exact Nat.le_succ_of_le ih
    | take _ _ ih => exact Nat.le_succ_of_le ih
  cases hs with
  | done => exact Or.inr ⟨rfl, rfl⟩
  | descend h =>
      have hbelow := hle h
      rw [Forest.ids_append] at hbelow
      exact Or.inl (Nat.lt_succ_of_le hbelow)
  | take _ h => exact Or.inl (Nat.lt_succ_of_le (hle h))

-- Each step leaves less to come, or adds a node, or has a wildcard take nothing.
theorem Moves.weight_cases (hm : Moves setting scene other) :
    other.weight < scene.weight ∧ other.size = scene.size ∨ other.weight = scene.weight ∧ other.size = scene.size + 1 ∨
      ∃ reach target, setting.lookup? scene.pieces (.wildcard reach) = some (.shift target) ∧
        other = { scene with pieces := .span [] target :: scene.pieces } := by
  have hreduced : ∀ {production}, setting.reduced? production scene = some other →
      other.weight = scene.weight ∧ other.size = scene.size + 1 := by
    intro production h
    unfold Setting.reduced? at h
    dsimp only at h
    split at h
    · obtain ⟨next, -, rfl⟩ := Option.map_eq_some_iff.mp h
      exact ⟨rfl, rfl⟩
    · cases h
  cases hm with
  | shift ha _ _ =>
      left
      simp [Scene.weight, ha, Forest.ids]
      omega
  | reduce _ _ h => exact Or.inr (Or.inl (hreduced h))
  | breakDown ha _ hv _ =>
      left
      simp [Scene.weight, hv]
  | pass ha _ _ hv _ =>
      left
      simp [Scene.weight, ha, hv, Forest.ids]
  | @span reach target leaves rest _ haction hs =>
      rcases hs.length_lt with hlt | ⟨rfl, rfl⟩
      · exact Or.inl ⟨Nat.add_lt_add_right (Nat.mul_lt_mul_of_pos_left hlt Nat.two_pos) _, rfl⟩
      · exact Or.inr (Or.inr ⟨reach, target, haction, rfl⟩)
  | reduceSpan _ h => exact Or.inr (Or.inl (hreduced h))
  | descend ha =>
      left
      simp [Scene.weight, ha, Forest.ids]
  | reuse _ ha _ =>
      left
      simp [Scene.weight, ha, Forest.ids]
      split <;> omega

theorem Moves.weight (hw : ∀ pieces reach, setting.lookup? pieces (.wildcard reach) = none)
    (hm : Moves setting scene other) :
    other.weight < scene.weight ∧ other.size = scene.size ∨
      other.weight = scene.weight ∧ other.size = scene.size + 1 := by
  rcases hm.weight_cases with h | h | ⟨reach, target, haction, -⟩
  · exact Or.inl h
  · exact Or.inr h
  · rw [hw] at haction
    cases haction

-- A parse that can go on only so far ends with enough fuel, before it reaches
-- the limit on its steps.
theorem drive_of_acc (hw : ∀ pieces reach, setting.lookup? pieces (.wildcard reach) = none)
    (hg : setting.table.grammar.toRules.WellFormed)
    (hacc : Acc (fun after scene => Moves setting scene after) scene) (hs : Shows root before run scene)
    (hid : scene.ahead.roots.head? = some id) {budget : Nat} (hbudget : budget ≤ 15 * scene.size + 1024)
    (hsteps : steps + scene.weight ≤ scene.size + budget) :
    ∃ least result, (∀ fuel, least ≤ fuel → setting.drive fuel steps run id = some result) ∧
      Concludes setting root before scene result := by
  induction hacc generalizing steps run id with
  | intro scene _ ih =>
      have hcount := hs.count fun counts => { counts with steps := counts.steps + 1 }
      have hlimit : ¬Setting.stepLimit
          (run.count fun counts => { counts with steps := counts.steps + 1 }).store < steps := by
        rw [Setting.stepLimit, hcount.size]
        omega
      have hanswers : Answers setting root before scene id
          (setting.step (run.count fun counts => { counts with steps := counts.steps + 1 }) id) :=
        hcount.answers_step hid hg
      generalize hstep : setting.step (run.count fun counts => { counts with steps := counts.steps + 1 }) id = step
        at hanswers
      have hend : ∀ {result}, Concludes setting root before scene result →
          (∀ fuel, setting.drive (fuel + 1) steps run id = some result) →
          ∃ least result, (∀ fuel, least ≤ fuel → setting.drive fuel steps run id = some result) ∧
            Concludes setting root before scene result := by
        intro result hc h
        refine ⟨1, result, fun fuel hfuel => ?_, hc⟩
        obtain ⟨fuel, rfl⟩ := Nat.exists_eq_add_of_le' hfuel
        exact h fuel
      cases hanswers with
      | @«continue» next other lookahead hm hshows hnext =>
          have hweight := hm.weight hw
          obtain ⟨least, result, hresult, hc⟩ :=
            @ih other hm next (steps + 1) lookahead hshows hnext (by omega) (by omega)
          refine ⟨least + 1, result, fun fuel hfuel => ?_, hc.head hm⟩
          obtain ⟨fuel, rfl⟩ := Nat.exists_eq_add_of_le' (Nat.le_trans (Nat.le_add_left 1 _) hfuel)
          rw [Setting.drive, hstep, if_neg hlimit]
          exact hresult fuel (by omega)
      | accept ha hshows =>
          refine hend (.accepted .refl ha hshows) fun fuel => ?_
          rw [Setting.drive, hstep, if_neg hlimit]
      | @reject after hr hbroke =>
          refine hend (@Concludes.rejected _ _ _ _ after _ id after.stack.state .refl hr hid) fun fuel => ?_
          rw [← hbroke, Setting.drive, hstep, if_neg hlimit]
      | @fault after fault hf =>
          refine hend (@Concludes.failed _ _ _ _ after _ fault .refl hf) fun fuel => ?_
          rw [Setting.drive, hstep, if_neg hlimit]

end

namespace Setting

variable {setting : Setting} {fuel more steps id : Nat} {run : Run} {result : Run × Except Fault Outcome}

-- A parse that ends with some fuel ends alike with more.
theorem drive_of_le (hle : fuel ≤ more) (hd : setting.drive fuel steps run id = some result) :
    setting.drive more steps run id = some result := by
  induction fuel generalizing more steps run id with
  | zero => cases hd
  | succ fuel ih =>
      obtain ⟨more, rfl⟩ := Nat.exists_eq_add_of_le' (Nat.le_trans (Nat.le_add_left 1 fuel) hle)
      rw [drive] at hd ⊢
      split at hd
      · rename_i hlimit
        rw [if_pos hlimit, hd]
      · rename_i hlimit
        rw [if_neg hlimit]
        cases hstep : setting.step (run.count fun counts => { counts with steps := counts.steps + 1 }) id with
        | error last =>
            rw [hstep] at hd
            exact hd
        | ok step =>
            rw [hstep] at hd
            cases step with
            | «continue» next lookahead => exact ih (Nat.le_of_succ_le_succ hle) hd
            | accept last => exact hd
            | reject last node => exact hd

theorem attempt_of_le {store : Store} {metrics : Metrics} {last : Store × Metrics × Except Fault Outcome}
    (hle : fuel ≤ more) (h : setting.attempt fuel store metrics = some last) :
    setting.attempt more store metrics = some last := by
  unfold attempt at h ⊢
  dsimp only at h ⊢
  split at h
  · exact h
  · obtain ⟨result, hd, rfl⟩ := Option.map_eq_some_iff.mp h
    rw [drive_of_le hle hd]
    rfl

-- An attempt leaves what its drive leaves, unless that is rolled back.
theorem exists_attempt_of_drive {store : Store} {metrics : Metrics} {first : Nat} {outcome : Except Fault Outcome}
    (hfirst : store.following? setting.document.bos = some first) :
    ∃ after, (outcome = .ok .accepted → after = run.store) ∧ ∀ fuel,
      setting.drive fuel 1 ⟨store, [], [], false, false, { metrics with attempts := metrics.attempts + 1 }⟩ first =
        some (run, outcome) →
      setting.attempt fuel store metrics = some (after, run.metrics, outcome) := by
  by_cases haccepted : outcome = .ok .accepted
  · subst haccepted
    refine ⟨run.store, fun _ => rfl, fun fuel h => ?_⟩
    rw [attempt, hfirst]
    exact congrArg (Option.map _) h
  · refine ⟨rollback store.size run, fun h => absurd h haccepted, fun fuel h => ?_⟩
    rw [attempt, hfirst]
    refine (congrArg (Option.map _) h).trans ?_
    rcases outcome with fault | outcome
    · rfl
    · cases outcome with
      | accepted => exact absurd rfl haccepted
      | rejected node state unsure => rfl

-- The other way round, an attempt is a drive from the first node on.
theorem drive_of_following {store after : Store} {metrics metrics' : Metrics} {first : Nat} {outcome : Except Fault Outcome}
    (hfirst : store.following? setting.document.bos = some first)
    (h : setting.attempt fuel store metrics = some (after, metrics', outcome)) :
    ∃ run, setting.drive fuel 1 ⟨store, [], [], false, false, { metrics with attempts := metrics.attempts + 1 }⟩ first =
        some (run, outcome) ∧ run.metrics = metrics' ∧ (outcome = .ok .accepted → after = run.store) := by
  rw [attempt, hfirst] at h
  obtain ⟨⟨run, ending⟩, hdrive, h⟩ := Option.map_eq_some_iff.mp h
  dsimp only at h
  split at h
  · cases h
    exact ⟨run, hdrive, rfl, fun _ => rfl⟩
  · rename_i hne
    cases h
    exact ⟨run, hdrive, rfl, fun haccepted => absurd haccepted hne⟩

end Setting

theorem Parser.parse_of_accepted {parser : Parser} {document : Document} {store after : Store} {fuel : Nat}
    {reparse : Bool} {metrics : Metrics}
    (h : (parser.setting document (reparse || parser.reparse)).attempt fuel store default =
      some (after, metrics, .ok .accepted)) :
    parser.parse fuel store document reparse =
      some ({ parser with metrics := metrics, accepted := true, error := none }, after, .ok .accepted) := by
  rw [parse, attempts, h]
  rfl

end IncrementalLR
