import IncrementalLR.Proofs.Parse.Rollback

namespace IncrementalLR

-- Whether an attempt is the one of a number, and so many subtrees at least have been
-- shifted whole.
def Run.Tallies (attempts count : Nat) (run : Run) : Prop :=
  run.metrics.attempts = attempts ∧ count ≤ run.metrics.optimisticShifts

-- The run after a step.
def Step.run : Step → Run
  | .continue run _ | .accept run | .reject run _ => run

namespace Setting

variable {setting : Setting} {run after : Run} {id attempts count : Nat}

-- Whether a step shifts a tree whole.
def Reuses (setting : Setting) (run : Run) (id : Nat) : Prop :=
  setting.reparse = false ∧ (run.node id).isLeaf = false ∧ (run.node id).changed = false ∧
    ∃ next, setting.action? run (run.node id).symbol = some (.goto next)

theorem metrics_clearChanged : (run.clearChanged id).metrics = run.metrics := by
  rw [Run.clearChanged]
  split
  · rfl
  · rfl

theorem tallies_clearChanged (h : run.Tallies attempts count) : (run.clearChanged id).Tallies attempts count := by
  rw [Run.Tallies, metrics_clearChanged]
  exact h

theorem tallies_next (h : run.Tallies attempts count) :
    (setting.next run id).Keeps (Run.Tallies attempts count) fun _ => True := by
  unfold next
  split
  · trivial
  · exact h

theorem tallies_breakDownLeft (h : run.Tallies attempts count) :
    (setting.breakDownLeft run id).Keeps (Run.Tallies attempts count) fun (after, _) => after.Tallies attempts count := by
  unfold breakDownLeft
  dsimp only
  split
  · exact h
  · exact (@tallies_next _ (run.count _) _ _ _ h).map fun _ _ => h

theorem tallies_reduce (h : run.Tallies attempts count) (production : Nat) :
    (setting.reduce run production).Keeps (Run.Tallies attempts count) (Run.Tallies attempts count) := by
  unfold reduce
  dsimp only
  split
  · split
    · exact h
    · exact h
  · exact h

theorem metrics_shiftAgain {shifted : Bool} (h : setting.shiftAgain run id = (after, shifted)) :
    after.metrics = run.metrics := by
  unfold shiftAgain at h
  split at h
  · exact (Prod.mk.inj h).1 ▸ rfl
  · exact (Prod.mk.inj h).1 ▸ rfl
  · split at h
    · exact (Prod.mk.inj h).1 ▸ rfl
    · exact (Prod.mk.inj h).1 ▸ rfl

theorem metrics_shiftAllAgain {ids : List Nat} {shifted : Bool} (h : setting.shiftAllAgain run ids = (after, shifted)) :
    after.metrics = run.metrics := by
  induction ids generalizing run with
  | nil => exact (Prod.mk.inj h).1 ▸ rfl
  | cons id rest ih =>
      rw [shiftAllAgain] at h
      split at h
      · rename_i middle hagain
        exact (ih h).trans (metrics_shiftAgain hagain)
      · rename_i middle hagain
        exact (Prod.mk.inj h).1 ▸ metrics_shiftAgain hagain

theorem metrics_breakDownRightFrom {fuel : Nat} {shifted : Bool}
    (h : setting.breakDownRightFrom fuel run = (after, shifted)) : after.metrics = run.metrics := by
  induction fuel generalizing run with
  | zero => exact (Prod.mk.inj h).1 ▸ rfl
  | succ fuel ih =>
      rw [breakDownRightFrom] at h
      split at h
      · exact (Prod.mk.inj h).1 ▸ rfl
      · rename_i frame below _
        have hpopped : ({ run with stack := below } : Run).metrics = run.metrics := rfl
        dsimp only at h
        split at h
        · split at h
          · exact (metrics_shiftAgain h).trans hpopped
          · split at h
            · rename_i middle hall
              exact (ih h).trans ((metrics_shiftAllAgain hall).trans hpopped)
            · rename_i middle hall
              exact (Prod.mk.inj h).1 ▸ (metrics_shiftAllAgain hall).trans hpopped
        · exact (Prod.mk.inj h).1 ▸ rfl
        · split at h
          · exact (Prod.mk.inj h).1 ▸ rfl
          · exact (Prod.mk.inj h).1 ▸ rfl

theorem tallies_spanFrom {target fuel : Nat} {reach : Reach} {nodes : List Nat} (h : run.Tallies attempts count) :
    (setting.spanFrom target reach fuel nodes run id).Keeps (Run.Tallies attempts count)
      fun (_, after, _) => after.Tallies attempts count := by
  induction fuel generalizing nodes run id with
  | zero => exact h
  | succ fuel ih =>
      have hclear := @tallies_clearChanged run id attempts count h
      rw [spanFrom]
      dsimp only
      split
      · exact (tallies_breakDownLeft hclear).bind fun _ hbroken => ih hbroken
      · split
        · exact h
        · exact (@tallies_next _ ((run.clearChanged id).setState id target) _ _ _ hclear).bind fun _ _ => ih hclear

theorem tallies_takeSpan {target : Nat} {reach : Reach} (h : run.Tallies attempts count) :
    (setting.takeSpan run id target reach).Keeps (Run.Tallies attempts count) fun (after, _) => after.Tallies attempts count :=
  (tallies_spanFrom h).bind fun (_, _, _) hspan => hspan

theorem tallies_tryWildcards (h : run.Tallies attempts count) (reaches : List Reach) :
    (setting.tryWildcards run id reaches).Keeps (Run.Tallies attempts count) fun step => step.run.Tallies attempts count := by
  induction reaches with
  | nil => exact h
  | cons reach rest ih =>
      rw [tryWildcards]
      split
      · exact (tallies_takeSpan h).bind fun _ htaken => htaken
      · exact (tallies_reduce h _).bind fun _ hreduced => hreduced
      · exact ih

theorem tallies_withoutAction (h : run.Tallies attempts count) :
    (setting.withoutAction run id).Keeps (Run.Tallies attempts count) fun step => step.run.Tallies attempts count := by
  unfold withoutAction
  split
  · dsimp only
    generalize hbroken : ({ run with validating := false, brokeDown := true } : Run).count _ = broken
    have hkept : broken.Tallies attempts count := hbroken ▸ h
    split
    · rename_i after hdown
      rw [Run.Tallies, ← metrics_breakDownRightFrom hdown] at hkept
      exact hkept
    · rename_i after hdown
      rw [Run.Tallies, ← metrics_breakDownRightFrom hdown] at hkept
      exact hkept
  · split
    · have hpassed : Run.Tallies attempts count (((run.clearChanged id).pushPassed id).count fun counts =>
          { counts with passedThrough := counts.passedThrough + 1 }) := tallies_clearChanged h
      exact (tallies_next hpassed).bind fun _ _ => hpassed
    · exact tallies_tryWildcards h _

theorem tallies_stepTerminal (h : run.Tallies attempts count) :
    (setting.stepTerminal run id).Keeps (Run.Tallies attempts count) fun step => step.run.Tallies attempts count := by
  unfold stepTerminal
  split
  · exact h
  · rename_i next _
    have hshifted : Run.Tallies attempts count (({ (run.clearChanged id).pushSymbol id next with validating := false } : Run).count
        fun counts => { counts with shifts := counts.shifts + 1 }) := tallies_clearChanged h
    exact (tallies_next hshifted).bind fun _ _ => hshifted
  · exact (tallies_reduce h _).bind fun _ hreduced => hreduced
  · exact tallies_withoutAction h
  · exact tallies_withoutAction h

theorem tallies_stepNonterminal (h : run.Tallies attempts count) :
    (setting.stepNonterminal run id).Keeps (Run.Tallies attempts count) fun (after, _) => after.Tallies attempts count := by
  unfold stepNonterminal
  dsimp only
  split
  · exact tallies_breakDownLeft (tallies_clearChanged h)
  · split
    · rename_i next _
      have hshifted : Run.Tallies attempts count (({ run.pushSymbol id next with validating := true } : Run).count
          fun counts => { counts with optimisticShifts := counts.optimisticShifts + 1 }) := ⟨h.1, Nat.le_succ_of_le h.2⟩
      exact (tallies_next hshifted).bind fun _ _ => hshifted
    · split
      · exact (tallies_reduce h _).map fun _ hreduced => hreduced
      · exact tallies_breakDownLeft h

theorem tallies_step (h : run.Tallies attempts count) :
    (setting.step run id).Keeps (Run.Tallies attempts count) fun step => step.run.Tallies attempts count := by
  unfold step
  split
  · exact tallies_stepTerminal h
  · exact (tallies_stepNonterminal h).map fun _ hafter => hafter

-- A step that shifts a tree whole is counted.
theorem tallies_of_reuses (hr : setting.Reuses run id) (h : run.Tallies attempts count) :
    (setting.step run id).Keeps (Run.Tallies attempts (count + 1)) fun step => step.run.Tallies attempts (count + 1) := by
  obtain ⟨hreparse, hleaf, hchanged, next, haction⟩ := hr
  have hshifted : Run.Tallies attempts (count + 1) (({ run.pushSymbol id next with validating := true } : Run).count
      fun counts => { counts with optimisticShifts := counts.optimisticShifts + 1 }) := ⟨h.1, Nat.succ_le_succ h.2⟩
  have hstep : (setting.stepNonterminal run id).Keeps (Run.Tallies attempts (count + 1))
      fun (after, _) => after.Tallies attempts (count + 1) := by
    unfold stepNonterminal
    dsimp only
    rw [hreparse, hchanged, if_neg (by decide), haction]
    exact (tallies_next hshifted).bind fun _ _ => hshifted
  rw [step, if_neg (ne_true_of_eq_false hleaf)]
  exact hstep.map fun _ hafter => hafter

theorem tallies_drive {fuel steps : Nat} {result : Run × Except Fault Outcome} (h : run.Tallies attempts count)
    (hd : setting.drive fuel steps run id = some result) : result.1.Tallies attempts count := by
  induction fuel generalizing steps run id with
  | zero => cases hd
  | succ fuel ih =>
      rw [drive] at hd
      have hcount : Run.Tallies attempts count (run.count fun counts => { counts with steps := counts.steps + 1 }) := h
      generalize run.count (fun counts => { counts with steps := counts.steps + 1 }) = run at hd hcount
      split at hd
      · exact Option.some_inj.mp hd ▸ hcount
      · have hstep := @tallies_step setting run id attempts count hcount
        generalize setting.step run id = step at hd hstep
        split at hd
        · exact Option.some_inj.mp hd ▸ hstep
        · exact ih hstep hd
        · exact Option.some_inj.mp hd ▸ hstep
        · exact Option.some_inj.mp hd ▸ hstep

end Setting

end IncrementalLR
