import IncrementalLR.Proofs.Parse.Rollback

namespace IncrementalLR

-- Whether no node has been added, or given another abstract value.
structure Store.Mute (store other : Store) : Prop where
  size : other.size = store.size
  alternate : ∀ id, (other.node id).alternate = (store.node id).alternate

namespace Store.Mute

variable {store middle other : Store} {id : Nat}

theorem refl (store : Store) : store.Mute store := ⟨rfl, fun _ => rfl⟩

theorem trans (hfirst : store.Mute middle) (hsecond : middle.Mute other) : store.Mute other :=
  ⟨hsecond.size.trans hfirst.size, fun id => (hsecond.alternate id).trans (hfirst.alternate id)⟩

theorem update {change : Node → Node} (h : ∀ node, (change node).alternate = node.alternate) :
    store.Mute (store.update id change) := by
  refine ⟨size_update _, fun other => ?_⟩
  rw [node_update]
  split
  · exact h _
  · rfl

theorem setChildren {children : List Nat} : store.Mute (store.setChildren id children) := by
  have hlinked : store.Mute (linkChildren id none children store) := by
    refine ⟨size_linkChildren, fun other => ?_⟩
    have hsame := @unlinked_linkChildren store id other none children
    exact show Node.alternate (Node.unlinked _) = Node.alternate (Node.unlinked _) from congrArg Node.alternate hsame
  exact hlinked.trans (update fun _ => rfl)

end Store.Mute

section

variable {setting : Setting} {run after : Run} {id : Nat} {shifted : Bool}

theorem Run.mute_clearChanged : run.store.Mute (run.clearChanged id).store := by
  rw [clearChanged]
  split
  · exact .update fun _ => rfl
  · exact .refl _

theorem Run.mute_pushSymbol {state : Nat} : run.store.Mute (run.pushSymbol id state).store :=
  .update fun _ => rfl

theorem Run.mute_pushPassed : run.store.Mute (run.pushPassed id).store := .update fun _ => rfl

theorem Setting.mute_accept : run.store.Mute (setting.accept run).store :=
  Store.Mute.setChildren.trans (.update fun _ => rfl)

theorem mute_shiftAgain (h : setting.shiftAgain run id = (after, shifted)) : run.store.Mute after.store := by
  unfold Setting.shiftAgain at h
  split at h
  · obtain ⟨rfl, -⟩ := Prod.mk.inj h
    exact Run.mute_pushSymbol
  · obtain ⟨rfl, -⟩ := Prod.mk.inj h
    exact Run.mute_pushSymbol
  · split at h
    · obtain ⟨rfl, -⟩ := Prod.mk.inj h
      exact Run.mute_pushPassed
    · obtain ⟨rfl, -⟩ := Prod.mk.inj h
      exact .refl _

theorem mute_shiftAllAgain {ids : List Nat} (h : setting.shiftAllAgain run ids = (after, shifted)) :
    run.store.Mute after.store := by
  induction ids generalizing run with
  | nil =>
      obtain ⟨rfl, -⟩ := Prod.mk.inj h
      exact .refl _
  | cons id rest ih =>
      rw [Setting.shiftAllAgain] at h
      split at h
      · rename_i middle hagain
        exact (mute_shiftAgain hagain).trans (ih h)
      · rename_i middle hagain
        obtain ⟨rfl, -⟩ := Prod.mk.inj h
        exact mute_shiftAgain hagain

theorem mute_breakDownRightFrom {fuel : Nat} (h : setting.breakDownRightFrom fuel run = (after, shifted)) :
    run.store.Mute after.store := by
  induction fuel generalizing run with
  | zero =>
      obtain ⟨rfl, -⟩ := Prod.mk.inj h
      exact .refl _
  | succ fuel ih =>
      rw [Setting.breakDownRightFrom] at h
      split at h
      · obtain ⟨rfl, -⟩ := Prod.mk.inj h
        exact .refl _
      · rename_i frame below hstack
        dsimp only at h
        generalize hpopped : ({ run with stack := below } : Run) = popped at h
        have hpop : run.store.Mute popped.store := hpopped ▸ .refl _
        split at h
        · split at h
          · exact hpop.trans (mute_shiftAgain h)
          · split at h
            · rename_i middle hall
              exact hpop.trans ((mute_shiftAllAgain hall).trans (ih h))
            · rename_i middle hall
              obtain ⟨rfl, -⟩ := Prod.mk.inj h
              exact hpop.trans (mute_shiftAllAgain hall)
        · obtain ⟨rfl, -⟩ := Prod.mk.inj h
          exact hpop.trans Run.mute_pushPassed
        · split at h
          · obtain ⟨rfl, -⟩ := Prod.mk.inj h
            exact .refl _
          · obtain ⟨rfl, -⟩ := Prod.mk.inj h
            exact hpop

end

theorem Progress.keeps_self {α : Type} (progress : Progress α) :
    progress.Keeps (fun _ => True) fun value => progress = .ok value := by
  cases progress with
  | ok value => rfl
  | error fault => trivial

namespace Setting

-- The reductions that a step may make: those before a leaf, or before the first leaf of
-- a subtree.
inductive Reducing (setting : Setting) (run : Run) (id production : Nat) : Prop where
  | leaf : (run.node id).isLeaf = true →
      setting.action? run (run.node id).key = some (.reduce production) → Reducing setting run id production
  | subtree : (run.node id).isLeaf = false → setting.reduceBefore? run id = some production →
      Reducing setting run id production

-- What a step does to abstract values: nothing, unless it reduces.
def Speaks (setting : Setting) (run : Run) (id : Nat) : Step → Prop
  | .continue after next => run.store.Mute after.store ∨
      next = id ∧ ∃ production, setting.Reducing run id production ∧ setting.reduce run production = .ok after
  | .accept after => after = setting.accept run
  | .reject _ _ => True

variable {setting : Setting} {run after : Run} {id : Nat}

theorem speaks_breakDownLeft (hmute : run.store.Mute after.store) :
    (setting.breakDownLeft after id).Keeps (fun _ => True) fun (broken, _) => run.store.Mute broken.store := by
  unfold breakDownLeft
  dsimp only
  split
  · exact hmute
  · exact (Progress.keeps_self (setting.next _ id)).map fun _ _ => hmute

section

variable (hwild : ∀ reach, setting.action? run (.wildcard reach) = none)

include hwild

theorem speaks_withoutAction : (setting.withoutAction run id).Keeps (fun _ => True) (setting.Speaks run id) := by
  unfold withoutAction
  split
  · dsimp only
    generalize hcounted : ({ run with validating := false, brokeDown := true } : Run).count
      (fun counts => { counts with rightBreakdowns := counts.rightBreakdowns + 1 }) = counted
    have hstore : run.store.Mute counted.store := hcounted ▸ .refl _
    split
    · rename_i after h
      exact Or.inl (hstore.trans (mute_breakDownRightFrom h))
    · trivial
  · split
    · have hpassed : run.store.Mute ((run.clearChanged id).pushPassed id).store :=
        Run.mute_clearChanged.trans Run.mute_pushPassed
      exact (Progress.keeps_self (setting.next _ id)).bind fun next _ => Or.inl hpassed
    · simp only [tryWildcards, hwild]
      trivial

theorem speaks_stepTerminal (hleaf : (run.node id).isLeaf = true) :
    (setting.stepTerminal run id).Keeps (fun _ => True) (setting.Speaks run id) := by
  unfold stepTerminal
  split
  · rfl
  · rename_i next _
    have hpushed : run.store.Mute ((run.clearChanged id).pushSymbol id next).store :=
      Run.mute_clearChanged.trans Run.mute_pushSymbol
    exact (Progress.keeps_self (setting.next _ id)).bind fun next _ => Or.inl hpushed
  · rename_i production haction
    exact (Progress.keeps_self (setting.reduce run production)).bind fun after h =>
      Or.inr ⟨rfl, production, .leaf hleaf haction, h⟩
  · exact speaks_withoutAction hwild
  · exact speaks_withoutAction hwild

omit hwild in
theorem speaks_stepNonterminal (hleaf : (run.node id).isLeaf = false) :
    (setting.stepNonterminal run id).Keeps (fun _ => True) fun (after, next) =>
      setting.Speaks run id (.continue after next) := by
  unfold stepNonterminal
  dsimp only
  split
  · exact (speaks_breakDownLeft Run.mute_clearChanged).mono fun (after, next) h => Or.inl h
  · split
    · rename_i next _
      have hpushed : run.store.Mute (run.pushSymbol id next).store := Run.mute_pushSymbol
      exact (Progress.keeps_self (setting.next _ id)).bind fun next _ => Or.inl hpushed
    · split
      · rename_i production hbefore
        exact (Progress.keeps_self (setting.reduce run production)).map fun after h =>
          Or.inr ⟨rfl, production, .subtree hleaf hbefore, h⟩
      · exact (speaks_breakDownLeft (.refl _)).mono fun (after, next) h => Or.inl h

theorem speaks_step : (setting.step run id).Keeps (fun _ => True) (setting.Speaks run id) := by
  unfold step
  split
  · rename_i hleaf
    exact speaks_stepTerminal hwild hleaf
  · rename_i hnode
    exact (speaks_stepNonterminal (eq_false_of_ne_true hnode)).map fun (after, next) h => h

end

end Setting

end IncrementalLR
