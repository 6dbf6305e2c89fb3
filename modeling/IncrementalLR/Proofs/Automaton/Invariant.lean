import IncrementalLR.Proofs.Automaton.Construction

namespace IncrementalLR

namespace Construction

variable {grammar : Grammar} {mode : Mode} {building after : Construction} {source symbol target : Nat}
  {kernel : ItemSet}

-- Constructions whose kernels and edges are those of the automaton, as far as
-- they go.
structure Sound (grammar : Grammar) (mode : Mode) (building : Construction) : Prop where
  shaped : building.Shaped
  start : ∀ item, (building.kernel 0).HasItem item ↔ item = .start
  start_sees : mode ≠ .lr0 → (building.kernel 0).Sees .start finishId
  moved : ∀ id item, (building.kernel id).HasItem item → 0 < item.dot ∨ item = .start
  bounded : ∀ id, (building.kernel id).Bounded grammar.symbols.size
  spelled : ∀ id item, (building.kernel id).HasItem item →
    ∃ spelled, Spells grammar.toRules spelled item
  justified : ∀ id item terminal, (building.kernel id).Sees item terminal →
    ∃ spelled, Valid grammar.toRules spelled item terminal
  edges_sorted : ∀ id, (building.edgesOf id).Pairwise fun left right => left.1 < right.1
  edge_target : ∀ id symbol target, (symbol, target) ∈ building.edgesOf id →
    0 < target ∧ target < building.size
  edge_next : ∀ id symbol target, (symbol, target) ∈ building.edgesOf id →
    ∃ item, Reaches grammar.toRules (building.kernel id).HasItem item ∧
      item.next? grammar.toRules = some symbol
  edge_items : ∀ id symbol target, (symbol, target) ∈ building.edgesOf id →
    ∀ item, (building.kernel target).HasItem item ↔
      Successor grammar.toRules
        (Reaches grammar.toRules (building.kernel id).HasItem) symbol item
  pending_lt : ∀ id, id ∈ building.pending → id < building.size

-- Kernels of the items that move over a symbol from the closure of a set.
structure Succeeds (grammar : Grammar) (set : ItemSet) (symbol : Nat) (kernel : ItemSet) : Prop where
  next : ∃ item, Reaches grammar.toRules set.HasItem item ∧ item.next? grammar.toRules = some symbol
  items : ∀ item, kernel.HasItem item ↔
    Successor grammar.toRules (Reaches grammar.toRules set.HasItem) symbol item
  bounded : kernel.Bounded grammar.symbols.size
  spelled : ∀ item, kernel.HasItem item → ∃ spelled, Spells grammar.toRules spelled item
  justified : ∀ item terminal, kernel.Sees item terminal →
    ∃ spelled, Valid grammar.toRules spelled item terminal

section Justified

variable {rules : Rules} {set : ItemSet}

theorem spells_of_reaches {given : Item → Prop}
    (hs : ∀ item, given item → ∃ spelled, Spells rules spelled item) {item : Item}
    (hr : Reaches rules given item) : ∃ spelled, Spells rules spelled item := by
  induction hr with
  | given hi => exact hs _ hi
  | brought _ hb ih =>
      obtain ⟨spelled, hspells⟩ := ih
      exact ⟨spelled, .brought hspells hb⟩

theorem valid_of_foresees
    (hs : ∀ item, set.HasItem item → ∃ spelled, Spells rules spelled item)
    (hj : ∀ item terminal, set.Sees item terminal → ∃ spelled, Valid rules spelled item terminal)
    {item : Item} {terminal : Nat} (hf : Foresees rules set item terminal) :
    ∃ spelled, Valid rules spelled item terminal := by
  induction hf with
  | given h => exact hj _ _ h
  | begun hr hb hbegins =>
      obtain ⟨spelled, hspells⟩ := spells_of_reaches hs hr
      exact ⟨spelled, .begun hspells hb hbegins⟩
  | passed _ hb hv ih =>
      obtain ⟨spelled, hvalid⟩ := ih
      exact ⟨spelled, .passed hvalid hb hv⟩

end Justified

theorem succeeds_gotoKernel (hw : grammar.toRules.WellFormed) {set : ItemSet}
    (hb : set.Bounded grammar.symbols.size)
    (hs : ∀ item, set.HasItem item → ∃ spelled, Spells grammar.toRules spelled item)
    (hj : ∀ item terminal, set.Sees item terminal →
      ∃ spelled, Valid grammar.toRules spelled item terminal)
    (hsymbol : symbol ∈ (set.closure grammar mode).nextSymbols grammar) :
    Succeeds grammar set symbol ((set.closure grammar mode).gotoKernel grammar symbol) := by
  constructor
  case next =>
    obtain ⟨item, hi, hn⟩ := ItemSet.mem_nextSymbols.mp hsymbol
    exact ⟨item, (ItemSet.hasItem_closure hw hb).mp hi, hn⟩
  case items =>
    intro item
    simp only [ItemSet.hasItem_gotoKernel, ItemSet.hasItem_closure hw hb]
    rfl
  case bounded =>
    intro item terminal hsees
    obtain ⟨origin, hsees, -, -⟩ := ItemSet.sees_gotoKernel.mp hsees
    exact ItemSet.bounded_closure hw hb origin terminal hsees
  case spelled =>
    intro item hi
    obtain ⟨origin, horigin, hn, rfl⟩ := ItemSet.hasItem_gotoKernel.mp hi
    obtain ⟨spelled, hspells⟩ := spells_of_reaches hs ((ItemSet.hasItem_closure hw hb).mp horigin)
    exact ⟨symbol :: spelled, .advanced hspells hn⟩
  case justified =>
    intro item terminal hsees
    obtain ⟨origin, horigin, hn, rfl⟩ := ItemSet.sees_gotoKernel.mp hsees
    obtain ⟨spelled, hvalid⟩ :=
      valid_of_foresees hs hj (ItemSet.foresees_of_sees_closure hw horigin)
    exact ⟨symbol :: spelled, .advanced hvalid hn⟩

namespace Connected

theorem within (hc : Connected building after source symbol kernel target) (id : Nat) :
    (building.kernel id).Within (after.kernel id) := by
  by_cases he : id = target
  · rw [he, hc.kernel_target]
    exact ItemSet.within_merge_left
  · rw [hc.kernel_other id he]
    exact .refl _

theorem within_target (hc : Connected building after source symbol kernel target) :
    kernel.Within (after.kernel target) := by
  rw [hc.kernel_target]
  exact ItemSet.within_merge_right

-- The items of a state stay the same from the first.
theorem hasItem (hc : Connected building after source symbol kernel target) {id : Nat}
    (hid : id < building.size) (item : Item) :
    (after.kernel id).HasItem item ↔ (building.kernel id).HasItem item := by
  by_cases he : id = target
  · subst he
    have hcores : kernel.HasItem item ↔ (building.kernel id).HasItem item := by
      rw [ItemSet.HasItem, ItemSet.HasItem, hc.cores hid]
    rw [hc.kernel_target, ItemSet.hasItem_merge, hcores, or_self]
  · rw [hc.kernel_other id he]

theorem hasItem_target (hc : Connected building after source symbol kernel target) (item : Item) :
    (after.kernel target).HasItem item ↔ kernel.HasItem item := by
  by_cases hlt : target < building.size
  · rw [hc.hasItem hlt, ItemSet.HasItem, ItemSet.HasItem, hc.cores hlt]
  · rw [hc.kernel_target, kernel_ge (by omega), merge_empty]

end Connected

theorem Sound.connect (hs : Sound grammar mode building) (hsource : source < building.size)
    (hk : Succeeds grammar (building.kernel source) symbol kernel)
    (hc : Connected building after source symbol kernel target) : Sound grammar mode after := by
  have hreaches : ∀ {id}, id < building.size → ∀ item,
      Reaches grammar.toRules (after.kernel id).HasItem item ↔
        Reaches grammar.toRules (building.kernel id).HasItem item := fun hid item =>
    ⟨.mono fun other => (hc.hasItem hid other).mp, .mono fun other => (hc.hasItem hid other).mpr⟩
  have hcases : ∀ id, after.kernel id = building.kernel id ∨
      after.kernel id = (building.kernel id).merge kernel := by
    intro id
    by_cases he : id = target
    · exact Or.inr (he ▸ hc.kernel_target)
    · exact Or.inl (hc.kernel_other id he)
  -- an edge of the new construction is the new one or one of the old ones
  have hedges : ∀ {id X t}, (X, t) ∈ after.edgesOf id →
      id = source ∧ X = symbol ∧ t = target ∨ (X, t) ∈ building.edgesOf id := by
    intro id X t hmem
    rw [hc.edges] at hmem
    split at hmem
    · rename_i he
      rcases mem_of_mem_setEdge hmem with h | h
      · exact Or.inl ⟨he, (Prod.mk.inj h).1, (Prod.mk.inj h).2⟩
      · exact Or.inr h
    · exact Or.inr hmem
  have hlt : ∀ {id edge}, edge ∈ building.edgesOf id → id < building.size := by
    intro id edge hmem
    by_contra hn
    rw [edgesOf_ge hs.shaped (by omega)] at hmem
    cases hmem
  constructor
  case shaped => exact hc.shaped
  case start =>
    intro item
    rw [hc.hasItem hs.shaped.pos]
    exact hs.start item
  case start_sees => exact fun hm => (hc.within 0).sees _ _ (hs.start_sees hm)
  case moved =>
    intro id item hi
    rcases hcases id with h | h <;> rw [h] at hi
    · exact hs.moved id item hi
    · refine (ItemSet.hasItem_merge.mp hi).elim (hs.moved id item) fun hi => ?_
      obtain ⟨origin, -, -, rfl⟩ := (hk.items item).mp hi
      exact Or.inl (Nat.succ_pos _)
  case bounded =>
    intro id item terminal hsees
    rcases hcases id with h | h <;> rw [h] at hsees
    · exact hs.bounded id item terminal hsees
    · exact (ItemSet.sees_merge.mp hsees).elim (hs.bounded id item terminal) (hk.bounded item terminal)
  case spelled =>
    intro id item hi
    rcases hcases id with h | h <;> rw [h] at hi
    · exact hs.spelled id item hi
    · exact (ItemSet.hasItem_merge.mp hi).elim (hs.spelled id item) (hk.spelled item)
  case justified =>
    intro id item terminal hsees
    rcases hcases id with h | h <;> rw [h] at hsees
    · exact hs.justified id item terminal hsees
    · exact (ItemSet.sees_merge.mp hsees).elim (hs.justified id item terminal)
        (hk.justified item terminal)
  case edges_sorted =>
    intro id
    rw [hc.edges]
    split
    · exact pairwise_setEdge (hs.edges_sorted id)
    · exact hs.edges_sorted id
  case edge_target =>
    intro id X t hmem
    rcases hedges hmem with ⟨-, -, rfl⟩ | hmem
    · exact ⟨hc.target_pos, hc.target_lt⟩
    · have h := hs.edge_target id X t hmem
      exact ⟨h.1, Nat.lt_of_lt_of_le h.2 hc.size_le⟩
  case edge_next =>
    intro id X t hmem
    rcases hedges hmem with ⟨rfl, rfl, rfl⟩ | hmem
    · obtain ⟨item, hr, hn⟩ := hk.next
      exact ⟨item, (hreaches hsource item).mpr hr, hn⟩
    · obtain ⟨item, hr, hn⟩ := hs.edge_next id X t hmem
      exact ⟨item, (hreaches (hlt hmem) item).mpr hr, hn⟩
  case edge_items =>
    intro id X t hmem item
    have hsuccessor : ∀ {id}, id < building.size →
        (Successor grammar.toRules (Reaches grammar.toRules (after.kernel id).HasItem) X item ↔
          Successor grammar.toRules (Reaches grammar.toRules (building.kernel id).HasItem) X item) := by
      intro id hid
      simp only [Successor, hreaches hid]
    rcases hedges hmem with ⟨rfl, rfl, rfl⟩ | hmem
    · rw [hsuccessor hsource, ← hk.items, hc.hasItem_target]
    · rw [hsuccessor (hlt hmem), ← hs.edge_items id X t hmem,
        hc.hasItem (hs.edge_target id X t hmem).2]
  case pending_lt =>
    intro id hid
    rcases hc.pending_lt id hid with hid | rfl
    · exact Nat.lt_of_lt_of_le (hs.pending_lt id hid) hc.size_le
    · exact hc.target_lt

section Served

-- Whether an edge leads to a state that takes up all that moves over a symbol.
def ServedOver (grammar : Grammar) (mode : Mode) (building : Construction) (id symbol : Nat) : Prop :=
  ∃ target, (symbol, target) ∈ building.edgesOf id ∧
    (((building.kernel id).closure grammar mode).gotoKernel grammar symbol).Within
      (building.kernel target)

def Served (grammar : Grammar) (mode : Mode) (building : Construction) (id : Nat) : Prop :=
  ∀ symbol ∈ ((building.kernel id).closure grammar mode).nextSymbols grammar,
    ServedOver grammar mode building id symbol

theorem ServedOver.connect {id other : Nat} (hs : Sound grammar mode building)
    (hc : Connected building after source symbol kernel target)
    (hkernel : after.kernel id = building.kernel id) (hne : id = source → other ≠ symbol)
    (hserved : ServedOver grammar mode building id other) : ServedOver grammar mode after id other := by
  obtain ⟨old, hedge, hwithin⟩ := hserved
  refine ⟨old, ?_, ?_⟩
  · rw [hc.edges]
    split
    · rename_i he
      exact (mem_setEdge (hs.edges_sorted id)).mpr (Or.inr ⟨hne he, hedge⟩)
    · exact hedge
  · rw [hkernel]
    exact hwithin.trans (hc.within old)

theorem servedOver_connected (hs : Sound grammar mode building)
    (hc : Connected building after source symbol kernel target)
    (hk : kernel = ((after.kernel source).closure grammar mode).gotoKernel grammar symbol) :
    ServedOver grammar mode after source symbol := by
  refine ⟨target, ?_, hk ▸ hc.within_target⟩
  rw [hc.edges, if_pos rfl]
  exact (mem_setEdge (hs.edges_sorted source)).mpr (Or.inl rfl)

-- Constructions in which every state is pending unless it is settled and served.
structure Queued (grammar : Grammar) (mode : Mode) (building : Construction) : Prop where
  pending : ∀ id, id < building.size → building.isSettled id = false → id ∈ building.pending
  served : ∀ id, building.isSettled id = true → Served grammar mode building id

-- A state under way: it is settled, and served over some symbols, unless it has
-- grown since.
structure UnderWay (grammar : Grammar) (mode : Mode) (set : ItemSet) (source : Nat)
    (done : List Nat) (building : Construction) : Prop where
  sound : Sound grammar mode building
  source_lt : source < building.size
  items : ∀ item, (building.kernel source).HasItem item ↔ set.HasItem item
  pending : ∀ id, id < building.size → building.isSettled id = false → id ∈ building.pending
  others : ∀ id, id ≠ source → building.isSettled id = true → Served grammar mode building id
  kernel : building.isSettled source = true → building.kernel source = set
  served : building.isSettled source = true →
    ∀ symbol ∈ done, ServedOver grammar mode building source symbol

theorem UnderWay.connect {set : ItemSet} {done : List Nat}
    (hu : UnderWay grammar mode set source done building)
    (hk : Succeeds grammar set symbol ((set.closure grammar mode).gotoKernel grammar symbol))
    (hnew : symbol ∉ done) :
    UnderWay grammar mode set source (done ++ [symbol])
      (building.connect source symbol ((set.closure grammar mode).gotoKernel grammar symbol)) := by
  have hc := connected_connect hu.sound.shaped hu.source_lt symbol
    ((set.closure grammar mode).gotoKernel grammar symbol)
  have hreaches : ∀ item, Reaches grammar.toRules (building.kernel source).HasItem item ↔
      Reaches grammar.toRules set.HasItem item := fun item =>
    ⟨.mono fun other => (hu.items other).mp, .mono fun other => (hu.items other).mpr⟩
  have hk' : Succeeds grammar (building.kernel source) symbol
      ((set.closure grammar mode).gotoKernel grammar symbol) := by
    refine ⟨?_, fun item => ?_, hk.bounded, hk.spelled, hk.justified⟩
    · simpa only [hreaches] using hk.next
    · simpa only [Successor, hreaches] using hk.items item
  constructor
  case sound => exact hu.sound.connect hu.source_lt hk' hc
  case source_lt => exact Nat.lt_of_lt_of_le hu.source_lt hc.size_le
  case items => exact fun item => (hc.hasItem hu.source_lt item).trans (hu.items item)
  case pending =>
    intro id hid hsettled
    rcases hc.queued id hid hsettled with h | ⟨hid, h⟩
    · exact h
    · exact hc.pending id (hu.pending id hid h)
  case others =>
    intro id hne hsettled X hX
    have ⟨hold, hsame⟩ := hc.settled id hsettled
    rw [hsame] at hX
    exact (hu.others id hne hold X hX).connect hu.sound hc hsame fun h => absurd h hne
  case kernel => exact fun h => (hc.settled source h).2.trans (hu.kernel (hc.settled source h).1)
  case served =>
    intro hsettled X hX
    have ⟨hold, hsame⟩ := hc.settled source hsettled
    rcases List.mem_append.mp hX with hX | hX
    · exact (hu.served hold X hX).connect hu.sound hc hsame fun _ he => hnew (he ▸ hX)
    · rw [List.mem_singleton.mp hX]
      refine servedOver_connected hu.sound hc ?_
      rw [hsame, hu.kernel hold]

theorem UnderWay.foldl {set : ItemSet} {symbols done : List Nat}
    (hu : UnderWay grammar mode set source done building)
    (hk : ∀ symbol ∈ symbols,
      Succeeds grammar set symbol ((set.closure grammar mode).gotoKernel grammar symbol))
    (hn : (done ++ symbols).Nodup) :
    UnderWay grammar mode set source (done ++ symbols)
      (symbols.foldl (fun building symbol => building.connect source symbol
        ((set.closure grammar mode).gotoKernel grammar symbol)) building) := by
  induction symbols generalizing building done with
  | nil => simpa using hu
  | cons symbol rest ih =>
      have hnew : symbol ∉ done := fun h =>
        (List.nodup_append.mp hn).2.2 symbol h symbol (by simp) rfl
      have h := ih (hu.connect (hk symbol (by simp)) hnew) (fun other ho => hk other (by simp [ho]))
        (by simpa using hn)
      simpa using h

theorem isSettled_process {id : Nat} (hs : building.Shaped) (hid : id < building.size) (other : Nat) :
    isSettled { building with settled := building.settled.setIfInBounds id true } other =
      if other = id then true else building.isSettled other := by
  have hlt : id < building.settled.size := hs.settled.symm ▸ hid
  rw [isSettled, getD_setIfInBounds]
  simp only [hlt, and_true]
  rfl

-- The popped state is under way over no symbol yet.
theorem underWay_start {id : Nat} {rest : List Nat} (hs : Sound grammar mode building)
    (hq : Queued grammar mode building) (hp : building.pending = id :: rest) :
    UnderWay grammar mode (building.kernel id) id []
      { building with pending := rest, settled := building.settled.setIfInBounds id true } := by
  have hid : id < building.size := hs.pending_lt id (by simp [hp])
  have hsettled := isSettled_process hs.shaped hid
  constructor
  case sound =>
    exact { hs with
      shaped := { hs.shaped with settled := (Array.size_setIfInBounds ..).trans hs.shaped.settled }
      pending_lt := fun other ho => hs.pending_lt other (by simp [hp, ho]) }
  case source_lt => exact hid
  case items => exact fun _ => Iff.rfl
  case pending =>
    intro other ho hunsettled
    have h := (hsettled other).symm.trans hunsettled
    split at h
    · cases h
    · rename_i hne
      have hmem := hq.pending other ho h
      rw [hp] at hmem
      exact (List.mem_cons.mp hmem).resolve_left hne
  case others =>
    intro other hne h
    have h := (hsettled other).symm.trans h
    rw [if_neg hne] at h
    exact hq.served other h
  case kernel => exact fun _ => rfl
  case served => exact fun _ symbol hmem => absurd hmem List.not_mem_nil

-- What one state of the work list leaves behind.
theorem process_sound (hw : grammar.toRules.WellFormed) {id : Nat} {rest : List Nat}
    (hs : Sound grammar mode building) (hq : Queued grammar mode building)
    (hp : building.pending = id :: rest) :
    Sound grammar mode (process grammar mode { building with pending := rest } id) ∧
      Queued grammar mode (process grammar mode { building with pending := rest } id) := by
  have hend := (underWay_start hs hq hp).foldl
    (fun symbol hmem => succeeds_gotoKernel hw (hs.bounded id) (hs.spelled id) (hs.justified id) hmem)
    ItemSet.nodup_nextSymbols
  refine ⟨hend.sound, hend.pending, fun other hsettled => ?_⟩
  by_cases he : other = id
  · subst he
    intro symbol hmem
    have hkernel := hend.kernel hsettled
    change symbol ∈ (((process grammar mode { building with pending := rest } other).kernel
      other).closure grammar mode).nextSymbols grammar at hmem
    refine hend.served hsettled symbol ?_
    have h : (process grammar mode { building with pending := rest } other).kernel other =
      building.kernel other := hkernel
    rw [h] at hmem
    exact hmem
  · exact hend.others other he hsettled

theorem run_sound (hw : grammar.toRules.WellFormed) (fuel : Nat) (hs : Sound grammar mode building)
    (hq : Queued grammar mode building) :
    Sound grammar mode (run grammar mode fuel building) ∧
      Queued grammar mode (run grammar mode fuel building) := by
  induction fuel generalizing building with
  | zero => exact ⟨hs, hq⟩
  | succ fuel ih =>
      unfold run
      split
      · exact ⟨hs, hq⟩
      · rename_i id rest hp
        have ⟨hs', hq'⟩ := process_sound hw hs hq hp
        exact ih hs' hq'

end Served

section Start

theorem kernel_start (mode : Mode) (id : Nat) :
    (start mode).kernel id = if id = 0 then .startKernel mode else ∅ := by
  cases id <;> rfl

theorem sound_start (hw : grammar.toRules.WellFormed) : Sound grammar mode (start mode) := by
  constructor
  case shaped => exact ⟨rfl, rfl, rfl, Nat.one_pos, rfl⟩
  case start => exact fun item => ItemSet.hasItem_startKernel
  case start_sees => exact fun hm => ItemSet.sees_startKernel.mpr ⟨rfl, hm, rfl⟩
  case moved =>
    intro id item hi
    rw [kernel_start] at hi
    split at hi
    · exact Or.inr (ItemSet.hasItem_startKernel.mp hi)
    · exact absurd hi ItemSet.not_hasItem_empty
  case bounded =>
    intro id item terminal hsees
    rw [kernel_start] at hsees
    split at hsees
    · rw [(ItemSet.sees_startKernel.mp hsees).2.2]
      exact hw.finish_lt
    · exact absurd hsees ItemSet.not_sees_empty
  case spelled =>
    intro id item hi
    rw [kernel_start] at hi
    split at hi
    · rw [ItemSet.hasItem_startKernel.mp hi]
      exact ⟨[], .start⟩
    · exact absurd hi ItemSet.not_hasItem_empty
  case justified =>
    intro id item terminal hsees
    rw [kernel_start] at hsees
    split at hsees
    · obtain ⟨rfl, -, rfl⟩ := ItemSet.sees_startKernel.mp hsees
      exact ⟨[], .start⟩
    · exact absurd hsees ItemSet.not_sees_empty
  case edges_sorted => intro id; cases id <;> exact List.Pairwise.nil
  case edge_target => intro id symbol target hmem; cases id <;> cases hmem
  case edge_next => intro id symbol target hmem; cases id <;> cases hmem
  case edge_items => intro id symbol target hmem; cases id <;> cases hmem
  case pending_lt =>
    intro id hid
    rw [List.mem_singleton.mp hid]
    exact Nat.one_pos

theorem queued_start : Queued grammar mode (start mode) := by
  refine ⟨fun id hid _ => ?_, fun id hsettled => ?_⟩
  · have hid : id < 1 := hid
    exact List.mem_singleton.mpr (by omega)
  · cases id <;> cases hsettled

end Start

end Construction

end IncrementalLR
