import IncrementalLR.Proofs.Arrays
import IncrementalLR.Proofs.Automaton.Faithful
import Mathlib.Data.List.Sort

namespace IncrementalLR

section Edges

variable {symbol target : Nat} {edges others : Edges}

theorem lookup_eq_some_iff (hs : edges.Pairwise fun left right => left.1 < right.1) :
    edges.lookup symbol = some target ↔ (symbol, target) ∈ edges := by
  induction edges with
  | nil => simp
  | cons first rest ih =>
      have ⟨hfirst, hrest⟩ := List.pairwise_cons.mp hs
      rw [List.lookup_cons, List.mem_cons]
      by_cases he : symbol = first.1
      · subst he
        simp only [beq_self_eq_true, Option.some_inj]
        constructor
        · rintro rfl
          exact Or.inl rfl
        · rintro (h | h)
          · exact (congrArg Prod.snd h).symm
          · exact absurd (hfirst _ h) (Nat.lt_irrefl _)
      · rw [beq_false_of_ne he]
        change rest.lookup symbol = some target ↔ _
        rw [ih hrest]
        refine ⟨Or.inr, fun h => h.resolve_left fun h => he ?_⟩
        exact congrArg Prod.fst h

theorem edges_ext (hs : edges.Pairwise fun left right => left.1 < right.1)
    (ho : others.Pairwise fun left right => left.1 < right.1) (hmem : ∀ edge, edge ∈ edges ↔ edge ∈ others) :
    edges = others := by
  have hirrefl : Std.Irrefl fun left right : Nat × Nat => left.1 < right.1 := ⟨fun _ => Nat.lt_irrefl _⟩
  have hantisymm : Std.Antisymm fun left right : Nat × Nat => left.1 < right.1 :=
    ⟨fun _ _ hl hr => absurd hl (Nat.lt_asymm hr)⟩
  exact hs.eq_of_mem_iff ho hmem

-- Over a symbol there is one edge at most.
theorem filter_edges (hs : edges.Pairwise fun left right => left.1 < right.1) :
    edges.filter (·.1 == symbol) = ((edges.lookup symbol).map (symbol, ·)).toList := by
  apply edges_ext (hs.filter _)
  · cases edges.lookup symbol <;> simp
  · rintro ⟨other, target⟩
    rw [List.mem_filter, beq_iff_eq, Option.mem_toList, Option.map_eq_some_iff]
    constructor
    · rintro ⟨he, rfl⟩
      exact ⟨target, (lookup_eq_some_iff hs).mpr he, rfl⟩
    · rintro ⟨_, hlookup, he⟩
      obtain ⟨rfl, rfl⟩ := Prod.mk.inj he
      exact ⟨(lookup_eq_some_iff hs).mp hlookup, rfl⟩

end Edges

namespace Construction

section Edges

variable {symbol target : Nat} {edges : Edges}

theorem mem_of_mem_setEdge {edge : Nat × Nat} (hmem : edge ∈ setEdge symbol target edges) :
    edge = (symbol, target) ∨ edge ∈ edges := by
  induction edges with
  | nil => exact Or.inl (List.mem_singleton.mp hmem)
  | cons first rest ih =>
      unfold setEdge at hmem
      split at hmem
      · exact List.mem_cons.mp hmem
      · split at hmem
        · exact (List.mem_cons.mp hmem).imp_right (List.mem_cons_of_mem _)
        · rcases List.mem_cons.mp hmem with rfl | hmem
          · exact Or.inr (by simp)
          · exact (ih hmem).imp_right (List.mem_cons_of_mem _)

theorem pairwise_setEdge (hs : edges.Pairwise fun left right => left.1 < right.1) :
    (setEdge symbol target edges).Pairwise fun left right => left.1 < right.1 := by
  induction edges with
  | nil => simp [setEdge]
  | cons first rest ih =>
      have ⟨hfirst, hrest⟩ := List.pairwise_cons.mp hs
      unfold setEdge
      split
      · rename_i hlt
        refine List.pairwise_cons.mpr ⟨fun edge he => ?_, hs⟩
        rcases List.mem_cons.mp he with rfl | he
        · exact hlt
        · exact Nat.lt_trans hlt (hfirst edge he)
      · split
        · rename_i he
          exact List.pairwise_cons.mpr ⟨fun edge hmem => he ▸ hfirst edge hmem, hrest⟩
        · refine List.pairwise_cons.mpr ⟨fun edge he => ?_, ih hrest⟩
          rcases mem_of_mem_setEdge he with rfl | he
          · omega
          · exact hfirst edge he

theorem target_unique (hs : edges.Pairwise fun left right => left.1 < right.1) {left right : Nat}
    (hl : (symbol, left) ∈ edges) (hr : (symbol, right) ∈ edges) : left = right := by
  induction edges with
  | nil => cases hl
  | cons first rest ih =>
      have ⟨hfirst, hrest⟩ := List.pairwise_cons.mp hs
      rcases List.mem_cons.mp hl with rfl | hleft
      · rcases List.mem_cons.mp hr with hr | hright
        · exact (Prod.mk.inj hr).2.symm
        · exact absurd (hfirst (symbol, right) hright) (Nat.lt_irrefl symbol)
      · rcases List.mem_cons.mp hr with rfl | hright
        · exact absurd (hfirst (symbol, left) hleft) (Nat.lt_irrefl symbol)
        · exact ih hrest hleft hright

-- A new edge takes the place of one over the same symbol.
theorem mem_setEdge (hs : edges.Pairwise fun left right => left.1 < right.1) {edge : Nat × Nat} :
    edge ∈ setEdge symbol target edges ↔
      edge = (symbol, target) ∨ edge.1 ≠ symbol ∧ edge ∈ edges := by
  induction edges with
  | nil => simp [setEdge]
  | cons first rest ih =>
      have ⟨hfirst, hrest⟩ := List.pairwise_cons.mp hs
      unfold setEdge
      split
      · rename_i hlt
        refine List.mem_cons.trans (or_congr_right ⟨fun h => ⟨?_, h⟩, fun h => h.2⟩)
        rcases List.mem_cons.mp h with rfl | h
        · omega
        · have := hfirst edge h
          omega
      · split
        · rename_i he
          refine List.mem_cons.trans (or_congr_right ⟨fun h => ⟨?_, by simp [h]⟩, fun h => ?_⟩)
          · have := hfirst edge h
            omega
          · exact (List.mem_cons.mp h.2).resolve_left fun hf => h.1 (by rw [hf, he])
        · rename_i hne
          rw [List.mem_cons, ih hrest, List.mem_cons]
          constructor
          · rintro (rfl | h | h)
            · exact Or.inr ⟨fun h => hne h.symm, Or.inl rfl⟩
            · exact Or.inl h
            · exact Or.inr ⟨h.1, Or.inr h.2⟩
          · rintro (h | ⟨h, rfl | hr⟩)
            · exact Or.inr (Or.inl h)
            · exact Or.inl rfl
            · exact Or.inr (Or.inr ⟨h, hr⟩)

end Edges

def size (building : Construction) : Nat := building.kernels.size

def edgesOf (building : Construction) (id : Nat) : Edges := building.edges.getD id []

def isSettled (building : Construction) (id : Nat) : Bool := building.settled.getD id false

def origin (building : Construction) (id : Nat) : Option Nat := building.origins.getD id none

-- Constructions with one place for each state in all arrays, of which the first
-- is reached over no symbol.
structure Shaped (building : Construction) : Prop where
  origins : building.origins.size = building.size
  settled : building.settled.size = building.size
  edges : building.edges.size = building.size
  pos : 0 < building.size
  first : building.origin 0 = none

-- What a state and the edge to it come to by the connection of a kernel.
structure Connected (building after : Construction) (source symbol : Nat) (kernel : ItemSet)
    (target : Nat) : Prop where
  shaped : after.Shaped
  target_pos : 0 < target
  target_lt : target < after.size
  size_le : building.size ≤ after.size
  size : ∀ id, id < after.size → id < building.size ∨ id = target
  cores : target < building.size → (building.kernel target).cores = kernel.cores
  kernel_target : after.kernel target = (building.kernel target).merge kernel
  kernel_other : ∀ id, id ≠ target → after.kernel id = building.kernel id
  edges : ∀ id, after.edgesOf id =
    if id = source then setEdge symbol target (building.edgesOf id) else building.edgesOf id
  settled : ∀ id, after.isSettled id = true →
    building.isSettled id = true ∧ after.kernel id = building.kernel id
  queued : ∀ id, id < after.size → after.isSettled id = false →
    id ∈ after.pending ∨ id < building.size ∧ building.isSettled id = false
  pending : ∀ id, id ∈ building.pending → id ∈ after.pending
  pending_lt : ∀ id, id ∈ after.pending → id ∈ building.pending ∨ id = target

variable {grammar : Grammar} {mode : Mode} {building : Construction} {source symbol : Nat}
  {kernel : ItemSet}

theorem kernel_ge {id : Nat} (hid : building.size ≤ id) : building.kernel id = ∅ := by
  have hid : building.kernels.size ≤ id := hid
  simp [Construction.kernel, hid]

theorem isSettled_ge (hs : building.Shaped) {id : Nat} (hid : building.size ≤ id) :
    building.isSettled id = false := by
  have hid : building.settled.size ≤ id := hs.settled.symm ▸ hid
  simp [isSettled, hid]

theorem edgesOf_ge (hs : building.Shaped) {id : Nat} (hid : building.size ≤ id) :
    building.edgesOf id = [] := by
  have hid : building.edges.size ≤ id := hs.edges.symm ▸ hid
  simp [edgesOf, hid]

theorem merge_empty : (∅ : ItemSet).merge kernel = kernel :=
  ItemSet.ext (fun item => by simp [ItemSet.not_hasItem_empty])
    fun item symbol => by simp [ItemSet.not_sees_empty]

section AddEdge

variable {target : Nat}

theorem Shaped.addEdge (hs : building.Shaped) : (building.addEdge source symbol target).Shaped :=
  ⟨hs.origins, hs.settled, (Array.size_modify ..).trans hs.edges, hs.pos, hs.first⟩

theorem edgesOf_addEdge (hs : building.Shaped) (hsource : source < building.size) (id : Nat) :
    (building.addEdge source symbol target).edgesOf id =
      if id = source then setEdge symbol target (building.edgesOf id) else building.edgesOf id := by
  have hlt : source < building.edges.size := hs.edges.symm ▸ hsource
  rw [edgesOf, Construction.addEdge, getD_modify]
  simp only [hlt, and_true]
  rfl

end AddEdge

section Create

theorem size_create (building : Construction) (symbol : Nat) (kernel : ItemSet) :
    (building.create symbol kernel).size = building.size + 1 := by
  simp [Construction.size, create]

theorem kernel_create (building : Construction) (symbol : Nat) (kernel : ItemSet) (id : Nat) :
    (building.create symbol kernel).kernel id =
      if id = building.size then kernel else building.kernel id := getD_push

theorem origin_create (hs : building.Shaped) (id : Nat) :
    (building.create symbol kernel).origin id =
      if id = building.size then some symbol else building.origin id := by
  rw [← hs.origins]
  exact getD_push

theorem isSettled_create (hs : building.Shaped) (symbol : Nat) (kernel : ItemSet) (id : Nat) :
    (building.create symbol kernel).isSettled id = building.isSettled id := by
  have h : (building.create symbol kernel).isSettled id =
      if id = building.settled.size then false else building.isSettled id := getD_push
  rw [h, hs.settled]
  split
  · rename_i he
    rw [isSettled_ge hs he.ge]
  · rfl

theorem edgesOf_create (hs : building.Shaped) (id : Nat) :
    (building.create symbol kernel).edgesOf id = building.edgesOf id := by
  have h : (building.create symbol kernel).edgesOf id =
      if id = building.edges.size then [] else building.edgesOf id := getD_push
  rw [h, hs.edges]
  split
  · rename_i he
    rw [edgesOf_ge hs he.ge]
  · rfl

theorem Shaped.create (hs : building.Shaped) : (building.create symbol kernel).Shaped := by
  have hpos := hs.pos
  refine ⟨?_, ?_, ?_, by rw [size_create]; omega, ?_⟩
  · rw [size_create, ← hs.origins]
    exact Array.size_push ..
  · rw [size_create, ← hs.settled]
    exact Array.size_push ..
  · rw [size_create, ← hs.edges]
    exact Array.size_push ..
  · rw [origin_create hs, if_neg (by omega)]
    exact hs.first

theorem connected_create (hs : building.Shaped) (hsource : source < building.size) :
    Connected building ((building.create symbol kernel).addEdge source symbol building.size)
      source symbol kernel building.size := by
  have hsize : ((building.create symbol kernel).addEdge source symbol building.size).size =
    building.size + 1 := size_create building symbol kernel
  constructor
  case shaped => exact hs.create.addEdge
  case target_pos => exact hs.pos
  case target_lt => omega
  case size_le => omega
  case size =>
    intro id hid
    omega
  case cores => exact fun h => absurd h (Nat.lt_irrefl _)
  case kernel_target =>
    rw [kernel_ge (Nat.le_refl building.size), merge_empty]
    exact (kernel_create building symbol kernel _).trans (if_pos rfl)
  case kernel_other => exact fun id hid => (kernel_create building symbol kernel id).trans (if_neg hid)
  case edges =>
    intro id
    rw [edgesOf_addEdge hs.create (by rw [size_create]; omega), edgesOf_create hs]
  case settled =>
    intro id hid
    have hold : building.isSettled id = true := (isSettled_create hs symbol kernel id).symm.trans hid
    refine ⟨hold, (kernel_create building symbol kernel id).trans (if_neg fun he => ?_)⟩
    rw [isSettled_ge hs he.ge] at hold
    cases hold
  case queued =>
    intro id hid hsettled
    have hold : building.isSettled id = false := (isSettled_create hs symbol kernel id).symm.trans hsettled
    by_cases he : id = building.size
    · exact Or.inl (List.mem_cons.mpr (Or.inl he))
    · exact Or.inr ⟨by omega, hold⟩
  case pending => exact fun id hid => List.mem_cons_of_mem _ hid
  case pending_lt => exact fun id hid => (List.mem_cons.mp hid).symm

end Create

section Merge

variable {target : Nat}

theorem kernels_mergeInto :
    (building.mergeInto target kernel).kernels =
      building.kernels.setIfInBounds target ((building.kernel target).merge kernel) := by
  unfold mergeInto
  dsimp only
  split <;> rfl

theorem size_mergeInto (building : Construction) (target : Nat) (kernel : ItemSet) :
    (building.mergeInto target kernel).size = building.size := by
  rw [Construction.size, kernels_mergeInto, Array.size_setIfInBounds]
  rfl

theorem kernel_mergeInto (htarget : target < building.size) (kernel : ItemSet) (id : Nat) :
    (building.mergeInto target kernel).kernel id =
      if id = target then (building.kernel target).merge kernel else building.kernel id := by
  have hlt : target < building.kernels.size := htarget
  rw [Construction.kernel, kernels_mergeInto, getD_setIfInBounds]
  simp only [hlt, and_true]
  rfl

theorem edgesOf_mergeInto (id : Nat) :
    (building.mergeInto target kernel).edgesOf id = building.edgesOf id := by
  unfold mergeInto
  dsimp only
  split <;> rfl

theorem origin_mergeInto (id : Nat) :
    (building.mergeInto target kernel).origin id = building.origin id := by
  unfold mergeInto
  dsimp only
  split <;> rfl

theorem Shaped.mergeInto (hs : building.Shaped) : (building.mergeInto target kernel).Shaped := by
  refine ⟨?_, ?_, ?_, by rw [size_mergeInto]; exact hs.pos, by rw [origin_mergeInto]; exact hs.first⟩
  · rw [size_mergeInto, ← hs.origins]
    unfold Construction.mergeInto
    dsimp only
    split <;> rfl
  · rw [size_mergeInto, ← hs.settled]
    unfold Construction.mergeInto
    dsimp only
    split <;> simp
  · rw [size_mergeInto, ← hs.edges]
    unfold Construction.mergeInto
    dsimp only
    split <;> rfl

-- A state is requeued if it was settled and has grown.
theorem mergeInto_cases (building : Construction) (target : Nat) (kernel : ItemSet) :
    ((building.mergeInto target kernel).pending = target :: building.pending ∧
        (building.kernel target).merge kernel ≠ building.kernel target ∧ building.isSettled target = true ∧
        (building.mergeInto target kernel).settled = building.settled.setIfInBounds target false) ∨
      ((building.mergeInto target kernel).pending = building.pending ∧
        ((building.kernel target).merge kernel = building.kernel target ∨
          building.isSettled target = false) ∧
        (building.mergeInto target kernel).settled = building.settled) := by
  unfold mergeInto
  dsimp only
  split
  · rename_i h
    simp only [Bool.and_eq_true, decide_eq_true_eq] at h
    exact Or.inl ⟨rfl, h.1, h.2, rfl⟩
  · rename_i h
    simp only [Bool.and_eq_true, decide_eq_true_eq, not_and, Bool.not_eq_true] at h
    exact Or.inr ⟨rfl, or_iff_not_imp_left.mpr h, rfl⟩

theorem connected_mergeInto (hs : building.Shaped) (hsource : source < building.size)
    (htarget : target < building.size) (hpos : 0 < target)
    (hc : (building.kernel target).cores = kernel.cores) :
    Connected building ((building.mergeInto target kernel).addEdge source symbol target)
      source symbol kernel target := by
  have hsize : ((building.mergeInto target kernel).addEdge source symbol target).size =
    building.size := size_mergeInto building target kernel
  have hsettled : ∀ id, (building.mergeInto target kernel).isSettled id = true →
      building.isSettled id = true ∧
        (id = target → (building.kernel target).merge kernel = building.kernel target) := by
    intro id hid
    rcases mergeInto_cases building target kernel with
      ⟨-, -, -, h⟩ | ⟨-, hgrown, h⟩
    · rw [isSettled, h, getD_setIfInBounds] at hid
      split at hid
      · cases hid
      · rename_i hne
        exact ⟨hid, fun he => absurd ⟨he, hs.settled.symm ▸ htarget⟩ hne⟩
    · rw [isSettled, h] at hid
      refine ⟨hid, fun he => hgrown.resolve_right fun hunsettled => ?_⟩
      subst he
      exact absurd (show building.isSettled id = true from hid) (by simp [hunsettled])
  constructor
  case shaped => exact hs.mergeInto.addEdge
  case target_pos => exact hpos
  case target_lt => omega
  case size_le => omega
  case size =>
    intro id hid
    omega
  case cores => exact fun _ => hc
  case kernel_target => exact (kernel_mergeInto htarget kernel _).trans (if_pos rfl)
  case kernel_other => exact fun id hid => (kernel_mergeInto htarget kernel id).trans (if_neg hid)
  case edges =>
    intro id
    rw [edgesOf_addEdge hs.mergeInto (by rw [size_mergeInto]; exact hsource), edgesOf_mergeInto]
  case settled =>
    intro id hid
    have ⟨hold, hsame⟩ := hsettled id hid
    refine ⟨hold, (kernel_mergeInto htarget kernel id).trans ?_⟩
    split
    · rename_i he
      rw [hsame he, he]
    · rfl
  case queued =>
    intro id hid hid'
    have hid' : (building.mergeInto target kernel).isSettled id = false := hid'
    rcases mergeInto_cases building target kernel with
      ⟨hp, -, -, h⟩ | ⟨-, -, h⟩
    · rw [isSettled, h, getD_setIfInBounds] at hid'
      split at hid'
      · rename_i he
        exact Or.inl (show id ∈ (building.mergeInto target kernel).pending by simp [hp, he.1])
      · exact Or.inr ⟨by omega, hid'⟩
    · rw [isSettled, h] at hid'
      exact Or.inr ⟨by omega, hid'⟩
  case pending =>
    intro id hid
    change id ∈ (building.mergeInto target kernel).pending
    rcases mergeInto_cases building target kernel with
      ⟨hp, -⟩ | ⟨hp, -⟩ <;> simp [hp, hid]
  case pending_lt =>
    intro id hid
    change id ∈ (building.mergeInto target kernel).pending at hid
    rcases mergeInto_cases building target kernel with
      ⟨hp, -⟩ | ⟨hp, -⟩
    · rw [hp] at hid
      exact (List.mem_cons.mp hid).symm
    · exact Or.inl (hp ▸ hid)

end Merge

theorem compatible?_eq_some {target : Nat} (h : building.compatible? symbol kernel = some target) :
    target < building.size ∧ building.origin target = some symbol ∧
      (building.kernel target).weaklyCompatible kernel = true := by
  have hp := List.find?_some h
  have hm := List.mem_of_find?_eq_some h
  simp only [Bool.and_eq_true, beq_iff_eq] at hp
  exact ⟨List.mem_range.mp hm, hp⟩

-- The state for a kernel that is to be reached over a symbol.
def targetOf (building : Construction) (symbol : Nat) (kernel : ItemSet) : Nat :=
  (building.compatible? symbol kernel).getD building.size

-- What there is to know of a connection, whether it merges or creates a state.
theorem connected_connect (hs : building.Shaped) (hsource : source < building.size) (symbol : Nat)
    (kernel : ItemSet) :
    Connected building (building.connect source symbol kernel) source symbol kernel
      (building.targetOf symbol kernel) := by
  unfold connect targetOf
  cases hc : building.compatible? symbol kernel with
  | none => exact connected_create hs hsource
  | some target =>
      have ⟨hlt, horigin, hweak⟩ := compatible?_eq_some hc
      have hpos : 0 < target := by
        refine Nat.pos_of_ne_zero fun he => ?_
        rw [he, hs.first] at horigin
        cases horigin
      exact connected_mergeInto hs hsource hlt hpos (ItemSet.cores_eq_of_weaklyCompatible hweak)

end Construction

end IncrementalLR
