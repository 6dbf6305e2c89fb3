import IncrementalLR.Proofs.Automaton.Canonical

namespace IncrementalLR

-- Whether the lookahead of some item is strictly larger in another set.
def ItemSet.Gains (set other : ItemSet) : Prop :=
  ∃ item small large, (item, small) ∈ set.entries ∧ (item, large) ∈ other.entries ∧
    (∀ symbol ∈ small, symbol ∈ large) ∧ ∃ symbol ∈ large, symbol ∉ small

theorem ItemSet.gains_of_ne {set other : ItemSet} (hc : other.cores = set.cores) (hw : set.Within other)
    (hne : other ≠ set) : set.Gains other := by
  obtain ⟨item, symbol, ⟨hi, hn⟩ | ⟨hs, hn⟩⟩ := hw.exists_of_ne hne
  · exact absurd ((hasItem_congr hc item).mp hi) hn
  · obtain ⟨small, hsmall⟩ := hasItem_iff.mp ((hasItem_congr hc item).mp hs.hasItem)
    obtain ⟨large, hlarge, hsymbol⟩ := hs
    refine ⟨item, small, large, hsmall, hlarge, fun other ho => ?_, symbol, hsymbol, fun h => hn ⟨small, hsmall, h⟩⟩
    exact (sees_iff hlarge).mp (hw.sees item other ⟨small, hsmall, ho⟩)

-- A successor kernel of a state, for which a construction is to find or make a state.
structure Connection where
  before : Construction
  source : Nat
  symbol : Nat
  kernel : ItemSet

namespace Connection

variable (connection : Connection)

def after : Construction := connection.before.connect connection.source connection.symbol connection.kernel

-- Whether there is no state yet into which the kernel may be merged.
def creates : Bool := (connection.before.compatible? connection.symbol connection.kernel).isNone

def target : Nat := connection.before.targetOf connection.symbol connection.kernel

-- Whether the kernel might be merged into its state as that has become.
structure Fits (building : Construction) : Prop where
  target_lt : connection.target < building.size
  origin : building.origin connection.target = some connection.symbol
  weaklyCompatible : (building.kernel connection.target).weaklyCompatible connection.kernel = true

end Connection

namespace Construction

variable {grammar : Grammar} {mode : Mode} {building after : Construction} {source symbol target : Nat}
  {kernel : ItemSet}

-- A state is taken up from the stack.
def taken (building : Construction) (id : Nat) (rest : List Nat) : Construction :=
  { building with pending := rest, settled := building.settled.setIfInBounds id true }

-- The successor kernels of a closed state, in the order of their symbols.
def connections (grammar : Grammar) (closed : ItemSet) (source : Nat) : List Nat → Construction → List Connection
  | [], _ => []
  | symbol :: rest, building =>
      let connection : Connection := ⟨building, source, symbol, closed.gotoKernel grammar symbol⟩
      connection :: connections grammar closed source rest connection.after

-- The connections of a construction, in the order in which it makes them.
def history (grammar : Grammar) (mode : Mode) : Nat → Construction → List Connection
  | 0, _ => []
  | fuel + 1, building =>
      match building.pending with
      | [] => []
      | id :: rest =>
          let closed := (building.kernel id).closure grammar mode
          connections grammar closed id (closed.nextSymbols grammar) (building.taken id rest) ++
            history grammar mode fuel (process grammar mode { building with pending := rest } id)

-- Constructions that come of each other by taking up states and connecting kernels.
inductive Trace : Construction → List Connection → Construction → Prop where
  | done {building : Construction} : Trace building [] building
  | taken {building after : Construction} {id : Nat} {rest : List Nat} {connections : List Connection} :
      building.pending = id :: rest → Trace (building.taken id rest) connections after →
      Trace building connections after
  | connected {connection : Connection} {after : Construction} {connections : List Connection} :
      connection.source < connection.before.size → Trace connection.after connections after →
      Trace connection.before (connection :: connections) after

-- What is left as it is when a construction goes on: its states have the same items, and
-- see at least as much.
structure Grows (building after : Construction) : Prop where
  size_le : building.size ≤ after.size
  origin : ∀ id, id < building.size → after.origin id = building.origin id
  cores : ∀ id, id < building.size → (after.kernel id).cores = (building.kernel id).cores
  within : ∀ id, (building.kernel id).Within (after.kernel id)

theorem Grows.refl (building : Construction) : Grows building building :=
  ⟨Nat.le_refl _, fun _ _ => rfl, fun _ _ => rfl, fun _ => .refl _⟩

theorem Grows.trans {third : Construction} (hl : Grows building after) (hr : Grows after third) :
    Grows building third := by
  constructor
  case size_le => exact hl.size_le.trans hr.size_le
  case origin =>
    intro id hid
    rw [hr.origin id (Nat.lt_of_lt_of_le hid hl.size_le), hl.origin id hid]
  case cores =>
    intro id hid
    rw [hr.cores id (Nat.lt_of_lt_of_le hid hl.size_le), hl.cores id hid]
  case within => exact fun id => (hl.within id).trans (hr.within id)

section Connecting

theorem origin_connect (hs : building.Shaped) {id : Nat} (hid : id < building.size) :
    (building.connect source symbol kernel).origin id = building.origin id := by
  unfold connect
  cases building.compatible? symbol kernel with
  | none => exact (@origin_create building symbol kernel hs id).trans (if_neg (Nat.ne_of_lt hid))
  | some target => exact origin_mergeInto id

theorem origin_targetOf (hs : building.Shaped) :
    (building.connect source symbol kernel).origin (building.targetOf symbol kernel) = some symbol := by
  unfold connect targetOf
  cases hc : building.compatible? symbol kernel with
  | none => exact (@origin_create building symbol kernel hs _).trans (if_pos rfl)
  | some target => exact (origin_mergeInto target).trans (compatible?_eq_some hc).2.1

theorem grows_connect (hs : building.Shaped) (hsource : source < building.size) :
    Grows building (building.connect source symbol kernel) := by
  have hc := connected_connect hs hsource symbol kernel
  constructor
  case size_le => exact hc.size_le
  case origin => exact fun id => origin_connect hs
  case cores => exact fun id hid => ItemSet.cores_eq (hc.hasItem hid)
  case within => exact hc.within

theorem size_connect (building : Construction) (source symbol : Nat) (kernel : ItemSet) :
    (building.connect source symbol kernel).size =
      if (building.compatible? symbol kernel).isNone then building.size + 1 else building.size := by
  unfold connect
  cases building.compatible? symbol kernel with
  | none => exact size_create building symbol kernel
  | some target => exact size_mergeInto building target kernel

theorem kernel_targetOf (hnone : (building.compatible? symbol kernel).isNone = true) :
    (building.connect source symbol kernel).kernel (building.targetOf symbol kernel) = kernel := by
  rw [connect, targetOf, Option.isNone_iff_eq_none.mp hnone]
  exact (kernel_create building symbol kernel _).trans (if_pos rfl)

-- A state is put on the stack when it is created, and again when it has grown after it
-- was settled.
theorem pending_connect (hs : building.Shaped) (hsource : source < building.size) :
    (building.connect source symbol kernel).pending = building.pending ∨
      (building.connect source symbol kernel).pending = building.targetOf symbol kernel :: building.pending ∧
        ((building.compatible? symbol kernel).isNone = true ∨
          building.isSettled (building.targetOf symbol kernel) = true ∧
            (building.kernel (building.targetOf symbol kernel)).Gains
              ((building.connect source symbol kernel).kernel (building.targetOf symbol kernel))) := by
  have hc := connected_connect hs hsource symbol kernel
  cases hcompatible : building.compatible? symbol kernel with
  | none =>
      refine Or.inr ⟨?_, Or.inl rfl⟩
      unfold connect targetOf
      rw [hcompatible]
      rfl
  | some target =>
      have hlt := (compatible?_eq_some hcompatible).1
      have htarget : building.targetOf symbol kernel = target := by
        rw [targetOf, hcompatible, Option.getD_some]
      have hpending : (building.connect source symbol kernel).pending = (building.mergeInto target kernel).pending := by
        unfold connect
        rw [hcompatible]
        rfl
      rw [htarget] at hc ⊢
      rw [hpending]
      rcases mergeInto_cases building target kernel with ⟨hp, hgrown, hsettled, -⟩ | ⟨hp, -⟩
      · refine Or.inr ⟨hp, Or.inr ⟨hsettled, ?_⟩⟩
        exact ItemSet.gains_of_ne (ItemSet.cores_eq (hc.hasItem hlt)) (hc.within target) (hc.kernel_target ▸ hgrown)
      · exact Or.inl hp

end Connecting

end Construction

namespace Connection

variable {earlier later : Connection} {building : Construction}

theorem fits_of_grows (hs : earlier.before.Shaped) (hsource : earlier.source < earlier.before.size)
    (hg : earlier.after.Grows building) : earlier.Fits building := by
  have hc := Construction.connected_connect hs hsource earlier.symbol earlier.kernel
  constructor
  case target_lt => exact Nat.lt_of_lt_of_le hc.target_lt hg.size_le
  case origin => exact (hg.origin _ hc.target_lt).trans (Construction.origin_targetOf hs)
  case weaklyCompatible =>
    apply ItemSet.weaklyCompatible_of_sees
    · exact (hg.cores _ hc.target_lt).trans (ItemSet.cores_eq hc.hasItem_target)
    · exact (hc.within_target.trans (hg.within _)).sees

-- A kernel that fits into the state of an earlier one creates none.
theorem Fits.ne_of_creates (hf : earlier.Fits later.before) (hcreates : later.creates = true)
    (hsymbol : earlier.symbol = later.symbol) : earlier.kernel ≠ later.kernel := by
  intro hkernel
  have hno := List.find?_eq_none.mp (Option.isNone_iff_eq_none.mp hcreates) earlier.target
    (List.mem_range.mpr hf.target_lt)
  refine hno ?_
  rw [Bool.and_eq_true]
  exact ⟨beq_iff_eq.mpr (hsymbol ▸ hf.origin), hkernel ▸ hf.weaklyCompatible⟩

end Connection

namespace Construction

variable {grammar : Grammar} {mode : Mode} {building after : Construction} {source : Nat}
  {course rest : List Connection} {connection : Connection}

theorem Shaped.taken (hs : building.Shaped) (id : Nat) (rest : List Nat) : (building.taken id rest).Shaped :=
  { hs with settled := (Array.size_setIfInBounds ..).trans hs.settled }

theorem shaped_after (hs : connection.before.Shaped) (hsource : connection.source < connection.before.size) :
    connection.after.Shaped :=
  (connected_connect hs hsource connection.symbol connection.kernel).shaped

namespace Trace

theorem grows (ht : Trace building course after) (hs : building.Shaped) : Grows building after := by
  induction ht with
  | done => exact .refl _
  | @taken building after id rest _ hp ht ih =>
      have htaken : Grows building (building.taken id rest) :=
        ⟨Nat.le_refl _, fun _ _ => rfl, fun _ _ => rfl, fun _ => .refl _⟩
      exact htaken.trans (ih (hs.taken id rest))
  | connected hsource ht ih => exact (grows_connect hs hsource).trans (ih (shaped_after hs hsource))

-- Where a connection stands in the course of a construction.
structure Between (building after : Construction) (connection : Connection) : Prop where
  shaped : connection.before.Shaped
  source_lt : connection.source < connection.before.size
  since : Grows building connection.before
  until_end : Grows connection.after after

theorem between (ht : Trace building course after) (hs : building.Shaped) :
    ∀ connection ∈ course, Between building after connection := by
  induction ht with
  | done => exact fun _ h => nomatch h
  | @taken building after id rest _ hp ht ih =>
      intro connection h
      have hb := ih (hs.taken id rest) connection h
      exact { hb with since := ⟨hb.since.size_le, hb.since.origin, hb.since.cores, hb.since.within⟩ }
  | @connected first after rest hsource ht ih =>
      have hafter := shaped_after hs hsource
      refine List.forall_mem_cons.mpr ⟨⟨hs, hsource, .refl _, ht.grows hafter⟩, fun connection h => ?_⟩
      have hb := ih hafter connection h
      exact { hb with since := (grows_connect hs hsource).trans hb.since }

theorem pairwise (ht : Trace building course after) (hs : building.Shaped) :
    course.Pairwise fun earlier later => earlier.Fits later.before := by
  induction ht with
  | done => exact .nil
  | @taken building after id rest _ hp ht ih => exact ih (hs.taken id rest)
  | @connected first after rest hsource ht ih =>
      have hafter := shaped_after hs hsource
      refine List.pairwise_cons.mpr ⟨fun later h => ?_, ih hafter⟩
      exact Connection.fits_of_grows hs hsource (ht.between hafter later h).since

-- Each state is created by one connection.
theorem created (ht : Trace building course after) (hs : building.Shaped) :
    (course.filter (·.creates)).map (·.target) = List.range' building.size (after.size - building.size) := by
  induction ht with
  | done => simp
  | @taken building after id rest _ hp ht ih => exact ih (hs.taken id rest)
  | @connected first after rest hsource ht ih =>
      have hafter := shaped_after hs hsource
      have hsize : first.after.size = if first.creates then first.before.size + 1 else first.before.size :=
        size_connect _ _ _ _
      have hle := (ht.grows hafter).size_le
      rw [List.filter_cons]
      split
      · rename_i hcreates
        have htarget : first.target = first.before.size := by
          rw [Connection.target, targetOf, Option.isNone_iff_eq_none.mp hcreates, Option.getD_none]
        rw [if_pos hcreates] at hsize
        have hroom : after.size - first.before.size = (after.size - first.after.size) + 1 := by omega
        rw [List.map_cons, ih hafter, htarget, hsize, hroom, hsize, List.range'_succ]
      · rename_i hcreates
        rw [if_neg hcreates] at hsize
        rw [ih hafter, hsize]

end Trace

section Run

theorem trace_connections {closed : ItemSet} {symbols : List Nat} (hs : building.Shaped)
    (hsource : source < building.size)
    (ht : Trace (symbols.foldl (fun building symbol => building.connect source symbol
      (closed.gotoKernel grammar symbol)) building) rest after) :
    Trace building (connections grammar closed source symbols building ++ rest) after := by
  induction symbols generalizing building with
  | nil => exact ht
  | cons symbol symbols ih =>
      let connection : Connection := ⟨building, source, symbol, closed.gotoKernel grammar symbol⟩
      have hs' : connection.after.Shaped := shaped_after hs hsource
      exact .connected hsource (ih hs' (Nat.lt_of_lt_of_le hsource (grows_connect hs hsource).size_le) ht)

-- A construction runs by the connections of its history.
theorem trace_history (hb : building.Bears fun _ _ => True) (fuel : Nat) :
    Trace building (history grammar mode fuel building) (run grammar mode fuel building) := by
  induction fuel generalizing building with
  | zero => exact .done
  | succ fuel ih =>
      unfold history run
      cases hp : building.pending with
      | nil => exact .done
      | cons id rest =>
          have hid : id < building.size := hb.pending_lt id (by simp [hp])
          refine .taken hp (trace_connections (hb.shaped.taken id rest) hid (ih ?_))
          exact hb.process (fun _ _ _ _ _ _ => trivial) (fun _ _ _ _ => trivial) hp

end Run

-- The course of a construction. Each state is created once, with its kernel; a kernel
-- goes on to fit into its state, so that it is never created over the same symbol again;
-- and a settled state is pending again only when it has a larger lookahead.
structure Orderly (building : Construction) (course : List Connection) (after : Construction) : Prop where
  created : (course.filter (·.creates)).map (·.target) = List.range' building.size (after.size - building.size)
  begins : ∀ connection ∈ course, connection.creates = true →
    connection.after.kernel connection.target = connection.kernel
  fresh : (course.filter (·.creates)).Pairwise fun earlier later =>
    earlier.symbol = later.symbol → earlier.kernel ≠ later.kernel
  fits : course.Pairwise fun earlier later => earlier.Fits later.before
  fits_after : ∀ connection ∈ course, connection.Fits after
  pending : ∀ connection ∈ course, connection.after.pending = connection.before.pending ∨
    connection.after.pending = connection.target :: connection.before.pending ∧
      (connection.creates = true ∨ connection.before.isSettled connection.target = true ∧
        (connection.before.kernel connection.target).Gains (connection.after.kernel connection.target))

theorem Trace.orderly (ht : Trace building course after) (hs : building.Shaped) : Orderly building course after := by
  have hbetween := ht.between hs
  constructor
  case created => exact ht.created hs
  case begins => exact fun connection _ => kernel_targetOf
  case fresh =>
    refine ((ht.pairwise hs).filter _).imp_of_mem fun _ hlater hfits => hfits.ne_of_creates ?_
    exact (List.mem_filter.mp hlater).2
  case fits => exact ht.pairwise hs
  case fits_after =>
    intro connection h
    have hb := hbetween connection h
    exact Connection.fits_of_grows hb.shaped hb.source_lt hb.until_end
  case pending =>
    intro connection h
    exact pending_connect (hbetween connection h).shaped (hbetween connection h).source_lt

theorem run_add_of_pending (fuel more : Nat) (hp : (run grammar mode fuel building).pending = []) :
    run grammar mode (fuel + more) building = run grammar mode fuel building := by
  induction fuel generalizing building with
  | zero =>
      rw [Nat.zero_add]
      cases more with
      | zero => rfl
      | succ more =>
          have hp : building.pending = [] := hp
          change run grammar mode (more + 1) building = building
          unfold run
          rw [hp]
  | succ fuel ih =>
      rw [Nat.succ_add]
      unfold run at hp ⊢
      split
      · rfl
      · rename_i id rest hpending
        rw [hpending] at hp
        exact ih hp

-- Whether the construction of an automaton comes to its end, however much fuel there is,
-- and takes an orderly course up to any point.
structure Ends (grammar : Grammar) (mode : Mode) : Prop where
  halts : ∀ fuel, workBound grammar ≤ fuel →
    (run grammar mode fuel (start mode)).pending = [] ∧ run grammar mode fuel (start mode) = finished grammar mode
  orderly : ∀ fuel,
    Orderly (start mode) (history grammar mode fuel (start mode)) (run grammar mode fuel (start mode))

theorem ends_of_built (hb : grammar.Built) (mode : Mode) : Ends grammar mode := by
  have hw := hb.wellFormed
  have hpending : ∀ fuel, workBound grammar ≤ fuel → (run grammar mode fuel (start mode)).pending = [] :=
    fun fuel h => pending_run hw fuel (sound_start hw) queued_start (seeded_start mode) ((potential_start mode).trans h)
  have hstart : (start mode).Bears fun _ _ => True := bears_start trivial
  constructor
  case halts =>
    intro fuel h
    refine ⟨hpending fuel h, ?_⟩
    rw [← Nat.add_sub_cancel' h]
    exact run_add_of_pending _ _ (hpending _ (Nat.le_refl _))
  case orderly => exact fun fuel => (trace_history hstart fuel).orderly hstart.shaped

end Construction

-- What "c" makes may be followed by "d" or by "e", which the second way to it brings.
def Declarations.revisited : Declarations := {
  start := none
  rules := [
    ("S", ⟨[.terminal "a", .nonterminal "A", .terminal "d"], none, none⟩),
    ("S", ⟨[.terminal "b", .nonterminal "A", .terminal "e"], none, none⟩),
    ("A", ⟨[.terminal "c"], none, none⟩)]
  precedences := [] }

def Rules.revisited : Rules := {
  symbols := #[.finish, .epsilon, .nonterminal "S", .terminal "a", .nonterminal "A", .terminal "d",
    .terminal "b", .terminal "e", .terminal "c"]
  productions := #[⟨none, [2], none, none⟩, ⟨some 2, [3, 4, 5], none, none⟩, ⟨some 2, [6, 4, 7], none, none⟩,
    ⟨some 4, [8], none, none⟩]
  start := 2
  precedences := Array.replicate 9 none }

theorem built_revisited : Rules.revisited.toGrammar.Built :=
  .declared (show Declarations.revisited.build = .ok Rules.revisited.toGrammar from rfl)

-- The state behind "c" is settled when its second lookahead comes to it.
theorem Construction.ends_revisited :
    Rules.revisited.toGrammar.Built ∧
      (history Rules.revisited.toGrammar .lr1 10 (start .lr1)).map (fun connection =>
        (connection.symbol, connection.target, connection.creates, connection.after.pending)) =
        [(2, 1, true, [1]), (3, 2, true, [2, 1]), (6, 3, true, [3, 2, 1]), (4, 4, true, [4, 2, 1]),
          (8, 5, true, [5, 4, 2, 1]), (7, 6, true, [6, 2, 1]), (4, 7, true, [7, 1]), (8, 5, false, [5, 7, 1]),
          (5, 8, true, [8, 1])] ∧
      Ends Rules.revisited.toGrammar .lr1 :=
  ⟨built_revisited, by decide +kernel, ends_of_built built_revisited .lr1⟩

end IncrementalLR
