import IncrementalLR.Proofs.Tree.Editing
import Mathlib.Data.List.Nodup

namespace IncrementalLR

namespace Store

-- Whether nodes are on the thread one behind the other, between two neighbours.
def Threads (store : Store) : Option Nat → Option Nat → List Nat → Prop
  | _, _, [] => True
  | before, after, id :: rest =>
      (store.node id).prevTerminal = before ∧ (store.node id).nextTerminal = rest.head?.or after ∧
        store.Threads (some id) after rest

-- Whether a node is where it was on the thread.
def SameThread (store other : Store) (id : Nat) : Prop :=
  (other.node id).prevTerminal = (store.node id).prevTerminal ∧ (other.node id).nextTerminal = (store.node id).nextTerminal

variable {store other : Store} {id anchor new child : Nat} {before after : Option Nat} {front middle back : List Nat}

theorem threads_append :
    store.Threads before after (front ++ back) ↔
      store.Threads before (back.head?.or after) front ∧ store.Threads (front.getLast?.or before) after back := by
  induction front generalizing before with
  | nil => exact (and_iff_right trivial).symm
  | cons id rest ih =>
      have hlast : (id :: rest).getLast?.or before = rest.getLast?.or (some id) := by
        rw [List.getLast?_cons]
        cases rest.getLast? <;> rfl
      rw [List.cons_append, Threads, Threads, ih, hlast, List.head?_append, Option.or_assoc]
      simp only [and_assoc]

theorem Threads.congr (ht : store.Threads before after front) (hs : ∀ id ∈ front, store.SameThread other id) :
    other.Threads before after front := by
  induction front generalizing before with
  | nil => trivial
  | cons id rest ih =>
      obtain ⟨hsame, hrest⟩ := List.forall_mem_cons.mp hs
      exact ⟨hsame.1.trans ht.1, hsame.2.trans ht.2.1, ih ht.2.2 hrest⟩

-- The thread is walked from its first node to its last one.
theorem Threads.thread (ht : store.Threads before none (id :: front)) (hn : (id :: front).Nodup)
    (hlt : ∀ other ∈ id :: front, other < store.size) : store.thread id = id :: front := by
  have hfrom : ∀ fuel, front.length < fuel → store.threadFrom fuel id = id :: front := by
    clear hn hlt
    intro fuel hfuel
    induction front generalizing id before fuel with
    | nil =>
        obtain ⟨fuel, rfl⟩ := Nat.exists_eq_add_of_le' (Nat.one_le_of_lt hfuel)
        have hnext : (store.node id).nextTerminal = none := ht.2.1
        rw [threadFrom, hnext]
    | cons next rest ih =>
        obtain ⟨fuel, rfl⟩ := Nat.exists_eq_add_of_le' (Nat.one_le_of_lt hfuel)
        have hnext : (store.node id).nextTerminal = some next := ht.2.1
        rw [threadFrom, hnext]
        exact congrArg (id :: ·) (ih ht.2.2 fuel (Nat.lt_of_succ_lt_succ hfuel))
  exact hfrom _ (length_le_size hn hlt)

-- A node between its neighbours on the thread.
theorem threads_insert (ht : store.Threads before after (front ++ back))
    (hnew : (other.node new).prevTerminal = front.getLast?.or before ∧
      (other.node new).nextTerminal = back.head?.or after)
    (hlast : ∀ last ∈ front.getLast?, (other.node last).prevTerminal = (store.node last).prevTerminal ∧
      (other.node last).nextTerminal = some new)
    (hfirst : ∀ first ∈ back.head?, (other.node first).prevTerminal = some new ∧
      (other.node first).nextTerminal = (store.node first).nextTerminal)
    (hothers : ∀ id ∈ front.dropLast ++ back.tail, store.SameThread other id) :
    other.Threads before after (front ++ new :: back) := by
  rw [threads_append] at ht ⊢
  obtain ⟨hfront, hback⟩ := ht
  refine ⟨?_, hnew.1, hnew.2, ?_⟩
  · rcases List.eq_nil_or_concat' front with rfl | ⟨rest, last, rfl⟩
    · trivial
    · rw [threads_append] at hfront ⊢
      obtain ⟨hrest, hprev, -, -⟩ := hfront
      obtain ⟨hback, hon⟩ := hlast last (by simp)
      exact ⟨hrest.congr fun id h => hothers id (List.mem_append_left _ (by simpa using h)), hback.trans hprev, hon, trivial⟩
  · cases back with
    | nil => trivial
    | cons first rest =>
        obtain ⟨-, hnext, hrest⟩ := hback
        obtain ⟨hprev, hon⟩ := hfirst first rfl
        exact ⟨hprev, hon.trans hnext, hrest.congr fun id h => hothers id (List.mem_append_right _ h)⟩

theorem threads_remove (ht : store.Threads before after (front ++ (middle ++ back)))
    (hlast : ∀ last ∈ front.getLast?, (other.node last).prevTerminal = (store.node last).prevTerminal ∧
      (other.node last).nextTerminal = back.head?.or after)
    (hfirst : ∀ first ∈ back.head?, (other.node first).prevTerminal = front.getLast?.or before ∧
      (other.node first).nextTerminal = (store.node first).nextTerminal)
    (hothers : ∀ id ∈ front.dropLast ++ back.tail, store.SameThread other id) :
    other.Threads before after (front ++ back) := by
  rw [threads_append, threads_append] at ht
  rw [threads_append]
  obtain ⟨hfront, -, hback⟩ := ht
  refine ⟨?_, ?_⟩
  · rcases List.eq_nil_or_concat' front with rfl | ⟨rest, last, rfl⟩
    · trivial
    · rw [threads_append] at hfront ⊢
      obtain ⟨hrest, hprev, -, -⟩ := hfront
      obtain ⟨hprev', hon⟩ := hlast last (by simp)
      exact ⟨hrest.congr fun id h => hothers id (List.mem_append_left _ (by simpa using h)), hprev'.trans hprev, hon,
        trivial⟩
  · cases back with
    | nil => trivial
    | cons first rest =>
        obtain ⟨-, hnext, hrest⟩ := hback
        obtain ⟨hprev, hon⟩ := hfirst first rfl
        exact ⟨hprev, hon.trans hnext, hrest.congr fun id h => hothers id (List.mem_append_right _ h)⟩

-- What a revision makes of a part of the attributes.
theorem part_revise {α : Type} (part : Attributes → α) (change : Attributes → Attributes) (effect : α → α)
    (he : ∀ attributes, part (change attributes) = effect (part attributes)) (hlt : id < store.size) {node : Nat} :
    part ((store.revise id change).node node).toAttributes =
      if node = id then effect (part (store.node node).toAttributes) else part (store.node node).toAttributes := by
  rw [revise, node_update]
  by_cases h : node = id
  · rw [if_pos ⟨h, hlt⟩, if_pos h]
    exact he _
  · rw [if_neg fun hne => h hne.1, if_neg h]

theorem part_reviseAll {α : Type} (part : Attributes → α) (change : Attributes → Attributes) (effect : α → α)
    (he : ∀ attributes, part (change attributes) = effect (part attributes)) {ids : Option Nat}
    (hlt : ∀ id ∈ ids, id < store.size) {node : Nat} :
    part ((store.reviseAll ids change).node node).toAttributes =
      if ids = some node then effect (part (store.node node).toAttributes) else part (store.node node).toAttributes := by
  cases ids with
  | none => rfl
  | some id =>
      refine (part_revise part change effect he (hlt id rfl)).trans ?_
      by_cases h : node = id
      · rw [if_pos h, if_pos (congrArg some h.symm)]
      · rw [if_neg h, if_neg fun he => h (Option.some_inj.mp he).symm]

section

variable {link : Option Nat}

theorem prev_revise_prev (hlt : id < store.size) {node : Nat} :
    ((store.revise id fun node => { node with prevTerminal := link }).node node).prevTerminal =
      if node = id then link else (store.node node).prevTerminal :=
  part_revise Attributes.prevTerminal _ (fun _ => link) (fun _ => rfl) hlt

theorem next_revise_next (hlt : id < store.size) {node : Nat} :
    ((store.revise id fun node => { node with nextTerminal := link }).node node).nextTerminal =
      if node = id then link else (store.node node).nextTerminal :=
  part_revise Attributes.nextTerminal _ (fun _ => link) (fun _ => rfl) hlt

theorem next_revise_prev {node : Nat} :
    ((store.revise id fun node => { node with prevTerminal := link }).node node).nextTerminal =
      (store.node node).nextTerminal := by
  rw [revise, node_update]
  split <;> rfl

theorem prev_revise_next {node : Nat} :
    ((store.revise id fun node => { node with nextTerminal := link }).node node).prevTerminal =
      (store.node node).prevTerminal := by
  rw [revise, node_update]
  split <;> rfl

variable {ids : Option Nat}

theorem prev_reviseAll_prev (hlt : ∀ id ∈ ids, id < store.size) {node : Nat} :
    ((store.reviseAll ids fun node => { node with prevTerminal := link }).node node).prevTerminal =
      if ids = some node then link else (store.node node).prevTerminal :=
  part_reviseAll Attributes.prevTerminal _ (fun _ => link) (fun _ => rfl) hlt

theorem next_reviseAll_next (hlt : ∀ id ∈ ids, id < store.size) {node : Nat} :
    ((store.reviseAll ids fun node => { node with nextTerminal := link }).node node).nextTerminal =
      if ids = some node then link else (store.node node).nextTerminal :=
  part_reviseAll Attributes.nextTerminal _ (fun _ => link) (fun _ => rfl) hlt

theorem next_reviseAll_prev {node : Nat} :
    ((store.reviseAll ids fun node => { node with prevTerminal := link }).node node).nextTerminal =
      (store.node node).nextTerminal := by
  cases ids with
  | none => rfl
  | some id => exact next_revise_prev

theorem prev_reviseAll_next {node : Nat} :
    ((store.reviseAll ids fun node => { node with nextTerminal := link }).node node).prevTerminal =
      (store.node node).prevTerminal := by
  cases ids with
  | none => rfl
  | some id => exact prev_revise_next

end

theorem firstLeafBelow_eq {fuel : Nat} : store.firstLeafBelow fuel id = (store.leavesBelow fuel id).head? := by
  induction fuel generalizing id with
  | zero => rfl
  | succ fuel ih =>
      rw [firstLeafBelow, leavesBelow]
      split
      · rfl
      · rw [List.head?_flatMap, funext fun child => @ih child]

theorem lastLeafBelow_eq {fuel : Nat} : store.lastLeafBelow fuel id = (store.leavesBelow fuel id).getLast? := by
  induction fuel generalizing id with
  | zero => rfl
  | succ fuel ih =>
      rw [lastLeafBelow, leavesBelow]
      split
      · rfl
      · rw [List.getLast?_flatMap, funext fun child => @ih child]

theorem firstLeaf?_eq : store.firstLeaf? id = (store.leaves id).head? := firstLeafBelow_eq

theorem lastLeaf?_eq : store.lastLeaf? id = (store.leaves id).getLast? := lastLeafBelow_eq

-- A leaf is put on the thread between those up to the anchor and those behind it.
theorem threads_threadIn (ht : store.Threads none none (front ++ back)) (hleaves : store.leaves new = [new])
    (hanchor : store.leafUpTo? anchor = front.getLast?) (hne : front ≠ []) (hn : (front ++ new :: back).Nodup)
    (hlt : ∀ id ∈ front ++ new :: back, id < store.size) :
    (store.threadIn anchor new).Threads none none (front ++ new :: back) := by
  have hafter : (front.getLast?.bind fun leaf => (store.node leaf).nextTerminal) = back.head? := by
    rcases List.eq_nil_or_concat' front with rfl | ⟨rest, last, rfl⟩
    · exact absurd rfl hne
    · rw [threads_append, threads_append] at ht
      simpa [Threads] using ht.1.2.2.1
  obtain ⟨hfront, hrest, hapart⟩ := List.nodup_append.mp hn
  obtain ⟨hnot, hback⟩ := List.nodup_cons.mp hrest
  have hlast : ∀ last, front.getLast? = some last → last ∈ front := fun last h => List.mem_of_getLast? h
  have hfirst : ∀ first, back.head? = some first → first ∈ back := fun first h => List.mem_of_mem_head? h
  have hnewlt := hlt new (List.mem_append_right _ List.mem_cons_self)
  have hlastlt : ∀ last ∈ front.getLast?, last < store.size :=
    fun last h => hlt last (List.mem_append_left _ (hlast last h))
  have hfirstlt : ∀ first ∈ back.head?, first < store.size :=
    fun first h => hlt first (List.mem_append_right _ (List.mem_cons_of_mem _ (hfirst first h)))
  have hleaf : store.firstLeaf? new = some new ∧ store.lastLeaf? new = some new := by
    rw [firstLeaf?_eq, lastLeaf?_eq, hleaves]
    exact ⟨rfl, rfl⟩
  unfold threadIn
  rw [hleaf.1, hleaf.2]
  dsimp only
  rw [hanchor, hafter]
  have hprev : ∀ id, ((((((store.revise new fun node => { node with prevTerminal := front.getLast? }).revise new fun node =>
      { node with nextTerminal := back.head? }).reviseAll front.getLast? fun node =>
      { node with nextTerminal := some new }).reviseAll back.head? fun node =>
      { node with prevTerminal := some new })).node id).prevTerminal =
      if back.head? = some id then some new else if id = new then front.getLast? else (store.node id).prevTerminal := by
    intro id
    rw [prev_reviseAll_prev (by simpa using hfirstlt), prev_reviseAll_next, prev_revise_next, prev_revise_prev hnewlt]
  have hnext : ∀ id, ((((((store.revise new fun node => { node with prevTerminal := front.getLast? }).revise new fun node =>
      { node with nextTerminal := back.head? }).reviseAll front.getLast? fun node =>
      { node with nextTerminal := some new }).reviseAll back.head? fun node =>
      { node with prevTerminal := some new })).node id).nextTerminal =
      if front.getLast? = some id then some new else if id = new then back.head? else (store.node id).nextTerminal := by
    intro id
    rw [next_reviseAll_prev, next_reviseAll_next (by simpa using hlastlt), next_revise_next (by simpa using hnewlt),
      next_revise_prev]
  refine threads_insert ht ?_ (fun last h => ?_) (fun first h => ?_) fun id h => ?_
  · rw [hprev, hnext, if_neg fun h => hnot (hfirst new h), if_pos rfl,
      if_neg fun h => hapart new (hlast new h) new List.mem_cons_self rfl, if_pos rfl, Option.or_none, Option.or_none]
    exact ⟨rfl, rfl⟩
  · have hmem := hlast last h
    rw [hprev, hnext, if_pos (show front.getLast? = some last from h),
      if_neg fun hf => hapart last hmem last (List.mem_cons_of_mem _ (hfirst last hf)) rfl,
      if_neg fun he => hapart last hmem new List.mem_cons_self he]
    exact ⟨rfl, rfl⟩
  · have hmem := hfirst first h
    rw [hprev, hnext, if_pos (show back.head? = some first from h),
      if_neg fun hl => hapart first (hlast first hl) first (List.mem_cons_of_mem _ hmem) rfl,
      if_neg fun he : first = new => hnot (he ▸ hmem)]
    exact ⟨rfl, rfl⟩
  · rw [SameThread, hprev, hnext]
    rcases List.mem_append.mp h with h | h
    · have hmem := (List.dropLast_sublist front).subset h
      rw [if_neg fun hf => hapart id hmem id (List.mem_cons_of_mem _ (hfirst id hf)) rfl,
        if_neg fun hl : front.getLast? = some id => not_mem_dropLast_of_getLast? hfront hl h,
        if_neg fun he => hapart id hmem new List.mem_cons_self he,
        if_neg fun he => hapart id hmem new List.mem_cons_self he]
      exact ⟨rfl, rfl⟩
    · have hmem := List.mem_of_mem_tail h
      rw [if_neg fun hf : back.head? = some id => not_mem_tail_of_head? hback hf h,
        if_neg fun hl => hapart id (hlast id hl) id (List.mem_cons_of_mem _ hmem) rfl,
        if_neg fun he : id = new => hnot (he ▸ hmem), if_neg fun he : id = new => hnot (he ▸ hmem)]
      exact ⟨rfl, rfl⟩

-- The leaves of a subtree are taken off the thread.
theorem threads_threadOut (ht : store.Threads none none (front ++ (middle ++ back))) (hleaves : store.leaves child = middle)
    (hn : (front ++ (middle ++ back)).Nodup) (hlt : ∀ id ∈ front ++ (middle ++ back), id < store.size) :
    (store.threadOut child).Threads none none (front ++ back) := by
  obtain ⟨hfront, hrest, hapart⟩ := List.nodup_append.mp hn
  obtain ⟨-, hback, -⟩ := List.nodup_append.mp hrest
  have hlast : ∀ last, front.getLast? = some last → last ∈ front := fun last h => List.mem_of_getLast? h
  have hfirst : ∀ first, back.head? = some first → first ∈ back := fun first h => List.mem_of_mem_head? h
  have hlastlt : ∀ last ∈ front.getLast?, last < store.size :=
    fun last h => hlt last (List.mem_append_left _ (hlast last h))
  have hfirstlt : ∀ first ∈ back.head?, first < store.size :=
    fun first h => hlt first (List.mem_append_right _ (List.mem_append_right _ (hfirst first h)))
  rcases List.eq_nil_or_concat' middle with rfl | ⟨others, last, rfl⟩
  · have hnone : store.threadOut child = store := by
      rw [threadOut, firstLeaf?_eq, hleaves]
      rfl
    rw [hnone]
    exact ht
  · obtain ⟨first, hhead⟩ : ∃ first, (others ++ [last]).head? = some first := by
      cases others with
      | nil => exact ⟨last, rfl⟩
      | cons first rest => exact ⟨first, rfl⟩
    have hends : (store.node first).prevTerminal = front.getLast? ∧ (store.node last).nextTerminal = back.head? := by
      have hsplit := ht
      rw [threads_append, threads_append] at hsplit
      obtain ⟨-, hmiddle, -⟩ := hsplit
      have hsplit := hmiddle
      rw [threads_append] at hsplit
      refine ⟨?_, by simpa using hsplit.2.2.1⟩
      cases others with
      | nil =>
          obtain rfl := Option.some_inj.mp hhead
          exact hmiddle.1.trans Option.or_none
      | cons other rest =>
          obtain rfl := Option.some_inj.mp hhead
          exact hmiddle.1.trans Option.or_none
    unfold threadOut
    rw [firstLeaf?_eq, lastLeaf?_eq, hleaves, hhead, List.getLast?_concat]
    dsimp only
    rw [hends.1, hends.2]
    have hprev : ∀ id, (((store.reviseAll front.getLast? fun node => { node with nextTerminal := back.head? }).reviseAll
        back.head? fun node => { node with prevTerminal := front.getLast? }).node id).prevTerminal =
        if back.head? = some id then front.getLast? else (store.node id).prevTerminal := by
      intro id
      rw [prev_reviseAll_prev (by simpa using hfirstlt), prev_reviseAll_next]
    have hnext : ∀ id, (((store.reviseAll front.getLast? fun node => { node with nextTerminal := back.head? }).reviseAll
        back.head? fun node => { node with prevTerminal := front.getLast? }).node id).nextTerminal =
        if front.getLast? = some id then back.head? else (store.node id).nextTerminal := by
      intro id
      rw [next_reviseAll_prev, next_reviseAll_next hlastlt]
    refine threads_remove ht (fun final h => ?_) (fun start h => ?_) fun id h => ?_
    · rw [hprev, hnext, if_pos (show front.getLast? = some final from h), Option.or_none,
        if_neg fun hf => hapart final (hlast final h) final (List.mem_append_right _ (hfirst final hf)) rfl]
      exact ⟨rfl, rfl⟩
    · rw [hprev, hnext, if_pos (show back.head? = some start from h), Option.or_none,
        if_neg fun hl => hapart start (hlast start hl) start (List.mem_append_right _ (hfirst start h)) rfl]
      exact ⟨rfl, rfl⟩
    · rw [SameThread, hprev, hnext]
      rcases List.mem_append.mp h with h | h
      · have hmem := (List.dropLast_sublist front).subset h
        rw [if_neg fun hf => hapart id hmem id (List.mem_append_right _ (hfirst id hf)) rfl,
          if_neg fun hl : front.getLast? = some id => not_mem_dropLast_of_getLast? hfront hl h]
        exact ⟨rfl, rfl⟩
      · have hmem := List.mem_of_mem_tail h
        rw [if_neg fun hf : back.head? = some id => not_mem_tail_of_head? hback hf h,
          if_neg fun hl => hapart id (hlast id hl) id (List.mem_append_right _ hmem) rfl]
        exact ⟨rfl, rfl⟩

-- Leaves that are threaded anew, behind a node that comes before them.
theorem threads_threadLeaves {leaves : List Nat} (hn : leaves.Nodup) (hbefore : ∀ id ∈ before, id ∉ leaves)
    (hlt : ∀ id ∈ leaves, id < store.size) (hbeforelt : ∀ id ∈ before, id < store.size) :
    (threadLeaves before leaves store).Threads before none leaves ∧
      (∀ id ∈ before, ((threadLeaves before leaves store).node id).prevTerminal = (store.node id).prevTerminal ∧
        ((threadLeaves before leaves store).node id).nextTerminal = leaves.head?.or (store.node id).nextTerminal) ∧
      ∀ id, id ∉ leaves → before ≠ some id → (threadLeaves before leaves store).node id = store.node id := by
  induction leaves generalizing before store with
  | nil => exact ⟨trivial, fun _ _ => ⟨rfl, rfl⟩, fun _ _ _ => rfl⟩
  | cons leaf rest ih =>
      obtain ⟨hleaf, hrest⟩ := List.nodup_cons.mp hn
      have hleaflt := hlt leaf List.mem_cons_self
      rw [threadLeaves]
      have hprev : ∀ id, (((store.revise leaf fun node =>
          { node with prevTerminal := before, nextTerminal := none }).reviseAll before fun node =>
          { node with nextTerminal := some leaf }).node id).prevTerminal =
          if id = leaf then before else (store.node id).prevTerminal := by
        intro id
        rw [prev_reviseAll_next, part_revise Attributes.prevTerminal
          (fun node => { node with prevTerminal := before, nextTerminal := none }) (fun _ => before) (fun _ => rfl) hleaflt]
      have hnext : ∀ id, (((store.revise leaf fun node =>
          { node with prevTerminal := before, nextTerminal := none }).reviseAll before fun node =>
          { node with nextTerminal := some leaf }).node id).nextTerminal =
          if before = some id then some leaf else if id = leaf then none else (store.node id).nextTerminal := by
        intro id
        rw [next_reviseAll_next (by simpa using hbeforelt), part_revise Attributes.nextTerminal
          (fun node => { node with prevTerminal := before, nextTerminal := none }) (fun _ => none) (fun _ => rfl) hleaflt]
      have hothers : ∀ id, id ≠ leaf → before ≠ some id → ((store.revise leaf fun node =>
          { node with prevTerminal := before, nextTerminal := none }).reviseAll before fun node =>
          { node with nextTerminal := some leaf }).node id = store.node id := by
        intro id hne hb
        cases before with
        | none => exact node_update_ne _ hne
        | some last =>
            exact (node_update_ne _ fun he => hb (congrArg some he.symm)).trans (node_update_ne _ hne)
      have hsize : ((store.revise leaf fun node =>
          { node with prevTerminal := before, nextTerminal := none }).reviseAll before fun node =>
          { node with nextTerminal := some leaf }).size = store.size := by simp
      generalize (store.revise leaf fun node =>
        { node with prevTerminal := before, nextTerminal := none }).reviseAll before (fun node =>
        { node with nextTerminal := some leaf }) = linked at hprev hnext hothers hsize ⊢
      obtain ⟨hthreads, hfirst, hframe⟩ := @ih linked (some leaf) hrest
        (fun id h hmem => hleaf (Option.some_inj.mp h ▸ hmem)) (fun id h => hsize ▸ hlt id (List.mem_cons_of_mem _ h))
        fun id h => hsize ▸ Option.some_inj.mp h ▸ hleaflt
      refine ⟨⟨?_, ?_, hthreads⟩, fun id h => ?_, fun id hid hb => ?_⟩
      · rw [(hfirst leaf rfl).1, hprev, if_pos rfl]
      · rw [(hfirst leaf rfl).2, hnext, if_neg fun h : before = some leaf => hbefore leaf h List.mem_cons_self, if_pos rfl]
      · obtain ⟨hne, hnerest⟩ := List.ne_and_not_mem_of_not_mem_cons (hbefore id h)
        rw [hframe id hnerest fun he => hne (Option.some_inj.mp he).symm, hprev, hnext, if_neg hne,
          if_pos (show before = some id from h)]
        exact ⟨rfl, rfl⟩
      · obtain ⟨hne, hnerest⟩ := List.ne_and_not_mem_of_not_mem_cons hid
        rw [hframe id hnerest fun he => hne (Option.some_inj.mp he).symm, hothers id hne hb]

end Store

end IncrementalLR
