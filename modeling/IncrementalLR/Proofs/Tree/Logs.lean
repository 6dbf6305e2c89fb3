import Mathlib.Data.List.TakeWhile
import Mathlib.Logic.ExistsUnique
import IncrementalLR.Tree.Node

namespace IncrementalLR

namespace AttrLog

variable {α : Type} {log : AttrLog α} {entries : List (Nat × α)} {version later bound : Nat} {value : α}

theorem upTo_cons (version : Nat) (entry : Nat × α) (rest : List (Nat × α)) :
    upTo version (entry :: rest) = if version < entry.1 then upTo version rest else entry :: rest := by
  rw [upTo, List.dropWhile_cons]
  by_cases h : version < entry.1
  · rw [if_pos h, if_pos (decide_eq_true h)]
    rfl
  · rw [if_neg h, if_neg (by simpa using h)]

-- Of two bounds the smaller one counts.
theorem upTo_upTo : upTo version (upTo later entries) = upTo (min version later) entries := by
  induction entries with
  | nil => rfl
  | cons entry rest ih =>
      rw [upTo_cons later]
      by_cases hlater : later < entry.1
      · rw [if_pos hlater, ih, upTo_cons, if_pos (by omega)]
      · rw [if_neg hlater, upTo_cons, upTo_cons]
        by_cases hversion : version < entry.1
        · rw [if_pos hversion, if_pos (by omega), Nat.min_eq_left (by omega)]
        · rw [if_neg hversion, if_neg (by omega)]

theorem at?_truncateAfter : (log.truncateAfter later).at? version = log.at? (min version later) := by
  rw [at?, truncateAfter, upTo_upTo, at?]

-- Whether a log has nothing newer than a version.
def EndsBy (log : AttrLog α) (bound : Nat) : Prop := ∀ entry ∈ log.entries.head?, entry.1 ≤ bound

theorem endsBy_upTo : (AttrLog.mk (upTo bound entries)).EndsBy bound := by
  induction entries with
  | nil => exact nofun
  | cons entry rest ih =>
      rw [upTo_cons]
      split
      · exact ih
      · rename_i h
        intro first hfirst
        obtain rfl := Option.some_inj.mp hfirst
        exact Nat.le_of_not_lt h

theorem EndsBy.mono (he : log.EndsBy bound) (h : bound ≤ later) : log.EndsBy later :=
  fun entry hentry => Nat.le_trans (he entry hentry) h

theorem EndsBy.upTo (he : log.EndsBy bound) (h : bound ≤ later) : upTo later log.entries = log.entries := by
  rw [EndsBy] at he
  cases hentries : log.entries with
  | nil => rfl
  | cons entry rest =>
      rw [hentries] at he
      have hle := he entry rfl
      rw [upTo_cons, if_neg (by omega)]

-- Nothing changes after the last entry.
theorem EndsBy.at? (he : log.EndsBy bound) (h : bound ≤ later) : log.at? later = log.at? bound := by
  rw [AttrLog.at?, AttrLog.at?, he.upTo h, he.upTo (Nat.le_refl _)]

section

variable [DecidableEq α]

theorem endsBy_record : (log.record version value).EndsBy version := by
  rw [record]
  have hends := @endsBy_upTo α log.entries version
  split
  · rintro entry h
    obtain rfl := Option.some_inj.mp h
    exact Nat.le_refl _
  · rename_i last old rest hentries
    rw [hentries] at hends
    split
    · rintro entry h
      obtain rfl := Option.some_inj.mp h
      exact Nat.le_refl _
    · split
      · exact hends
      · rintro entry h
        obtain rfl := Option.some_inj.mp h
        exact Nat.le_refl _

-- What is recorded is in effect from its version on.
theorem at?_record :
    (log.record version value).at? later = if version ≤ later then some value else log.at? later := by
  have hbefore : later < version → log.at? later = (AttrLog.mk (upTo version log.entries)).at? later := by
    intro h
    rw [AttrLog.at?, AttrLog.at?, upTo_upTo, Nat.min_eq_left (Nat.le_of_lt h)]
  split
  · rename_i hle
    rw [endsBy_record.at? hle, AttrLog.at?, endsBy_record.upTo (Nat.le_refl _), record]
    split
    · rfl
    · split
      · rfl
      · split
        · rename_i h
          exact congrArg some h
        · rfl
  · rename_i hlt
    rw [hbefore (Nat.lt_of_not_le hlt), AttrLog.at?, AttrLog.at?, record]
    have hdrop : ∀ (first : α) (rest : List (Nat × α)), upTo later ((version, first) :: rest) = upTo later rest :=
      fun _ _ => by rw [upTo_cons, if_pos (Nat.lt_of_not_le hlt)]
    split
    · rename_i hentries
      rw [hentries, hdrop]
    · rename_i last old rest hentries
      rw [hentries]
      split
      · rename_i h
        rw [h, hdrop, hdrop]
      · split
        · rfl
        · rw [hdrop]

-- A value that is in effect is not recorded again.
theorem record_of_at? (he : log.EndsBy bound) (h : log.at? bound = some value) (hlt : bound < version) :
    log.record version value = log := by
  rw [AttrLog.at?, he.upTo (Nat.le_refl _)] at h
  rw [record, he.upTo (Nat.le_of_lt hlt)]
  cases hentries : log.entries with
  | nil =>
      rw [hentries] at h
      cases h
  | cons entry rest =>
      obtain ⟨last, old⟩ := entry
      rw [hentries] at h
      obtain rfl := Option.some_inj.mp h
      have hle : last ≤ bound := he (last, old) (by rw [hentries]; rfl)
      dsimp only
      rw [if_neg (by omega), if_pos rfl, ← hentries]

end

section

variable {count : Nat}

-- The value at every version, with none of them left out.
def Course (α : Type) := Nat → Option α

namespace Course

def nowhere : Course α := fun _ => none

-- The value holds from the version on, whatever was there.
def record (course : Course α) (version : Nat) (value : α) : Course α :=
  fun later => if version ≤ later then some value else course later

-- After the version all stays as it is there.
def truncateAfter (course : Course α) (version : Nat) : Course α := fun later => course (min later version)

end Course

inductive Writing (α : Type) where
  | record (version : Nat) (value : α)
  | truncateAfter (version : Nat)

namespace Writing

def write [DecidableEq α] (log : AttrLog α) : Writing α → AttrLog α
  | record version value => log.record version value
  | truncateAfter version => log.truncateAfter version

def alter (course : Course α) : Writing α → Course α
  | record version value => course.record version value
  | truncateAfter version => course.truncateAfter version

end Writing

-- What a log says of the versions between its entries as well.
def course (log : AttrLog α) : Course α := log.at?

theorem course_empty : (empty : AttrLog α).course = Course.nowhere := rfl

theorem course_write [DecidableEq α] (writing : Writing α) :
    (writing.write log).course = writing.alter log.course := by
  funext later
  cases writing with
  | record version value => exact at?_record
  | truncateAfter version => exact at?_truncateAfter

-- Entries are kept with the newest in front.
def oldestFirst (log : AttrLog α) : List (Nat × α) := log.entries.reverse

def Ascending (log : AttrLog α) : Prop := log.oldestFirst.Pairwise fun older newer => older.1 < newer.1

theorem ascending_iff : log.Ascending ↔ log.entries.Pairwise fun newer older => older.1 < newer.1 :=
  List.pairwise_reverse

theorem ascending_empty : (empty : AttrLog α).Ascending := List.Pairwise.nil

theorem Ascending.pairwise_upTo (ha : log.Ascending) (version : Nat) :
    (upTo version log.entries).Pairwise fun newer older => older.1 < newer.1 :=
  (ascending_iff.mp ha).sublist (List.dropWhile_sublist _)

theorem Ascending.le_of_mem_upTo {entry : Nat × α} (ha : log.Ascending)
    (h : entry ∈ upTo version log.entries) : entry.1 ≤ version := by
  have hends : ∀ first ∈ (upTo version log.entries).head?, first.1 ≤ version := endsBy_upTo
  have hkept := ha.pairwise_upTo version
  cases hentries : upTo version log.entries with
  | nil =>
      rw [hentries] at h
      cases h
  | cons first rest =>
      rw [hentries] at h hends hkept
      have hfirst : first.1 ≤ version := hends first rfl
      cases h with
      | head => exact hfirst
      | tail _ h => exact Nat.le_trans (Nat.le_of_lt (List.rel_of_pairwise_cons hkept h)) hfirst

theorem Ascending.truncateAfter (ha : log.Ascending) : (log.truncateAfter version).Ascending :=
  ascending_iff.mpr (ha.pairwise_upTo version)

theorem Ascending.record [DecidableEq α] (ha : log.Ascending) : (log.record version value).Ascending := by
  have hkept := ha.pairwise_upTo version
  have hle : ∀ entry ∈ upTo version log.entries, entry.1 ≤ version := fun _ => ha.le_of_mem_upTo
  rw [ascending_iff, AttrLog.record]
  split
  · exact List.pairwise_singleton _ _
  · rename_i last old rest hentries
    rw [hentries] at hkept hle
    obtain ⟨hlast, hrest⟩ := List.pairwise_cons.mp hkept
    split
    · rename_i heq
      subst heq
      exact List.pairwise_cons.mpr ⟨hlast, hrest⟩
    · rename_i hne
      split
      · exact hkept
      · have hlt : last < version := Nat.lt_of_le_of_ne (hle _ List.mem_cons_self) hne
        refine List.pairwise_cons.mpr ⟨?_, hkept⟩
        intro entry hentry
        cases hentry with
        | head => exact hlt
        | tail _ hentry => exact Nat.lt_trans (hlast entry hentry) hlt

theorem Ascending.write [DecidableEq α] (ha : log.Ascending) (writing : Writing α) :
    (writing.write log).Ascending := by
  cases writing with
  | record version value => exact ha.record
  | truncateAfter version => exact ha.truncateAfter

theorem ascending_writings [DecidableEq α] (writings : List (Writing α)) (ha : log.Ascending) :
    (writings.foldl Writing.write log).Ascending := by
  induction writings generalizing log with
  | nil => exact ha
  | cons writing rest ih => exact ih (ha.write writing)

-- The place that a search for a version looks for among the entries.
structure Parts (log : AttrLog α) (version count : Nat) : Prop where
  within : count ≤ log.size
  before : ∀ entry ∈ log.oldestFirst.take count, entry.1 ≤ version
  behind : ∀ entry ∈ log.oldestFirst.drop count, version < entry.1

-- All entries up to the version stand before the newer ones, however the place
-- between them is found.
theorem Parts.oldestFirst_truncateAfter (hp : log.Parts version count) :
    (log.truncateAfter version).oldestFirst = log.oldestFirst.take count := by
  have hsplit : log.entries =
      (log.oldestFirst.drop count).reverse ++ (log.oldestFirst.take count).reverse := by
    rw [← List.reverse_append, List.take_append_drop, oldestFirst, List.reverse_reverse]
  have hdrop : upTo version log.entries = (log.oldestFirst.take count).reverse := by
    rw [hsplit, upTo, List.dropWhile_append_of_pos]
    · cases hlast : (log.oldestFirst.take count).reverse with
      | nil => rfl
      | cons entry rest =>
          have hmem : entry ∈ log.oldestFirst.take count :=
            List.mem_reverse.mp (hlast ▸ List.mem_cons_self)
          rw [List.dropWhile_cons_of_neg]
          simpa using hp.before entry hmem
    · intro entry hentry
      exact decide_eq_true (hp.behind entry (List.mem_reverse.mp hentry))
  rw [AttrLog.truncateAfter, oldestFirst, hdrop, List.reverse_reverse]

theorem Parts.at?_eq (hp : log.Parts version count) :
    log.at? version = (log.oldestFirst.take count).getLast?.map (·.2) := by
  rw [← hp.oldestFirst_truncateAfter, oldestFirst, List.getLast?_reverse]
  rfl

theorem Parts.unique {other : Nat} (hp : log.Parts version count) (ho : log.Parts version other) :
    other = count := by
  have hlength := congrArg List.length (ho.oldestFirst_truncateAfter.symm.trans hp.oldestFirst_truncateAfter)
  have hsize : log.oldestFirst.length = log.size := List.length_reverse
  have hcount := hp.within
  have hother := ho.within
  rw [List.length_take, List.length_take, hsize] at hlength
  omega

-- In a log in order nothing newer stands before an older entry, so there is a place
-- that parts them.
theorem Ascending.exists_parts (ha : log.Ascending) (version : Nat) : ∃ count, log.Parts version count := by
  let newer (entry : Nat × α) : Bool := decide (version < entry.1)
  have hsplit : log.oldestFirst =
      (upTo version log.entries).reverse ++ (log.entries.takeWhile newer).reverse := by
    rw [← List.reverse_append, upTo, List.takeWhile_append_dropWhile, oldestFirst]
  refine ⟨(upTo version log.entries).length, (List.dropWhile_sublist _).length_le, ?_, ?_⟩
  · rw [hsplit, List.take_left' List.length_reverse]
    intro entry hentry
    exact ha.le_of_mem_upTo (List.mem_reverse.mp hentry)
  · rw [hsplit, List.drop_left' List.length_reverse]
    intro entry hentry
    have hnewer : newer entry := List.mem_takeWhile_imp (List.mem_reverse.mp hentry)
    exact of_decide_eq_true hnewer

-- Whether what a log holds at a version can be found by a search among its entries: there is
-- one place to find, and the entry before it is the one in effect.
structure Searchable (log : AttrLog α) : Prop where
  existsUnique_parts : ∀ version, ∃! count, log.Parts version count
  at?_eq : ∀ version count, log.Parts version count →
    log.at? version = (log.oldestFirst.take count).getLast?.map (·.2)

theorem Ascending.searchable (ha : log.Ascending) : log.Searchable where
  existsUnique_parts version := by
    obtain ⟨count, hp⟩ := ha.exists_parts version
    exact ⟨count, hp, fun _ ho => hp.unique ho⟩
  at?_eq _ _ hp := hp.at?_eq

-- Whatever is written to a log, in any order of versions, it says of every version what the
-- function of versions says that was altered in the same way, and its entries stay in order.
theorem follows_course [DecidableEq α] (writings : List (Writing α)) :
    let log := writings.foldl Writing.write empty
    (∀ version, log.at? version = writings.foldl Writing.alter Course.nowhere version) ∧
      log.Ascending ∧ log.Searchable := by
  intro log
  have hascending : log.Ascending := ascending_writings writings ascending_empty
  have hcourse : writings.foldl Writing.alter Course.nowhere = log.course := by
    rw [← course_empty]
    exact List.foldl_hom course fun _ writing => (course_write writing).symm
  exact ⟨fun version => (congrFun hcourse version).symm, hascending, hascending.searchable⟩

example :
    let log := [Writing.record 1 'x', .record 4 'y', .truncateAfter 3, .record 2 'z', .record 9 'z'].foldl
      Writing.write empty
    (log.at? 0, log.at? 1, log.at? 7) = (none, some 'x', some 'z') ∧ log.size = 2 := by
  decide

end

end AttrLog

end IncrementalLR
