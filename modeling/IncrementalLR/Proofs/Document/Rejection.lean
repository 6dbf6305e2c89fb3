import IncrementalLR.Proofs.Document.Acts
import IncrementalLR.Proofs.Document.Session

namespace IncrementalLR

-- What a store comes to by steps that use only what exists at the time.
inductive Store.Leads : List Act → Store → Store → Prop where
  | refl {store : Store} : Leads [] store store
  | step {act : Act} {acts : List Act} {store middle last : Store} :
      act.Allowed store → act.run store = some middle → Leads acts middle last → Leads (act :: acts) store last

namespace Store.Leads

variable {acts : List Act} {store other last : Store}

theorem coherent (hl : Leads acts store last) (hc : store.Coherent) : last.Coherent := by
  induction hl with
  | refl => exact hc
  | step ha hrun _ ih => exact ih (Act.run_coherent hc ha hrun)

theorem twins (hl : Leads acts store last) (ht : store.Twins other) (hc : store.Coherent) (hother : other.Coherent) :
    ∃ last', Leads acts other last' ∧ last.Twins last' ∧ last'.Coherent := by
  induction hl generalizing other with
  | refl => exact ⟨other, .refl, ht, hother⟩
  | step ha hrun _ ih =>
      obtain ⟨middle', hrun', htwins⟩ := Act.run_twins ht hc hother ha hrun
      have hallowed := Act.allowed_congr ht ha
      obtain ⟨last', hlast, hrest⟩ := ih htwins (Act.run_coherent hc ha hrun) (Act.run_coherent hother hallowed hrun')
      exact ⟨last', .step hallowed hrun' hlast, hrest⟩

end Store.Leads

namespace Document

variable {store after : Store} {parser parser' : Parser} {document : Document} {reparse : Bool} {fuel : Nat}
  {status : Except Fault ParseStatus}

-- A parse that is not accepted leaves all nodes as they were. Where only what exists is
-- used, whatever is done later comes to the same as if it had not been tried.
theorem parse_rejected_unnoticed
    (hp : parser.parse fuel store document reparse = some (parser', after, status)) (hstatus : status ≠ .ok .accepted) :
    (after.size = store.size ∧ after.version = store.version ∧ after.newest = store.newest ∧
      ∀ id, (after.node id).unmarked = (store.node id).unmarked) ∧
    ∀ acts, Store.Leads acts .empty store → document.Within store.Known →
      ∀ later last, Store.Leads later store last → ∃ last', Store.Leads later after last' ∧
        last'.commit = last.commit ∧ ∀ version, last'.restore? version = last.restore? version := by
  constructor
  · have hr := ((Parser.parse_remarks (Store.closed_all store) (Document.within_all _) hp).resolve_left
      fun h => hstatus h.1).2
    exact ⟨hr.size, hr.alike.version, hr.alike.newest, hr.unmarked⟩
  · intro acts hs hd later last hl
    have hc := hs.coherent Store.coherent_empty
    have hr := ((Parser.parse_remarks hc.closed hd hp).resolve_left fun h => hstatus h.1).2
    obtain ⟨last', hlast, htwins, hcoherent⟩ := hl.twins hr.twins hc (hc.remarked hr)
    exact ⟨last', hlast, htwins.commit (hl.coherent hc) hcoherent, fun version => htwins.restore?⟩

-- Once a version has been gone back to where the word was none, the parse is rejected
-- at its last token.
theorem parse_rejected_unnoticed_crossed :
    ∃ acts store parser' after, Store.Leads acts .empty store ∧ Document.crossed.2.Within store.Known ∧
      Parser.crossed.parse 100 store Document.crossed.2 false = some (parser', after, .ok (.rejected 4)) ∧
      (after.size = store.size ∧ after.version = store.version ∧ after.newest = store.newest ∧
        ∀ id, (after.node id).unmarked = (store.node id).unmarked) ∧
      ∀ later last, Store.Leads later store last → ∃ last', Store.Leads later after last' ∧
        last'.commit = last.commit ∧ ∀ version, last'.restore? version = last.restore? version := by
  let wrong := (replaceToken Document.crossed.1 4 none "x").commit
  let right := replaceToken wrong 4 none "d"
  have hsteps : ((Document.crossed.2.undoTo? right 1).bind fun store =>
      (Parser.crossed.parse 100 store Document.crossed.2 false).map fun result =>
        (result.2.2, decide (store.Known 5 ∧ store.Known 0 ∧ store.Known 1))) = some (.ok (.rejected 4), true) := by
    decide +kernel
  obtain ⟨store, hundo, hrest⟩ := Option.bind_eq_some_iff.mp hsteps
  obtain ⟨⟨parser', after, status⟩, hp, hresult⟩ := Option.map_eq_some_iff.mp hrest
  obtain ⟨rfl, hknown⟩ := Prod.mk.inj hresult
  obtain ⟨hroot, hbos, heos⟩ := of_decide_eq_true hknown
  have hwithin : Document.crossed.2.Within store.Known := ⟨hroot, hbos, heos⟩
  have hleads : Store.Leads [.edit (.create Token.crossed), .edit (.replace 4 none "x"), .commit,
      .edit (.replace 4 none "d"), .undo Document.crossed.2 1] .empty store := by
    refine .step trivial rfl (.step ?_ rfl (.step trivial rfl (.step ?_ rfl (.step trivial ?_ .refl))))
    · exact (by decide +kernel : Document.crossed.1.Known 4)
    · exact (by decide +kernel : wrong.Known 4)
    · exact congrArg (fun result => some (result.getD right)) hundo
  have hunnoticed := parse_rejected_unnoticed hp nofun
  exact ⟨_, store, parser', after, hleads, hwithin, hp, hunnoticed.1, hunnoticed.2 _ hleads hwithin⟩

end Document

-- A grammar where the words of one production go on, without their second token, like
-- those of another.
def Declarations.skipped : Declarations := {
  start := none
  rules := [
    ("S", ⟨[.terminal "t", .terminal "x", .nonterminal "Y"], none, none⟩),
    ("S", ⟨[.terminal "t", .nonterminal "Y", .terminal "q"], none, none⟩),
    ("Y", ⟨[.terminal "y", .terminal "z"], none, none⟩)]
  precedences := [] }

def Rules.skipped : Rules := {
  symbols := #[.finish, .epsilon, .nonterminal "S", .terminal "t", .terminal "x", .nonterminal "Y",
    .terminal "q", .terminal "y", .terminal "z"]
  productions := #[⟨none, [2], none, none⟩, ⟨some 2, [3, 4, 5], none, none⟩, ⟨some 2, [3, 5, 6], none, none⟩,
    ⟨some 5, [7, 8], none, none⟩]
  start := 2
  precedences := Array.replicate 9 none }

theorem built_skipped : Rules.skipped.toGrammar.Built :=
  .declared (show Declarations.skipped.build = .ok Rules.skipped.toGrammar from rfl)

def Parser.skipped : Parser := .ofTable (.ofGrammar Rules.skipped.toGrammar .lr1) [] true false

def Document.skipped : Document := (Document.ofTokens .empty [.matched none "t" 0 1]).2

-- A token is removed that was put in after the version of the store, and with it a link
-- leads from the document to what does not exist in it any more.
def Act.skipped : List Act := [
  .edit (.create [.matched none "t" 0 1]),
  .edit (.insert Document.skipped 2 (.matched none "x" 1 2)),
  .edit (.insert Document.skipped 4 (.matched none "y" 2 3)),
  .edit (.insert Document.skipped 5 (.matched none "z" 3 4)),
  .edit (.parse Parser.skipped 100 Document.skipped false),
  .undo Document.skipped 0,
  .edit (.remove Document.skipped 4)]

-- Without regard to what exists, a parse that is not accepted may be noticed: the last
-- token is recorded by the next commit only if it has been tried.
theorem Document.parse_rejected_noticed_skipped :
    Rules.skipped.toGrammar.Built ∧
      ∃ store parser' after, Act.skipped.foldlM Act.run Store.empty = some store ∧
        Document.skipped.Within store.Known ∧
        Parser.skipped.parse 100 store Document.skipped false = some (parser', after, .ok (.rejected 1)) ∧
        (store.commit.node 6).history.deleted.at? 1 = none ∧
        (after.commit.node 6).history.deleted.at? 1 = some true := by
  have hsteps : ((Act.skipped.foldlM Act.run Store.empty).bind fun store =>
      (Parser.skipped.parse 100 store Document.skipped false).map fun result =>
        (result.2.2, decide (store.Known 3 ∧ store.Known 0 ∧ store.Known 1),
          (store.commit.node 6).history.deleted.at? 1, (result.2.1.commit.node 6).history.deleted.at? 1)) =
      some (.ok (.rejected 1), true, none, some true) := by
    decide +kernel
  obtain ⟨store, hrun, hrest⟩ := Option.bind_eq_some_iff.mp hsteps
  obtain ⟨⟨parser', after, status⟩, hp, hresult⟩ := Option.map_eq_some_iff.mp hrest
  simp only [Prod.mk.injEq] at hresult
  obtain ⟨rfl, hknown, hwithout, hwith⟩ := hresult
  obtain ⟨hroot, hbos, heos⟩ := of_decide_eq_true hknown
  exact ⟨built_skipped, store, parser', after, hrun, ⟨hroot, hbos, heos⟩, hp, hwithout, hwith⟩

end IncrementalLR
