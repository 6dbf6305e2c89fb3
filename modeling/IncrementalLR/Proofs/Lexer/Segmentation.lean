import IncrementalLR.Diagnostic.SyntaxError
import IncrementalLR.Lexer.Basic
import Mathlib.Data.List.Chain

namespace IncrementalLR

open Text

namespace Lexer

variable {rules : List LexRule} {text : List Char} {rule : LexRule} {length place : Nat}

-- Whether no rule matches at the start of a text.
def Unmatched (rules : List LexRule) (text : List Char) : Prop := ∀ rule ∈ rules, rule.matchLength? text = none

-- Whether a rule is the first one of those that have the longest match of a text.
def Wins (rules : List LexRule) (text : List Char) (rule : LexRule) (length : Nat) : Prop :=
  ∃ before after, rules = before ++ rule :: after ∧ rule.matchLength? text = some length ∧
    (∀ other ∈ before, ∀ shorter, other.matchLength? text = some shorter → shorter < length) ∧
    ∀ other ∈ after, ∀ shorter, other.matchLength? text = some shorter → shorter ≤ length

section Longest

theorem Wins.matchLength (hw : Wins rules text rule length) : rule.matchLength? text = some length := by
  obtain ⟨_, _, _, h, _⟩ := hw
  exact h

theorem Wins.mem (hw : Wins rules text rule length) : rule ∈ rules := by
  obtain ⟨_, _, rfl, _⟩ := hw
  simp

theorem Wins.not_unmatched (hw : Wins rules text rule length) : ¬ Unmatched rules text := fun h => by
  have hnone := h rule hw.mem
  rw [hw.matchLength] at hnone
  cases hnone

theorem longest?_eq_none_iff : longest? text rules = none ↔ Unmatched rules text := by
  induction rules with
  | nil => simp [longest?, Unmatched]
  | cons first rest ih =>
      unfold longest?
      split
      · rename_i hfirst
        rw [ih]
        simp [Unmatched, hfirst]
      · rename_i hfirst _
        simp [Unmatched, hfirst]
      · rename_i hfirst _
        refine iff_of_false (by split <;> simp) fun h => ?_
        rw [h first (by simp)] at hfirst
        cases hfirst

theorem wins_of_longest? (h : longest? text rules = some (rule, length)) : Wins rules text rule length := by
  induction rules generalizing rule length with
  | nil => cases h
  | cons first rest ih =>
      unfold longest? at h
      split at h
      · rename_i hfirst
        obtain ⟨before, after, rfl, hrule, hbefore, hafter⟩ := ih h
        refine ⟨first :: before, after, rfl, hrule, fun other ho shorter hs => ?_, hafter⟩
        rcases List.mem_cons.mp ho with rfl | ho
        · rw [hfirst] at hs
          cases hs
        · exact hbefore other ho shorter hs
      · rename_i hfirst hrest
        obtain ⟨rfl, rfl⟩ := Prod.mk.inj (Option.some.inj h)
        refine ⟨[], rest, rfl, hfirst, by simp, fun other ho shorter hs => ?_⟩
        rw [longest?_eq_none_iff.mp hrest other ho] at hs
        cases hs
      · rename_i firstLength other otherLength hfirst hrest
        obtain ⟨before, after, hsplit, hother, hbefore, hafter⟩ := ih hrest
        split at h
        · rename_i hlt
          obtain ⟨rfl, rfl⟩ := Prod.mk.inj (Option.some.inj h)
          refine ⟨first :: before, after, by rw [hsplit]; rfl, hother, fun rival hr shorter hs => ?_, hafter⟩
          rcases List.mem_cons.mp hr with rfl | hr
          · exact Option.some.inj (hfirst.symm.trans hs) ▸ hlt
          · exact hbefore rival hr shorter hs
        · rename_i hge
          obtain ⟨rfl, rfl⟩ := Prod.mk.inj (Option.some.inj h)
          refine ⟨[], rest, rfl, hfirst, by simp, fun rival hr shorter hs => ?_⟩
          rw [hsplit, List.mem_append, List.mem_cons] at hr
          rcases hr with hr | rfl | hr
          · have := hbefore rival hr shorter hs
            omega
          · have := Option.some.inj (hother.symm.trans hs)
            omega
          · have := hafter rival hr shorter hs
            omega

end Longest

-- The tokens of a text from some place on: the rule with the longest match takes what it
-- matches, and characters go together where none matches.
inductive Segments (rules : List LexRule) : Nat → List Char → List Token → Prop where
  | done {place : Nat} : Segments rules place [] []
  | matched {place : Nat} {body rest : List Char} {rule : LexRule} {tokens : List Token} :
      Wins rules (body ++ rest) rule body.length →
      Segments rules (place + byteLength body) rest tokens →
      Segments rules place (body ++ rest)
        (.matched rule.name (String.ofList body) place (place + byteLength body) :: tokens)
  | unmatched {place : Nat} {body rest : List Char} {tokens : List Token} :
      body ≠ [] → (∀ front back, body = front ++ back → back ≠ [] → Unmatched rules (back ++ rest)) →
      (rest = [] ∨ ¬ Unmatched rules rest) →
      Segments rules (place + byteLength body) rest tokens →
      Segments rules place (body ++ rest)
        (.unmatched (String.ofList body) place (place + byteLength body) :: tokens)

-- What was skipped goes before the tokens of the rest, if there is anything.
theorem Segments.skipped {skipped rest : List Char} {tokens : List Token}
    (hs : ∀ front back, skipped = front ++ back → back ≠ [] → Unmatched rules (back ++ rest))
    (hrest : rest = [] ∨ ¬ Unmatched rules rest)
    (h : Segments rules (place + byteLength skipped) rest tokens) :
    Segments rules place (skipped ++ rest) (skippedToken skipped (place + byteLength skipped) ++ tokens) := by
  unfold skippedToken
  split
  · rename_i he
    obtain rfl := List.isEmpty_iff.mp he
    exact h
  · rename_i hne
    rw [Nat.add_sub_cancel]
    exact .unmatched (fun he => hne (List.isEmpty_iff.mpr he)) hs hrest h

-- A longest match splits the text behind it.
theorem append_of_longest? {c : Char} {rest : List Char}
    (h : longest? (c :: rest) rules = some (rule, length)) :
    c :: rest = (c :: rest.take (length - 1)) ++ rest.drop (length - 1) ∧
      (c :: rest.take (length - 1)).length = length := by
  have hmatch := (wins_of_longest? h).matchLength
  have hpos := rule.matcher.length_pos hmatch
  have hle := rule.matcher.length_le hmatch
  simp only [List.length_cons] at hle
  refine ⟨by rw [List.cons_append, List.take_append_drop], ?_⟩
  rw [List.length_cons, List.length_take]
  omega

theorem segments_scan (text skipped : List Char)
    (hs : ∀ front back, skipped = front ++ back → back ≠ [] → Unmatched rules (back ++ text)) :
    Segments rules place (skipped ++ text) (scan rules (place + byteLength skipped) skipped text) := by
  generalize hstart : place + byteLength skipped = start
  induction start, skipped, text using scan.induct rules generalizing place with
  | case1 start skipped =>
      rw [scan, ← hstart]
      simpa using Segments.skipped hs (Or.inl rfl) .done
  | case2 start skipped c rest hlongest ih =>
      have hstep : scan rules start skipped (c :: rest) = scan rules (start + c.utf8Size) (skipped ++ [c]) rest := by
        rw [scan]
        simp only [hlongest]
      rw [hstep, List.append_cons]
      refine ih (fun front back hsplit hne => ?_) (by simp only [byteLength_append, byteLength]; omega)
      -- the skipped characters from some place on are the last one and some before it
      obtain ⟨last, hlast⟩ : ∃ last, back = last ++ [c] ∧ skipped = front ++ last := by
        rcases List.eq_nil_or_concat back with rfl | ⟨last, d, rfl⟩
        · exact absurd rfl hne
        · rw [List.concat_eq_append, ← List.append_assoc] at hsplit
          obtain ⟨hfront, hd⟩ := List.append_inj' hsplit rfl
          exact ⟨last, by rw [List.concat_eq_append, List.singleton_inj.mp hd], hfront⟩
      obtain ⟨rfl, hfront⟩ := hlast
      rw [List.append_assoc, List.singleton_append]
      by_cases hnil : last = []
      · subst hnil
        exact longest?_eq_none_iff.mp hlongest
      · exact hs front last hfront hnil
  | case3 start skipped c rest rule length hlongest body stop =>
      rename_i ih
      have hwins := wins_of_longest? hlongest
      obtain ⟨hsplit, hlength⟩ := append_of_longest? hlongest
      have hstep : scan rules start skipped (c :: rest) = skippedToken skipped start ++
          .matched rule.name (String.ofList body) start (start + byteLength body) ::
            scan rules (start + byteLength body) [] (rest.drop (length - 1)) := by
        rw [scan]
        simp only [hlongest]
        rfl
      have htail : Segments rules (start + byteLength body) (rest.drop (length - 1))
          (scan rules (start + byteLength body) [] (rest.drop (length - 1))) := ih (by simp) rfl
      rw [hstep, ← hstart]
      refine Segments.skipped hs (Or.inr hwins.not_unmatched) ?_
      rw [hstart, hsplit]
      refine .matched ?_ htail
      rwa [← hsplit, hlength]

-- The maximal-munch segmentation of a text from some place on. Each token of a rule is
-- the longest match of the text behind its start, by the first rule that has it. The
-- other tokens are the maximal runs of places where no rule matches: such a run ends
-- where a rule matches again, and begins where the token of a rule ends. Within the token
-- of a rule no rule is tried.
structure Segmentation (rules : List LexRule) (text : String) (place : Nat) (tokens : List Token) : Prop where
  nonempty : ∀ token ∈ tokens, token.start < token.stop
  adjacent : tokens.IsChain fun left right => left.stop = right.start
  first : ∀ token ∈ tokens.head?, token.start = place
  last : (tokens.getLast?.map (·.stop)).getD place = byteLength text.toList
  slice : ∀ token ∈ tokens, sliceBytes? text token.start token.stop = some token.text
  origin : ∀ token ∈ tokens, token.origin = .matched ∨ token.origin = .unmatched
  matched : ∀ token ∈ tokens, token.origin = .matched → ∃ front rest, text.toList = front ++ rest ∧
    byteLength front = token.start ∧ ∃ rule length, Wins rules rest rule length ∧
      token.rule = rule.name ∧ token.text = String.ofList (rest.take length)
  unmatched : ∀ token ∈ tokens, token.origin = .unmatched → token.rule = none ∧
    ∀ front rest, text.toList = front ++ rest → token.start ≤ byteLength front → byteLength front < token.stop →
      Unmatched rules rest
  until_match : ∀ token ∈ tokens, token.origin = .unmatched → ∀ front rest, text.toList = front ++ rest →
    byteLength front = token.stop → rest = [] ∨ ¬ Unmatched rules rest
  since_match : tokens.IsChain fun left right => right.origin = .unmatched → left.origin = .matched

section Places

variable {front body rest : List Char}

-- A place of a text is known by its offset.
theorem append_inj_of_byteLength {other others : List Char} (h : front ++ rest = other ++ others)
    (hlength : byteLength front = byteLength other) : rest = others := by
  have hothers : dropBytes? (byteLength other) (other ++ others) = some others := dropBytes?_append other others
  rw [← h, ← hlength, dropBytes?_append] at hothers
  exact Option.some.inj hothers

theorem exists_append_of_within {before after : List Char} (h : front ++ (body ++ rest) = before ++ after)
    (hle : byteLength front ≤ byteLength before) (hlt : byteLength before < byteLength (front ++ body)) :
    ∃ left right, body = left ++ right ∧ right ≠ [] ∧ after = right ++ rest := by
  rcases List.append_eq_append_iff.mp h with ⟨left, rfl, hsplit⟩ | ⟨more, rfl, rfl⟩
  · rcases List.append_eq_append_iff.mp hsplit with ⟨more, rfl, rfl⟩ | ⟨right, rfl, rfl⟩
    · simp only [byteLength_append] at hlt
      omega
    · refine ⟨left, right, rfl, ?_, rfl⟩
      rintro rfl
      simp at hlt
  · rw [byteLength_append] at hle
    have hmore : more = [] := byteLength_eq_zero_iff.mp (by omega)
    subst hmore
    refine ⟨[], body, rfl, ?_, rfl⟩
    rintro rfl
    simp at hlt

end Places

-- Behind the place where a run ends there is the token of a rule.
theorem Segments.origin_head {tokens : List Token} (h : Segments rules place text tokens)
    (htext : text = [] ∨ ¬ Unmatched rules text) : ∀ token ∈ tokens.head?, token.origin = .matched := by
  cases h with
  | done => simp
  | matched hwins hrest =>
      rintro _ ⟨⟩
      rfl
  | unmatched hne hnone _ _ =>
      have hunmatched := hnone [] _ rfl hne
      rcases htext with htext | htext
      · exact absurd (List.append_eq_nil_iff.mp htext).1 hne
      · exact absurd hunmatched htext

section Cons

variable {front body rest : List Char} {token : Token} {tokens : List Token}

-- What is asked of the first token of a segmentation: the token of a rule, or a run that
-- ends where the next rule matches.
def Leads (rules : List LexRule) (body rest : List Char) (tokens : List Token) (token : Token) : Prop :=
  token.origin = .matched ∧ (∃ rule, Wins rules (body ++ rest) rule body.length ∧ token.rule = rule.name) ∨
    token.origin = .unmatched ∧ token.rule = none ∧
      (∀ left right, body = left ++ right → right ≠ [] → Unmatched rules (right ++ rest)) ∧
      (rest = [] ∨ ¬ Unmatched rules rest) ∧ ∀ next ∈ tokens.head?, next.origin = .matched

theorem Segmentation.cons
    (h : Segmentation rules (String.ofList (front ++ (body ++ rest))) (byteLength (front ++ body)) tokens)
    (hbody : body ≠ []) (hstart : token.start = byteLength front) (hstop : token.stop = byteLength (front ++ body))
    (htext : token.text = String.ofList body) (hleads : Leads rules body rest tokens token) :
    Segmentation rules (String.ofList (front ++ (body ++ rest))) (byteLength front) (token :: tokens) := by
  have hpos : 0 < byteLength body := Nat.pos_of_ne_zero (mt byteLength_eq_zero_iff.mp hbody)
  constructor
  case nonempty =>
    refine List.forall_mem_cons.mpr ⟨?_, h.nonempty⟩
    rw [hstart, hstop, byteLength_append]
    omega
  case adjacent => exact List.isChain_cons.mpr ⟨fun next hn => by rw [hstop, h.first next hn], h.adjacent⟩
  case first => rintro _ ⟨⟩; exact hstart
  case last =>
    rw [← h.last, List.getLast?_cons]
    cases tokens.getLast? with
    | none => exact hstop
    | some last => rfl
  case slice =>
    refine List.forall_mem_cons.mpr ⟨?_, h.slice⟩
    rw [hstart, hstop, htext, ← List.append_assoc]
    exact sliceBytes?_append front body rest
  case origin => exact List.forall_mem_cons.mpr ⟨hleads.imp (·.1) (·.1), h.origin⟩
  case matched =>
    refine List.forall_mem_cons.mpr ⟨fun ho => ?_, h.matched⟩
    rcases hleads with ⟨-, rule, hwins, hname⟩ | ⟨hu, -⟩
    · refine ⟨front, body ++ rest, String.toList_ofList, hstart.symm, rule, body.length, hwins, hname, ?_⟩
      rw [htext, List.take_left]
    · rw [ho] at hu
      cases hu
  case unmatched =>
    refine List.forall_mem_cons.mpr ⟨fun ho => ?_, h.unmatched⟩
    rcases hleads with ⟨hm, -⟩ | ⟨-, hname, hnone, -⟩
    · rw [ho] at hm
      cases hm
    · refine ⟨hname, fun before after hsplit hle hlt => ?_⟩
      rw [String.toList_ofList] at hsplit
      obtain ⟨left, right, hbody, hne, rfl⟩ := exists_append_of_within hsplit (hstart ▸ hle) (hstop ▸ hlt)
      exact hnone left right hbody hne
  case until_match =>
    refine List.forall_mem_cons.mpr ⟨fun ho before after hsplit hlength => ?_, h.until_match⟩
    rcases hleads with ⟨hm, -⟩ | ⟨-, -, -, hrest, -⟩
    · rw [ho] at hm
      cases hm
    · rw [String.toList_ofList, ← List.append_assoc] at hsplit
      rwa [← append_inj_of_byteLength hsplit (hstop ▸ hlength).symm]
  case since_match =>
    refine List.isChain_cons.mpr ⟨fun next hn ho => ?_, h.since_match⟩
    rcases hleads with ⟨hm, -⟩ | ⟨-, -, -, -, hnext⟩
    · exact hm
    · rw [hnext next hn] at ho
      cases ho

end Cons

-- The tokens of a text behind a front are a segmentation from the end of the front on.
theorem segmentation_of_segments {front : List Char} {tokens : List Token}
    (h : Segments rules place text tokens) (hplace : byteLength front = place) :
    Segmentation rules (String.ofList (front ++ text)) place tokens := by
  induction h generalizing front with
  | done => constructor <;> simp [← hplace]
  | matched hwins hrest ih =>
      rename_i start body rest rule tokens
      subst hplace
      have hstop : byteLength (front ++ body) = byteLength front + byteLength body := byteLength_append ..
      have htail := ih hstop
      rw [← hstop, List.append_assoc] at htail
      refine htail.cons ?_ rfl hstop.symm rfl (Or.inl ⟨rfl, rule, hwins, rfl⟩)
      exact List.ne_nil_of_length_pos (rule.matcher.length_pos hwins.matchLength)
  | unmatched hbody hnone hmatch hrest ih =>
      rename_i start body rest tokens
      subst hplace
      have hstop : byteLength (front ++ body) = byteLength front + byteLength body := byteLength_append ..
      have htail := ih hstop
      rw [← hstop, List.append_assoc] at htail
      exact htail.cons hbody rfl hstop.symm rfl (Or.inr ⟨rfl, rfl, hnone, hmatch, hrest.origin_head hmatch⟩)

-- The tokens of a text are its segmentation, and the errors are its unmatched runs.
theorem segmentation_tokenizeFragment (lexer : Lexer) (text : String) :
    Segmentation lexer.rules text 0 (lexer.tokenizeFragment text).tokens ∧
      (lexer.tokenizeFragment text).errors =
        ((lexer.tokenizeFragment text).tokens.filter (·.origin = .unmatched)).map fun token =>
          ⟨token.start, token.stop, token.text⟩ := by
  constructor
  · have hsegments : Segments lexer.rules 0 text.toList (scan lexer.rules 0 [] text.toList) :=
      segments_scan text.toList [] (by simp)
    have h : Segmentation lexer.rules (String.ofList ([] ++ text.toList)) 0 _ :=
      segmentation_of_segments hsegments rfl
    rwa [List.nil_append, String.ofList_toList] at h
  · rw [← List.filterMap_eq_map, List.filterMap_filter]
    refine List.filterMap_congr fun token _ => ?_
    simp [errorOf]

-- The longest match wins over an earlier rule, and what no rule matches goes together.
example : (tokenizeFragment
      ⟨[⟨some "IF", .literal "if".toList⟩, ⟨some "IFFY", .literal "iffy".toList⟩], false⟩ "iffy§+if").tokens =
    [.matched (some "IFFY") "iffy" 0 4, .unmatched "§+" 4 7, .matched (some "IF") "if" 7 9] := by
  decide +kernel

end Lexer

end IncrementalLR
