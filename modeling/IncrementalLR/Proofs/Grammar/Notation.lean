import IncrementalLR.Proofs.Grammar.Whitespace
import Mathlib.Data.List.Infix
import Mathlib.Data.List.TakeWhile

namespace IncrementalLR

namespace Text

section Characters

variable {c : Char}

theorem mem_of_inRanges {ranges : List (Nat × Nat)} {code : Nat} (h : inRanges ranges code = true) :
    code ∈ ranges.flatMap fun (low, high) => List.range' low (high + 1 - low) := by
  induction ranges with
  | nil => cases h
  | cons range rest ih =>
      simp only [inRanges, Bool.and_eq_true, decide_eq_true_eq, Bool.or_eq_true] at h
      rw [List.flatMap_cons, List.mem_append]
      by_cases hhigh : code ≤ range.2
      · exact Or.inl (List.mem_range'_1.mpr (by omega))
      · exact Or.inr (ih (h.2.resolve_left hhigh))

-- No blank is a letter, a digit or an underscore.
theorem not_isBlank_of_isNameChar (h : isNameChar c = true) : isBlank c = false := by
  have hcodes : ∀ code ∈ blankRanges.flatMap fun (low, high) => List.range' low (high + 1 - low),
      (inRanges alphabeticRanges code || inRanges numericRanges code || code == '_'.toNat) = false := by
    decide +kernel
  rw [← Bool.not_eq_true]
  intro hb
  have hcode := hcodes _ (mem_of_inRanges hb)
  simp only [Bool.or_eq_false_iff, beq_eq_false_iff_ne] at hcode
  simp only [isNameChar, isAlphabetic, isNumeric, hcode.1, Bool.or_false, Bool.false_or, beq_iff_eq] at h
  exact hcode.2 (congrArg Char.toNat h)

-- The characters that mean something else in a grammar.
def signs : List Char := [':', '%', '|', ';', '"', '<', '>', '\x7b', '\x7d', '[', ']', '(', ')']

theorem not_mem_signs_of_isNameChar (h : isNameChar c = true) : c ∉ signs := by
  have hsigns : signs.all (!isNameChar ·) = true := by decide
  intro hs
  have hc := List.all_eq_true.mp hsigns c hs
  rw [h] at hc
  cases hc

theorem not_isBlank_of_mem_signs (h : c ∈ signs) : isBlank c = false := by
  have hsigns : signs.all (!isBlank ·) = true := by decide
  simpa using List.all_eq_true.mp hsigns c h

end Characters

-- A nonempty run of the characters of names.
def IsName (text : List Char) : Prop := text ≠ [] ∧ ∀ c ∈ text, isNameChar c = true

theorem isName_of_all {text : List Char} (h : (!text.isEmpty && text.all isNameChar) = true) : IsName text := by
  simpa [IsName] using h

section Trim

variable {c : Char} {text : List Char}

theorem mem_trim (hc : isBlank c = false) : c ∈ trim text ↔ c ∈ text := by
  have hdrop (text : List Char) : c ∈ text.dropWhile isBlank ↔ c ∈ text := by
    conv_rhs => rw [← List.takeWhile_append_dropWhile (p := isBlank) (l := text), List.mem_append]
    refine (or_iff_right fun h => ?_).symm
    rw [List.mem_takeWhile_imp h] at hc
    cases hc
  rw [trim, trimRight, List.mem_reverse, hdrop, List.mem_reverse, trimLeft, hdrop]

theorem trimRight_concat (hc : isBlank c = true) : trimRight (text ++ [c]) = trimRight text := by
  simp [trimRight, hc]

theorem trim_concat (hc : isBlank c = true) : trim (text ++ [c]) = trim text := by
  rw [trim, trim, trimLeft, List.dropWhile_append]
  split
  · rename_i h
    rw [trimLeft, List.isEmpty_iff.mp h]
    simp [hc]
  · exact trimRight_concat hc

end Trim

section Lines

variable {body rest : List Char}

theorem linesWithEnds_line (h : '\n' ∉ body) :
    linesWithEnds (body ++ '\n' :: rest) = (body ++ ['\n']) :: linesWithEnds rest := by
  induction body with
  | nil => simp [linesWithEnds]
  | cons c body ih =>
      obtain ⟨hc, hbody⟩ := not_or.mp (mt List.mem_cons.mpr h)
      rw [List.cons_append, linesWithEnds, if_neg (Ne.symm hc), ih hbody]
      rfl

theorem linesWithEnds_last (h : '\n' ∉ body) (hne : body ≠ []) : linesWithEnds body = [body] := by
  induction body with
  | nil => exact absurd rfl hne
  | cons c body ih =>
      obtain ⟨hc, hbody⟩ := not_or.mp (mt List.mem_cons.mpr h)
      rw [linesWithEnds, if_neg (Ne.symm hc)]
      by_cases hnil : body = []
      · simp [hnil, linesWithEnds]
      · rw [ih hbody hnil]

-- Induction over the lines of a text, of which the last one has no line feed.
@[elab_as_elim]
theorem lineInduction {motive : List Char → Prop} (last : ∀ body, '\n' ∉ body → motive body)
    (line : ∀ body rest, '\n' ∉ body → motive rest → motive (body ++ '\n' :: rest)) (text : List Char) :
    motive text := by
  induction hn : text.length using Nat.strongRecOn generalizing text with
  | ind n ih =>
      by_cases h : '\n' ∈ text
      · obtain ⟨body, rest, rfl, hbody⟩ := List.eq_append_cons_of_mem h
        refine line body rest hbody (ih _ ?_ rest rfl)
        simp only [List.length_append, List.length_cons] at hn
        omega
      · exact last text h

theorem flatten_linesWithEnds (text : List Char) : (linesWithEnds text).flatten = text := by
  induction text with
  | nil => rfl
  | cons c rest ih =>
      unfold linesWithEnds
      split
      · rename_i hc
        rw [List.flatten_cons, ih, hc]
        rfl
      · split
        · rename_i hnil
          rw [hnil] at ih
          rw [← ih]
          rfl
        · rename_i line others hlines
          rw [hlines] at ih
          rw [← ih]
          rfl

end Lines

end Text

namespace Source

open Text

-- A text none of whose lines is the mark that ends the rules. Its first and its last line do not count,
-- which may go on outside of it.
def Unmarked (text : List Char) : Prop :=
  ∀ front body back, text = front ++ '\n' :: (body ++ '\n' :: back) → '\n' ∉ body → trim body ≠ ['%', '%']

section Unmarked

variable {front text back body rest : List Char}

theorem Unmarked.within (h : Unmarked text) {part : List Char} (hp : part <:+: text) : Unmarked part := by
  obtain ⟨before, after, rfl⟩ := hp
  rintro front body back rfl hbody
  exact h (before ++ front) body (back ++ after) (by simp) hbody

theorem unmarked_of_not_mem (h : '%' ∉ text) : Unmarked text := by
  rintro front body back rfl - htrim
  have hsign : '%' ∈ trim body := htrim ▸ List.mem_cons_self
  exact h (by simp [(mem_trim (not_isBlank_of_mem_signs (by decide))).mp hsign])

theorem append_cons_cases {α : Type} {left right before after : List α} {first second : α} (hne : first ≠ second)
    (h : left ++ first :: right = before ++ second :: after) :
    (∃ between, left = before ++ second :: between ∧ after = between ++ first :: right) ∨
      ∃ between, before = left ++ first :: between ∧ right = between ++ second :: after := by
  rcases List.append_eq_append_iff.mp h with ⟨between, rfl, hb⟩ | ⟨between, rfl, hb⟩
  · cases between with
    | nil => exact absurd (List.cons.inj hb).1 hne
    | cons other between =>
        obtain ⟨rfl, rfl⟩ := List.cons.inj hb
        exact Or.inr ⟨between, rfl, rfl⟩
  · cases between with
    | nil => exact absurd (List.cons.inj hb).1.symm hne
    | cons other between =>
        obtain ⟨rfl, rfl⟩ := List.cons.inj hb
        exact Or.inl ⟨between, rfl, rfl⟩

-- A sign that is no part of the mark keeps the lines before it and those behind it apart.
theorem Unmarked.append_cons {c : Char} (hf : Unmarked front) (hb : Unmarked back) (hblank : isBlank c = false)
    (hc : c ≠ '%') : Unmarked (front ++ c :: back) := by
  have hfeed : c ≠ '\n' := by
    rintro rfl
    exact absurd hblank (by decide)
  intro before body after h hbody htrim
  rcases append_cons_cases hfeed h with ⟨between, rfl, hline⟩ | ⟨between, -, rfl⟩
  · rcases append_cons_cases hfeed hline.symm with ⟨between, rfl, -⟩ | ⟨between, rfl, -⟩
    · exact hf before body between rfl hbody htrim
    · have hmem : c ∈ ['%', '%'] := htrim ▸ (mem_trim hblank).mpr (by simp)
      simp [hc] at hmem
  · exact hb between body after rfl hbody htrim

-- What stands before a text on its first line does not count.
theorem Unmarked.append (hf : '\n' ∉ front) (hb : Unmarked back) : Unmarked (front ++ back) := by
  intro before body after h
  rcases List.append_eq_append_iff.mp h with ⟨between, rfl, rfl⟩ | ⟨between, rfl, hline⟩
  · exact hb between body after rfl
  · cases between with
    | nil => exact hb [] body after hline.symm
    | cons c between =>
        obtain ⟨rfl, -⟩ := List.cons.inj hline
        simp at hf

theorem unmarked_line_iff (hbody : '\n' ∉ body) :
    Unmarked ('\n' :: (body ++ '\n' :: rest)) ↔ trim body ≠ ['%', '%'] ∧ Unmarked ('\n' :: rest) := by
  constructor
  · intro h
    exact ⟨h [] body rest rfl hbody, h.within ⟨'\n' :: body, [], by simp⟩⟩
  · rintro ⟨hmark, hrest⟩ before other after h hother
    cases before with
    | nil =>
        have hlines := congrArg linesWithEnds (List.cons.inj h).2
        rw [linesWithEnds_line hbody, linesWithEnds_line hother] at hlines
        exact (List.append_inj_left' (List.cons.inj hlines).1 rfl) ▸ hmark
    | cons c before =>
        obtain ⟨rfl, hlater⟩ := List.cons.inj h
        rcases List.append_eq_append_iff.mp hlater with ⟨between, -, hcut⟩ | ⟨between, rfl, hcut⟩
        · exact hrest between other after hcut hother
        · cases between with
          | nil => exact hrest [] other after hcut.symm hother
          | cons c between =>
              obtain ⟨rfl, -⟩ := List.cons.inj hcut
              simp at hbody

theorem unmarked_last (h : '\n' ∉ text) : Unmarked ('\n' :: text) := by
  intro before body after he
  cases before with
  | nil =>
      rw [(List.cons.inj he).2] at h
      simp at h
  | cons c before =>
      rw [(List.cons.inj he).2] at h
      simp at h

-- Where the rules of a text end, there has been no mark.
theorem unmarked_splitSections (text : List Char) :
    Unmarked ('\n' :: (splitSections (linesWithEnds text)).1.flatten) := by
  induction text using lineInduction with
  | last body hbody =>
      by_cases hnil : body = []
      · rw [hnil]
        exact unmarked_last (by simp [linesWithEnds, splitSections])
      · rw [linesWithEnds_last hbody hnil, splitSections]
        split
        · exact unmarked_last (by simp)
        · exact unmarked_last (by simpa [splitSections] using hbody)
  | line body rest hbody ih =>
      rw [linesWithEnds_line hbody, splitSections, trim_concat (by decide)]
      split
      · exact unmarked_last (by simp)
      · rename_i hmark
        have h := (unmarked_line_iff hbody).mpr ⟨hmark, ih⟩
        simpa using h

-- A text without a mark is all rules.
theorem splitSections_of_unmarked {text : List Char} (h : Unmarked ('\n' :: (text ++ ['\n']))) :
    splitSections (linesWithEnds text) = (linesWithEnds text, []) := by
  induction text using lineInduction with
  | last body hbody =>
      by_cases hnil : body = []
      · rw [hnil]
        rfl
      · rw [linesWithEnds_last hbody hnil, splitSections, if_neg ((unmarked_line_iff hbody).mp h).1]
        rfl
  | line body rest hbody ih =>
      rw [List.append_assoc, List.cons_append] at h
      obtain ⟨hmark, hrest⟩ := (unmarked_line_iff hbody).mp h
      rw [linesWithEnds_line hbody, splitSections, trim_concat (by decide), if_neg hmark, ih hrest]

end Unmarked

-- Symbols as a text can write them.
def Legible : Symbol → Prop
  | .terminal name => '"' ∉ name.toList ∧ Unmarked name.toList
  | .magic name => '>' ∉ name.toList ∧ Unmarked name.toList
  | .nonterminal name => IsName name.toList
  | .wildcard _ => True
  | _ => False

section Tokens

variable {text : List Char}

theorem splitAtFirst_eq_some {close : Char} {before after : List Char}
    (h : splitAtFirst (· == close) text = some (before, after)) :
    text = before ++ close :: after ∧ close ∉ before := by
  induction text generalizing before after with
  | nil => cases h
  | cons c rest ih =>
      unfold splitAtFirst at h
      split at h
      · rename_i hc
        obtain ⟨rfl, rfl⟩ := Prod.mk.inj (Option.some.inj h)
        exact ⟨by rw [beq_iff_eq.mp hc]; rfl, List.not_mem_nil⟩
      · rename_i hc
        obtain ⟨⟨part, other⟩, hs, he⟩ := Option.map_eq_some_iff.mp h
        obtain ⟨rfl, rfl⟩ := Prod.mk.inj he
        obtain ⟨rfl, hpart⟩ := ih hs
        refine ⟨rfl, fun hm => ?_⟩
        rcases List.mem_cons.mp hm with rfl | hm
        · exact hc (beq_self_eq_true _)
        · exact hpart hm

theorem splitAtFirst_append {close : Char} {before after : List Char} (h : close ∉ before) :
    splitAtFirst (· == close) (before ++ close :: after) = some (before, after) := by
  induction before with
  | nil => simp [splitAtFirst]
  | cons c before ih =>
      obtain ⟨hc, hbefore⟩ := not_or.mp (mt List.mem_cons.mpr h)
      simp [splitAtFirst, ih hbefore, Ne.symm hc]

-- A fixed token brings nothing into a rule.
theorem fixedToken?_spec {token : Token} {after : List Char} (h : fixedToken? text = some (token, after)) :
    after <:+ text ∧ ∀ names kinds, Brings names kinds token := by
  unfold fixedToken? at h
  split at h <;> simp only [Option.some.injEq, Prod.mk.injEq, reduceCtorEq] at h
  all_goals
    obtain ⟨rfl, rfl⟩ := h
    exact ⟨by simp [List.suffix_cons_iff], fun _ _ => trivial⟩

theorem openPart?_spec {c close : Char} {part : OpenPart} (h : openPart? c = some (close, part)) :
    c ∈ signs ∧ close ∈ signs ∧ close ≠ '%' ∧ ∀ rest, fixedToken? (c :: rest) = none := by
  unfold openPart? at h
  repeat' split at h
  all_goals cases h
  all_goals
    rename_i hc
    subst hc
    exact ⟨by decide, by decide, by decide, fun rest => by simp [fixedToken?]⟩

theorem legible_nameSymbol {name : String} (h : IsName name.toList) : Legible (nameSymbol name) := by
  unfold nameSymbol
  split
  · trivial
  · split
    · trivial
    · exact h

theorem brings_closedToken {c close : Char} {part : OpenPart} {body : List Char} (ho : openPart? c = some (close, part))
    (hclose : close ∉ body) (hbody : Unmarked body) :
    Brings (fun name => IsName name.toList) Legible (closedToken part body) := by
  unfold openPart? at ho
  split at ho
  · obtain ⟨rfl, rfl⟩ := Prod.mk.inj (Option.some.inj ho)
    exact ⟨by simpa using hclose, by simpa using hbody⟩
  · split at ho
    · obtain ⟨rfl, rfl⟩ := Prod.mk.inj (Option.some.inj ho)
      exact ⟨by simpa using hclose, by simpa using hbody⟩
    · split at ho
      · obtain ⟨rfl, rfl⟩ := Prod.mk.inj (Option.some.inj ho)
        trivial
      · cases ho

-- What is read of a text without a mark can be written again.
theorem brings_tokens {line : Nat} {found : List (Token × Nat)} (hu : Unmarked text)
    (h : tokens line text = .ok found) :
    ∀ token ∈ found, Brings (fun name => IsName name.toList) Legible token.1 := by
  fun_induction tokens line text generalizing found with
  | case1 =>
      obtain rfl := Except.ok.inj h
      simp
  | case2 line rest ih | case3 line c rest _ _ ih => exact ih (hu.within (List.suffix_cons ..).isInfix) h
  | case4 line c rest _ _ token after hfixed _ ih =>
      obtain ⟨others, ho, rfl⟩ := exists_of_map_eq_ok h
      obtain ⟨hafter, hbrings⟩ := fixedToken?_spec hfixed
      exact List.forall_mem_cons.mpr ⟨hbrings _ _, ih (hu.within hafter.isInfix) ho⟩
  | case5 | case7 | case9 => cases h
  | case6 line c rest _ _ _ close part hopen body after hs _ ih =>
      obtain ⟨others, ho, rfl⟩ := exists_of_map_eq_ok h
      obtain ⟨rfl, hclose⟩ := splitAtFirst_eq_some hs
      have hbody : Unmarked body := hu.within ⟨[c], close :: after, by simp⟩
      have hafter : Unmarked after := hu.within (List.IsSuffix.isInfix ⟨c :: (body ++ [close]), by simp⟩)
      exact List.forall_mem_cons.mpr ⟨brings_closedToken hopen hclose hbody, ih hafter ho⟩
  | case8 line c rest _ _ _ _ _ hc =>
      rename_i ih
      obtain ⟨others, ho, rfl⟩ := exists_of_map_eq_ok h
      have hname : IsName (String.ofList (c :: rest.takeWhile isNameChar)).toList := by
        rw [String.toList_ofList]
        refine ⟨by simp, fun d hd => ?_⟩
        rcases List.mem_cons.mp hd with rfl | hd
        · exact hc
        · exact List.mem_takeWhile_imp hd
      have hafter : rest.dropWhile isNameChar <:+ c :: rest := (List.dropWhile_suffix _).trans (List.suffix_cons ..)
      exact List.forall_mem_cons.mpr ⟨⟨hname, legible_nameSymbol hname⟩, ih (hu.within hafter.isInfix) ho⟩

end Tokens

-- The tokens of a text, whatever line it begins on.
def Scans (text : List Char) (found : List Token) : Prop :=
  ∀ line, ∃ numbered, tokens line text = .ok numbered ∧ numbered.map Prod.fst = found

-- A name ends here.
def Bounded (text : List Char) : Prop := ∀ c ∈ text.head?, isNameChar c = false

section Scans

variable {c : Char} {text rest : List Char} {found : List Token}

theorem scans_nil : Scans [] [] := fun line => ⟨[], by rw [tokens], rfl⟩

theorem Scans.cons {token : Token} (h : Scans rest found) (line next : Nat) :
    ∃ numbered, (tokens next rest).map ((token, line) :: ·) = .ok numbered ∧
      numbered.map Prod.fst = token :: found := by
  obtain ⟨numbered, ht, rfl⟩ := h next
  exact ⟨(token, line) :: numbered, by rw [ht]; rfl, rfl⟩

theorem Scans.blank (hc : isBlank c = true) (h : Scans rest found) : Scans (c :: rest) found := by
  intro line
  rw [tokens]
  split
  · exact h (line + 1)
  · exact h line

theorem ne_feed_of_not_isBlank (hc : isBlank c = false) : c ≠ '\n' := by
  rintro rfl
  exact absurd hc (by decide)

theorem Scans.fixed {token : Token} (hc : isBlank c = false) (hf : fixedToken? (c :: text) = some (token, rest))
    (h : Scans rest found) : Scans (c :: text) (token :: found) := by
  intro line
  rw [tokens, if_neg (ne_feed_of_not_isBlank hc), if_neg (by simp [hc])]
  split
  · rename_i other after hother
    obtain ⟨rfl, rfl⟩ := Prod.mk.inj (Option.some.inj (hf.symm.trans hother))
    exact h.cons line line
  · rename_i hnone
    rw [hf] at hnone
    cases hnone

theorem Scans.closed {close : Char} {part : OpenPart} {body : List Char} (ho : openPart? c = some (close, part))
    (hclose : close ∉ body) (h : Scans rest found) :
    Scans (c :: (body ++ close :: rest)) (closedToken part body :: found) := by
  obtain ⟨hsign, -, -, hfixed⟩ := openPart?_spec ho
  have hblank := not_isBlank_of_mem_signs hsign
  intro line
  rw [tokens, if_neg (ne_feed_of_not_isBlank hblank), if_neg (by simp [hblank])]
  split
  · rename_i hsome
    rw [hfixed] at hsome
    cases hsome
  · split
    · rename_i hopen
      obtain ⟨rfl, rfl⟩ := Prod.mk.inj (Option.some.inj (ho.symm.trans hopen))
      split
      · rename_i hnone
        rw [splitAtFirst_append hclose] at hnone
        cases hnone
      · rename_i hsome
        rw [splitAtFirst_append hclose] at hsome
        obtain ⟨rfl, rfl⟩ := Prod.mk.inj (Option.some.inj hsome)
        exact h.cons line _
    · rename_i hnone
      rw [ho] at hnone
      cases hnone

theorem takeWhile_of_bounded (hb : Bounded rest) : rest.takeWhile isNameChar = [] := by
  cases rest with
  | nil => rfl
  | cons c rest => simp [hb c rfl]

theorem dropWhile_of_bounded (hb : Bounded rest) : rest.dropWhile isNameChar = rest := by
  cases rest with
  | nil => rfl
  | cons c rest => simp [hb c rfl]

-- A name begins no other token.
theorem plain_of_not_mem_signs (hc : c ∉ signs) :
    fixedToken? (c :: text) = none ∧ openPart? c = none ∧ isBracket c = false := by
  simp only [signs, List.mem_cons, List.not_mem_nil, or_false, not_or] at hc
  refine ⟨?_, by simp [openPart?, hc], by simp [isBracket, hc]⟩
  unfold fixedToken?
  split <;> simp_all

theorem Scans.name {name : List Char} (hn : IsName name) (hb : Bounded rest) (h : Scans rest found) :
    Scans (name ++ rest) (.name (String.ofList name) :: found) := by
  obtain ⟨hne, hchars⟩ := hn
  obtain ⟨c, name, rfl⟩ := List.exists_cons_of_ne_nil hne
  obtain ⟨hc, hname⟩ := List.forall_mem_cons.mp hchars
  obtain ⟨hfixed, hopen, hbracket⟩ :=
    @plain_of_not_mem_signs c (name ++ rest) (not_mem_signs_of_isNameChar hc)
  have hblank := not_isBlank_of_isNameChar hc
  intro line
  rw [List.cons_append, tokens, if_neg (ne_feed_of_not_isBlank hblank), if_neg (by simp [hblank])]
  split
  · rename_i hsome
    rw [hfixed] at hsome
    cases hsome
  · split
    · rename_i hsome
      rw [hopen] at hsome
      cases hsome
    · simp only [hbracket, hc, Bool.false_eq_true, if_false, if_true, List.takeWhile_append_of_pos hname,
        takeWhile_of_bounded hb, List.dropWhile_append_of_pos hname, dropWhile_of_bounded hb, List.append_nil]
      exact h.cons line line

end Scans

end Source

end IncrementalLR
