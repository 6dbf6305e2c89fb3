import IncrementalLR.Proofs.Grammar.Notation

namespace IncrementalLR

namespace Text

-- The line that a text comes to at its end, counted from one.
def lineBehind (front : List Char) : Nat := front.count '\n' + 1

-- A whole line of a text, without its line feed, between what stands before it and what stands behind it.
structure IsLine (text front content back : List Char) : Prop where
  whole : text = front ++ (content ++ back)
  unbroken : '\n' ∉ content
  starts : ∀ c ∈ front.getLast?, c = '\n'
  ends : ∀ c ∈ back.head?, c = '\n'

section Lines

variable {text : List Char} {before after : List (List Char)} {line : List Char}

-- Where one of the lines stands in the text.
theorem exists_isLine (h : linesWithEnds text = before ++ line :: after) :
    ∃ content back, IsLine text before.flatten content back ∧ trim line = trim content ∧
      before.flatten.count '\n' = before.length := by
  induction text using lineInduction generalizing before with
  | last body hbody =>
      by_cases hnil : body = []
      · subst hnil
        simp [linesWithEnds] at h
      · rw [linesWithEnds_last hbody hnil] at h
        obtain ⟨rfl, hlines⟩ : before = [] ∧ [body] = line :: after := by
          cases before with
          | nil => exact ⟨rfl, h⟩
          | cons first before => simp at h
        obtain ⟨rfl, -⟩ := List.cons.inj hlines
        exact ⟨body, [], ⟨by simp, hbody, by simp, by simp⟩, rfl, rfl⟩
  | line body rest hbody ih =>
      rw [linesWithEnds_line hbody] at h
      cases before with
      | nil =>
          obtain ⟨rfl, -⟩ := List.cons.inj h
          refine ⟨body, '\n' :: rest, ⟨rfl, hbody, by simp, by simp⟩, ?_, rfl⟩
          exact trim_concat (by decide)
      | cons first before =>
          obtain ⟨rfl, hrest⟩ := List.cons.inj h
          obtain ⟨content, back, hline, htrim, hcount⟩ := ih hrest
          refine ⟨content, back, ⟨?_, hline.unbroken, ?_, hline.ends⟩, htrim, ?_⟩
          · simp [← hline.whole]
          · intro c hc
            rw [List.flatten_cons, List.getLast?_append] at hc
            cases hlast : before.flatten.getLast? with
            | none => simpa [hlast, eq_comm] using hc
            | some d => exact hline.starts c (by simpa [hlast] using hc)
          · simp [List.count_eq_zero.mpr hbody, hcount]

-- Lines that are taken from the top are the lines of their text, and so are the others.
theorem linesWithEnds_flatten (h : linesWithEnds text = before ++ after) :
    linesWithEnds before.flatten = before ∧ linesWithEnds after.flatten = after := by
  induction text using lineInduction generalizing before with
  | last body hbody =>
      have hwhole := flatten_linesWithEnds body
      cases before with
      | nil =>
          rw [List.nil_append] at h
          exact ⟨rfl, by rw [← h, hwhole]⟩
      | cons first before =>
          have hnil : body ≠ [] := by
            rintro rfl
            simp [linesWithEnds] at h
          rw [linesWithEnds_last hbody hnil, List.cons_append] at h
          obtain ⟨rfl, hrest⟩ := List.cons.inj h
          obtain ⟨rfl, rfl⟩ := List.append_eq_nil_iff.mp hrest.symm
          exact ⟨by rw [List.flatten_singleton, linesWithEnds_last hbody hnil], rfl⟩
  | line body rest hbody ih =>
      have hwhole := flatten_linesWithEnds (body ++ '\n' :: rest)
      cases before with
      | nil =>
          rw [List.nil_append] at h
          exact ⟨rfl, by rw [← h, hwhole]⟩
      | cons first before =>
          rw [linesWithEnds_line hbody, List.cons_append] at h
          obtain ⟨rfl, hrest⟩ := List.cons.inj h
          obtain ⟨hbefore, hafter⟩ := ih hrest
          refine ⟨?_, hafter⟩
          rw [List.flatten_cons, List.append_assoc, List.singleton_append, linesWithEnds_line hbody, hbefore]

theorem trim_dropLineEnd (line : List Char) : trim (dropLineEnd line) = trim line := by
  have hfeed : isBlank '\n' = true := by decide
  have hreturn : isBlank '\r' = true := by decide
  unfold dropLineEnd
  split
  · rename_i body h
    rw [List.reverse_eq_cons_iff.mp h, List.reverse_cons, trim_concat hfeed, trim_concat hreturn]
  · rename_i body _ h
    rw [List.reverse_eq_cons_iff.mp h, trim_concat hfeed]
  · rfl

end Lines

end Text

namespace Source

open Text

-- The parts of a text before and behind the mark of the lexer rules.
def rulePart (text : List Char) : List Char := (splitSections (linesWithEnds text)).1.flatten

def lexerPart (text : List Char) : List Char := (splitSections (linesWithEnds text)).2.flatten

-- The lines that make up a header.
def IsHeader (text : List Char) (header : Header) : Prop :=
  ∃ line, readHeader default 1 (linesWithEnds text) = .ok (header, line, [])

-- A lexer rule as it is written on a line, whatever the number of the line is.
structure LexerRule.WrittenAs (rule : LexerRule) (content : List Char) : Prop where
  parts : ∃ name pattern, trim content = name ++ ':' :: pattern ∧ ':' ∉ name ∧ trim name = rule.name.toList ∧
    trim pattern = '"' :: (rule.pattern.toList ++ ['"'])
  named : rule.name ≠ ""
  matching : rule.pattern ≠ ""

-- A line of the lexer rules, with those above it, and with all that stands before it in the text.
structure LexerLine (text front above content : List Char) : Prop where
  behind : ∃ mark, trim mark = ['%', '%'] ∧ front = rulePart text ++ (mark ++ above)
  line : ∃ back, IsLine text front content back ∧ lexerPart text = above ++ (content ++ back)

section Sections

variable {lines rules lexer : List (List Char)} {text : List Char}

theorem splitSections_eq (h : splitSections lines = (rules, lexer)) :
    (lines = rules ∧ lexer = []) ∨ ∃ mark, trim mark = ['%', '%'] ∧ lines = rules ++ mark :: lexer := by
  fun_induction splitSections lines generalizing rules lexer with
  | case1 =>
      obtain ⟨rfl, rfl⟩ := Prod.mk.inj h
      exact Or.inl ⟨rfl, rfl⟩
  | case2 mark rest hmark =>
      obtain ⟨rfl, rfl⟩ := Prod.mk.inj h
      exact Or.inr ⟨mark, hmark, rfl⟩
  | case3 line rest _ others later hsplit ih =>
      obtain ⟨rfl, rfl⟩ := Prod.mk.inj h
      rcases ih hsplit with ⟨rfl, rfl⟩ | ⟨mark, hmark, rfl⟩
      · exact Or.inl ⟨rfl, rfl⟩
      · exact Or.inr ⟨mark, hmark, rfl⟩

theorem rulePart_lines (h : splitSections (linesWithEnds text) = (rules, lexer)) :
    linesWithEnds (rulePart text) = rules ∧ rulePart text <+: text := by
  have hwhole := flatten_linesWithEnds text
  rw [rulePart, h]
  rcases splitSections_eq h with ⟨hlines, -⟩ | ⟨mark, -, hlines⟩
  · rw [hlines] at hwhole
    exact ⟨(linesWithEnds_flatten (hlines.trans (List.append_nil _).symm)).1, hwhole ▸ List.prefix_rfl⟩
  · rw [hlines, List.flatten_append] at hwhole
    exact ⟨(linesWithEnds_flatten hlines).1, _, hwhole⟩

-- Lines that are taken from behind the mark are lines of their own text.
theorem linesWithEnds_above {above below : List (List Char)}
    (h : splitSections (linesWithEnds text) = (rules, above ++ below)) : linesWithEnds above.flatten = above := by
  rcases splitSections_eq h with ⟨-, hnil⟩ | ⟨mark, -, hlines⟩
  · rw [(List.append_eq_nil_iff.mp hnil).1]
    rfl
  · rw [← List.singleton_append, ← List.append_assoc] at hlines
    exact (linesWithEnds_flatten (linesWithEnds_flatten hlines).2).1

-- The place of a line behind the mark, and its number.
theorem lexerLine_of_append {above below : List (List Char)} {line : List Char}
    (h : splitSections (linesWithEnds text) = (rules, above ++ line :: below)) :
    ∃ front content, LexerLine text front above.flatten content ∧ trim line = trim content ∧
      lineBehind front = rules.length + 2 + above.length := by
  have hwhole := flatten_linesWithEnds text
  rcases splitSections_eq h with ⟨-, hnil⟩ | ⟨mark, hmark, hlines⟩
  · simp at hnil
  · rw [← List.cons_append, ← List.append_assoc] at hlines
    obtain ⟨content, back, hline, htrim, hcount⟩ := exists_isLine hlines
    have hrest : line ++ below.flatten = content ++ back := by
      rw [hlines, List.flatten_append, List.flatten_cons] at hwhole
      exact List.append_cancel_left (hwhole.trans hline.whole)
    refine ⟨_, content, ⟨⟨mark, hmark, ?_⟩, back, hline, ?_⟩, htrim, ?_⟩
    · rw [List.flatten_append, List.flatten_cons, rulePart, h]
    · rw [lexerPart, h, List.flatten_append, List.flatten_cons, hrest]
    · rw [lineBehind, hcount, List.length_append, List.length_cons]
      omega

end Sections

section LexerRules

variable {line : Nat} {text : List Char} {rule : LexerRule} {lines : List (List Char)} {rules : List LexerRule}

theorem unquote?_eq_some_iff {inner : List Char} : unquote? text = some inner ↔ text = '"' :: (inner ++ ['"']) := by
  unfold unquote?
  split
  · rename_i rest
    split
    · rename_i reversed h
      rw [List.reverse_eq_cons_iff.mp h]
      simp
    · rename_i h
      refine ⟨nofun, fun he => ?_⟩
      rw [(List.cons.inj he).2] at h
      exact absurd (by simp) (h inner.reverse)
  · rename_i h
    exact ⟨nofun, fun he => absurd he (h _)⟩

-- What a line is read as is the rule that is written on it.
theorem readLexerRule?_eq_some_iff :
    readLexerRule? line (trim text) = some rule ↔ rule.WrittenAs text ∧ rule.line = line := by
  constructor
  · intro h
    unfold readLexerRule? at h
    split at h
    · cases h
    · rename_i name pattern hsplit
      obtain ⟨hparts, hcolon⟩ := splitAtFirst_eq_some hsplit
      split at h
      · cases h
      · rename_i inner hinner
        simp only [Option.ite_none_left_eq_some, Bool.or_eq_true, List.isEmpty_iff, not_or] at h
        obtain ⟨⟨hname, hpattern⟩, hrule⟩ := h
        cases hrule
        refine ⟨⟨⟨name, pattern, hparts, hcolon, ?_, ?_⟩, ?_, ?_⟩, rfl⟩
        · exact String.toList_ofList.symm
        · rw [String.toList_ofList]
          exact unquote?_eq_some_iff.mp hinner
        · exact fun he => hname (by simpa using congrArg String.toList he)
        · exact fun he => hpattern (by simpa using congrArg String.toList he)
  · rintro ⟨⟨⟨name, pattern, hparts, hcolon, hname, hpattern⟩, hnamed, hmatching⟩, rfl⟩
    have hempty {word : String} (h : word ≠ "") : word.toList.isEmpty = false :=
      List.isEmpty_eq_false_iff.mpr fun he => h (String.toList_eq_nil_iff.mp he)
    rw [hparts, readLexerRule?, splitAtFirst_append hcolon]
    simp only [unquote?_eq_some_iff.mpr hpattern, hname, hempty hnamed, hempty hmatching, Bool.or_self,
      Bool.false_eq_true, if_false, String.ofList_toList]

-- The rules stand on lines one below the other, each on the line of its number.
theorem readLexerRules_eq_ok (h : readLexerRules line lines = .ok rules) :
    rules.Pairwise (·.line < ·.line) ∧ ∀ rule ∈ rules, line ≤ rule.line ∧ ∃ above first below,
      lines = above ++ first :: below ∧ rule.WrittenAs first ∧ rule.line = line + above.length := by
  fun_induction readLexerRules line lines generalizing rules with
  | case1 =>
      cases h
      exact ⟨.nil, nofun⟩
  | case2 line first rest hblank ih =>
      obtain ⟨hpairwise, hrules⟩ := ih h
      refine ⟨hpairwise, fun rule hr => ?_⟩
      obtain ⟨hle, above, other, below, rfl, hwritten, hline⟩ := hrules rule hr
      exact ⟨by omega, first :: above, other, below, rfl, hwritten, by simp only [List.length_cons]; omega⟩
  | case3 line first rest rule _ hread ih =>
      obtain ⟨others, ho, rfl⟩ := exists_of_map_eq_ok h
      obtain ⟨hpairwise, hrules⟩ := ih ho
      obtain ⟨hwritten, hline⟩ := readLexerRule?_eq_some_iff.mp hread
      refine ⟨.cons (fun other hother => ?_) hpairwise, List.forall_mem_cons.mpr ⟨?_, fun other hother => ?_⟩⟩
      · have := (hrules other hother).1
        omega
      · exact ⟨by omega, [], first, rest, rfl, hwritten, by simp [hline]⟩
      · obtain ⟨hle, above, next, below, rfl, hwritten, hline⟩ := hrules other hother
        exact ⟨by omega, first :: above, next, below, rfl, hwritten, by simp only [List.length_cons]; omega⟩
  | case4 => cases h

-- The first line that is neither blank nor a rule.
theorem readLexerRules_eq_error {error : GrammarError} (h : readLexerRules line lines = .error error) :
    ∃ above first below, lines = above ++ first :: below ∧
      (∀ other ∈ above, trim other = [] ∨ ∃ rule : LexerRule, rule.WrittenAs other) ∧ trim first ≠ [] ∧
      (∀ rule : LexerRule, ¬ rule.WrittenAs first) ∧
      error = .malformedLexerRule (line + above.length) (String.ofList (trim first)) := by
  fun_induction readLexerRules line lines generalizing error with
  | case1 => cases h
  | case2 line first rest hblank ih =>
      obtain ⟨above, other, below, rfl, habove, hne, hnone, rfl⟩ := ih h
      refine ⟨first :: above, other, below, rfl, List.forall_mem_cons.mpr ⟨Or.inl hblank, habove⟩, hne, hnone, ?_⟩
      rw [List.length_cons, Nat.add_right_comm, Nat.add_assoc]
  | case3 line first rest rule _ hread ih =>
      cases hothers : readLexerRules (line + 1) rest with
      | ok others => rw [hothers] at h; cases h
      | error other =>
          rw [hothers] at h
          cases h
          obtain ⟨above, next, below, rfl, habove, hne, hnone, rfl⟩ := ih hothers
          have hwritten := (readLexerRule?_eq_some_iff.mp hread).1
          refine ⟨first :: above, next, below, rfl, List.forall_mem_cons.mpr ⟨Or.inr ⟨rule, hwritten⟩, habove⟩, hne,
            hnone, ?_⟩
          rw [List.length_cons, Nat.add_right_comm, Nat.add_assoc]
  | case4 line first rest hne hread =>
      cases h
      refine ⟨[], first, rest, rfl, nofun, hne, fun rule hwritten => ?_, rfl⟩
      have hsame : ({ rule with line := line } : LexerRule).WrittenAs first := ⟨hwritten.1, hwritten.2, hwritten.3⟩
      rw [readLexerRule?_eq_some_iff.mpr ⟨hsame, rfl⟩] at hread
      cases hread

end LexerRules

section Headers

variable {line next : Nat} {header result : Header} {lines body : List (List Char)}

theorem readHeader_eq_ok (h : readHeader header line lines = .ok (result, next, body)) :
    ∃ above, lines = above ++ body ∧ readHeader header line above = .ok (result, next, []) ∧
      next = line + above.length ∧ ∀ first ∈ body.head?, trim first ≠ [] ∧ (trim first).head? ≠ some '%' := by
  fun_induction readHeader header line lines with
  | case1 =>
      cases h
      exact ⟨[], rfl, rfl, rfl, nofun⟩
  | case2 header line first rest hblank ih =>
      obtain ⟨above, rfl, hread, rfl, hbody⟩ := ih h
      refine ⟨first :: above, rfl, ?_, by simp only [List.length_cons]; omega, hbody⟩
      rw [readHeader, hblank]
      exact hread
  | case3 header line first rest directive hdirective other hother ih =>
      obtain ⟨above, rfl, hread, rfl, hbody⟩ := ih h
      refine ⟨first :: above, rfl, ?_, by simp only [List.length_cons]; omega, hbody⟩
      rw [readHeader, hdirective]
      simp only [hother]
      exact hread
  | case4 => cases h
  | case5 header line first rest hne hpercent =>
      cases h
      refine ⟨[], rfl, rfl, rfl, ?_⟩
      rintro other ⟨⟩
      refine ⟨hne, fun he => ?_⟩
      obtain ⟨directive, hdirective⟩ := List.head?_eq_some_iff.mp he
      exact hpercent directive hdirective

-- The first directive that cannot be read.
theorem readHeader_eq_error {error : GrammarError} (h : readHeader header line lines = .error error) :
    ∃ result above first below directive, lines = above ++ first :: below ∧
      readHeader header line above = .ok (result, line + above.length, []) ∧ trim first = '%' :: directive ∧
      readDirective? result directive = none ∧
      error = .malformedOption (line + above.length) (String.ofList directive) := by
  fun_induction readHeader header line lines with
  | case1 | case5 => cases h
  | case2 header line first rest hblank ih =>
      obtain ⟨result, above, other, below, directive, rfl, hread, hother, hnone, rfl⟩ := ih h
      have hlength : line + 1 + above.length = line + (first :: above).length := by
        rw [List.length_cons, Nat.add_right_comm, Nat.add_assoc]
      rw [hlength] at hread ⊢
      refine ⟨result, first :: above, other, below, directive, rfl, ?_, hother, hnone, rfl⟩
      rw [readHeader, hblank]
      exact hread
  | case3 header line first rest directive hdirective read hheader ih =>
      obtain ⟨result, above, other, below, next, rfl, hread, hother, hnone, rfl⟩ := ih h
      have hlength : line + 1 + above.length = line + (first :: above).length := by
        rw [List.length_cons, Nat.add_right_comm, Nat.add_assoc]
      rw [hlength] at hread ⊢
      refine ⟨result, first :: above, other, below, next, rfl, ?_, hother, hnone, rfl⟩
      rw [readHeader, hdirective]
      simp only [hheader]
      exact hread
  | case4 header line first rest directive hdirective hnone =>
      cases h
      exact ⟨header, [], first, rest, directive, rfl, rfl, hdirective, hnone, rfl⟩

end Headers

end Source

end IncrementalLR
