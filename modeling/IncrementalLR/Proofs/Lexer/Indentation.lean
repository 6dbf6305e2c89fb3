import IncrementalLR.Lexer.Layout
import Mathlib.Data.List.Infix
import Mathlib.Data.List.TakeWhile

namespace IncrementalLR

-- Whether a token is one that the layout makes under some name.
def Token.isLayout (name : String) (token : Token) : Bool := token.origin = .layout && token.rule == some name

namespace Layout

-- The tokens of a list that the layout did not make.
def erase (tokens : List Token) : List Token := tokens.filter (·.origin ≠ .layout)

-- How many tokens of a list the layout made under some name.
def count (name : String) (tokens : List Token) : Nat := tokens.countP (Token.isLayout name)

-- The open levels after a line of some width, the innermost one first. Those that are
-- wider than the line are closed, and the innermost one is then its own.
def settle (width : Nat) : List Nat → List Nat
  | [] => [width]
  | top :: outer =>
      if width < top then settle width outer
      else if width = top then top :: outer
      else width :: top :: outer

-- The open levels that the logical lines leave.
def levelsAfter (levels : List Nat) (lines : List (List Token)) : List Nat :=
  (lines.filter (isLogical ·)).foldl (fun levels line => settle (width line) levels) levels

-- Whether a line is narrower than the innermost level and as wide as none.
def Dangling (levels : List Nat) (width : Nat) : Prop :=
  (∃ top ∈ levels.head?, width < top) ∧ width ∉ levels

-- What the layout puts before a logical line. The opening is all that it puts between
-- the tokens of the lines before it and its own ones.
structure Opens (out : List Token) (before : List (List Token)) (line front opening : List Token) : Prop where
  opened : front ++ opening ++ line <+: out
  erased : erase front = before.flatten
  bounded : ∀ token ∈ front.getLast?, token.origin ≠ .layout
  made : ∀ token ∈ opening, token.origin = .layout
  unbalanced_iff : (∃ token ∈ opening, token.isLayout unbalanced) ↔
    Dangling (levelsAfter [] before) (width line)
  surplus : count unbalanced out = 0 →
    count indent (front ++ opening) =
      count dedent (front ++ opening) + ((levelsAfter [] (before ++ [line])).length - 1)

-- Layout tokens are only added, one line end for each logical line, and they are
-- balanced while no line dangles.
structure LaidOut (tokens out : List Token) : Prop where
  erased : erase out = tokens
  ended : count newline out + count unbalanced out = ((lines tokens).filter (isLogical ·)).length
  opens : ∀ before line after, lines tokens = before ++ line :: after → isLogical line →
    ∃ front opening, Opens out before line front opening
  nested : count unbalanced out = 0 → ∀ front, front <+: out → count dedent front ≤ count indent front
  closed : count unbalanced out = 0 → count dedent out = count indent out

section Tokens

variable {name other : String} {place : Nat} {token : Token} {tokens others : List Token}

@[simp]
theorem isLayout_layout : (Token.layout other place).isLayout name = (other == name) := by
  simp [Token.isLayout, Token.layout]

@[simp]
theorem erase_append : erase (tokens ++ others) = erase tokens ++ erase others := List.filter_append ..

theorem erase_eq_self (h : ∀ token ∈ tokens, token.origin ≠ .layout) : erase tokens = tokens :=
  List.filter_eq_self.mpr fun token ht => by simpa using h token ht

theorem erase_eq_nil (h : ∀ token ∈ tokens, token.origin = .layout) : erase tokens = [] :=
  List.filter_eq_nil_iff.mpr fun token ht => by simpa using h token ht

@[simp]
theorem count_nil : count name [] = 0 := rfl

@[simp]
theorem count_append : count name (tokens ++ others) = count name tokens + count name others :=
  List.countP_append ..

@[simp]
theorem count_cons_layout :
    count name (.layout other place :: tokens) = count name tokens + if other = name then 1 else 0 := by
  simp [count, List.countP_cons]

@[simp]
theorem count_replicate_layout (size : Nat) :
    count name (List.replicate size (.layout other place)) = if other = name then size else 0 := by
  simp [count, List.countP_replicate]

theorem count_eq_zero (h : ∀ token ∈ tokens, token.origin ≠ .layout) : count name tokens = 0 :=
  List.countP_eq_zero.mpr fun token ht => by simp [Token.isLayout, h token ht]

theorem count_le_of_prefix (h : tokens <+: others) : count name tokens ≤ count name others :=
  h.sublist.countP_le

end Tokens

section Lines

variable {tokens : List Token}

theorem flatten_lines (tokens : List Token) : (lines tokens).flatten = tokens := by
  induction tokens with
  | nil => rfl
  | cons token rest ih =>
      unfold lines
      split
      · simp [ih]
      · split
        · rename_i hnil
          rw [hnil] at ih
          simp [← ih]
        · rename_i line others hlines
          rw [hlines] at ih
          simp [← ih]

theorem ne_nil_of_mem_lines {line : List Token} (h : line ∈ lines tokens) : line ≠ [] := by
  induction tokens generalizing line with
  | nil => cases h
  | cons token rest ih =>
      unfold lines at h
      split at h
      · rcases List.mem_cons.mp h with rfl | h
        · simp
        · exact ih h
      · split at h
        · simp_all
        · rename_i first others hlines
          rcases List.mem_cons.mp h with rfl | h
          · simp
          · exact ih (hlines ▸ List.mem_cons_of_mem _ h)

end Lines

section Levels

variable {levels : List Nat} {width place : Nat}

theorem settle_ne_nil : settle width levels ≠ [] := by
  induction levels with
  | nil => simp [settle]
  | cons top outer ih =>
      unfold settle
      split
      · exact ih
      · split <;> simp

-- The widths of the open levels fall towards the outermost one.
theorem pairwise_settle (h : levels.Pairwise (· > ·)) : (settle width levels).Pairwise (· > ·) := by
  induction levels with
  | nil => simp [settle]
  | cons top outer ih =>
      obtain ⟨htop, houter⟩ := List.pairwise_cons.mp h
      unfold settle
      split
      · exact ih houter
      · split
        · exact h
        · refine List.pairwise_cons.mpr ⟨List.forall_mem_cons.mpr ⟨by omega, fun level hl => ?_⟩, h⟩
          have := htop level hl
          omega

-- A line that closes levels comes to one that is as wide if there is one.
theorem head?_dropWhile_eq_some_iff (h : levels.Pairwise (· > ·)) :
    (levels.dropWhile fun level => decide (width < level)).head? = some width ↔ width ∈ levels := by
  induction levels with
  | nil => simp
  | cons top outer ih =>
      obtain ⟨htop, houter⟩ := List.pairwise_cons.mp h
      by_cases hlt : width < top
      · have hne : width ≠ top := Nat.ne_of_lt hlt
        simpa [hlt, hne] using ih houter
      · have hmem : width ∉ outer := fun hm => hlt (htop width hm)
        simp [hlt, hmem, eq_comm]

theorem settle_eq_dropWhile :
    settle width levels =
      if (levels.dropWhile fun level => decide (width < level)).head? = some width then
        levels.dropWhile fun level => decide (width < level)
      else width :: levels.dropWhile fun level => decide (width < level) := by
  induction levels with
  | nil => simp [settle]
  | cons top outer ih =>
      by_cases hlt : width < top
      · simpa [settle, hlt] using ih
      · by_cases heq : width = top
        · simp [settle, heq]
        · simp [settle, hlt, heq, Ne.symm heq]

end Levels

-- What the layout puts before a line of some width, and the levels that are open then.
inductive Opening (place width : Nat) : List Nat → List Token → List Nat → Prop where
  | first : Opening place width [] [] [width]
  | same {outer : List Nat} :
      Opening place width (width :: outer) [.layout newline place] (width :: outer)
  | deeper {top : Nat} {outer : List Nat} : top < width →
      Opening place width (top :: outer) [.layout newline place, .layout indent place] (width :: top :: outer)
  | closes {closed outer : List Nat} : closed ≠ [] → (∀ level ∈ closed, width < level) →
      Opening place width (closed ++ width :: outer)
        (.layout newline place :: closed.map fun _ => .layout dedent place) (width :: outer)
  | dangles {levels : List Nat} : Dangling levels width →
      Opening place width levels [.layout unbalanced place] (settle width levels)

section Opening

variable {place width : Nat} {levels after : List Nat} {opening : List Token}

-- A line that is narrower than the innermost level closes levels, or dangles.
theorem openLine_of_lt {top : Nat} {outer : List Nat} (h : width < top) :
    openLine place width (top :: outer) =
      if ((top :: outer).dropWhile fun level => decide (width < level)).head? = some width then
        (.layout newline place ::
          ((top :: outer).takeWhile fun level => decide (width < level)).map fun _ => .layout dedent place,
          (top :: outer).dropWhile fun level => decide (width < level))
      else
        ([.layout unbalanced place], width :: (top :: outer).dropWhile fun level => decide (width < level)) := by
  have hdrop : (top :: outer).drop ((top :: outer).takeWhile fun level => decide (width < level)).length =
      (top :: outer).dropWhile fun level => decide (width < level) := by
    nth_rewrite 2 [← List.takeWhile_append_dropWhile (p := fun level => decide (width < level)) (l := top :: outer)]
    exact List.drop_left
  rw [openLine, if_neg (by omega), if_neg (by omega)]
  simp only [hdrop]

theorem opening_openLine (h : levels.Pairwise (· > ·)) :
    Opening place width levels (openLine place width levels).1 (openLine place width levels).2 := by
  cases levels with
  | nil => exact .first
  | cons top outer =>
      rcases Nat.lt_trichotomy top width with hlt | rfl | hlt
      · rw [openLine, if_neg (by omega), if_pos hlt]
        exact .deeper hlt
      · rw [openLine, if_pos rfl]
        exact .same
      · rw [openLine_of_lt hlt]
        have hsplit := List.takeWhile_append_dropWhile (p := fun level => decide (width < level)) (l := top :: outer)
        split
        · rename_i hhead
          obtain ⟨rest, hrest⟩ := List.head?_eq_some_iff.mp hhead
          rw [hrest] at hsplit ⊢
          nth_rewrite 1 [← hsplit]
          exact .closes (by simp [hlt]) fun level hl => by simpa using List.mem_takeWhile_imp hl
        · rename_i hhead
          have hsettle : settle width (top :: outer) = _ := settle_eq_dropWhile.trans (if_neg hhead)
          rw [← hsettle]
          exact .dangles ⟨⟨top, rfl, hlt⟩, mt (head?_dropWhile_eq_some_iff h).mpr hhead⟩

theorem Opening.settled (h : Opening place width levels opening after) : after = settle width levels := by
  cases h with
  | first => rfl
  | same => simp [settle]
  | deeper hlt => rw [settle, if_neg (by omega), if_neg (by omega)]
  | closes _ hclosed =>
      rw [settle_eq_dropWhile, List.dropWhile_append_of_pos (by simpa using hclosed)]
      simp
  | dangles => rfl

theorem openLine_snd (h : levels.Pairwise (· > ·)) : (openLine place width levels).2 = settle width levels :=
  (opening_openLine h).settled

theorem Opening.made (h : Opening place width levels opening after) : ∀ token ∈ opening, token.origin = .layout := by
  cases h <;> simp [Token.layout]

theorem Opening.dangling_iff (h : Opening place width levels opening after) (hl : levels.Pairwise (· > ·)) :
    (∃ token ∈ opening, token.isLayout unbalanced) ↔ Dangling levels width := by
  cases h with
  | first => simp [Dangling]
  | same => simp [Dangling, newline, unbalanced]
  | deeper hlt => simp [Dangling, newline, indent, unbalanced]; omega
  | closes => simp [Dangling, newline, dedent, unbalanced]
  | dangles hd => simpa using hd

-- Each line but the first ends the line before it.
theorem Opening.ended (h : Opening place width levels opening after) :
    count newline opening + count unbalanced opening = min 1 levels.length := by
  cases h with
  | first => rfl
  | same => simp [newline, unbalanced]
  | deeper => simp [newline, indent, unbalanced]
  | closes => simp [newline, dedent, unbalanced]; omega
  | dangles hd =>
      obtain ⟨⟨top, ht, -⟩, -⟩ := hd
      cases levels with
      | nil => cases ht
      | cons => simp [newline, unbalanced]

theorem Opening.surplus (h : Opening place width levels opening after) (hu : count unbalanced opening = 0) :
    count indent opening + (levels.length - 1) = count dedent opening + (after.length - 1) := by
  cases h with
  | first => rfl
  | same => simp [newline, indent, dedent]
  | deeper => simp [newline, indent, dedent, Nat.add_comm]
  | closes => simp [newline, indent, dedent]
  | dangles => simp at hu

theorem Opening.dedents (h : Opening place width levels opening after) :
    count dedent opening ≤ levels.length - 1 := by
  cases h with
  | first => rfl
  | same => simp [newline, dedent]
  | deeper => simp [newline, indent, dedent]
  | closes => simp [newline, dedent]
  | dangles => simp [unbalanced, dedent]

end Opening

section Levels

variable {levels : List Nat} {line : List Token} {before rest : List (List Token)}

theorem levelsAfter_append : levelsAfter levels (before ++ rest) = levelsAfter (levelsAfter levels before) rest := by
  simp [levelsAfter]

theorem levelsAfter_cons : levelsAfter levels (line :: rest) = levelsAfter (levelsAfter levels [line]) rest :=
  @levelsAfter_append levels [line] rest

theorem levelsAfter_logical (h : isLogical line) : levelsAfter levels [line] = settle (width line) levels := by
  simp [levelsAfter, h]

theorem levelsAfter_blank (h : ¬ isLogical line) : levelsAfter levels [line] = levels := by
  simp [levelsAfter, h]

theorem pairwise_levelsAfter (h : levels.Pairwise (· > ·)) : (levelsAfter levels before).Pairwise (· > ·) := by
  induction before generalizing levels with
  | nil => exact h
  | cons line rest ih =>
      rw [levelsAfter_cons]
      by_cases hl : isLogical line
      · rw [levelsAfter_logical hl]
        exact ih (pairwise_settle h)
      · rw [levelsAfter_blank hl]
        exact ih h

end Levels

-- What is put before the tokens of a line from some open levels on.
def openingOf (levels : List Nat) (line : List Token) : List Token :=
  if isLogical line then (openLine ((line.head?.map (·.start)).getD 0) (width line) levels).1 else []

-- What lines come to with the layout before them, from some open levels on.
structure Run (levels : List Nat) (lines : List (List Token)) (out : List Token) : Prop where
  erased : erase out = lines.flatten
  bounded : ∀ token ∈ out.getLast?, token.origin ≠ .layout
  ended : count newline out + count unbalanced out + min 1 (levelsAfter levels lines).length =
    min 1 levels.length + (lines.filter (isLogical ·)).length
  surplus : count unbalanced out = 0 →
    count indent out + (levels.length - 1) = count dedent out + ((levelsAfter levels lines).length - 1)
  nested : count unbalanced out = 0 →
    ∀ front, front <+: out → count dedent front ≤ count indent front + (levels.length - 1)

section Run

variable {levels : List Nat} {line out others : List Token} {before rest : List (List Token)}

theorem Run.append (hb : Run levels before out) (hr : Run (levelsAfter levels before) rest others) :
    Run levels (before ++ rest) (out ++ others) := by
  constructor
  case erased => rw [erase_append, hb.erased, hr.erased, List.flatten_append]
  case bounded =>
    intro token ht
    rw [List.getLast?_append] at ht
    cases hlast : others.getLast? with
    | none => exact hb.bounded token (by simpa [hlast] using ht)
    | some last => exact hr.bounded token (by simpa [hlast] using ht)
  case ended =>
    have := hb.ended
    have := hr.ended
    rw [levelsAfter_append, List.filter_append, List.length_append, count_append, count_append]
    omega
  case surplus =>
    intro hu
    rw [count_append, Nat.add_eq_zero_iff] at hu
    have := hb.surplus hu.1
    have := hr.surplus hu.2
    rw [levelsAfter_append, count_append, count_append]
    omega
  case nested =>
    intro hu front hf
    rw [count_append, Nat.add_eq_zero_iff] at hu
    have hsurplus := hb.surplus hu.1
    rcases List.prefix_or_prefix_of_prefix hf (List.prefix_append out others) with hf | ⟨more, rfl⟩
    · exact hb.nested hu.1 front hf
    · have := hr.nested hu.2 more ((List.prefix_append_right_inj out).mp hf)
      rw [count_append, count_append]
      omega

theorem run_nil : Run levels [] [] := by
  constructor <;> simp [erase, levelsAfter]

theorem run_blank (hline : ∀ token ∈ line, token.origin ≠ .layout) (hl : ¬ isLogical line) :
    Run levels [line] (openingOf levels line ++ line) := by
  have hcount (name : String) : count name line = 0 := count_eq_zero hline
  rw [openingOf, if_neg hl, List.nil_append]
  constructor
  case erased => simpa using erase_eq_self hline
  case bounded => exact fun token ht => hline token (List.mem_of_getLast? ht)
  case ended => simp [hcount, levelsAfter_blank hl, hl]
  case surplus => simp [hcount, levelsAfter_blank hl]
  case nested =>
    intro _ front hf
    have hprefix : count dedent front ≤ count dedent line := count_le_of_prefix hf
    rw [hcount] at hprefix
    omega

theorem opening_openingOf (hlevels : levels.Pairwise (· > ·)) (hl : isLogical line) :
    Opening ((line.head?.map (·.start)).getD 0) (width line) levels (openingOf levels line)
      (levelsAfter levels [line]) := by
  rw [openingOf, if_pos hl, levelsAfter_logical hl, ← openLine_snd hlevels]
  exact opening_openLine hlevels

theorem run_logical (hlevels : levels.Pairwise (· > ·)) (hne : line ≠ [])
    (hline : ∀ token ∈ line, token.origin ≠ .layout) (hl : isLogical line) :
    Run levels [line] (openingOf levels line ++ line) := by
  have hopening := opening_openingOf hlevels hl
  have hcount (name : String) : count name line = 0 := count_eq_zero hline
  constructor
  case erased => simp [erase_eq_nil hopening.made, erase_eq_self hline]
  case bounded =>
    intro token ht
    rw [List.getLast?_append_of_ne_nil _ hne] at ht
    exact hline token (List.mem_of_getLast? ht)
  case ended =>
    have hpos : 0 < (levelsAfter levels [line]).length := by
      rw [levelsAfter_logical hl]
      exact List.length_pos_of_ne_nil settle_ne_nil
    have := hopening.ended
    simp only [count_append, hcount, List.filter_cons, hl, if_true, List.filter_nil, List.length_singleton]
    omega
  case surplus =>
    intro hu
    simp only [count_append, hcount] at hu ⊢
    exact hopening.surplus hu
  case nested =>
    intro _ front hf
    have hprefix : count dedent front ≤ count dedent (_ ++ line) := count_le_of_prefix hf
    have := hopening.dedents
    rw [count_append, hcount] at hprefix
    omega

theorem insertLines_cons (hlevels : levels.Pairwise (· > ·)) : insertLines levels (line :: rest) =
    (openingOf levels line ++ line ++ (insertLines (levelsAfter levels [line]) rest).1,
      (insertLines (levelsAfter levels [line]) rest).2) := by
  by_cases hl : isLogical line
  · rw [insertLines, if_pos hl, openingOf, if_pos hl, levelsAfter_logical hl, ← openLine_snd hlevels]
  · rw [insertLines, if_neg hl, openingOf, if_neg hl, levelsAfter_blank hl, List.nil_append]

-- A run over lines is one over the first of them, and then one over the others.
theorem insertLines_append (hlevels : levels.Pairwise (· > ·)) : insertLines levels (before ++ rest) =
    ((insertLines levels before).1 ++ (insertLines (levelsAfter levels before) rest).1,
      (insertLines (levelsAfter levels before) rest).2) := by
  induction before generalizing levels with
  | nil => rfl
  | cons line before ih =>
      have hcons : levelsAfter levels (line :: before) = levelsAfter (levelsAfter levels [line]) before :=
        levelsAfter_cons
      rw [List.cons_append, insertLines_cons hlevels, insertLines_cons hlevels, ih (pairwise_levelsAfter hlevels), hcons]
      simp only [List.append_assoc]

theorem insertLines_snd (hlevels : levels.Pairwise (· > ·)) :
    (insertLines levels rest).2 = levelsAfter levels rest := by
  induction rest generalizing levels with
  | nil => rfl
  | cons line rest ih => rw [insertLines_cons hlevels, ih (pairwise_levelsAfter hlevels), ← levelsAfter_cons]

theorem run_insertLines (hlevels : levels.Pairwise (· > ·)) (hne : ∀ line ∈ rest, line ≠ [])
    (hrest : ∀ line ∈ rest, ∀ token ∈ line, token.origin ≠ .layout) :
    Run levels rest (insertLines levels rest).1 := by
  induction rest generalizing levels with
  | nil => exact run_nil
  | cons line rest ih =>
      obtain ⟨hline, hlines⟩ := List.forall_mem_cons.mp hrest
      obtain ⟨hnonempty, hne⟩ := List.forall_mem_cons.mp hne
      have hrun : Run levels [line] (openingOf levels line ++ line) := by
        by_cases hl : isLogical line
        · exact run_logical hlevels hnonempty hline hl
        · exact run_blank hline hl
      rw [insertLines_cons hlevels]
      exact hrun.append (ih (pairwise_levelsAfter hlevels) hne hlines)

end Run

section Close

variable {levels : List Nat} {stop : Nat} {front : List Token}

theorem made_closeText : ∀ token ∈ closeText stop levels, token.origin = .layout := by
  cases levels <;> simp [closeText, Token.layout]

theorem count_closeText (name : String) : count name (closeText stop levels) =
    (if newline = name then min 1 levels.length else 0) + if dedent = name then levels.length - 1 else 0 := by
  cases levels with
  | nil => simp [closeText]
  | cons => simp [closeText, Nat.add_comm]

end Close

theorem insert_eq (tokens : List Token) : insert tokens = (insertLines [] (lines tokens)).1 ++
    closeText ((tokens.getLast?.map (·.stop)).getD 0) (levelsAfter [] (lines tokens)) := by
  rw [← insertLines_snd List.Pairwise.nil]
  rfl

theorem count_insert (name : String) (tokens : List Token) : count name (insert tokens) =
    count name (insertLines [] (lines tokens)).1 +
      ((if newline = name then min 1 (levelsAfter [] (lines tokens)).length else 0) +
        if dedent = name then (levelsAfter [] (lines tokens)).length - 1 else 0) := by
  rw [insert_eq, count_append, count_closeText]

-- What is put before a logical line by what is put before the lines up to it.
theorem opens_insert {tokens line : List Token} {before after : List (List Token)}
    (hlines : lines tokens = before ++ line :: after) (hl : isLogical line)
    (hb : Run [] before (insertLines [] before).1) :
    Opens (insert tokens) before line (insertLines [] before).1 (openingOf (levelsAfter [] before) line) := by
  have hlevels : (levelsAfter [] before).Pairwise (· > ·) := pairwise_levelsAfter List.Pairwise.nil
  have hopening := opening_openingOf hlevels hl
  have hopened : (insertLines [] before).1 ++ openingOf (levelsAfter [] before) line ++ line <+: insert tokens := by
    rw [insert_eq, hlines, insertLines_append List.Pairwise.nil, insertLines_cons hlevels]
    simp only [List.append_assoc]
    simp only [List.prefix_append_right_inj, List.prefix_append]
  constructor
  case opened => exact hopened
  case erased => exact hb.erased
  case bounded => exact hb.bounded
  case made => exact hopening.made
  case unbalanced_iff => exact hopening.dangling_iff hlevels
  case surplus =>
    intro hu
    have hle : count unbalanced _ ≤ count unbalanced (insert tokens) := count_le_of_prefix hopened
    simp only [count_append] at hle
    have := hb.surplus (by omega)
    have := hopening.surplus (by omega)
    simp only [count_append, levelsAfter_append]
    simp only [List.length_nil] at *
    omega

theorem laidOut_insert {tokens : List Token} (h : ∀ token ∈ tokens, token.origin ≠ .layout) :
    LaidOut tokens (insert tokens) := by
  have hne : ∀ line ∈ lines tokens, line ≠ [] := fun line hl => ne_nil_of_mem_lines hl
  have hlines : ∀ line ∈ lines tokens, ∀ token ∈ line, token.origin ≠ .layout := fun line hl token ht =>
    h token (flatten_lines tokens ▸ List.mem_flatten_of_mem hl ht)
  have hrun := run_insertLines List.Pairwise.nil hne hlines
  have hended := hrun.ended
  have hsurplus := hrun.surplus
  rw [List.length_nil] at hended hsurplus
  have hunbalanced : count unbalanced (insert tokens) = count unbalanced (insertLines [] (lines tokens)).1 := by
    rw [count_insert, if_neg (by decide), if_neg (by decide), Nat.add_zero]
  constructor
  case erased =>
    rw [insert_eq, erase_append, hrun.erased, flatten_lines, erase_eq_nil made_closeText, List.append_nil]
  case ended =>
    rw [hunbalanced, count_insert, if_pos rfl, if_neg (by decide)]
    omega
  case opens =>
    intro before line after hsplit hl
    have hbefore : ∀ line ∈ before, line ∈ lines tokens := fun line hb => by simp [hsplit, hb]
    exact ⟨_, _, opens_insert hsplit hl (run_insertLines List.Pairwise.nil (fun line hb => hne line (hbefore line hb))
      fun line hb => hlines line (hbefore line hb))⟩
  case nested =>
    intro hu front hf
    rw [hunbalanced] at hu
    rw [insert_eq] at hf
    rcases List.prefix_or_prefix_of_prefix hf (List.prefix_append ..) with hf | ⟨more, rfl⟩
    · simpa using hrun.nested hu front hf
    · have hmore : count dedent more ≤ count dedent _ :=
        count_le_of_prefix ((List.prefix_append_right_inj _).mp hf)
      rw [count_closeText, if_neg (by decide), if_pos rfl] at hmore
      have := hsurplus hu
      simp only [count_append]
      omega
  case closed =>
    intro hu
    rw [hunbalanced] at hu
    have := hsurplus hu
    rw [count_insert dedent, count_insert indent, if_neg (by decide), if_pos rfl, if_neg (by decide),
      if_neg (by decide)]
    omega

-- Two levels that a line closes at once, and one that is left open.
def stepped : List Token :=
  [.matched none "a" 0 1, .matched (some "<return>") "\n" 1 2, .matched (some "<ws>") "  " 2 4, .matched none "b" 4 5,
    .matched (some "<return>") "\n" 5 6, .matched (some "<ws>") "    " 6 10, .matched none "c" 10 11,
    .matched (some "<return>") "\n" 11 12, .matched none "d" 12 13, .matched (some "<return>") "\n" 13 14,
    .matched (some "<ws>") " " 14 15, .matched none "e" 15 16]

theorem laidOut_insert_stepped :
    (∀ token ∈ stepped, token.origin ≠ .layout) ∧ count unbalanced (insert stepped) = 0 ∧
      LaidOut stepped (insert stepped) :=
  ⟨by decide, by decide +kernel, laidOut_insert (by decide)⟩

end Layout

end IncrementalLR
