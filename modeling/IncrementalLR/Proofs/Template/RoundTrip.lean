import IncrementalLR.Proofs.Template.Legible
import IncrementalLR.Template.Printer

namespace IncrementalLR

open Source (Bounded takeWhile_of_bounded dropWhile_of_bounded)
open Text

namespace Template

section Characters

variable {c d : Char} {text : List Char} {n : Nat}

theorem isNameChar_of_isDigit (h : c.isDigit = true) : isNameChar c = true := by
  have hcodes : ∀ code < 58, 48 ≤ code → inRanges numericRanges code = true := by decide
  simp only [Char.isDigit, Bool.and_eq_true, decide_eq_true_eq] at h
  have hnumeric : isNumeric c = true := hcodes c.toNat (Nat.lt_succ_of_le h.2) h.1
  simp [isNameChar, hnumeric]

-- The signs that stand between the words of a template.
def marks : List Char := ['#', '.', '[', ']', '(', ')', ',', '+', '=']

theorem isNameChar_of_mem_marks (hc : c ∈ marks) : isNameChar c = false := by
  have hmarks : marks.all (!isNameChar ·) = true := by decide
  exact (Bool.not_eq_true' _).mp (List.all_eq_true.mp hmarks c hc)

theorem not_mem_marks_of_isNameChar (hc : isNameChar c = true) : c ∉ marks := fun hmem =>
  Bool.noConfusion (hc.symm.trans (isNameChar_of_mem_marks hmem))

theorem isBlank_of_mem_marks (hc : c ∈ marks) : isBlank c = false := by
  have hmarks : marks.all (!isBlank ·) = true := by decide
  exact (Bool.not_eq_true' _).mp (List.all_eq_true.mp hmarks c hc)

theorem isBlank_space : isBlank ' ' = true := by decide

theorem digitsValue_repr : digitsValue n.repr.toList = n := by
  rw [Nat.toList_repr]
  exact Nat.ofDigitChars_ten_toDigits

theorem isDigit_of_mem_repr (h : c ∈ n.repr.toList) : c.isDigit = true := by
  rw [Nat.toList_repr] at h
  exact Nat.isDigit_of_mem_toDigits (by decide) (by decide) h

theorem trimLeft_cons_blank (hc : isBlank c = true) : trimLeft (c :: text) = trimLeft text := by
  rw [trimLeft, List.dropWhile_cons_of_pos hc, trimLeft]

theorem trimLeft_cons (hc : isBlank c = false) : trimLeft (c :: text) = c :: text := by
  rw [trimLeft, List.dropWhile_cons_of_neg (by simp [hc])]

theorem trimLeft_mark (hc : c ∈ marks) : trimLeft (c :: text) = c :: text :=
  trimLeft_cons (isBlank_of_mem_marks hc)

theorem next?_mark (hc : c ∈ marks) : next? (c :: text) = some c := by
  rw [next?, trimLeft_mark hc, List.head?_cons]

theorem eat?_mark (hc : c ∈ marks) : eat? c (c :: text) = some text := by
  rw [eat?, trimLeft_mark hc]
  exact if_pos rfl

theorem eat?_eq_none (h : next? text ≠ some c) : eat? c text = none := by
  unfold eat? next? at *
  split
  · rfl
  · rename_i first rest hfirst
    rw [hfirst] at h
    exact if_neg fun he => h (congrArg some he)

theorem ok_bind {α β ε : Type} {value : α} {next : α → Except ε β} : Except.ok value >>= next = next value := rfl

theorem readPunctuation_mark (hc : c ∈ marks) : readPunctuation c (c :: text) = .ok text := by
  rw [readPunctuation, eat?_mark hc]

end Characters

section Blanks

variable {c : Char} {text : List Char} {fuel : Nat} (hc : isBlank c = true)

include hc

theorem next?_cons_blank : next? (c :: text) = next? text := by
  rw [next?, next?, trimLeft_cons_blank hc]

theorem readName_cons_blank : readName (c :: text) = readName text := by
  simp only [readName, leadingWord, refuse, trimLeft_cons_blank hc]

theorem readLookup_cons_blank : readLookup (c :: text) = readLookup text := by
  simp only [readLookup, eat?, refuse, trimLeft_cons_blank hc]

theorem readTerm_cons_blank : readTerm fuel (c :: text) = readTerm fuel text := by
  cases fuel <;> simp only [readTerm, refuse, readLookup_cons_blank hc, trimLeft_cons_blank hc]

theorem readNode_cons_blank : readNode fuel (c :: text) = readNode fuel text := by
  cases fuel <;> simp only [readNode, refuse, readName_cons_blank hc, trimLeft_cons_blank hc]

theorem readFields_cons_blank : readFields fuel (c :: text) = readFields fuel text := by
  cases fuel <;> simp only [readFields, refuse, readName_cons_blank hc, trimLeft_cons_blank hc]

theorem readElements_cons_blank : readElements fuel (c :: text) = readElements fuel text := by
  cases fuel <;> simp only [readElements, refuse, next?_cons_blank hc, readLookup_cons_blank hc,
    readNode_cons_blank hc, trimLeft_cons_blank hc]

end Blanks

section Words

variable {text rest : List Char} {name : String} {item : Lookup} {c d : Char}

-- The first character of a word begins no other part of a template.
theorem IsWord.exists_cons (hw : IsWord name) : ∃ c letters, name.toList = c :: letters ∧ isNameChar c = true := by
  obtain ⟨c, letters, hname⟩ := List.exists_cons_of_ne_nil hw.chars.1
  exact ⟨c, letters, hname, hw.chars.2 c (hname ▸ List.mem_cons_self)⟩

theorem IsWord.trimLeft_append (hw : IsWord name) : trimLeft (name.toList ++ rest) = name.toList ++ rest := by
  obtain ⟨c, letters, hname, hc⟩ := hw.exists_cons
  rw [hname, List.cons_append, trimLeft_cons (not_isBlank_of_isNameChar hc)]

theorem IsWord.next?_append (hw : IsWord name) : next? (name.toList ++ rest) = name.toList.head? := by
  obtain ⟨c, letters, hname, hc⟩ := hw.exists_cons
  rw [next?, hw.trimLeft_append, hname, List.cons_append, List.head?_cons, List.head?_cons]

theorem IsWord.leadingWord_append (hw : IsWord name) (hb : Bounded rest) :
    leadingWord (name.toList ++ rest) = name.toList := by
  rw [leadingWord, hw.trimLeft_append, List.takeWhile_append_of_pos hw.chars.2, takeWhile_of_bounded hb,
    List.append_nil]

theorem readName_append (hw : IsWord name) (hb : Bounded rest) :
    readName (name.toList ++ rest) = .ok (name, rest) := by
  have hafter : (trimLeft (name.toList ++ rest)).dropWhile isNameChar = rest := by
    rw [hw.trimLeft_append, List.dropWhile_append_of_pos hw.chars.2, dropWhile_of_bounded hb]
  obtain ⟨c, letters, hname, -⟩ := hw.exists_cons
  have hc : c.isDigit = false := hw.undigited c (hname ▸ rfl)
  have hwhole : String.ofList (c :: letters) = name := by rw [← hname, String.ofList_toList]
  rw [readName, (hw.leadingWord_append hb).trans hname, hafter]
  simp only [hc, hwhole, Bool.false_eq_true, if_false]

theorem bounded_nil : Bounded [] := nofun

theorem bounded_cons_of (hc : isNameChar c = false) : Bounded (c :: rest) := by
  rintro d ⟨⟩
  exact hc

theorem bounded_mark (hc : c ∈ marks) : Bounded (c :: rest) := bounded_cons_of (isNameChar_of_mem_marks hc)

-- A text that goes on neither a name nor a lookup.
structure Ends (rest : List Char) : Prop where
  bounded : Bounded rest
  undotted : next? rest ≠ some '.'

theorem readLookup_append (hl : item.Legible) (he : Ends rest) :
    readLookup (item.display.toList ++ rest) = .ok (item, rest) := by
  obtain ⟨index, attr⟩ := item
  obtain ⟨hindex, hattr⟩ := hl
  have hdigits : ∀ c ∈ index.repr.toList, c.isDigit = true := fun c => isDigit_of_mem_repr
  have hne : index.repr.toList ≠ [] := by
    rw [Nat.toList_repr]
    exact Nat.toDigits_ne_nil
  have hread : readDigits? bound64 index.repr.toList = some index := by
    simp only [readDigits?, digitsValue_repr, List.all_eq_true.mpr hdigits, decide_eq_true hindex,
      List.isEmpty_eq_false_iff.mpr hne, Bool.not_false, Bool.and_self, if_true]
  -- no digit follows those of the index
  have hstop : ∀ after : List Char, Bounded after →
      (index.repr.toList ++ after).takeWhile Char.isDigit = index.repr.toList ∧
        (index.repr.toList ++ after).dropWhile Char.isDigit = after := fun after hb => by
    have hhead : ∀ c ∈ after.head?, c.isDigit = false := fun c hc =>
      Bool.eq_false_iff.mpr fun hd => Bool.eq_false_iff.mp (hb c hc) (isNameChar_of_isDigit hd)
    rw [List.takeWhile_append_of_pos hdigits, List.dropWhile_append_of_pos hdigits]
    cases after with
    | nil => exact ⟨List.append_nil _, rfl⟩
    | cons c after => simp [hhead c rfl]
  have hhash : '#' ∈ marks := by decide
  have hdot : '.' ∈ marks := by decide
  cases attr with
  | none =>
      have htext : (Lookup.display ⟨index, none⟩).toList ++ rest = '#' :: (index.repr.toList ++ rest) := by
        simp [Lookup.display, Nat.toString_eq_repr]
      rw [htext, readLookup, eat?_mark hhash]
      simp only [hstop rest he.bounded, hread, eat?_eq_none he.undotted]
  | some attr =>
      have htext : (Lookup.display ⟨index, some attr⟩).toList ++ rest =
          '#' :: (index.repr.toList ++ '.' :: (attr.toList ++ rest)) := by
        simp [Lookup.display, Nat.toString_eq_repr]
      rw [htext, readLookup, eat?_mark hhash]
      simp only [hstop _ (bounded_mark hdot), hread, eat?_mark hdot, readName_append (hattr attr rfl) he.bounded]
      rfl

theorem ends_nil : Ends [] := ⟨bounded_nil, nofun⟩

theorem next?_mark_ne (hc : c ∈ marks) (hd : c ≠ d) : next? (c :: rest) ≠ some d := by
  rw [next?_mark hc]
  exact fun he => hd (Option.some.inj he)

theorem ends_mark (hc : c ∈ marks) (hdot : c ≠ '.') : Ends (c :: rest) :=
  ⟨bounded_mark hc, next?_mark_ne hc hdot⟩

theorem ends_plus : Ends (' ' :: '+' :: rest) := by
  have hname : isNameChar ' ' = false :=
    eq_false_of_ne_true fun h => absurd isBlank_space (by simp [not_isBlank_of_isNameChar h])
  refine ⟨bounded_cons_of hname, ?_⟩
  rw [next?_cons_blank isBlank_space]
  exact next?_mark_ne (by decide) (by decide)

end Words

end Template

-- The number of terms of a sum.
def ValueExpr.terms : ValueExpr → Nat
  | .add left _ => left.terms + 1
  | _ => 1

namespace Template

section Displays

variable {fields : Fields} {elements : Elements} {item : Lookup} {more : List Char}

theorem toList_lookup : ∃ letters, item.display.toList = '#' :: letters := by simp [Lookup.display]

-- A value begins with a lookup or with a list.
theorem toList_value : (value : ValueExpr) → ∃ c letters, value.display.toList = c :: letters ∧ (c = '#' ∨ c = '[')
  | .lookup item => by
      obtain ⟨letters, h⟩ := @toList_lookup item
      exact ⟨'#', letters, h, Or.inl rfl⟩
  | .list elements => ⟨'[', _, by simp [ValueExpr.display]; rfl, Or.inr rfl⟩
  | .add left right => by
      obtain ⟨c, letters, h, hc⟩ := toList_value left
      exact ⟨c, _, by simp [ValueExpr.display, h]; rfl, hc⟩

theorem terms_le_length : (value : ValueExpr) → value.terms ≤ value.display.toList.length
  | .lookup item => by simp [ValueExpr.terms, ValueExpr.display, Lookup.display]
  | .list elements => by simp [ValueExpr.terms, ValueExpr.display]
  | .add left right => by
      have := terms_le_length left
      simp only [ValueExpr.terms, ValueExpr.display, String.toList_append, List.length_append]
      have hplus : " + ".toList.length = 3 := rfl
      omega

theorem toList_fields_comma (hne : fields ≠ .nil) :
    (fields.display ", ").toList = ',' :: ' ' :: (fields.display "").toList := by
  cases fields with
  | nil => exact absurd rfl hne
  | value | reference => simp [Fields.display]

theorem toList_elements_comma (hne : elements ≠ .nil) :
    (elements.display ", ").toList = ',' :: ' ' :: (elements.display "").toList := by
  cases elements with
  | nil => exact absurd rfl hne
  | lookup | node => simp [Elements.display]

end Displays

-- What follows an element or a field ends it.
theorem ends_elements (elements : Elements) (more : List Char) : Ends ((elements.display ", ").toList ++ ']' :: more) := by
  by_cases hnil : elements = .nil
  · rw [hnil]
    exact ends_mark (by decide) (by decide)
  · rw [toList_elements_comma hnil]
    exact ends_mark (by decide) (by decide)

-- No term is added behind a field, either.
theorem ends_fields (fields : Fields) (more : List Char) : Ends ((fields.display ", ").toList ++ ')' :: more) ∧
    next? ((fields.display ", ").toList ++ ')' :: more) ≠ some '+' := by
  by_cases hnil : fields = .nil
  · rw [hnil]
    exact ⟨ends_mark (by decide) (by decide), next?_mark_ne (by decide) (by decide)⟩
  · rw [toList_fields_comma hnil]
    exact ⟨ends_mark (by decide) (by decide), next?_mark_ne (by decide) (by decide)⟩

end Template

open Template

-- A part of a template is read as it is written, within twice as many calls as it has
-- characters.
def NodeExpr.Reads (node : NodeExpr) : Prop := ∀ {fuel : Nat} (rest : List Char),
  2 * node.display.toList.length ≤ fuel → readNode fuel (node.display.toList ++ rest) = .ok (node, rest)

def Fields.Reads (fields : Fields) : Prop := ∀ {fuel : Nat} (rest : List Char),
  2 * (fields.display "").toList.length ≤ fuel →
    readFields fuel ((fields.display "").toList ++ ')' :: rest) = .ok (fields, ')' :: rest)

def Elements.Reads (elements : Elements) : Prop := ∀ {fuel : Nat} (rest : List Char),
  2 * (elements.display "").toList.length < fuel →
    readElements fuel ((elements.display "").toList ++ ']' :: rest) = .ok (elements, ']' :: rest)

-- A sum that has been read up to some term may go on behind it.
structure ValueExpr.Reads (value : ValueExpr) : Prop where
  term : value.IsTerm → ∀ {fuel : Nat} {rest : List Char}, Ends rest → 2 * value.display.toList.length ≤ fuel + 1 →
    readTerm fuel (value.display.toList ++ rest) = .ok (value, rest)
  sum : ∀ {fuel : Nat} {rest : List Char}, Ends rest → 2 * value.display.toList.length ≤ fuel →
    readValue fuel (value.display.toList ++ rest) = readSum (fuel - value.terms) value rest

namespace Template

section Reads

variable {value left right : ValueExpr} {elements others : Elements} {fields : Fields} {node : NodeExpr}
  {item : Lookup} {name base field : String}

theorem reads_of_term (hterms : value.terms = 1)
    (h : ∀ {fuel : Nat} {rest : List Char}, Ends rest → 2 * value.display.toList.length ≤ fuel + 1 →
      readTerm fuel (value.display.toList ++ rest) = .ok (value, rest)) : value.Reads := by
  refine ⟨fun _ => h, fun {fuel rest} he hfuel => ?_⟩
  have hpos := terms_le_length value
  obtain ⟨fuel, rfl⟩ : ∃ less, fuel = less + 1 := ⟨fuel - 1, by omega⟩
  rw [readValue, h he hfuel, hterms]
  rfl

theorem reads_lookup (hl : item.Legible) : (ValueExpr.lookup item).Reads := by
  refine reads_of_term rfl fun {fuel rest} he hfuel => ?_
  obtain ⟨letters, htext⟩ := @toList_lookup item
  rw [ValueExpr.display] at hfuel ⊢
  obtain ⟨fuel, rfl⟩ : ∃ less, fuel = less + 1 := ⟨fuel - 1, by simp [htext] at hfuel; omega⟩
  have htrim : trimLeft (item.display.toList ++ rest) = '#' :: (letters ++ rest) := by
    rw [htext]
    exact trimLeft_mark (by decide)
  rw [readTerm, htrim]
  simp only [readLookup_append hl he]
  rfl

theorem reads_list (hfirst : elements ≠ .nil → ∀ rest, next? ((elements.display "").toList ++ rest) ≠ some ']')
    (he : elements ≠ .nil → elements.Reads) : (ValueExpr.list elements).Reads := by
  refine reads_of_term rfl fun {fuel rest} _ hfuel => ?_
  have htext : (ValueExpr.list elements).display.toList ++ rest = '[' :: ((elements.display "").toList ++ ']' :: rest) := by
    simp [ValueExpr.display]
  have hlength : (ValueExpr.list elements).display.toList.length = (elements.display "").toList.length + 2 := by
    simp [ValueExpr.display]
  have hclose : ']' ∈ marks := by decide
  obtain ⟨fuel, rfl⟩ : ∃ less, fuel = less + 1 := ⟨fuel - 1, by omega⟩
  rw [htext, readTerm, trimLeft_mark (by decide)]
  by_cases hnil : elements = .nil
  · subst hnil
    simp only [Elements.display, String.toList_empty, List.nil_append, eat?_mark hclose]
  · have helements := @he hnil fuel rest (by omega)
    simp only [eat?_eq_none (hfirst hnil _), helements, ok_bind, readPunctuation_mark hclose]
    rfl

theorem readSum_plus {sum : ValueExpr} {fuel : Nat} {text rest : List Char}
    (hr : readTerm fuel text = .ok (right, rest)) :
    readSum (fuel + 1) sum (' ' :: '+' :: ' ' :: text) = readSum fuel (.add sum right) rest := by
  have heat : eat? '+' (' ' :: '+' :: ' ' :: text) = some (' ' :: text) := by
    rw [eat?, trimLeft_cons_blank isBlank_space, trimLeft_mark (by decide)]
    rfl
  simp only [readSum, heat, readTerm_cons_blank isBlank_space, hr]
  rfl

theorem reads_add (hl : left.Reads) (hr : right.Reads) (hterm : right.IsTerm) : (ValueExpr.add left right).Reads := by
  refine ⟨False.elim, fun {fuel rest} he hfuel => ?_⟩
  have htext : (ValueExpr.add left right).display.toList ++ rest =
      left.display.toList ++ ' ' :: '+' :: ' ' :: (right.display.toList ++ rest) := by simp [ValueExpr.display]
  have hlength : (ValueExpr.add left right).display.toList.length =
      left.display.toList.length + right.display.toList.length + 3 := by
    simp [ValueExpr.display]; omega
  have hterms := terms_le_length left
  obtain ⟨less, hless⟩ : ∃ less, fuel - left.terms = less + 1 := ⟨fuel - left.terms - 1, by omega⟩
  have hfewer : fuel - (ValueExpr.add left right).terms = less := by
    rw [ValueExpr.terms]
    omega
  rw [htext, hl.sum ends_plus (by omega), hless, readSum_plus (hr.term hterm he (by omega)), hfewer]

-- A sum ends where no term is added.
theorem readValue_append {fuel : Nat} {rest : List Char} (hr : value.Reads) (he : Ends rest) (hplus : next? rest ≠ some '+')
    (hfuel : 2 * value.display.toList.length ≤ fuel) :
    readValue fuel (value.display.toList ++ rest) = .ok (value, rest) := by
  have hterms := terms_le_length value
  obtain ⟨c, letters, htext, -⟩ := toList_value value
  have hpos : 0 < value.display.toList.length := by simp [htext]
  obtain ⟨less, hless⟩ : ∃ less, fuel - value.terms = less + 1 := ⟨fuel - value.terms - 1, by omega⟩
  rw [hr.sum he hfuel, hless, readSum, eat?_eq_none hplus]

theorem reads_node (hw : IsWord name) (hf : fields.Reads) : (NodeExpr.mk name fields).Reads := by
  intro fuel rest hfuel
  have htext : (NodeExpr.mk name fields).display.toList ++ rest =
      name.toList ++ '(' :: ((fields.display "").toList ++ ')' :: rest) := by simp [NodeExpr.display]
  have hlength : (NodeExpr.mk name fields).display.toList.length =
      name.toList.length + (fields.display "").toList.length + 2 := by
    simp [NodeExpr.display]; omega
  obtain ⟨fuel, rfl⟩ : ∃ less, fuel = less + 1 := ⟨fuel - 1, by omega⟩
  have hopen : '(' ∈ marks := by decide
  have hclose : ')' ∈ marks := by decide
  rw [htext, readNode]
  simp only [readName_append hw (bounded_mark hopen), ok_bind, readPunctuation_mark hopen, @hf fuel rest (by omega),
    readPunctuation_mark hclose]
  rfl

-- The elements behind the first, if there are any.
theorem readElements_comma {fuel : Nat} {rest : List Char} (ho : others ≠ .nil → others.Reads)
    (hfuel : 2 * (others.display ", ").toList.length ≤ fuel) :
    (others = .nil ∧ eat? ',' ((others.display ", ").toList ++ ']' :: rest) = none) ∨
      ∃ after, eat? ',' ((others.display ", ").toList ++ ']' :: rest) = some after ∧
        readElements fuel after = .ok (others, ']' :: rest) := by
  by_cases hnil : others = .nil
  · subst hnil
    exact Or.inl ⟨rfl, eat?_eq_none (next?_mark_ne (by decide) (by decide))⟩
  · rw [toList_elements_comma hnil, List.length_cons, List.length_cons] at hfuel
    rw [toList_elements_comma hnil, List.cons_append, List.cons_append]
    refine Or.inr ⟨_, eat?_mark (by decide), ?_⟩
    rw [readElements_cons_blank isBlank_space]
    exact ho hnil rest (by omega)

theorem readFields_comma {fuel : Nat} {rest : List Char} {others : Fields} (ho : others ≠ .nil → others.Reads)
    (hfuel : 2 * (others.display ", ").toList.length ≤ fuel) :
    (others = .nil ∧ eat? ',' ((others.display ", ").toList ++ ')' :: rest) = none) ∨
      ∃ after, eat? ',' ((others.display ", ").toList ++ ')' :: rest) = some after ∧
        readFields fuel after = .ok (others, ')' :: rest) := by
  by_cases hnil : others = .nil
  · subst hnil
    exact Or.inl ⟨rfl, eat?_eq_none (next?_mark_ne (by decide) (by decide))⟩
  · rw [toList_fields_comma hnil, List.length_cons, List.length_cons] at hfuel
    rw [toList_fields_comma hnil, List.cons_append, List.cons_append]
    refine Or.inr ⟨_, eat?_mark (by decide), ?_⟩
    rw [readFields_cons_blank isBlank_space]
    exact ho hnil rest (by omega)

theorem reads_elements_lookup (hl : item.Legible) (ho : others ≠ .nil → others.Reads) :
    (Elements.lookup item others).Reads := by
  intro fuel rest hfuel
  obtain ⟨letters, hletters⟩ := @toList_lookup item
  have htext : ((Elements.lookup item others).display "").toList ++ ']' :: rest =
      item.display.toList ++ ((others.display ", ").toList ++ ']' :: rest) := by simp [Elements.display]
  have hlength : ((Elements.lookup item others).display "").toList.length =
      item.display.toList.length + (others.display ", ").toList.length := by simp [Elements.display]
  have hpos : 0 < item.display.toList.length := by simp [hletters]
  obtain ⟨fuel, rfl⟩ : ∃ less, fuel = less + 1 := ⟨fuel - 1, by omega⟩
  have hread := readLookup_append hl (ends_elements others rest)
  have hnext : next? (item.display.toList ++ ((others.display ", ").toList ++ ']' :: rest)) = some '#' := by
    rw [hletters]
    exact next?_mark (by decide)
  rw [htext, readElements, if_pos hnext, hread]
  rcases @readElements_comma others fuel rest ho (by omega) with ⟨rfl, hcomma⟩ | ⟨after, hcomma, hothers⟩
  · simp only [ok_bind, hcomma]
    rfl
  · simp only [ok_bind, hcomma, hothers]
    rfl

theorem next?_node (hl : node.Legible) (rest : List Char) :
    ∃ c, next? (node.display.toList ++ rest) = some c ∧ isNameChar c = true := by
  obtain ⟨name, fields⟩ := node
  obtain ⟨c, letters, hname, hc⟩ := hl.1.exists_cons
  have htext : (NodeExpr.mk name fields).display.toList ++ rest =
      name.toList ++ '(' :: ((fields.display "").toList ++ ')' :: rest) := by simp [NodeExpr.display]
  exact ⟨c, by rw [htext, hl.1.next?_append, hname, List.head?_cons], hc⟩

theorem reads_elements_node (hl : node.Legible) (hn : node.Reads) (ho : others ≠ .nil → others.Reads) :
    (Elements.node node others).Reads := by
  intro fuel rest hfuel
  have htext : ((Elements.node node others).display "").toList ++ ']' :: rest =
      node.display.toList ++ ((others.display ", ").toList ++ ']' :: rest) := by simp [Elements.display]
  have hlength : ((Elements.node node others).display "").toList.length =
      node.display.toList.length + (others.display ", ").toList.length := by simp [Elements.display]
  obtain ⟨fuel, rfl⟩ : ∃ less, fuel = less + 1 := ⟨fuel - 1, by omega⟩
  obtain ⟨c, hnext, hc⟩ := next?_node hl ((others.display ", ").toList ++ ']' :: rest)
  have hne : next? (node.display.toList ++ ((others.display ", ").toList ++ ']' :: rest)) ≠ some '#' := by
    rw [hnext]
    rintro ⟨⟩
    exact not_mem_marks_of_isNameChar hc (by decide)
  have hpos : 0 < node.display.toList.length := by
    obtain ⟨name, fields⟩ := node
    simp [NodeExpr.display]
  rw [htext, readElements, if_neg hne, @hn fuel _ (by omega)]
  rcases @readElements_comma others fuel rest ho (by omega) with ⟨rfl, hcomma⟩ | ⟨after, hcomma, hothers⟩
  · simp only [ok_bind, hcomma]
    rfl
  · simp only [ok_bind, hcomma, hothers]
    rfl

theorem reads_fields_value {others : Fields} (hw : IsWord name) (hv : value.Reads) (ho : others ≠ .nil → others.Reads) :
    (Fields.value name value others).Reads := by
  intro fuel rest hfuel
  have htext : ((Fields.value name value others).display "").toList ++ ')' :: rest =
      name.toList ++ '=' :: (value.display.toList ++ ((others.display ", ").toList ++ ')' :: rest)) := by
    simp [Fields.display]
  have hlength : ((Fields.value name value others).display "").toList.length =
      name.toList.length + value.display.toList.length + (others.display ", ").toList.length + 1 := by
    simp [Fields.display]; omega
  obtain ⟨fuel, rfl⟩ : ∃ less, fuel = less + 1 := ⟨fuel - 1, by omega⟩
  obtain ⟨hends, hplus⟩ := ends_fields others rest
  have hequals : '=' ∈ marks := by decide
  have hstarts : startsReference (value.display.toList ++ ((others.display ", ").toList ++ ')' :: rest)) = false := by
    obtain ⟨c, letters, hletters, hc⟩ := toList_value value
    have hmark : c ∈ marks := by rcases hc with rfl | rfl <;> decide
    have hletter := isNameChar_of_mem_marks hmark
    rw [isNameChar, Bool.or_eq_false_iff, Bool.or_eq_false_iff] at hletter
    rw [startsReference, hletters, List.cons_append, next?_mark hmark]
    exact Bool.or_eq_false_iff.mpr ⟨hletter.1.1, hletter.2⟩
  have hread := @readValue_append value fuel _ hv hends hplus (by omega)
  rw [htext, readFields, readName_append hw (bounded_mark hequals)]
  simp only [ok_bind, readPunctuation_mark hequals, hstarts, Bool.false_eq_true, if_false, hread]
  rcases @readFields_comma fuel rest others ho (by omega) with ⟨rfl, hcomma⟩ | ⟨after, hcomma, hothers⟩
  · simp only [hcomma]
    rfl
  · simp only [hcomma, hothers, ok_bind]
    rfl

theorem reads_fields_reference {others : Fields} (hw : IsWord name) (hb : IsWord base) (hbegins : BeginsReference base)
    (hf : IsWord field) (ho : others ≠ .nil → others.Reads) : (Fields.reference name base field others).Reads := by
  intro fuel rest hfuel
  have htext : ((Fields.reference name base field others).display "").toList ++ ')' :: rest =
      name.toList ++ '=' :: (base.toList ++ '.' :: (field.toList ++ ((others.display ", ").toList ++ ')' :: rest))) := by
    simp [Fields.display]
  have hlength : ((Fields.reference name base field others).display "").toList.length =
      name.toList.length + base.toList.length + field.toList.length + (others.display ", ").toList.length + 2 := by
    simp [Fields.display]; omega
  obtain ⟨fuel, rfl⟩ : ∃ less, fuel = less + 1 := ⟨fuel - 1, by omega⟩
  have hfield := readName_append hf (ends_fields others rest).1.bounded
  have hdot : '.' ∈ marks := by decide
  have hequals : '=' ∈ marks := by decide
  have hstarts : startsReference
      (base.toList ++ '.' :: (field.toList ++ ((others.display ", ").toList ++ ')' :: rest))) = true := by
    obtain ⟨c, letters, hletters, -⟩ := hb.exists_cons
    rw [startsReference, hb.next?_append, hletters]
    exact hbegins c (hletters ▸ rfl)
  rw [htext, readFields, readName_append hw (bounded_mark hequals)]
  simp only [ok_bind, readPunctuation_mark hequals, hstarts, if_true, readName_append hb (bounded_mark hdot),
    readPunctuation_mark hdot, hfield]
  rcases @readFields_comma fuel rest others ho (by omega) with ⟨rfl, hcomma⟩ | ⟨after, hcomma, hothers⟩
  · simp only [hcomma]
    rfl
  · simp only [hcomma, hothers, ok_bind]
    rfl

theorem next?_elements (hl : elements.Legible) (hne : elements ≠ .nil) (rest : List Char) :
    next? ((elements.display "").toList ++ rest) ≠ some ']' := by
  cases elements with
  | nil => exact absurd rfl hne
  | lookup item others =>
      obtain ⟨letters, hletters⟩ := @toList_lookup item
      have htext : ((Elements.lookup item others).display "").toList ++ rest =
          '#' :: (letters ++ ((others.display ", ").toList ++ rest)) := by simp [Elements.display, hletters]
      rw [htext]
      exact next?_mark_ne (by decide) (by decide)
  | node node others =>
      have htext : ((Elements.node node others).display "").toList ++ rest =
          node.display.toList ++ ((others.display ", ").toList ++ rest) := by simp [Elements.display]
      obtain ⟨c, hnext, hc⟩ := next?_node hl.1 ((others.display ", ").toList ++ rest)
      rw [htext, hnext]
      rintro ⟨⟩
      exact not_mem_marks_of_isNameChar hc (by decide)

-- Along the shape of a template, each of its parts is read as it is written.
mutual
theorem reads_value : (value : ValueExpr) → value.Legible → value.Reads
  | .lookup _, hl => reads_lookup hl
  | .list elements, hl => reads_list (next?_elements hl) (reads_elements elements hl)
  | .add left right, hl => reads_add (reads_value left hl.1) (reads_value right hl.2.1) hl.2.2
theorem reads_elements : (elements : Elements) → elements.Legible → elements ≠ .nil → elements.Reads
  | .nil, _, hne => absurd rfl hne
  | .lookup _ others, hl, _ => reads_elements_lookup hl.1 (reads_elements others hl.2)
  | .node first others, hl, _ => reads_elements_node hl.1 (reads_nodeExpr first hl.1) (reads_elements others hl.2)
theorem reads_nodeExpr : (node : NodeExpr) → node.Legible → node.Reads
  | .mk _ fields, hl => reads_node hl.1 (reads_fields fields hl.2.1 hl.2.2)
theorem reads_fields : (fields : Fields) → fields.Legible → fields ≠ .nil → fields.Reads
  | .nil, _, hne => absurd rfl hne
  | .value _ expr others, hl, _ => reads_fields_value hl.1 (reads_value expr hl.2.1) (reads_fields others hl.2.2)
  | .reference _ _ _ others, hl, _ =>
      reads_fields_reference hl.1 hl.2.1 hl.2.2.1 hl.2.2.2.1 (reads_fields others hl.2.2.2.2)
end

end Reads

section Display

variable {template : Template}

theorem read_display (hl : template.Legible) : read template.display.toList = .ok (template, []) := by
  have hbound {text part : List Char} (h : part.length ≤ text.length) : 2 * part.length ≤ depthBound text := by
    rw [depthBound]
    omega
  cases template with
  | value expr =>
      obtain ⟨c, letters, htext, hc⟩ := toList_value expr
      have hmark : c ∈ marks := by rcases hc with rfl | rfl <;> decide
      have hnext : next? expr.display.toList = some c := by
        rw [htext]
        exact next?_mark hmark
      have hread := readValue_append (reads_value expr hl) ends_nil nofun (hbound (Nat.le_refl _))
      rw [List.append_nil] at hread
      rw [display, read, hnext]
      rcases hc with rfl | rfl
      · simp only [hread]
        rfl
      · simp only [hread]
        rfl
  | node expr =>
      obtain ⟨hexpr, hname⟩ := hl
      obtain ⟨c, hnext, hc⟩ := next?_node hexpr []
      have hread := @reads_nodeExpr expr hexpr _ [] (hbound (Nat.le_refl expr.display.toList.length))
      rw [List.append_nil] at hnext hread
      have hword : leadingWord expr.display.toList ≠ "foreach".toList := by
        rw [← name_of_readNode hread]
        exact fun he => hname (String.toList_inj.mp he)
      have hsigns : c ≠ '#' ∧ c ≠ '[' := by
        constructor <;> rintro rfl <;> exact not_mem_marks_of_isNameChar hc (by decide)
      rw [display, read, hnext]
      split
      · rename_i he
        exact absurd (Option.some.inj he) hsigns.1
      · rename_i he
        exact absurd (Option.some.inj he) hsigns.2
      · rw [if_neg hword, hread]
        rfl
  | foreach item expr =>
      obtain ⟨hitem, hexpr⟩ := hl
      have htext : (Template.foreach item expr).display.toList =
          "foreach".toList ++ '(' :: (item.display.toList ++ ')' :: ' ' :: (expr.display.toList ++ [])) := by
        simp [display]
      have hword : IsWord "foreach" := ⟨isName_of_all (by decide), by rintro c ⟨⟩; rfl⟩
      have hopen : '(' ∈ marks := by decide
      have hclose : ')' ∈ marks := by decide
      have hlength : expr.display.toList.length ≤ (Template.foreach item expr).display.toList.length := by
        rw [htext]
        simp only [List.append_nil, List.length_append, List.length_cons]
        omega
      have hread := @reads_nodeExpr expr hexpr _ [] (hbound hlength)
      rw [htext] at hread ⊢
      rw [read, hword.next?_append]
      simp only [hword.leadingWord_append (bounded_mark hopen), if_true, readName_append hword (bounded_mark hopen), ok_bind,
        readPunctuation_mark hopen, readLookup_append hitem (ends_mark hclose (by decide)), readPunctuation_mark hclose,
        readNode_cons_blank isBlank_space, hread]
      rfl

-- What is read of a template is read again of the text that it is written as.
theorem parse_display_of_parse {text : String} (h : parse text = .ok template) :
    parse template.display = .ok template := by
  unfold parse at h
  split at h
  · cases h
  · rename_i read rest hread
    split at h
    · cases h
      rw [parse, read_display (legible_of_read hread)]
      rfl
    · cases h

-- A list of nodes of the name that begins the template, and what is written in other ways.
theorem parse_display_of_parse_foreach :
    let text := "foreach( #02 . items )Ítem(a=#1+[ ]+[foreach(x=it . y) ,#007.ü],b_2=_x. z)"
    let template := Template.foreach ⟨2, some "items"⟩ (.mk "Ítem"
      (.value "a" (.add (.add (.lookup ⟨1, none⟩) (.list .nil))
        (.list (.node (.mk "foreach" (.reference "x" "it" "y" .nil)) (.lookup ⟨7, some "ü"⟩ .nil))))
          (.reference "b_2" "_x" "z" .nil)))
    let printed := "foreach(#2.items) Ítem(a=#1 + [] + [foreach(x=it.y), #7.ü], b_2=_x.z)"
    parse text = .ok template ∧ template.display = printed ∧ parse printed = .ok template := by
  intro text template printed
  have hparse : parse text = .ok template := by decide +kernel
  have hprinted : template.display = printed := by decide +kernel
  exact ⟨hparse, hprinted, hprinted ▸ parse_display_of_parse hparse⟩

end Display

end Template

end IncrementalLR
