import Mathlib.Order.Bounds.Basic
import IncrementalLR.Diagnostic.EditDistance
import IncrementalLR.Proofs.Arrays

namespace IncrementalLR

namespace EditDistance

-- One character is added, dropped or replaced, anywhere in a text.
inductive Alters : List Char → List Char → Prop where
  | add (before after : List Char) (c : Char) : Alters (before ++ after) (before ++ c :: after)
  | drop (before after : List Char) (c : Char) : Alters (before ++ c :: after) (before ++ after)
  | replace (before after : List Char) (c d : Char) : Alters (before ++ c :: after) (before ++ d :: after)

-- Whether a text is turned into another by so many alterations, in whatever order and
-- by way of whatever texts.
inductive MadeIn : Nat → List Char → List Char → Prop where
  | refl (text : List Char) : MadeIn 0 text text
  | tail {count : Nat} {text middle other : List Char} :
      MadeIn count text middle → Alters middle other → MadeIn (count + 1) text other

-- Two texts side by side, with a count of the places where they differ.
inductive Aligned : Nat → List Char → List Char → Prop where
  | nil : Aligned 0 [] []
  | keep {count : Nat} {text other : List Char} (c : Char) :
      Aligned count text other → Aligned count (c :: text) (c :: other)
  | add {count : Nat} {text other : List Char} (d : Char) :
      Aligned count text other → Aligned (count + 1) text (d :: other)
  | drop {count : Nat} {text other : List Char} (c : Char) :
      Aligned count text other → Aligned (count + 1) (c :: text) other
  | replace {count : Nat} {text other : List Char} (c d : Char) :
      Aligned count text other → Aligned (count + 1) (c :: text) (d :: other)

section

variable {text middle other text' other' before after : List Char} {c d : Char} {count more : Nat}

theorem Alters.cons (c : Char) (h : Alters text other) : Alters (c :: text) (c :: other) := by
  cases h with
  | add before after d => exact .add (c :: before) after d
  | drop before after d => exact .drop (c :: before) after d
  | replace before after d e => exact .replace (c :: before) after d e

-- The three have in common that one piece of at most one character gives way to another.
theorem Alters.exists_pieces (h : Alters text other) :
    ∃ before piece revised after, text = before ++ (piece ++ after) ∧
      other = before ++ (revised ++ after) ∧ piece.length ≤ 1 ∧ revised.length ≤ 1 := by
  cases h with
  | add before after c => exact ⟨before, [], [c], after, rfl, rfl, Nat.zero_le _, Nat.le_refl _⟩
  | drop before after c => exact ⟨before, [c], [], after, rfl, rfl, Nat.le_refl _, Nat.zero_le _⟩
  | replace before after c d => exact ⟨before, [c], [d], after, rfl, rfl, Nat.le_refl _, Nat.le_refl _⟩

theorem MadeIn.cons (c : Char) (h : MadeIn count text other) : MadeIn count (c :: text) (c :: other) := by
  induction h with
  | refl text => exact .refl _
  | tail _ halter ih => exact ih.tail (halter.cons c)

namespace Aligned

theorem refl (text : List Char) : Aligned 0 text text := by
  induction text with
  | nil => exact .nil
  | cons c rest ih => exact ih.keep c

theorem allAdded (other : List Char) : Aligned other.length [] other := by
  induction other with
  | nil => exact .nil
  | cons d rest ih => exact ih.add d

theorem allDropped (text : List Char) : Aligned text.length text [] := by
  induction text with
  | nil => exact .nil
  | cons c rest ih => exact ih.drop c

theorem append (h : Aligned count text other) (h' : Aligned more text' other') :
    Aligned (count + more) (text ++ text') (other ++ other') := by
  induction h with
  | nil => simpa using h'
  | keep c _ ih => exact ih.keep c
  | add d _ ih => simpa [Nat.add_right_comm] using ih.add d
  | drop c _ ih => simpa [Nat.add_right_comm] using ih.drop c
  | replace c d _ ih => simpa [Nat.add_right_comm] using ih.replace c d

theorem reverse (h : Aligned count text other) : Aligned count text.reverse other.reverse := by
  induction h with
  | nil => exact .nil
  | keep c _ ih => simpa using ih.append (Aligned.refl [c])
  | add d _ ih => simpa using ih.append (Aligned.nil.add d)
  | drop c _ ih => simpa using ih.append (Aligned.nil.drop c)
  | replace c d _ ih => simpa using ih.append (Aligned.nil.replace c d)

theorem length_le (h : Aligned count text other) :
    text.length ≤ other.length + count ∧ other.length ≤ text.length + count := by
  induction h with
  | nil => exact ⟨Nat.le_refl _, Nat.le_refl _⟩
  | keep c _ ih => simp only [List.length_cons]; omega
  | add d _ ih => simp only [List.length_cons]; omega
  | drop c _ ih => simp only [List.length_cons]; omega
  | replace c d _ ih => simp only [List.length_cons]; omega

theorem exists_cons (h : Aligned count text (d :: other)) :
    ∃ front back first second, text = front ++ back ∧ count = first + second ∧
      Aligned first front [d] ∧ Aligned second back other := by
  generalize hwhole : d :: other = whole at h
  induction h with
  | nil => cases hwhole
  | keep c h ih =>
      obtain ⟨rfl, rfl⟩ := List.cons_eq_cons.mp hwhole
      exact ⟨[d], _, 0, _, rfl, (Nat.zero_add _).symm, .refl [d], h⟩
  | add c h ih =>
      obtain ⟨rfl, rfl⟩ := List.cons_eq_cons.mp hwhole
      exact ⟨[], _, 1, _, rfl, Nat.add_comm _ _, .add d .nil, h⟩
  | drop c h ih =>
      obtain ⟨front, back, first, second, rfl, rfl, hfront, hback⟩ := ih hwhole
      exact ⟨c :: front, back, first + 1, second, rfl, Nat.add_right_comm _ _ _, hfront.drop c, hback⟩
  | replace c e h ih =>
      obtain ⟨rfl, rfl⟩ := List.cons_eq_cons.mp hwhole
      exact ⟨[c], _, 1, _, rfl, Nat.add_comm _ _, .replace c d .nil, h⟩

-- An alignment can be cut wherever the second text is.
theorem exists_append (h : Aligned count text (before ++ after)) :
    ∃ front back first second, text = front ++ back ∧ count = first + second ∧
      Aligned first front before ∧ Aligned second back after := by
  induction before generalizing text count with
  | nil => exact ⟨[], text, 0, count, rfl, (Nat.zero_add _).symm, .nil, h⟩
  | cons d before ih =>
      obtain ⟨head, tail, first, rest, rfl, rfl, hhead, htail⟩ := h.exists_cons
      obtain ⟨front, back, second, third, rfl, rfl, hfront, hback⟩ := ih htail
      exact ⟨head ++ front, back, first + second, third, (List.append_assoc _ _ _).symm,
        (Nat.add_assoc _ _ _).symm, hhead.append hfront, hback⟩

-- Next to a piece of one character all else is dropped in any case.
theorem exists_revised {piece revised : List Char} (h : Aligned count text piece) (hpiece : piece.length ≤ 1)
    (hrevised : revised.length ≤ 1) : ∃ fewer ≤ count + 1, Aligned fewer text revised := by
  have hle := h.length_le.1
  match text, revised with
  | text, [] => exact ⟨text.length, by omega, allDropped text⟩
  | [], [d] => exact ⟨1, by omega, .add d .nil⟩
  | c :: rest, [d] =>
      rw [List.length_cons] at hle
      exact ⟨rest.length + 1, by omega, (allDropped rest).replace c d⟩

-- One more alteration makes at most one more difference.
theorem exists_alters (h : Aligned count text middle) (halter : Alters middle other) :
    ∃ fewer ≤ count + 1, Aligned fewer text other := by
  obtain ⟨before, piece, revised, after, rfl, rfl, hpiece, hrevised⟩ := halter.exists_pieces
  obtain ⟨front, rest, first, others, rfl, rfl, hfront, hrest⟩ := h.exists_append
  obtain ⟨inside, back, second, third, rfl, rfl, hinside, hback⟩ := hrest.exists_append
  obtain ⟨fewer, hle, hfewer⟩ := hinside.exists_revised hpiece hrevised
  exact ⟨first + (fewer + third), by omega, hfront.append (hfewer.append hback)⟩

-- What is aligned can be made, one difference after the other.
theorem madeIn (h : Aligned count text other) : MadeIn count text other := by
  induction h with
  | nil => exact .refl []
  | keep c _ ih => exact ih.cons c
  | add d _ ih => exact ih.tail (.add [] _ d)
  | @drop _ _ other c _ ih => exact (ih.cons c).tail (.drop [] other c)
  | @replace _ _ other c d _ ih => exact (ih.cons c).tail (.replace [] other c d)

end Aligned

theorem MadeIn.exists_aligned (h : MadeIn count text other) : ∃ fewer ≤ count, Aligned fewer text other := by
  induction h with
  | refl text => exact ⟨0, Nat.le_refl _, .refl text⟩
  | tail _ halter ih =>
      obtain ⟨fewer, hle, haligned⟩ := ih
      obtain ⟨last, hlast, hother⟩ := haligned.exists_alters halter
      exact ⟨last, by omega, hother⟩

-- Whether so many alterations turn a text into another, and fewer do not.
def Least (count : Nat) (text other : List Char) : Prop := IsLeast {count | MadeIn count text other} count

-- Alterations that undo one another are of no use, so that it is enough to look at
-- alignments.
theorem least_iff : Least count text other ↔ IsLeast {count | Aligned count text other} count := by
  constructor
  · rintro ⟨hmade, hleast⟩
    obtain ⟨fewer, hle, haligned⟩ := hmade.exists_aligned
    obtain rfl : fewer = count := Nat.le_antisymm hle (hleast haligned.madeIn)
    exact ⟨haligned, fun _ hother => hleast hother.madeIn⟩
  · rintro ⟨haligned, hleast⟩
    refine ⟨haligned.madeIn, fun _ hmade => ?_⟩
    obtain ⟨fewer, hle, hfewer⟩ := hmade.exists_aligned
    exact Nat.le_trans (hleast hfewer) hle

theorem least_nil_left (other : List Char) : Least other.length [] other :=
  least_iff.mpr ⟨.allAdded other, fun _ h => by simpa using h.length_le.2⟩

theorem least_nil_right (text : List Char) : Least text.length text [] :=
  least_iff.mpr ⟨.allDropped text, fun _ h => by simpa using h.length_le.1⟩

-- The last characters of two texts stand in one of three ways to each other.
theorem Least.concat {dropped added both : Nat} (hdropped : Least dropped text (other ++ [d]))
    (hadded : Least added (text ++ [c]) other) (hboth : Least both text other) :
    Least (min (min (dropped + 1) (added + 1)) (both + if c = d then 0 else 1)) (text ++ [c])
      (other ++ [d]) := by
  rw [least_iff] at hdropped hadded hboth ⊢
  constructor
  · have hdrop : Aligned (dropped + 1) (text ++ [c]) (other ++ [d]) := by
      simpa using hdropped.1.append (Aligned.nil.drop c)
    have hadd : Aligned (added + 1) (text ++ [c]) (other ++ [d]) := by
      simpa using hadded.1.append (Aligned.nil.add d)
    have hpair : Aligned (both + if c = d then 0 else 1) (text ++ [c]) (other ++ [d]) := by
      split
      · rename_i heq
        exact heq ▸ hboth.1.append (.refl [c])
      · exact hboth.1.append (Aligned.nil.replace c d)
    exact min_rec' (Aligned · _ _) (min_rec' (Aligned · _ _) hdrop hadd) hpair
  · intro count h
    have hback : Aligned count (c :: text.reverse) (d :: other.reverse) := by
      simpa using Aligned.reverse h
    cases hback with
    | keep _ h =>
        have hle : both ≤ count := hboth.2 (by simpa using h.reverse)
        simp only [if_pos]
        omega
    | @add count _ _ _ h =>
        have hle : added ≤ count := hadded.2 (by simpa using h.reverse)
        omega
    | @drop count _ _ _ h =>
        have hle : dropped ≤ count := hdropped.2 (by simpa using h.reverse)
        omega
    | @replace count _ _ _ _ h =>
        have hle : both ≤ count := hboth.2 (by simpa using h.reverse)
        split
        · omega
        · omega

end

section

variable {seen rest text other : List Char} {above row : Array Nat} {rows : Rows} {c : Char}

-- Whether a row holds the distances from a text to the beginnings of another, whatever
-- may stand behind them.
def Measures (row : Array Nat) (text other : List Char) : Prop :=
  ∀ part, part <+: other → Least (row.getD part.length 0) text part

theorem size_fill (c : Char) (above : Array Nat) (index : Nat) (rest : List Char) (row : Array Nat) :
    (fill c above index rest row).size = row.size := by
  induction rest generalizing index row with
  | nil => rfl
  | cons d rest ih => rw [fill, ih, Array.size_setIfInBounds]

-- Each cell is written from cells that were written before it: of the row that is filled
-- only what stands up to the index is read.
theorem measures_fill (habove : Measures above text (seen ++ rest)) (hrow : Measures row (text ++ [c]) seen)
    (hsize : (seen ++ rest).length < row.size) :
    Measures (fill c above seen.length rest row) (text ++ [c]) (seen ++ rest) := by
  induction rest generalizing seen row with
  | nil => simpa [fill] using hrow
  | cons d rest ih =>
      have hassoc : seen ++ d :: rest = seen ++ [d] ++ rest := by simp
      have hlength : seen.length + 1 = (seen ++ [d]).length := by simp
      have hbound : (seen ++ [d]).length < row.size := by
        rw [hassoc, List.length_append] at hsize
        omega
      rw [fill, hassoc, hlength]
      refine ih (hassoc ▸ habove) ?_ ?_
      · intro part hpart
        rcases List.prefix_concat_iff.mp hpart with rfl | hseen
        · rw [getD_setIfInBounds, if_pos ⟨rfl, hbound⟩]
          have hdropped := habove (seen ++ [d]) (hassoc ▸ List.prefix_append _ _)
          have hboth := habove seen (List.prefix_append _ _)
          exact hdropped.concat (hrow seen (List.prefix_refl _)) hboth
        · have hle := hseen.length_le
          rw [getD_setIfInBounds, if_neg (by omega)]
          exact hrow part hseen
      · rw [Array.size_setIfInBounds, ← hassoc]
        exact hsize

-- Rows of the width of a text, of which one is for what has been read of another. The
-- other one may hold anything.
structure Rows.Current (rows : Rows) (text other : List Char) : Prop where
  measures : Measures rows.current text other
  size_current : rows.current.size = other.length + 1
  size_spare : rows.spare.size = other.length + 1

theorem Rows.current_start (other : List Char) : (Rows.start other).Current [] other where
  measures part hpart := by
    have hlt : part.length < other.length + 1 := Nat.lt_succ_of_le hpart.length_le
    have hcell : (Array.range (other.length + 1)).getD part.length 0 = part.length := by
      simp [Array.getD_eq_getD_getElem?, hlt]
    rw [Rows.start, hcell]
    exact least_nil_left part
  size_current := Array.size_range
  size_spare := Array.size_replicate

theorem Rows.Current.read (h : rows.Current text other) (c : Char) :
    (rows.read other c).Current (text ++ [c]) other where
  measures := by
    have hsize : 0 < rows.spare.size := by rw [h.size_spare]; exact Nat.succ_pos _
    have hfirst : rows.current.getD 0 0 = text.length :=
      (h.measures [] List.nil_prefix).unique (least_nil_right text)
    have habove : Measures rows.current text ([] ++ other) := h.measures
    refine measures_fill habove ?_ ?_
    · intro part hpart
      obtain rfl := List.prefix_nil.mp hpart
      rw [getD_setIfInBounds, if_pos ⟨rfl, hsize⟩, hfirst]
      simpa using least_nil_right (text ++ [c])
    · rw [Array.size_setIfInBounds, h.size_spare]
      exact Nat.lt_succ_self _
  size_current := by rw [Rows.read, size_fill, Array.size_setIfInBounds, h.size_spare]
  size_spare := h.size_current

theorem Rows.Current.foldl (h : rows.Current text other) (rest : List Char) :
    (rest.foldl (Rows.read other) rows).Current (text ++ rest) other := by
  induction rest generalizing text rows with
  | nil => simpa using h
  | cons c rest ih => simpa using ih (h.read c)

end

end EditDistance

-- The distance is the least number of characters that have to be added, dropped or
-- replaced on the way from one text to the other.
theorem isLeast_editDistance (text other : List Char) :
    IsLeast {count | EditDistance.MadeIn count text other} (editDistance text other) := by
  have hcurrent := (EditDistance.Rows.current_start other).foldl text
  exact hcurrent.measures other (List.prefix_refl other)

example : editDistance "kitten".toList "sitting".toList = 3 := by cbv

end IncrementalLR
