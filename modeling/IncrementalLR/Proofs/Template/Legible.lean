import IncrementalLR.Proofs.Grammar.Notation
import IncrementalLR.Template.Parser

namespace IncrementalLR

open Text

namespace Template

-- A name as templates have them. A digit of another script may begin it.
structure IsWord (word : String) : Prop where
  chars : IsName word.toList
  undigited : ∀ c ∈ word.toList.head?, c.isDigit = false

-- A name that a value may begin with.
def BeginsReference (name : String) : Prop := ∀ c ∈ name.toList.head?, (isAlphabetic c || c == '_') = true

end Template

open Template

structure Lookup.Legible (item : Lookup) : Prop where
  index : item.index < bound64
  attr : ∀ attr ∈ item.attr, IsWord attr

-- Whether a value is one of those that sums are made of.
def ValueExpr.IsTerm : ValueExpr → Prop
  | .add _ _ => False
  | _ => True

-- Templates that are read as they are written: sums lean to the left, and nodes have fields.
mutual
def ValueExpr.Legible : ValueExpr → Prop
  | .lookup item => item.Legible
  | .list elements => elements.Legible
  | .add left right => left.Legible ∧ right.Legible ∧ right.IsTerm
def Elements.Legible : Elements → Prop
  | .nil => True
  | .lookup item rest => item.Legible ∧ rest.Legible
  | .node item rest => item.Legible ∧ rest.Legible
def NodeExpr.Legible : NodeExpr → Prop
  | .mk name fields => IsWord name ∧ fields.Legible ∧ fields ≠ .nil
def Fields.Legible : Fields → Prop
  | .nil => True
  | .value name expr rest => IsWord name ∧ expr.Legible ∧ rest.Legible
  | .reference name base field rest =>
      IsWord name ∧ IsWord base ∧ BeginsReference base ∧ IsWord field ∧ rest.Legible
end

def NodeExpr.name : NodeExpr → String
  | .mk name _ => name

namespace Template

-- A node of the name that begins a template over a list stands in lists alone.
def Legible : Template → Prop
  | .node expr => expr.Legible ∧ expr.name ≠ "foreach"
  | .value expr => expr.Legible
  | .foreach item expr => item.Legible ∧ expr.Legible

theorem exists_of_bind_eq_ok {α β ε : Type} {value : Except ε α} {next : α → Except ε β} {result : β}
    (h : value.bind next = .ok result) : ∃ inner, value = .ok inner ∧ next inner = .ok result := by
  cases value with
  | error => cases h
  | ok inner => exact ⟨inner, rfl, h⟩

section Words

variable {text rest : List Char} {name : String} {item : Lookup}

theorem readName_eq_ok (h : readName text = .ok (name, rest)) :
    IsWord name ∧ name.toList = leadingWord text := by
  unfold readName at h
  split at h
  · cases h
  · rename_i first letters hword
    split at h
    · cases h
    · rename_i hdigit
      obtain ⟨rfl, rfl⟩ := Prod.mk.inj (Except.ok.inj h)
      rw [hword, String.toList_ofList]
      have hchars : ∀ c ∈ first :: letters, isNameChar c = true := fun c hc =>
        List.mem_takeWhile_imp (show c ∈ leadingWord text from hword ▸ hc)
      refine ⟨⟨?_, ?_⟩, rfl⟩
      · rw [String.toList_ofList]
        exact ⟨List.cons_ne_nil _ _, hchars⟩
      · rw [String.toList_ofList]
        rintro c ⟨⟩
        exact Bool.eq_false_iff.mpr hdigit

-- The first letter of a word is the character that is met next.
theorem head?_of_readName (h : readName text = .ok (name, rest)) : name.toList.head? = next? text := by
  obtain ⟨⟨⟨hne, -⟩, -⟩, hword⟩ := readName_eq_ok h
  rw [hword, leadingWord] at hne ⊢
  rw [next?]
  cases htext : trimLeft text with
  | nil => rfl
  | cons c others =>
      rw [htext, List.takeWhile_cons] at hne
      rw [List.takeWhile_cons]
      split
      · rfl
      · rename_i hc
        rw [if_neg hc] at hne
        exact absurd rfl hne

theorem legible_of_readLookup (h : readLookup text = .ok (item, rest)) : item.Legible := by
  unfold readLookup at h
  split at h
  · cases h
  · split at h
    · cases h
    · rename_i index hindex
      have hbound : index < bound64 := by
        simp only [readDigits?, Option.ite_none_right_eq_some, Bool.and_eq_true, decide_eq_true_eq] at hindex
        exact Option.some.inj hindex.2 ▸ hindex.1.2
      dsimp only at h
      split at h
      · cases h
        exact ⟨hbound, nofun⟩
      · obtain ⟨⟨attr, last⟩, hname, he⟩ := exists_of_bind_eq_ok h
        cases he
        refine ⟨hbound, ?_⟩
        rintro other ⟨⟩
        exact (readName_eq_ok hname).1

end Words

-- What is read within so many calls can be written again.
structure ReadsLegibly (fuel : Nat) : Prop where
  node : ∀ {text item rest}, readNode fuel text = .ok (item, rest) → item.Legible
  fields : ∀ {text fields rest}, readFields fuel text = .ok (fields, rest) → fields.Legible ∧ fields ≠ .nil
  value : ∀ {text value rest}, readValue fuel text = .ok (value, rest) → value.Legible
  sum : ∀ {text sum value rest}, sum.Legible → readSum fuel sum text = .ok (value, rest) → value.Legible
  term : ∀ {text value rest}, readTerm fuel text = .ok (value, rest) → value.Legible ∧ value.IsTerm
  elements : ∀ {text elements rest}, readElements fuel text = .ok (elements, rest) → elements.Legible

namespace ReadsLegibly

variable {fuel : Nat} {text rest : List Char}

theorem zero : ReadsLegibly 0 := ⟨nofun, nofun, nofun, nofun, nofun, nofun⟩

variable (hl : ReadsLegibly fuel)

include hl

theorem node_succ {item : NodeExpr} (h : readNode (fuel + 1) text = .ok (item, rest)) : item.Legible := by
  rw [readNode] at h
  obtain ⟨⟨name, rest⟩, hname, h⟩ := exists_of_bind_eq_ok h
  obtain ⟨rest, -, h⟩ := exists_of_bind_eq_ok h
  obtain ⟨⟨fields, rest⟩, hfields, h⟩ := exists_of_bind_eq_ok h
  obtain ⟨rest, -, h⟩ := exists_of_bind_eq_ok h
  cases h
  exact ⟨(readName_eq_ok hname).1, hl.fields hfields⟩

theorem fields_succ {fields : Fields} (h : readFields (fuel + 1) text = .ok (fields, rest)) :
    fields.Legible ∧ fields ≠ .nil := by
  rw [readFields] at h
  obtain ⟨⟨name, rest⟩, hname, h⟩ := exists_of_bind_eq_ok h
  have hword := (readName_eq_ok hname).1
  obtain ⟨rest, -, h⟩ := exists_of_bind_eq_ok h
  dsimp only at h
  split at h
  · rename_i hstarts
    obtain ⟨⟨base, after⟩, hbase, h⟩ := exists_of_bind_eq_ok h
    obtain ⟨later, -, h⟩ := exists_of_bind_eq_ok h
    obtain ⟨⟨field, last⟩, hfield, h⟩ := exists_of_bind_eq_ok h
    have hbegins : BeginsReference base := fun c hc => by
      rw [head?_of_readName hbase] at hc
      rw [startsReference, Option.mem_def.mp hc] at hstarts
      exact hstarts
    have hreference : ∀ others : Fields, others.Legible →
        (Fields.reference name base field others).Legible ∧ Fields.reference name base field others ≠ .nil :=
      fun others ho => ⟨⟨hword, (readName_eq_ok hbase).1, hbegins, (readName_eq_ok hfield).1, ho⟩, nofun⟩
    dsimp only at h
    split at h
    · cases h
      exact hreference .nil trivial
    · obtain ⟨⟨others, last⟩, hothers, h⟩ := exists_of_bind_eq_ok h
      cases h
      exact hreference others (hl.fields hothers).1
  · obtain ⟨⟨expr, after⟩, hexpr, h⟩ := exists_of_bind_eq_ok h
    dsimp only at h
    split at h
    · cases h
      exact ⟨⟨hword, hl.value hexpr, trivial⟩, nofun⟩
    · obtain ⟨⟨others, last⟩, hothers, h⟩ := exists_of_bind_eq_ok h
      cases h
      exact ⟨⟨hword, hl.value hexpr, (hl.fields hothers).1⟩, nofun⟩

theorem value_succ {value : ValueExpr} (h : readValue (fuel + 1) text = .ok (value, rest)) : value.Legible := by
  rw [readValue] at h
  obtain ⟨⟨first, rest⟩, hfirst, h⟩ := exists_of_bind_eq_ok h
  exact hl.sum (hl.term hfirst).1 h

theorem sum_succ {sum value : ValueExpr} (hs : sum.Legible)
    (h : readSum (fuel + 1) sum text = .ok (value, rest)) : value.Legible := by
  rw [readSum] at h
  split at h
  · cases h
    exact hs
  · obtain ⟨⟨term, after⟩, hterm, h⟩ := exists_of_bind_eq_ok h
    have hsum : (ValueExpr.add sum term).Legible := ⟨hs, hl.term hterm⟩
    exact hl.sum hsum h

theorem term_succ {value : ValueExpr} (h : readTerm (fuel + 1) text = .ok (value, rest)) :
    value.Legible ∧ value.IsTerm := by
  unfold readTerm at h
  split at h
  · obtain ⟨⟨item, after⟩, hitem, h⟩ := exists_of_bind_eq_ok h
    cases h
    exact ⟨legible_of_readLookup hitem, trivial⟩
  · split at h
    · cases h
      exact ⟨trivial, trivial⟩
    · obtain ⟨⟨elements, after⟩, helements, h⟩ := exists_of_bind_eq_ok h
      obtain ⟨last, -, h⟩ := exists_of_bind_eq_ok h
      cases h
      exact ⟨hl.elements helements, trivial⟩
  · cases h

theorem elements_succ {elements : Elements} (h : readElements (fuel + 1) text = .ok (elements, rest)) :
    elements.Legible := by
  rw [readElements] at h
  split at h
  · obtain ⟨⟨item, after⟩, hitem, h⟩ := exists_of_bind_eq_ok h
    dsimp only at h
    split at h
    · cases h
      exact ⟨legible_of_readLookup hitem, trivial⟩
    · obtain ⟨⟨others, last⟩, hothers, h⟩ := exists_of_bind_eq_ok h
      cases h
      exact ⟨legible_of_readLookup hitem, hl.elements hothers⟩
  · obtain ⟨⟨item, after⟩, hitem, h⟩ := exists_of_bind_eq_ok h
    dsimp only at h
    split at h
    · cases h
      exact ⟨hl.node hitem, trivial⟩
    · obtain ⟨⟨others, last⟩, hothers, h⟩ := exists_of_bind_eq_ok h
      cases h
      exact ⟨hl.node hitem, hl.elements hothers⟩

end ReadsLegibly

theorem name_of_readNode {fuel : Nat} {text rest : List Char} {item : NodeExpr}
    (h : readNode fuel text = .ok (item, rest)) : item.name.toList = leadingWord text := by
  cases fuel with
  | zero => cases h
  | succ fuel =>
      rw [readNode] at h
      obtain ⟨⟨name, rest⟩, hname, h⟩ := exists_of_bind_eq_ok h
      obtain ⟨rest, -, h⟩ := exists_of_bind_eq_ok h
      obtain ⟨⟨fields, rest⟩, -, h⟩ := exists_of_bind_eq_ok h
      obtain ⟨rest, -, h⟩ := exists_of_bind_eq_ok h
      cases h
      exact (readName_eq_ok hname).2

theorem readsLegibly (fuel : Nat) : ReadsLegibly fuel := by
  induction fuel with
  | zero => exact .zero
  | succ fuel ih => exact ⟨ih.node_succ, ih.fields_succ, ih.value_succ, ih.sum_succ, ih.term_succ, ih.elements_succ⟩

theorem legible_of_read {text rest : List Char} {template : Template} (h : read text = .ok (template, rest)) :
    template.Legible := by
  unfold read at h
  dsimp only at h
  have hl := readsLegibly (depthBound text)
  split at h
  · obtain ⟨⟨expr, after⟩, hexpr, h⟩ := exists_of_bind_eq_ok h
    cases h
    exact hl.value hexpr
  · obtain ⟨⟨expr, after⟩, hexpr, h⟩ := exists_of_bind_eq_ok h
    cases h
    exact hl.value hexpr
  · split at h
    · obtain ⟨⟨word, after⟩, -, h⟩ := exists_of_bind_eq_ok h
      obtain ⟨after, -, h⟩ := exists_of_bind_eq_ok h
      obtain ⟨⟨item, after⟩, hitem, h⟩ := exists_of_bind_eq_ok h
      obtain ⟨after, -, h⟩ := exists_of_bind_eq_ok h
      obtain ⟨⟨expr, after⟩, hexpr, h⟩ := exists_of_bind_eq_ok h
      cases h
      exact ⟨legible_of_readLookup hitem, hl.node hexpr⟩
    · rename_i hword
      obtain ⟨⟨expr, after⟩, hexpr, h⟩ := exists_of_bind_eq_ok h
      cases h
      refine ⟨hl.node hexpr, fun hname => hword ?_⟩
      rw [← name_of_readNode hexpr, hname]

end Template

end IncrementalLR
