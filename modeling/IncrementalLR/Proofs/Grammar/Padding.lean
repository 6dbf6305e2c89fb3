import IncrementalLR.Grammar.Source.Padding
import IncrementalLR.Proofs.Grammar.Language

namespace IncrementalLR.Source

-- Right sides with padding behind every terminal.
def pad (symbols : List Symbol) : List Symbol :=
  symbols.flatMap fun symbol => if followsPadding symbol then [symbol, padding] else [symbol]

-- The productions of whitespace mode over those without it.
inductive Padded (produces : Symbol → List Symbol → Prop) (blanks : List Symbol) (start : String) :
    Symbol → List Symbol → Prop where
  | rule {left : Symbol} {right : List Symbol} : produces left right → Padded produces blanks start left (pad right)
  | blank {blank : Symbol} : blank ∈ blanks → Padded produces blanks start padding [blank, padding]
  | none : Padded produces blanks start padding []
  | start : Padded produces blanks start (.nonterminal paddedStart) [padding, .nonterminal start]

-- Symbols that padding leaves apart from what it brings in.
def Fit (blanks : List Symbol) (symbol : Symbol) : Prop :=
  symbol ∉ blanks ∧ symbol ≠ padding ∧ symbol ≠ .nonterminal paddedStart ∧
    (symbol.isNonterminal = true ∨ followsPadding symbol = true)

-- Words in which blanks stand behind the terminals.
inductive Spread (blanks : List Symbol) : List Symbol → List Symbol → Prop where
  | nil : Spread blanks [] []
  | cons {terminal : Symbol} {gap word spread : List Symbol} :
      (∀ blank ∈ gap, blank ∈ blanks) → Spread blanks word spread →
      Spread blanks (terminal :: word) (terminal :: (gap ++ spread))

section Languages

variable {produces : Symbol → List Symbol → Prop} {blanks : List Symbol} {start : String}

-- A word with the blanks taken out.
def erase (blanks word : List Symbol) : List Symbol := word.filter (· ∉ blanks)

theorem erase_cons_of_mem {symbol : Symbol} {word : List Symbol} (h : symbol ∈ blanks) :
    erase blanks (symbol :: word) = erase blanks word := List.filter_cons_of_neg (by simpa using h)

theorem erase_cons_of_not_mem {symbol : Symbol} {word : List Symbol} (h : symbol ∉ blanks) :
    erase blanks (symbol :: word) = symbol :: erase blanks word := List.filter_cons_of_pos (by simpa using h)

theorem exists_spread (blanks word : List Symbol) :
    ∃ gap spread, word = gap ++ spread ∧ (∀ blank ∈ gap, blank ∈ blanks) ∧ Spread blanks (erase blanks word) spread := by
  induction word with
  | nil => exact ⟨[], [], rfl, nofun, .nil⟩
  | cons symbol word ih =>
      obtain ⟨gap, spread, rfl, hgap, hspread⟩ := ih
      by_cases hs : symbol ∈ blanks
      · refine ⟨symbol :: gap, spread, rfl, List.forall_mem_cons.mpr ⟨hs, hgap⟩, ?_⟩
        rwa [erase_cons_of_mem hs]
      · refine ⟨[], symbol :: (gap ++ spread), rfl, nofun, ?_⟩
        rw [erase_cons_of_not_mem hs]
        exact .cons hgap hspread

theorem Spread.append_inv {first second spread : List Symbol} (h : Spread blanks (first ++ second) spread) :
    ∃ left right, spread = left ++ right ∧ Spread blanks first left ∧ Spread blanks second right := by
  induction first generalizing spread with
  | nil => exact ⟨[], spread, rfl, .nil, h⟩
  | cons symbol first ih =>
      cases h with
      | cons hgap h =>
          obtain ⟨left, right, rfl, hleft, hright⟩ := ih h
          exact ⟨_, right, by rw [List.cons_append, List.append_assoc], .cons hgap hleft, hright⟩

theorem pad_cons (symbol : Symbol) (symbols : List Symbol) :
    pad (symbol :: symbols) = (if followsPadding symbol then [symbol, padding] else [symbol]) ++ pad symbols := rfl

theorem mem_pad {symbol : Symbol} {symbols : List Symbol} (h : symbol ∈ pad symbols) :
    symbol ∈ symbols ∨ symbol = padding := by
  obtain ⟨other, ho, hs⟩ := List.mem_flatMap.mp h
  split at hs
  · rcases List.mem_cons.mp hs with rfl | hs
    · exact Or.inl ho
    · exact Or.inr (List.mem_singleton.mp hs)
  · exact Or.inl (List.mem_singleton.mp hs ▸ ho)

-- What a padded sequence is without its padding.
def strip (blanks symbols : List Symbol) : List Symbol :=
  symbols.filter fun symbol => symbol ≠ padding ∧ symbol ∉ blanks

theorem strip_cons_of_mem {symbol : Symbol} {symbols : List Symbol} (h : symbol = padding ∨ symbol ∈ blanks) :
    strip blanks (symbol :: symbols) = strip blanks symbols :=
  List.filter_cons_of_neg (by simpa only [decide_eq_true_eq, not_and_or, not_not] using h)

theorem strip_cons_of_not_mem {symbol : Symbol} {symbols : List Symbol} (hp : symbol ≠ padding) (hb : symbol ∉ blanks) :
    strip blanks (symbol :: symbols) = symbol :: strip blanks symbols :=
  List.filter_cons_of_pos (decide_eq_true ⟨hp, hb⟩)

theorem strip_pad {symbols : List Symbol} (hfit : ∀ symbol ∈ symbols, Fit blanks symbol) :
    strip blanks (pad symbols) = symbols := by
  induction symbols with
  | nil => rfl
  | cons symbol symbols ih =>
      obtain ⟨⟨hblank, hpadding, -⟩, hrest⟩ := List.forall_mem_cons.mp hfit
      have hkept : strip blanks (if followsPadding symbol then [symbol, padding] else [symbol]) = [symbol] := by
        split <;> simp [strip, hblank, hpadding]
      rw [pad_cons, strip, List.filter_append, ← strip, ← strip, hkept, ih hrest, List.singleton_append]

theorem Padded.start_inv {left : Symbol} {right : List Symbol} (h : Padded produces blanks start left right)
    (hl : left = .nonterminal paddedStart) :
    (∃ below, produces left below) ∨ right = [padding, .nonterminal start] := by
  cases h with
  | rule hp => exact Or.inl ⟨_, hp⟩
  | blank => exact absurd hl (by decide)
  | none => exact absurd hl (by decide)
  | start => exact Or.inr rfl

variable (hleft : ∀ left right, produces left right → left.isNonterminal = true ∧ Fit blanks left)
  (hright : ∀ left right, produces left right → ∀ symbol ∈ right, Fit blanks symbol)
  (hblanks : ∀ blank ∈ blanks, blank.isTerminal = true)

include hleft hright hblanks

-- Padding derives blanks only, so that a word loses no more than those.
theorem yields_erase {symbols word : List Symbol} (h : Yields (Padded produces blanks start) symbols word)
    (hs : ∀ symbol ∈ symbols, Fit blanks symbol ∨ symbol = padding ∨ symbol ∈ blanks) :
    Yields produces (strip blanks symbols) (erase blanks word) := by
  induction h with
  | nil => exact .nil
  | @terminal terminal rest word ht h ih =>
      obtain ⟨hfirst, hrest⟩ := List.forall_mem_cons.mp hs
      have hpadding : terminal ≠ padding := by
        rintro rfl
        cases ht
      by_cases hblank : terminal ∈ blanks
      · rw [strip_cons_of_mem (Or.inr hblank), erase_cons_of_mem hblank]
        exact ih hrest
      · rw [strip_cons_of_not_mem hpadding hblank, erase_cons_of_not_mem hblank]
        exact .terminal ht (ih hrest)
  | @production left right rest below word hp hbelow h ihbelow ih =>
      obtain ⟨hfirst, hrest⟩ := List.forall_mem_cons.mp hs
      rw [erase, List.filter_append, ← erase, ← erase]
      cases hp with
      | @rule _ right hp =>
          have hfit := hright left right hp
          have hin := ihbelow fun symbol hmem => (mem_pad hmem).imp (hfit symbol) Or.inl
          obtain ⟨hblank, hpadding, -⟩ := (hleft left right hp).2
          rw [strip_pad hfit] at hin
          rw [strip_cons_of_not_mem hpadding hblank]
          exact .production hp hin (ih hrest)
      | @blank blank hblank =>
          have hin := ihbelow (by simp [hblank])
          rw [strip_cons_of_mem (Or.inr hblank), strip_cons_of_mem (Or.inl rfl)] at hin
          rw [strip_cons_of_mem (Or.inl rfl), yields_nil.mp hin]
          exact ih hrest
      | none =>
          rw [strip_cons_of_mem (Or.inl rfl), yields_nil.mp (ihbelow nofun)]
          exact ih hrest
      | start =>
          rcases hfirst with hfit | he | hblank
          · exact absurd rfl hfit.2.2.1
          · exact absurd he (by decide)
          · cases hblanks _ hblank

omit hleft hright in
theorem yields_padding {gap : List Symbol} (hgap : ∀ blank ∈ gap, blank ∈ blanks) :
    Yields (Padded produces blanks start) [padding] gap := by
  induction gap with
  | nil => exact .production .none .nil .nil
  | cons blank gap ih =>
      obtain ⟨hblank, hrest⟩ := List.forall_mem_cons.mp hgap
      have hbelow := Yields.terminal (hblanks blank hblank) (ih hrest)
      simpa only [List.append_nil] using Yields.production (.blank hblank) hbelow .nil

-- Behind each terminal stands what derives the blanks there.
theorem yields_pad {symbols word spread : List Symbol} (h : Yields produces symbols word)
    (hs : ∀ symbol ∈ symbols, Fit blanks symbol) (hspread : Spread blanks word spread) :
    Yields (Padded produces blanks start) (pad symbols) spread := by
  induction h generalizing spread with
  | nil =>
      cases hspread
      exact .nil
  | @terminal terminal rest word ht h ih =>
      obtain ⟨hfirst, hrest⟩ := List.forall_mem_cons.mp hs
      have hfollows : followsPadding terminal = true := by
        refine hfirst.2.2.2.resolve_left fun hn => ?_
        rw [Symbol.isTerminal, hn] at ht
        cases ht
      cases hspread with
      | cons hgap hspread =>
          rw [pad_cons, if_pos hfollows]
          exact .terminal ht ((yields_padding hblanks hgap).append (ih hrest hspread))
  | @production left right rest below word hp hbelow h ihbelow ih =>
      obtain ⟨hfirst, hrest⟩ := List.forall_mem_cons.mp hs
      obtain ⟨inner, outer, rfl, hinner, houter⟩ := hspread.append_inv
      have hfollows : followsPadding left = false := by
        have hn := (hleft left right hp).1
        cases left <;> first | rfl | cases hn
      rw [pad_cons, hfollows]
      exact .production (.rule hp) (ihbelow (hright left right hp) hinner) (ih hrest houter)

-- Padding allows blanks anywhere, and nothing else.
theorem yields_padded_iff {word : List Symbol} (hstart : Fit blanks (.nonterminal start)) :
    Yields (Padded produces blanks start) [.nonterminal paddedStart] word ↔
      Yields produces [.nonterminal start] (erase blanks word) := by
  constructor
  · intro h
    cases h with
    | terminal ht => cases ht
    | production hp hbelow hrest =>
        rw [yields_nil.mp hrest, List.append_nil]
        obtain ⟨below, hp⟩ | rfl := hp.start_inv rfl
        · exact absurd rfl (hleft _ _ hp).2.2.2.1
        · have hin := yields_erase hleft hright hblanks hbelow (by simp [hstart])
          rwa [strip_cons_of_mem (Or.inl rfl), strip_cons_of_not_mem hstart.2.1 hstart.1] at hin
  · intro h
    obtain ⟨gap, spread, hword, hgap, hspread⟩ := exists_spread blanks word
    have hbelow : Yields (Padded produces blanks start) _ _ := (yields_padding hblanks hgap).append
      (yields_pad hleft hright hblanks h (by simpa using hstart) hspread)
    rw [← hword] at hbelow
    simpa only [List.append_nil] using Yields.production .start hbelow .nil

end Languages

end IncrementalLR.Source
