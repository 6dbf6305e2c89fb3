import IncrementalLR.Proofs.Grammar.WellFormed

namespace IncrementalLR

-- Sequences of symbols from which the empty word can be derived.
inductive Vanishes (rules : Rules) : List Nat → Prop where
  | nil : Vanishes rules []
  | cons {production left : Nat} {rest : List Nat} :
      (rules.production production).left = some left →
      Vanishes rules (rules.production production).right →
      Vanishes rules rest → Vanishes rules (left :: rest)

-- Sequences of symbols from which a word can be derived that a terminal begins.
inductive Begins (rules : Rules) : List Nat → Nat → Prop where
  | here {terminal : Nat} {rest : List Nat} :
      terminal ∈ rules.terminals → Begins rules (terminal :: rest) terminal
  | inside {production left terminal : Nat} {rest : List Nat} :
      (rules.production production).left = some left →
      Begins rules (rules.production production).right terminal →
      Begins rules (left :: rest) terminal
  | after {symbol terminal : Nat} {rest : List Nat} :
      Vanishes rules [symbol] → Begins rules rest terminal → Begins rules (symbol :: rest) terminal

namespace Rules

variable {rules : Rules}

theorem mem_terminals {id : Nat} :
    id ∈ rules.terminals ↔
      id < rules.symbols.size ∧ (rules.symbol id).isTerminal = true ∧ id ≠ epsilonId := by
  simp [terminals, symbolIds]

end Rules

section

variable {rules : Rules}

theorem Vanishes.append {left right : List Nat} (hl : Vanishes rules left)
    (hr : Vanishes rules right) : Vanishes rules (left ++ right) := by
  induction hl with
  | nil => exact hr
  | cons hleft hbelow _ _ ih => exact .cons hleft hbelow ih

theorem vanishes_append {left right : List Nat} :
    Vanishes rules (left ++ right) ↔ Vanishes rules left ∧ Vanishes rules right := by
  refine ⟨fun h => ?_, fun h => h.1.append h.2⟩
  induction left with
  | nil => exact ⟨.nil, h⟩
  | cons first rest ih =>
      cases h with
      | cons hleft hbelow hrest => exact ⟨.cons hleft hbelow (ih hrest).1, (ih hrest).2⟩

theorem vanishes_cons {symbol : Nat} {rest : List Nat} :
    Vanishes rules (symbol :: rest) ↔ Vanishes rules [symbol] ∧ Vanishes rules rest := by
  rw [← vanishes_append, List.singleton_append]

theorem Begins.append {left : List Nat} {terminal : Nat} (hb : Begins rules left terminal)
    (right : List Nat) : Begins rules (left ++ right) terminal := by
  induction hb with
  | here ht => exact .here ht
  | inside hleft hbelow _ => exact .inside hleft hbelow
  | after hv _ ih => exact .after hv ih

theorem Vanishes.begins_append {left right : List Nat} {terminal : Nat} (hv : Vanishes rules left)
    (hb : Begins rules right terminal) : Begins rules (left ++ right) terminal := by
  induction left with
  | nil => exact hb
  | cons first rest ih =>
      have ⟨hfirst, hrest⟩ := vanishes_cons.mp hv
      exact .after hfirst (ih hrest)

theorem Begins.mem_terminals {sequence : List Nat} {terminal : Nat}
    (hb : Begins rules sequence terminal) : terminal ∈ rules.terminals := by
  induction hb with
  | here ht => exact ht
  | inside _ _ ih => exact ih
  | after _ _ ih => exact ih

end

end IncrementalLR
