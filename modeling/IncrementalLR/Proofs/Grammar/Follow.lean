import IncrementalLR.Proofs.Grammar.Forms

namespace IncrementalLR

namespace Rules

-- Whether a terminal stands directly behind a symbol in a form that some nonterminal
-- derives.
def StandsBefore (rules : Rules) (symbol terminal : Nat) : Prop :=
  ∃ nonterminal ∈ rules.nonterminals, ∃ front back,
    rules.TurnsInto [nonterminal] (front ++ symbol :: terminal :: back)

-- Whether a form that the start symbol derives ends in a symbol.
def StandsLast (rules : Rules) (symbol : Nat) : Prop := ∃ front, rules.TurnsInto [rules.start] (front ++ [symbol])

end Rules

namespace FirstFollow

variable {rules : Rules} {nullable : SymbolSet} {first follow : Array SymbolSet} {id terminal : Nat}

section Steps

theorem mem_suffixesAfter {sequence suffix : List Nat} :
    suffix ∈ suffixesAfter id sequence ↔ ∃ front, sequence = front ++ id :: suffix := by
  induction sequence with
  | nil => simp [suffixesAfter]
  | cons symbol rest ih =>
      unfold suffixesAfter
      constructor
      · intro h
        split at h
        · rename_i he
          rcases List.mem_cons.mp h with rfl | h
          · exact ⟨[], by rw [he]; rfl⟩
          · obtain ⟨front, rfl⟩ := ih.mp h
            exact ⟨symbol :: front, rfl⟩
        · obtain ⟨front, rfl⟩ := ih.mp h
          exact ⟨symbol :: front, rfl⟩
      · rintro ⟨front, he⟩
        cases front with
        | nil =>
            obtain ⟨rfl, rfl⟩ := List.cons.inj he
            rw [if_pos rfl]
            exact List.mem_cons_self
        | cons other front =>
            have hrest := ih.mpr ⟨front, (List.cons.inj he).2⟩
            split
            · exact List.mem_cons_of_mem _ hrest
            · exact hrest

-- What a place in a right side adds to the set of the symbol there.
def behind (nullable : SymbolSet) (first follow : Array SymbolSet) (left : Nat) (suffix : List Nat) : SymbolSet :=
  heads nullable first suffix ∪ if allIn nullable suffix then setOf follow left else ∅

theorem mem_behind {left : Nat} {suffix : List Nat} :
    terminal ∈ behind nullable first follow left suffix ↔
      terminal ∈ heads nullable first suffix ∨ allIn nullable suffix = true ∧ terminal ∈ setOf follow left := by
  rw [behind, SymbolSet.mem_union]
  by_cases hall : allIn nullable suffix = true
  · simp [hall]
  · simp [hall]

theorem mem_followContribution {production : Production} :
    terminal ∈ followContribution nullable first follow id production ↔
      ∃ left, production.left = some left ∧ ∃ suffix ∈ suffixesAfter id production.right,
        terminal ∈ heads nullable first suffix ∨ allIn nullable suffix = true ∧ terminal ∈ setOf follow left := by
  unfold followContribution
  cases hleft : production.left with
  | none => simp
  | some left =>
      simp only [Option.some_inj, exists_eq_left']
      refine (SymbolSet.mem_foldl fun set suffix => ?_).trans (or_iff_right (SymbolSet.not_mem_empty terminal))
      rw [SymbolSet.mem_union, SymbolSet.mem_union, or_assoc, ← SymbolSet.mem_union]
      exact or_congr_right mem_behind

theorem size_followStep : (followStep rules nullable first follow).size = follow.size := by
  simp [followStep]

theorem mem_followStep :
    terminal ∈ setOf (followStep rules nullable first follow) id ↔
      terminal ∈ setOf follow id ∨ (id < follow.size ∧ rules.alternatives id ≠ []) ∧
        ∃ production ∈ rules.declared, terminal ∈ followContribution nullable first follow id production := by
  simp only [setOf, followStep, Array.getD_eq_getD_getElem?, Array.getElem?_mapIdx]
  by_cases hlt : id < follow.size
  · by_cases ha : rules.alternatives id = []
    · simp [hlt, ha]
    · simp only [hlt, Array.getElem?_eq_getElem, Option.map_some, Option.getD_some, List.isEmpty_iff, ha, if_false,
        true_and, ne_eq, not_false_eq_true]
      exact SymbolSet.mem_foldl fun set production => SymbolSet.mem_union
  · simp [hlt]

theorem within_followStep : Within follow (followStep rules nullable first follow) :=
  ⟨size_followStep.symm, fun _ _ h => mem_followStep.mpr (Or.inl h)⟩

-- The end of input follows the start symbol.
def followSeeds (rules : Rules) : Array SymbolSet :=
  rules.symbols.mapIdx fun id _ => if id = rules.start then SymbolSet.empty.insert finishId else ∅

theorem mem_followSeeds (hw : rules.WellFormed) :
    terminal ∈ setOf (followSeeds rules) id ↔ terminal = finishId ∧ id = rules.start := by
  simp only [setOf, followSeeds, Array.getD_eq_getD_getElem?, Array.getElem?_mapIdx]
  by_cases hlt : id < rules.symbols.size
  · by_cases he : id = rules.start
    · simp [he, hw.start_lt, show SymbolSet.empty = ∅ from rfl]
    · simp [hlt, he]
  · have hne : id ≠ rules.start := fun he => hlt (he ▸ hw.start_lt)
    simp [hlt, hne]

-- The sets FOLLOW of a grammar.
def saturatedFollow (rules : Rules) : Array SymbolSet :=
  saturate (followStep rules (nullableSet rules) (firstSets rules (nullableSet rules))) (growthBound rules)
    (followSeeds rules)

end Steps

section Sound

-- Sets with one place for each symbol that hold what stands behind it in derivations.
structure OfFollowers (rules : Rules) (follow : Array SymbolSet) : Prop where
  size : follow.size = rules.symbols.size
  follows : ∀ id, ∀ terminal ∈ setOf follow id, terminal ∈ rules.terminals ∧
    (rules.StandsBefore id terminal ∨ terminal = finishId ∧ rules.StandsLast id)

theorem finish_mem_terminals (hw : rules.WellFormed) : finishId ∈ rules.terminals :=
  Rules.mem_terminals.mpr ⟨hw.finish_lt, by rw [hw.symbol_finish]; rfl, by decide⟩

theorem ofFollowers_followSeeds (hw : rules.WellFormed) : OfFollowers rules (followSeeds rules) := by
  refine ⟨by simp [followSeeds], fun id terminal h => ?_⟩
  obtain ⟨rfl, rfl⟩ := (mem_followSeeds hw).mp h
  exact ⟨finish_mem_terminals hw, Or.inr ⟨rfl, [], .refl⟩⟩

-- A production puts its right side wherever its left side stands.
theorem ofFollowers_followStep (hw : rules.WellFormed) (hf : OfFollowers rules follow) :
    OfFollowers rules
      (followStep rules (nullableSet rules) (firstSets rules (nullableSet rules)) follow) := by
  refine ⟨size_followStep.trans hf.size, fun id terminal h => ?_⟩
  rcases mem_followStep.mp h with h | ⟨-, _, hp, h⟩
  · exact hf.follows id terminal h
  obtain ⟨production, -, -, rfl⟩ := Rules.mem_declared.mp hp
  obtain ⟨left, hleft, suffix, hsuffix, h⟩ := mem_followContribution.mp h
  obtain ⟨front, hright⟩ := mem_suffixesAfter.mp hsuffix
  have hexpand : rules.TurnsInto [left] (front ++ id :: suffix) := hright ▸ .of_left hleft
  have hs : ∀ symbol ∈ suffix, symbol ≠ epsilonId := fun symbol hmem =>
    (hw.right production symbol (by rw [hright]; simp [hmem])).2
  rcases h with h | ⟨hall, h⟩
  · have hb := (mem_heads_firstSets hw hs).mp h
    obtain ⟨back, hback⟩ := hb.turnsInto
    refine ⟨hb.mem_terminals, Or.inl ⟨left, Rules.mem_nonterminals.mpr (hw.left_spec hleft).2, front, back, ?_⟩⟩
    simpa using hexpand.trans (by simpa using hback.within (front ++ [id]) [])
  · have hvanish : rules.TurnsInto suffix [] := ((vanishes_iff hw hs).mpr (allIn_iff.mp hall)).turnsInto
    have hlast : rules.TurnsInto [left] (front ++ [id]) :=
      hexpand.trans (by simpa using hvanish.within (front ++ [id]) [])
    obtain ⟨hterminal, h⟩ := hf.follows left terminal h
    refine ⟨hterminal, h.imp ?_ (And.imp_right ?_)⟩
    · rintro ⟨nonterminal, hn, before, behind, ht⟩
      refine ⟨nonterminal, hn, before ++ front, behind, ht.trans ?_⟩
      simpa using hlast.within before (terminal :: behind)
    · rintro ⟨before, ht⟩
      refine ⟨before ++ front, ht.trans ?_⟩
      simpa using hlast.within before []

theorem ofFollowers_saturatedFollow (hw : rules.WellFormed) : OfFollowers rules (saturatedFollow rules) :=
  saturate_induction (motive := OfFollowers rules) _ (fun _ => ofFollowers_followStep hw) _ _
    (ofFollowers_followSeeds hw)

end Sound

section Complete

theorem followStep_saturatedFollow (hw : rules.WellFormed) :
    followStep rules (nullableSet rules) (firstSets rules (nullableSet rules)) (saturatedFollow rules) =
      saturatedFollow rules := by
  refine step_saturate (motive := OfFollowers rules) _ (fun follow => totalSize follow.size (setOf follow))
    (rules.symbols.size * rules.symbols.size) (fun _ => ofFollowers_followStep hw)
    (fun _ _ => within_followStep.totalSize_lt) ?_ _ _ (ofFollowers_followSeeds hw) (by simp only [growthBound]; omega)
  intro follow hf
  rw [hf.size]
  exact totalSize_le fun id _ symbol hs => (Rules.mem_terminals.mp (hf.follows id symbol hs).1).1

-- What a right side says of the symbols behind one of its own.
theorem mem_saturatedFollow_of_right (hw : rules.WellFormed) {production left : Nat} {front suffix : List Nat}
    (hleft : (rules.production production).left = some left)
    (hright : (rules.production production).right = front ++ id :: suffix)
    (hn : (rules.symbol id).isNonterminal = true)
    (h : Begins rules suffix terminal ∨ Vanishes rules suffix ∧ terminal ∈ setOf (saturatedFollow rules) left) :
    terminal ∈ setOf (saturatedFollow rules) id := by
  have hmem : id ∈ (rules.production production).right := by simp [hright]
  have hs : ∀ symbol ∈ suffix, symbol ≠ epsilonId := fun symbol hs =>
    (hw.right production symbol (by simp [hright, hs])).2
  rw [← followStep_saturatedFollow hw]
  refine mem_followStep.mpr (Or.inr ⟨⟨?_, hw.defined production id hmem hn⟩, _, hw.mem_declared_of_left hleft,
    mem_followContribution.mpr ⟨left, hleft, suffix, mem_suffixesAfter.mpr ⟨front, hright⟩, ?_⟩⟩)
  · rw [(ofFollowers_saturatedFollow hw).size]
    exact (hw.right production id hmem).1
  · rw [mem_heads_firstSets hw hs]
    exact h.imp_right (And.imp_left fun hv => allIn_iff.mpr ((vanishes_iff hw hs).mp hv))

-- Forms in which each symbol is one of the vocabulary and stands for something.
def Proper (rules : Rules) (form : List Nat) : Prop := ∀ symbol ∈ form, symbol < rules.symbols.size ∧ symbol ≠ epsilonId

theorem Proper.turnsInto (hw : rules.WellFormed) {form other : List Nat} (hp : Proper rules form)
    (ht : rules.TurnsInto form other) : Proper rules other := by
  induction ht with
  | refl => exact hp
  | tail _ hr ih =>
      intro symbol hs
      cases hr with
      | @expand production left front back _ =>
          rcases List.mem_append.mp hs with hs | hs
          · exact ih symbol (by simp [hs])
          · rcases List.mem_append.mp hs with hs | hs
            · exact hw.right production symbol hs
            · exact ih symbol (by simp [hs])
      | vanish front back =>
          rcases List.mem_append.mp hs with hs | hs
          · exact ih symbol (by simp [hs])
          · exact ih symbol (by simp [hs])

theorem proper_nonterminal (hw : rules.WellFormed) {nonterminal : Nat} (hn : nonterminal ∈ rules.nonterminals) :
    Proper rules [nonterminal] := by
  have hlt : nonterminal < rules.symbols.size := List.mem_range.mp (List.mem_of_mem_filter hn)
  intro symbol hs
  obtain rfl := List.mem_singleton.mp hs
  refine ⟨hlt, ?_⟩
  rintro rfl
  have h := Rules.mem_nonterminals.mp hn
  rw [hw.symbol_epsilon] at h
  cases h

-- Whether a terminal comes next where some symbols are left of a form: they begin with
-- it, or vanish at the end of what the start symbol derives.
def ComesNext (rules : Rules) (nonterminal : Nat) (back : List Nat) (terminal : Nat) : Prop :=
  Begins rules back terminal ∨ nonterminal = rules.start ∧ terminal = finishId ∧ Vanishes rules back

theorem eq_append_or {left right front back : List Nat} (h : left ++ right = front ++ id :: back) :
    (∃ rest, left = front ++ id :: rest ∧ back = rest ++ right) ∨
      ∃ rest, front = left ++ rest ∧ right = rest ++ id :: back := by
  rcases List.append_eq_append_iff.mp h with ⟨rest, hfront, hright⟩ | ⟨rest, hleft, hback⟩
  · exact Or.inr ⟨rest, hfront, hright⟩
  · cases rest with
    | nil => exact Or.inr ⟨[], by simpa using hleft.symm, hback.symm⟩
    | cons symbol rest =>
        obtain ⟨rfl, rfl⟩ := List.cons.inj hback
        exact Or.inl ⟨rest, hleft, rfl⟩

theorem finish_mem_saturatedFollow (hw : rules.WellFormed) : finishId ∈ setOf (saturatedFollow rules) rules.start :=
  saturate_induction (motive := fun follow => finishId ∈ setOf follow rules.start) _
    (fun _ h => mem_followStep.mpr (Or.inl h)) _ _ ((mem_followSeeds hw).mpr ⟨rfl, rfl⟩)

-- Along a derivation the sets hold whatever comes next behind each nonterminal of the
-- form. A step puts a right side where its left side stood, and the set of that one
-- says what comes behind both.
theorem mem_saturatedFollow_of_turnsInto (hw : rules.WellFormed) {nonterminal : Nat}
    (hn : nonterminal ∈ rules.nonterminals) {form : List Nat} (ht : rules.TurnsInto [nonterminal] form)
    {front back : List Nat} (hform : form = front ++ id :: back) (hid : (rules.symbol id).isNonterminal = true)
    (h : ComesNext rules nonterminal back terminal) : terminal ∈ setOf (saturatedFollow rules) id := by
  induction ht generalizing id front back with
  | refl =>
      obtain ⟨rfl, rfl⟩ : nonterminal = id ∧ back = [] := by
        cases front with
        | nil => simpa [eq_comm] using hform
        | cons symbol front => simp at hform
      rcases h with h | ⟨rfl, rfl, -⟩
      · cases h
      · exact finish_mem_saturatedFollow hw
  | @tail before after ht hr ih =>
      cases hr with
      | vanish left right =>
          exact absurd rfl ((proper_nonterminal hw hn).turnsInto hw ht epsilonId (by simp)).2
      | @expand production expanded left right hleft =>
          rcases eq_append_or hform with ⟨rest, rfl, rfl⟩ | ⟨rest, rfl, hrest⟩
          · have hbefore : front ++ id :: rest ++ expanded :: right = front ++ id :: (rest ++ expanded :: right) :=
              List.append_assoc ..
            refine ih hbefore hid ?_
            exact h.imp (begins_of_expanded hleft) fun h => ⟨h.1, h.2.1, vanishes_of_expanded hleft h.2.2⟩
          · rcases eq_append_or hrest with ⟨suffix, hright, rfl⟩ | ⟨rest, rfl, rfl⟩
            · refine mem_saturatedFollow_of_right hw hleft hright hid ?_
              have hbehind : ComesNext rules nonterminal right terminal →
                  terminal ∈ setOf (saturatedFollow rules) expanded := ih rfl (hw.left_spec hleft).2
              rcases h with h | ⟨hstart, hterminal, h⟩
              · exact (begins_append.mp h).imp_right (And.imp_right fun h => hbehind (Or.inl h))
              · have hv := vanishes_append.mp h
                exact Or.inr ⟨hv.1, hbehind (Or.inr ⟨hstart, hterminal, hv.2⟩)⟩
            · have hbefore : left ++ expanded :: (rest ++ id :: back) = (left ++ expanded :: rest) ++ id :: back := by
                rw [List.append_assoc, List.cons_append]
              exact ih hbefore hid h

end Complete

section Renewals

-- Renews one set in place by one place where a symbol that has alternatives stands.
inductive FollowRenewal (rules : Rules) (nullable : SymbolSet) (first : Array SymbolSet) :
    Array SymbolSet → Array SymbolSet → Prop where
  | renewed {follow : Array SymbolSet} {production : Production} {left symbol : Nat} {front suffix : List Nat} :
      production ∈ rules.declared → production.left = some left → production.right = front ++ symbol :: suffix →
      rules.alternatives symbol ≠ [] →
      FollowRenewal rules nullable first follow (extend follow symbol (behind nullable first follow left suffix))

theorem renewing_follow : Renewing Within (FollowRenewal rules nullable first) where
  refl := .refl
  trans := .trans
  antisymm := Within.antisymm
  grows | .renewed _ _ _ _ => within_extend
  keeps := by
    rintro _ _ other ⟨hp, hleft, hright, hsymbol⟩ hw
    refine ⟨_, .renewed hp hleft hright hsymbol, hw.extend fun terminal h => ?_⟩
    exact mem_behind.mpr ((mem_behind.mp h).imp_right (And.imp_right (hw.mem _ terminal)))

theorem followStep_within_of_atRest {other : Array SymbolSet} (hrest : AtRest (FollowRenewal rules nullable first) other)
    (hs : Within follow other) : Within (followStep rules nullable first follow) other := by
  refine ⟨size_followStep.trans hs.size, fun id terminal h => ?_⟩
  rcases mem_followStep.mp h with h | ⟨⟨hlt, hid⟩, production, hp, h⟩
  · exact hs.mem id terminal h
  · obtain ⟨left, hleft, suffix, hsuffix, h⟩ := mem_followContribution.mp h
    obtain ⟨front, hright⟩ := mem_suffixesAfter.mp hsuffix
    have hfixed := hrest _ (.renewed hp hleft hright hid)
    refine subset_of_extend_eq hfixed (hs.size ▸ hlt) terminal (mem_behind.mpr ?_)
    exact h.imp_right (And.imp_right (hs.mem left terminal))

-- The rounds come to what the places in the right sides come to one by one.
theorem endsIn_followSets (hw : rules.WellFormed) :
    EndsIn (FollowRenewal rules (nullableSet rules) (firstSets rules (nullableSet rules))) (followSeeds rules)
      (followSets rules (nullableSet rules) (firstSets rules (nullableSet rules))) := by
  refine renewing_follow.endsIn (fun follow => totalSize follow.size (setOf follow)) Within.totalSize_lt ?_ ?_ ?_
  case refine_1 =>
    exact saturate_induction (motive := Within (followSeeds rules)) _ (fun _ h => h.trans within_followStep) _ _ (.refl _)
  case refine_2 =>
    rintro _ ⟨hp, hleft, hright, hsymbol⟩
    refine extend_eq_of_subset fun terminal h => ?_
    show terminal ∈ setOf (saturatedFollow rules) _
    rw [← followStep_saturatedFollow hw]
    refine mem_followStep.mpr (Or.inr ⟨⟨?_, hsymbol⟩, _, hp, ?_⟩)
    · obtain ⟨index, -, -, rfl⟩ := Rules.mem_declared.mp hp
      rw [(ofFollowers_saturatedFollow hw).size]
      exact (hw.right index _ (by rw [hright]; simp)).1
    · exact mem_followContribution.mpr ⟨_, hleft, _, mem_suffixesAfter.mpr ⟨_, hright⟩, mem_behind.mp h⟩
  case refine_3 =>
    exact fun other hseed hrest => saturate_induction (motive := fun follow => Within follow other) _
      (fun _ => followStep_within_of_atRest hrest) _ _ hseed

end Renewals

end FirstFollow

namespace Grammar

-- The sets FOLLOW of a grammar hold the terminals that stand behind a nonterminal in
-- what the nonterminals derive, and the end of input where it may stand last.
structure FollowExact (grammar : Grammar) : Prop where
  follow : ∀ nonterminal ∈ grammar.nonterminals, ∀ terminal, (grammar.symbol terminal).isTerminal = true →
    (terminal ∈ grammar.follow nonterminal ↔
      grammar.StandsBefore nonterminal terminal ∨ terminal = finishId ∧ grammar.StandsLast nonterminal)
  follow_terminals : ∀ symbol, ∀ other ∈ grammar.follow symbol, other ∈ grammar.terminals

theorem follow_eq {grammar : Grammar} (symbol : Nat) :
    grammar.follow symbol = FirstFollow.setOf (FirstFollow.saturatedFollow grammar.toRules) symbol := by
  rw [follow, grammar.sets_eq]
  rfl

theorem followExact_of_wellFormed {grammar : Grammar} (hw : grammar.toRules.WellFormed) : grammar.FollowExact := by
  have hsound := FirstFollow.ofFollowers_saturatedFollow hw
  constructor
  case follow_terminals =>
    intro symbol other h
    rw [follow_eq] at h
    exact (hsound.follows symbol other h).1
  case follow =>
    intro nonterminal hn terminal hterminal
    have hsymbol := Rules.mem_nonterminals.mp hn
    rw [follow_eq]
    refine ⟨fun h => (hsound.follows nonterminal terminal h).2, ?_⟩
    rintro (⟨origin, ho, front, back, ht⟩ | ⟨rfl, front, ht⟩)
    · have hp := (FirstFollow.proper_nonterminal hw ho).turnsInto hw ht terminal (by simp)
      exact FirstFollow.mem_saturatedFollow_of_turnsInto hw ho ht rfl hsymbol
        (Or.inl (.here (Rules.mem_terminals.mpr ⟨hp.1, hterminal, hp.2⟩)))
    · exact FirstFollow.mem_saturatedFollow_of_turnsInto hw (Rules.mem_nonterminals.mpr hw.start_nonterminal) ht rfl
        hsymbol (Or.inr ⟨rfl, rfl, .nil⟩)

theorem symbol_start_of_withStart {grammar other : Grammar} {start : Symbol} (hw : grammar.toRules.WellFormed)
    (h : grammar.withStart start = .ok other) : other.symbol other.start = start := by
  unfold withStart at h
  split at h
  · cases h
  · rename_i id hid
    have hsymbol : grammar.symbol id = start := Rules.symbol_of_getElem? (hw.symbolId?_eq_some.mp hid)
    split at h
    · cases h
    · split at h
      · rename_i he
        rw [← Except.ok.inj h, ← he]
        exact hsymbol
      · rw [← Except.ok.inj h]
        exact hsymbol

-- From another start symbol the sets are exact again, now with the end of input behind
-- that one.
theorem followExact_of_built {grammar : Grammar} (hb : grammar.Built) :
    grammar.FollowExact ∧ ∀ start other, grammar.withStart start = .ok other →
      other.symbol other.start = start ∧ other.FollowExact :=
  ⟨followExact_of_wellFormed hb.wellFormed, fun _ _ h =>
    ⟨symbol_start_of_withStart hb.wellFormed h, followExact_of_wellFormed (hb.restarted h).wellFormed⟩⟩

-- From "A" nothing derives a form that ends in "T" any more.
theorem followExact_drained :
    Rules.drained.toGrammar.Built ∧ (Rules.drained.toGrammar.follow 5).toList = [0] ∧
      Rules.drained.toGrammar.FollowExact ∧
      ∃ other, Rules.drained.toGrammar.withStart (.nonterminal "A") = .ok other ∧
        (other.follow 4).toList = [0, 8] ∧ (other.follow 5).toList = [] ∧
        other.symbol other.start = .nonterminal "A" ∧ other.FollowExact := by
  obtain ⟨hexact, hrestart⟩ := followExact_of_built built_drained
  have hstart : Rules.drained.toGrammar.withStart (.nonterminal "A") = .ok (Rules.drained.restart 4).toGrammar := by
    have hid : Rules.drained.toGrammar.symbolId? (.nonterminal "A") = some 4 := by decide +kernel
    rw [withStart, hid]
    rfl
  exact ⟨built_drained, by decide +kernel, hexact, _, hstart, by decide +kernel, by decide +kernel, hrestart _ _ hstart⟩

end Grammar

end IncrementalLR
