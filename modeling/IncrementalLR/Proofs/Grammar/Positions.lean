import IncrementalLR.Proofs.Grammar.Lines
import IncrementalLR.Proofs.Grammar.Printing

namespace IncrementalLR

open Text

namespace Source

-- How a token is written.
def Spells : Token → List Char → Prop
  | .mapsTo, piece => piece = "::=".toList
  | .alternative, piece => piece = "|".toList
  | .semicolon, piece => piece = ";".toList
  | .tag, piece => piece = "%prec".toList
  | .name text, piece => piece = text.toList ∧ IsName piece
  | .terminal name, piece => piece = '"' :: (name.toList ++ ['"']) ∧ '"' ∉ name.toList
  | .magic name, piece => piece = '<' :: (name.toList ++ ['>']) ∧ '>' ∉ name.toList
  | .template text, piece => ∃ body, piece = '\x7b' :: (body ++ ['\x7d']) ∧ '\x7d' ∉ body ∧ trim body = text.toList

-- Where no token can be read, and the error that is made of it.
inductive Unread (line : Nat) : List Char → GrammarError → Prop
  | unterminated {c close : Char} {part : OpenPart} {body : List Char} :
      openPart? c = some (close, part) → close ∉ body → Unread line (c :: body) (.unterminated line part)
  | unsupported {c : Char} {rest : List Char} :
      isBracket c = true → Unread line (c :: rest) (.unsupported line c.toString)
  | unexpected {c : Char} {rest : List Char} :
      isBlank c = false → isNameChar c = false → isBracket c = false → openPart? c = none →
        fixedToken? (c :: rest) = none → Unread line (c :: rest) (.unexpectedToken line c.toString .rule)

section Tokens

variable {line : Nat} {token : Token} {text piece rest : List Char}

-- How a text is read: over blanks and over tokens, which are also read where the text ends earlier behind them,
-- to its end or to what is no token.
inductive Reads : Nat → List Char → Except GrammarError (List (Token × Nat)) → Prop
  | nil {line : Nat} : Reads line [] (.ok [])
  | blank {line : Nat} {c : Char} {rest : List Char} {result : Except GrammarError (List (Token × Nat))} :
      isBlank c = true → Reads (line + [c].count '\n') rest result → Reads line (c :: rest) result
  | token {line : Nat} {token : Token} {piece rest : List Char} {result : Except GrammarError (List (Token × Nat))} :
      Spells token piece →
        (∀ later found, later <+: rest → Scans later found → Scans (piece ++ later) (token :: found)) →
          Reads (line + piece.count '\n') rest result → Reads line (piece ++ rest) (result.map ((token, line) :: ·))
  | error {line : Nat} {text : List Char} {error : GrammarError} :
      Unread line text error → Reads line text (.error error)

theorem spells_of_fixedToken? (h : fixedToken? text = some (token, rest)) :
    ∃ c letters, text = c :: (letters ++ rest) ∧ Spells token (c :: letters) ∧ '\n' ∉ letters ∧
      ∀ later, fixedToken? (c :: (letters ++ later)) = some (token, later) := by
  unfold fixedToken? at h
  split at h <;> simp only [Option.some.injEq, Prod.mk.injEq, reduceCtorEq] at h
  all_goals obtain ⟨rfl, rfl⟩ := h
  · exact ⟨':', [':', '='], rfl, rfl, by decide, fun _ => rfl⟩
  · exact ⟨'%', ['p', 'r', 'e', 'c'], rfl, rfl, by decide, fun _ => rfl⟩
  · exact ⟨'|', [], rfl, rfl, by decide, fun _ => rfl⟩
  · exact ⟨';', [], rfl, rfl, by decide, fun _ => rfl⟩

theorem spells_closedToken {c close : Char} {part : OpenPart} {body : List Char}
    (ho : openPart? c = some (close, part)) (hclose : close ∉ body) :
    Spells (closedToken part body) (c :: (body ++ [close])) := by
  unfold openPart? at ho
  repeat' split at ho
  all_goals cases ho
  all_goals
    rename_i hc
    subst hc
  · exact ⟨by simp, by simpa using hclose⟩
  · exact ⟨by simp, by simpa using hclose⟩
  · exact ⟨body, rfl, hclose, String.toList_ofList.symm⟩

-- A run of name characters that ends here is a name, also where the text ends earlier.
theorem bounded_of_prefix_dropWhile {later : List Char} (h : later <+: rest.dropWhile isNameChar) : Bounded later := by
  intro c hc
  obtain ⟨others, rfl⟩ := List.head?_eq_some_iff.mp hc
  obtain ⟨back, hback⟩ := h
  have hhead := List.head?_dropWhile_not isNameChar rest
  rw [← hback] at hhead
  simpa using hhead

theorem reads_tokens (line : Nat) (text : List Char) : Reads line text (tokens line text) := by
  fun_induction tokens line text with
  | case1 => exact .nil
  | case2 line rest ih =>
      have hblank : isBlank '\n' = true := by decide
      exact .blank hblank ih
  | case3 line c rest hfeed hblank ih =>
      refine .blank hblank ?_
      rwa [List.count_singleton, if_neg (by simpa using hfeed)]
  | case4 line c rest hfeed hblank token after hfixed _ ih =>
      obtain ⟨d, letters, htext, hspells, hletters, hlater⟩ := spells_of_fixedToken? hfixed
      obtain ⟨rfl, rfl⟩ := List.cons.inj htext
      refine .token hspells (fun later found _ h => h.fixed (by simpa using hblank) (hlater later)) ?_
      rwa [List.count_cons_of_ne hfeed, List.count_eq_zero.mpr hletters]
  | case5 line c rest hfeed hblank hfixed close part hopen hsplit =>
      refine .error (.unterminated hopen fun hclose => ?_)
      obtain ⟨before, after, rfl, hbefore⟩ := List.eq_append_cons_of_mem hclose
      rw [splitAtFirst_append hbefore] at hsplit
      cases hsplit
  | case6 line c rest hfeed hblank hfixed close part hopen body after hsplit _ ih =>
      obtain ⟨rfl, hclose⟩ := splitAtFirst_eq_some hsplit
      have hend : close ≠ '\n' := ne_feed_of_not_isBlank (not_isBlank_of_mem_signs (openPart?_spec hopen).2.1)
      have hcount : (c :: (body ++ [close])).count '\n' = body.count '\n' := by
        rw [List.count_cons_of_ne hfeed, List.count_append, List.count_singleton, if_neg (by simpa using hend)]
        rfl
      have hreads := Reads.token (spells_closedToken hopen hclose)
        (fun later found _ h => by simpa using h.closed hopen hclose) (by rwa [hcount])
      simpa using hreads
  | case7 line c rest hfeed hblank hfixed hopen hbracket => exact .error (.unsupported hbracket)
  | case8 line c rest hfeed hblank hfixed hopen hbracket hc _ name ih =>
      have hname : IsName (c :: rest.takeWhile isNameChar) :=
        ⟨List.cons_ne_nil _ _, List.forall_mem_cons.mpr ⟨hc, fun d hd => List.mem_takeWhile_imp hd⟩⟩
      have hfeeds : '\n' ∉ c :: rest.takeWhile isNameChar := fun hm =>
        ne_feed_of_not_isBlank (not_isBlank_of_isNameChar (hname.2 _ hm)) rfl
      have hspells : Spells (.name name) (c :: rest.takeWhile isNameChar) := ⟨String.toList_ofList.symm, hname⟩
      have hreads := @Reads.token _ _ _ (rest.dropWhile isNameChar) _ hspells
        (fun later found hlater h => h.name hname (bounded_of_prefix_dropWhile hlater))
        (by rwa [List.count_eq_zero.mpr hfeeds])
      rwa [List.cons_append, List.takeWhile_append_dropWhile] at hreads
  | case9 line c rest hfeed hblank hfixed hopen hbracket hc =>
      exact .error (.unexpected (by simpa using hblank) (by simpa using hc) (by simpa using hbracket) hopen hfixed)

-- Where a token stands in a text, behind the tokens that are read in front of it.
structure Stands (text front : List Char) (before : List Token) (token : Token) : Prop where
  whole : ∃ piece back, text = front ++ (piece ++ back) ∧ Spells token piece
  above : Scans front before

-- Every token has the number of the line it starts on.
theorem tokens_eq_ok {numbered : List (Token × Nat)} (h : tokens line text = .ok numbered) :
    Scans text (numbered.map Prod.fst) ∧ ∀ before token number after, numbered = before ++ (token, number) :: after →
      ∃ front, Stands text front (before.map Prod.fst) token ∧ number = line + front.count '\n' := by
  have hreads := reads_tokens line text
  generalize htokens : tokens line text = result at h hreads
  clear htokens
  induction hreads generalizing numbered with
  | nil =>
      cases h
      exact ⟨scans_nil, by simp⟩
  | @blank line c rest result hc _ ih =>
      obtain ⟨hscans, hstands⟩ := ih h
      refine ⟨hscans.blank hc, fun before token number after he => ?_⟩
      obtain ⟨front, ⟨⟨piece, back, rfl, hpiece⟩, hfront⟩, rfl⟩ := hstands before token number after he
      refine ⟨c :: front, ⟨⟨piece, back, rfl, hpiece⟩, hfront.blank hc⟩, ?_⟩
      rw [← List.singleton_append (l := front), List.count_append, Nat.add_assoc]
  | token hspells hlater _ ih =>
      obtain ⟨others, rfl, rfl⟩ := exists_of_map_eq_ok h
      obtain ⟨hscans, hstands⟩ := ih rfl
      refine ⟨hlater _ _ List.prefix_rfl hscans, fun before other number after he => ?_⟩
      cases before with
      | nil =>
          obtain ⟨hother, rfl⟩ := List.cons.inj he
          obtain ⟨rfl, rfl⟩ := Prod.mk.inj hother
          exact ⟨[], ⟨⟨_, _, rfl, hspells⟩, scans_nil⟩, rfl⟩
      | cons first before =>
          obtain ⟨rfl, rfl⟩ := List.cons.inj he
          obtain ⟨front, ⟨⟨piece, back, rfl, hpiece⟩, hfront⟩, rfl⟩ := hstands before other number after rfl
          refine ⟨_ ++ front, ⟨⟨piece, back, (List.append_assoc ..).symm, hpiece⟩, ?_⟩, ?_⟩
          · exact hlater _ _ (List.prefix_append ..) hfront
          · rw [List.count_append, Nat.add_assoc]
  | error => cases h

-- What is no token has the number of the line it starts on.
theorem tokens_eq_error {error : GrammarError} (h : tokens line text = .error error) :
    ∃ front back found, text = front ++ back ∧ Scans front found ∧ Unread (line + front.count '\n') back error := by
  have hreads := reads_tokens line text
  generalize htokens : tokens line text = result at h hreads
  clear htokens
  induction hreads with
  | nil => cases h
  | @blank line c rest result hc _ ih =>
      obtain ⟨front, back, found, rfl, hfront, hback⟩ := ih h
      refine ⟨c :: front, back, found, rfl, hfront.blank hc, ?_⟩
      rwa [← List.singleton_append (l := front), List.count_append, ← Nat.add_assoc]
  | @token line token piece rest result hspells hlater _ ih =>
      cases result with
      | ok others => cases h
      | error other =>
          obtain ⟨front, back, found, rfl, hfront, hback⟩ := ih h
          refine ⟨piece ++ front, back, token :: found, (List.append_assoc ..).symm,
            hlater _ _ (List.prefix_append ..) hfront, ?_⟩
          rwa [List.count_append, ← Nat.add_assoc]
  | error hunread =>
      cases h
      exact ⟨[], _, [], rfl, scans_nil, hunread⟩

end Tokens

-- Where no rule is open: at the top, and behind a semicolon.
def Closed (before : List Token) : Prop := ∀ last ∈ before.getLast?, last = .semicolon

-- Tokens that can be read as rules.
def Readable (rule : Option OpenRule) (found : List Token) : Prop := ∃ rules, Parses rule found rules

inductive Misread (line : Nat) : List Token → Token → List Token → GrammarError → Prop
  | unmapped {name : String} {before after : List Token} : Readable none before → Closed before →
      after.head? ≠ some .mapsTo → Misread line before (.name name) after (.missingMapping line name)
  | unnamed {token : Token} {before after : List Token} : Readable none before → Closed before →
      (∀ name, token ≠ .name name) → Misread line before token after (.unexpectedToken line token.display .ruleName)
  | mapped {before after : List Token} : Readable none before → ¬ Closed before →
      Misread line before .mapsTo after (.unexpectedToken line Token.mapsTo.display .symbol)
  | untagged {token : Token} {before after : List Token} : Readable none before → ¬ Closed before →
      (∀ name, token ≠ .terminal name ∧ token ≠ .name name) →
        Misread line (before ++ [.tag]) token after (.unexpectedToken line token.display .tagTerminal)
  | ended {before : List Token} : Readable none before → ¬ Closed before →
      Misread line before .tag [] (.unexpectedToken line "end of input" .tagTerminal)

-- The rule that is open behind the tokens that were read, and what those make of the tokens to come.
structure Follows (history : List Token) (rule : Option OpenRule) (coming : List Token) : Prop where
  closed : rule = none ↔ Closed history
  reads : ∀ found, found <+: coming → Readable rule found → Readable none (history ++ found)

def Halts (history : List Token) (numbered : List (Token × Nat)) (error : GrammarError) : Prop :=
  ∃ before token number after, numbered = before ++ (token, number) :: after ∧
    Misread number (history ++ before.map Prod.fst) token (after.map Prod.fst) error

section Rules

variable {rule opened : Option OpenRule} {numbered rest : List (Token × Nat)} {error : GrammarError}
  {history : List Token}

theorem readable_nil (rule : Option OpenRule) : Readable rule [] :=
  ⟨closeRule rule, fun numbered h => by rw [List.map_eq_nil_iff.mp h, readRules]⟩

theorem Follows.readable {coming : List Token} (h : Follows history rule coming) : Readable none history := by
  simpa using h.reads [] (List.nil_prefix) (readable_nil rule)

theorem eq_error_of_map {α β : Type} {f : α → β} {result : Except GrammarError α} (h : result.map f = .error error) :
    result = .error error := by
  cases result with
  | ok => cases h
  | error => cases h; rfl

-- A reader that passes over some tokens halts where it halts behind them.
theorem Follows.halts {last : Token} (piece : List (Token × Nat))
    (hf : Follows history rule ((piece ++ rest).map Prod.fst)) (hlast : (piece.map Prod.fst).getLast? = some last)
    (hopened : opened = none ↔ last = .semicolon)
    (hpiece : ∀ found, found <+: rest.map Prod.fst → Readable opened found →
      Readable rule (piece.map Prod.fst ++ found))
    (ih : ∀ {history : List Token}, Follows history opened (rest.map Prod.fst) → Halts history rest error) :
    Halts history (piece ++ rest) error := by
  have hnext : Follows (history ++ piece.map Prod.fst) opened (rest.map Prod.fst) := by
    constructor
    · rw [hopened, Closed, List.getLast?_append, hlast]
      simp
    · intro found hfound hreadable
      rw [List.append_assoc]
      exact hf.reads _ (by rwa [List.map_append, List.prefix_append_right_inj]) (hpiece found hfound hreadable)
  obtain ⟨before, token, number, after, rfl, hmisread⟩ := ih hnext
  refine ⟨piece ++ before, token, number, after, (List.append_assoc ..).symm, ?_⟩
  rwa [List.map_append, ← List.append_assoc]

theorem Halts.of_misread {token : Token} {line : Nat} (h : Misread line history token (rest.map Prod.fst) error) :
    Halts history ((token, line) :: rest) error :=
  ⟨[], token, line, rest, rfl, by simpa using h⟩

theorem readRules_eq_error (hf : Follows history rule (numbered.map Prod.fst))
    (h : readRules rule numbered = .error error) : Halts history numbered error := by
  have hfront := hf.readable
  have hclosed := hf.closed
  have hopened (rule : OpenRule) : some rule ≠ none := Option.some_ne_none rule
  fun_induction readRules rule numbered generalizing history with
  | case1 => cases h
  | case2 rule name line next rest ih =>
      refine Follows.halts [(.name name, line), (.mapsTo, next)] hf rfl (by simp) ?_ fun hf =>
        ih hf (eq_error_of_map h) hf.readable hf.closed
      rintro found - ⟨rules, hrules⟩
      refine ⟨closeRule rule ++ rules, Parses.cons fun line others ho => ?_⟩
      obtain ⟨⟨_, next⟩, others, rfl, rfl, ho⟩ := List.map_eq_cons_iff.mp ho
      rw [readRules, hrules others (by simpa using ho)]
      rfl
  | case3 line rest name hmaps =>
      cases h
      refine .of_misread (.unmapped hfront (hclosed.mp rfl) fun hhead => ?_)
      obtain ⟨after, hafter⟩ := List.head?_eq_some_iff.mp hhead
      obtain ⟨⟨_, next⟩, others, rfl, rfl, -⟩ := List.map_eq_cons_iff.mp hafter
      exact hmaps name next others rfl rfl
  | case4 token line rest hname =>
      cases h
      exact .of_misread (.unnamed hfront (hclosed.mp rfl) hname)
  | case5 line rest rule _ ih =>
      refine Follows.halts [(.semicolon, line)] hf rfl (by simp) ?_ fun hf =>
        ih hf (eq_error_of_map h) hf.readable hf.closed
      rintro found - ⟨rules, hrules⟩
      exact ⟨_, hrules.semicolon⟩
  | case6 line rest rule _ ih =>
      refine Follows.halts [(.alternative, line)] hf rfl (by simp) ?_ fun hf => ih hf h hf.readable hf.closed
      rintro found - ⟨rules, hrules⟩
      exact ⟨_, hrules.bar⟩
  | case7 line rest rule name _ ih | case8 line rest rule name _ ih | case10 line rest rule name _ ih =>
      refine Follows.halts [(_, line)] hf rfl (by simp) ?_ fun hf => ih hf h hf.readable hf.closed
      rintro found - ⟨rules, hrules⟩
      refine ⟨rules, Parses.cons fun line others ho => ?_⟩
      rw [readRules]
      exact hrules others ho
  | case9 line rest rule name hmaps ih =>
      refine Follows.halts [(.name name, line)] hf rfl (by simp) ?_ fun hf => ih hf h hf.readable hf.closed
      rintro found hfound ⟨rules, hrules⟩
      refine ⟨rules, Parses.cons fun line others ho => ?_⟩
      rw [readRules]
      · exact hrules others ho
      · rintro other next behind rfl -
        obtain rfl : found = .mapsTo :: behind.map Prod.fst := ho.symm
        obtain ⟨back, hback⟩ := hfound
        obtain ⟨⟨_, next⟩, others, rfl, rfl, -⟩ := List.map_eq_cons_iff.mp hback.symm
        exact hmaps name next others rfl rfl
  | case11 line rest rule _ =>
      cases h
      exact .of_misread (.mapped hfront (mt hclosed.mpr (hopened rule)))
  | case12 line rule _ =>
      cases h
      exact .of_misread (.ended hfront (mt hclosed.mpr (hopened rule)))
  | case13 line rule name next rest _ ih | case14 line rule name next rest _ ih =>
      refine Follows.halts [(.tag, line), (_, next)] hf rfl (by simp) ?_ fun hf => ih hf h hf.readable hf.closed
      rintro found - ⟨rules, hrules⟩
      refine ⟨rules, Parses.cons fun line others ho => ?_⟩
      obtain ⟨⟨_, next⟩, others, rfl, rfl, ho⟩ := List.map_eq_cons_iff.mp ho
      rw [readRules]
      exact hrules others (by simpa using ho)
  | case15 line rule token next rest hterminal hname _ =>
      cases h
      refine ⟨[(.tag, line)], token, next, rest, rfl, ?_⟩
      exact .untagged hfront (mt hclosed.mpr (hopened rule)) fun name => ⟨hterminal name, hname name⟩

-- The first token that cannot stand in a rule where it stands.
theorem readRules_none_eq_error (h : readRules none numbered = .error error) :
    ∃ before token number after, numbered = before ++ (token, number) :: after ∧
      Misread number (before.map Prod.fst) token (after.map Prod.fst) error :=
  readRules_eq_error (⟨by simp [Closed], fun _ _ h => h⟩ : Follows [] none _) h

end Rules

end Source

end IncrementalLR
