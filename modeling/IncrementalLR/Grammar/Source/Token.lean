import IncrementalLR.Grammar.Error
import IncrementalLR.Text.Lines

namespace IncrementalLR.Source

open Text

inductive Token where
  | name (text : String)
  | terminal (name : String)
  | magic (name : String)
  | template (text : String)
  | mapsTo
  | alternative
  | semicolon
  | tag
deriving DecidableEq, Repr

def Token.display : Token → String
  | name text => text
  | terminal text => "\"" ++ text ++ "\""
  | magic text => "<" ++ text ++ ">"
  | template _ => "annotation"
  | mapsTo => "::="
  | alternative => "|"
  | semicolon => ";"
  | tag => "%prec"

-- Opening characters, with the one that closes and what is then read.
def openPart? (c : Char) : Option (Char × OpenPart) :=
  if c = '"' then some ('"', .terminal)
  else if c = '<' then some ('>', .magicTerminal)
  else if c = '\x7b' then some ('\x7d', .template)
  else none

def closedToken (part : OpenPart) (text : List Char) : Token :=
  match part with
  | .terminal => .terminal (String.ofList text)
  | .magicTerminal => .magic (String.ofList text)
  | .template => .template (String.ofList (trim text))

def isBracket (c : Char) : Bool :=
  c == '[' || c == ']' || c == '(' || c == ')' || c == '\x7d'

-- A token written with fixed characters and the text behind it.
def fixedToken? : List Char → Option (Token × List Char)
  | ':' :: ':' :: '=' :: rest => some (.mapsTo, rest)
  | '%' :: 'p' :: 'r' :: 'e' :: 'c' :: rest => some (.tag, rest)
  | '|' :: rest => some (.alternative, rest)
  | ';' :: rest => some (.semicolon, rest)
  | _ => none

theorem length_of_splitAtFirst {p : Char → Bool} {text before after : List Char}
    (hs : splitAtFirst p text = some (before, after)) : after.length < text.length := by
  induction text generalizing before after with
  | nil => simp [splitAtFirst] at hs
  | cons c rest ih =>
      unfold splitAtFirst at hs
      split at hs
      · simp only [Option.some.injEq, Prod.mk.injEq] at hs
        rw [← hs.2]
        simp
      · simp only [Option.map_eq_some_iff, Prod.mk.injEq, Prod.exists] at hs
        obtain ⟨part, other, hs, _, rfl⟩ := hs
        exact Nat.lt_succ_of_lt (ih hs)

theorem length_of_fixedToken {text rest : List Char} {token : Token}
    (hf : fixedToken? text = some (token, rest)) : rest.length < text.length := by
  unfold fixedToken? at hf
  split at hf <;> simp only [Option.some.injEq, Prod.mk.injEq, reduceCtorEq] at hf
  all_goals
    rw [← hf.2]
    simp only [List.length_cons]
    omega

theorem length_dropWhile_le (p : Char → Bool) (text : List Char) :
    (text.dropWhile p).length ≤ text.length := (List.dropWhile_suffix p).length_le

-- The tokens of the rules, each with the line that it starts on.
def tokens (line : Nat) (text : List Char) : Except GrammarError (List (Token × Nat)) :=
  match text with
  | [] => .ok []
  | c :: rest =>
      if c = '\n' then tokens (line + 1) rest
      else if isBlank c then tokens line rest
      else
        match hf : fixedToken? (c :: rest) with
        | some (token, after) =>
            have := length_of_fixedToken hf
            (tokens line after).map ((token, line) :: ·)
        | none =>
            match openPart? c with
            | some (close, part) =>
                match hs : splitAtFirst (· == close) rest with
                | none => .error (.unterminated line part)
                | some (body, after) =>
                    have := length_of_splitAtFirst hs
                    (tokens (line + body.count '\n') after).map ((closedToken part body, line) :: ·)
            | none =>
                if isBracket c then .error (.unsupported line c.toString)
                else if isNameChar c then
                  have := length_dropWhile_le isNameChar rest
                  let name := String.ofList (c :: rest.takeWhile isNameChar)
                  (tokens line (rest.dropWhile isNameChar)).map ((.name name, line) :: ·)
                else .error (.unexpectedToken line c.toString .rule)
termination_by text.length
decreasing_by all_goals simp only [List.length_cons] at *; omega

end IncrementalLR.Source
