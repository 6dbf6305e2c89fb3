import IncrementalLR.Pattern.Basic
import IncrementalLR.Text.Number

namespace IncrementalLR

open Text

namespace Pattern

-- Settings that hold from where they are made to the end of the group.
structure Flags where
  caseless : Bool
  dotAll : Bool
  multiline : Bool
  swapGreed : Bool
deriving DecidableEq, Repr, Inhabited

-- A character, a class of characters or a place, as a backslash gives it.
inductive Escape where
  | literal (code : Nat)
  | set (set : CharSet)
  | place (place : Anchor)

def isMeta (c : Char) : Bool := "\\.+*?()|[]\x7b\x7d^$#&-~".toList.contains c

-- Characters that stand for themselves behind a backslash.
def isEscapable (c : Char) : Bool :=
  isMeta c || (c.toNat < 128 && !c.isAlphanum && c != '<' && c != '>')

def hexValue? (c : Char) : Option Nat :=
  if c.isDigit then some (c.toNat - '0'.toNat)
  else if 'a' ≤ c && c ≤ 'f' then some (c.toNat - 'a'.toNat + 10)
  else if 'A' ≤ c && c ≤ 'F' then some (c.toNat - 'A'.toNat + 10)
  else none

def codeOf? (digits : List Char) : Option Nat :=
  match digits with
  | [] => none
  | digits => do
      let values ← digits.mapM hexValue?
      let code := values.foldl (fun code digit => 16 * code + digit) 0
      if code.isValidChar then some code else none

-- Hexadecimal digits in braces, or exactly so many without them.
def readHex? (count : Nat) (text : List Char) : Option (Nat × List Char) :=
  match text with
  | '\x7b' :: rest =>
      match rest.dropWhile (· != '\x7d') with
      | _ :: after => (codeOf? (rest.takeWhile (· != '\x7d'))).map (·, after)
      | [] => none
  | text =>
      if text.length < count then none
      else (codeOf? (text.take count)).map (·, text.drop count)

def controlCode? (c : Char) : Option Nat :=
  if c = 'n' then some 10
  else if c = 't' then some 9
  else if c = 'r' then some 13
  else if c = 'a' then some 7
  else if c = 'f' then some 12
  else if c = 'v' then some 11
  else none

def classSet? (c : Char) : Option CharSet :=
  if c = 'd' then some .decimal
  else if c = 's' then some .blank
  else if c = 'w' then some .word
  else if c = 'D' then some (.complement .decimal)
  else if c = 'S' then some (.complement .blank)
  else if c = 'W' then some (.complement .word)
  else none

def placeOf? (c : Char) : Option Anchor :=
  if c = 'A' then some .textStart
  else if c = 'z' then some .textEnd
  else if c = 'b' then some .wordBoundary
  else if c = 'B' then some .noWordBoundary
  else none

-- What follows a backslash.
def readEscape? (text : List Char) : Option (Escape × List Char) :=
  match text with
  | [] => none
  | 'x' :: rest => (readHex? 2 rest).map fun (code, rest) => (.literal code, rest)
  | 'u' :: rest => (readHex? 4 rest).map fun (code, rest) => (.literal code, rest)
  | 'U' :: rest => (readHex? 8 rest).map fun (code, rest) => (.literal code, rest)
  | c :: rest =>
      match controlCode? c, classSet? c, placeOf? c with
      | some code, _, _ => some (.literal code, rest)
      | _, some set, _ => some (.set set, rest)
      | _, _, some place => some (.place place, rest)
      | none, none, none => if isEscapable c then some (.literal c.toNat, rest) else none

def applyCase (flags : Flags) (set : CharSet) : CharSet :=
  if flags.caseless then .caseless set else set

-- An element of a bracketed class that is not a class itself. Only single
-- characters can be the ends of a range.
def readClassItem? (text : List Char) : Option (Escape × List Char) :=
  match text with
  | [] => none
  | '\\' :: rest =>
      match readEscape? rest with
      | some (.place _, _) => none
      | other => other
  | c :: rest => some (.literal c.toNat, rest)

def readClassRange? (text : List Char) : Option (CharSet × List Char) := do
  let (first, rest) ← readClassItem? text
  let alone : CharSet :=
    match first with
    | .literal code => .range code code
    | .set set => set
    | .place _ => .empty
  match rest with
  | '-' :: ']' :: _ => some (alone, rest)
  | '-' :: '-' :: _ => some (alone, rest)
  | '-' :: after =>
      let (last, rest) ← readClassItem? after
      match first, last with
      | .literal low, .literal high => if low ≤ high then some (.range low high, rest) else none
      | _, _ => none
  | rest => some (alone, rest)

-- The elements of a bracketed class up to the bracket that closes it. Hyphens
-- at the beginning stand for themselves, and so does a bracket that is first.
mutual
def readClass? (flags : Flags) : Nat → List Char → Option (CharSet × List Char)
  | 0, _ => none
  | fuel + 1, text => do
      let (negated, text) :=
        match text with
        | '^' :: rest => (true, rest)
        | rest => (false, rest)
      let hyphens := text.takeWhile (· == '-')
      let text := text.dropWhile (· == '-')
      let start : CharSet := if hyphens.isEmpty then .empty else .single '-'
      let (start, text) :=
        match hyphens, text with
        | [], ']' :: rest => (CharSet.single ']', rest)
        | _, text => (start, text)
      let (set, rest) ← readClassItems? flags fuel start text
      let set := applyCase flags set
      return (if negated then .complement set else set, rest)
def readClassItems? (flags : Flags) : Nat → CharSet → List Char → Option (CharSet × List Char)
  | 0, _, _ => none
  | fuel + 1, set, text =>
      match text with
      | [] => none
      | ']' :: rest => some (set, rest)
      | '[' :: rest => do
          let (inner, rest) ← readClass? flags fuel rest
          readClassItems? flags fuel (.union set inner) rest
      | text => do
          let (item, rest) ← readClassRange? text
          readClassItems? flags fuel (.union set item) rest
end

-- Counts fit into 32 bits.
def readCount? (text : List Char) : Option (Nat × List Char) :=
  let text := text.dropWhile isBlank
  (readDigits? bound32 (text.takeWhile Char.isDigit)).map fun count =>
    (count, (text.dropWhile Char.isDigit).dropWhile isBlank)

-- The repetition that follows an element, its marks included.
def readRepetition? (flags : Flags) (body : Pattern) (text : List Char) :
    Option (Pattern × List Char) :=
  let greed (rest : List Char) : Bool × List Char :=
    match rest with
    | '?' :: rest => (flags.swapGreed, rest)
    | rest => (!flags.swapGreed, rest)
  match text with
  | '*' :: rest =>
      let (greedy, rest) := greed rest
      some (many body greedy, rest)
  | '+' :: rest =>
      let (greedy, rest) := greed rest
      some (plus body greedy, rest)
  | '?' :: rest =>
      let (greedy, rest) := greed rest
      some (option body greedy, rest)
  | '\x7b' :: rest => do
      let (low, rest) ← readCount? rest
      match rest with
      | '\x7d' :: rest =>
          let (_, rest) := greed rest
          some (exactly body low, rest)
      | ',' :: '\x7d' :: rest =>
          let (greedy, rest) := greed rest
          some (atLeast body greedy low, rest)
      | ',' :: rest =>
          let (high, rest) ← readCount? rest
          match rest with
          | '\x7d' :: rest =>
              let (greedy, rest) := greed rest
              if low ≤ high then some (between body greedy low high, rest) else none
          | _ => none
      | _ => none
  | _ => none

def startsRepetition (text : List Char) : Bool :=
  match text with
  | c :: _ => c == '*' || c == '+' || c == '?' || c == '\x7b'
  | [] => false

def setFlag? (flags : Flags) (c : Char) (value : Bool) : Option Flags :=
  if c = 'i' then some { flags with caseless := value }
  else if c = 's' then some { flags with dotAll := value }
  else if c = 'm' then some { flags with multiline := value }
  else if c = 'U' then some { flags with swapGreed := value }
  else if c = 'u' && value then some flags
  else none

-- Letters of flags, of which those behind a hyphen are switched off. None may
-- stand twice, and some letter has to stand behind a hyphen.
def readFlags? (flags : Flags) (value : Bool) (seen : List Char) :
    List Char → Option (Flags × List Char)
  | [] => none
  | c :: rest =>
      if c = ')' || c = ':' then if seen.head? = some '-' then none else some (flags, c :: rest)
      else if seen.contains c then none
      else if c = '-' then readFlags? flags false (c :: seen) rest
      else
        match setFlag? flags c value with
        | some flags => readFlags? flags value (c :: seen) rest
        | none => none

def isGroupNameStart (c : Char) : Bool := c == '_' || isAlphabetic c

def isGroupNameRest (c : Char) : Bool :=
  isGroupNameStart c || isNumeric c || c == '.' || c == '[' || c == ']'

-- The name of a group and the text behind it.
def skipGroupName? (text : List Char) : Option (List Char) :=
  match text with
  | c :: rest =>
      match isGroupNameStart c, rest.dropWhile isGroupNameRest with
      | true, '>' :: rest => some rest
      | _, _ => none
  | [] => none

-- How a group begins: with flags of its own, or with flags for what follows it.
inductive Opening where
  | group (flags : Flags)
  | setting (flags : Flags)

def readOpening? (flags : Flags) (text : List Char) : Option (Opening × List Char) :=
  match text with
  | '?' :: 'P' :: '<' :: rest => (skipGroupName? rest).map (.group flags, ·)
  | '?' :: '<' :: rest => (skipGroupName? rest).map (.group flags, ·)
  | '?' :: ')' :: _ => none
  | '?' :: rest =>
      match readFlags? flags true [] rest with
      | some (flags, ':' :: rest) => some (.group flags, rest)
      | some (flags, _ :: rest) => some (.setting flags, rest)
      | _ => none
  | rest => some (.group flags, rest)

def dot (flags : Flags) : Pattern :=
  chars (.complement (if flags.dotAll then .empty else .newline))

-- Elements that are no groups, classes or repetitions.
def readAtom? (flags : Flags) (text : List Char) : Option (Pattern × List Char) :=
  match text with
  | [] => none
  | '.' :: rest => some (dot flags, rest)
  | '^' :: rest => some (anchor (if flags.multiline then .lineStart else .textStart), rest)
  | '$' :: rest => some (anchor (if flags.multiline then .lineEnd else .textEnd), rest)
  | '\\' :: rest =>
      match readEscape? rest with
      | some (.literal code, rest) => some (chars (applyCase flags (.range code code)), rest)
      | some (.set set, rest) => some (chars set, rest)
      | some (.place place, rest) => some (anchor place, rest)
      | none => none
  | c :: rest => some (chars (applyCase flags (.single c)), rest)

def append (before : Pattern) (last : Option Pattern) : Pattern :=
  match before, last with
  | before, none => before
  | empty, some last => last
  | before, some last => sequence before last

-- Alternatives up to the end of a group or text. The flags are those that hold
-- there.
mutual
def readAlternatives? : Nat → Flags → List Char → Option (Pattern × Flags × List Char)
  | 0, _, _ => none
  | fuel + 1, flags, text => do
      let (first, flags, rest) ← readSequence? fuel flags empty none text
      match rest with
      | '|' :: rest =>
          let (others, flags, rest) ← readAlternatives? fuel flags rest
          return (either first others, flags, rest)
      | rest => return (first, flags, rest)
def readSequence? : Nat → Flags → Pattern → Option Pattern → List Char →
    Option (Pattern × Flags × List Char)
  | 0, _, _, _, _ => none
  | fuel + 1, flags, before, last, text =>
      if startsRepetition text then do
        let (repeated, rest) ← readRepetition? flags (← last) text
        readSequence? fuel flags before (some repeated) rest
      else
        match text with
        | [] | '|' :: _ | ')' :: _ => some (append before last, flags, text)
        | '(' :: rest => do
            match ← readOpening? flags rest with
            | (.setting flags, rest) => readSequence? fuel flags (append before last) none rest
            | (.group inner, rest) =>
                match ← readAlternatives? fuel inner rest with
                | (group, _, ')' :: rest) =>
                    readSequence? fuel flags (append before last) (some group) rest
                | _ => none
        | '[' :: rest => do
            let (set, rest) ← readClass? flags fuel rest
            readSequence? fuel flags (append before last) (some (chars set)) rest
        | text => do
            let (atom, rest) ← readAtom? flags text
            readSequence? fuel flags (append before last) (some atom) rest
end

def parse? (text : List Char) : Option Pattern :=
  match readAlternatives? (2 * text.length + 4) default text with
  | some (pattern, _, []) => some pattern
  | _ => none

end Pattern

end IncrementalLR
