import IncrementalLR.Template.Basic
import IncrementalLR.Text.Blank
import IncrementalLR.Text.Bytes
import IncrementalLR.Text.Letter
import IncrementalLR.Text.Number

namespace IncrementalLR

open Text

namespace Template

-- What a reader of templates looks for at some place.
inductive Expected where
  | punctuation (c : Char)
  | name
  | lookup
  | childIndex
  | term
  | endOfText
deriving DecidableEq, Repr

namespace Expected

def display : Expected → String
  | punctuation c => "`" ++ c.toString ++ "`"
  | name => "a name"
  | lookup => "`#N`"
  | childIndex => "a child index after `#`"
  | term => "`#N` or a list"
  | endOfText => "end of annotation"

end Expected

-- The expected part and the text that stands in its place.
structure Refusal where
  expected : Expected
  rest : List Char
deriving DecidableEq, Repr

abbrev Reading := Except Refusal

def eat? (c : Char) (text : List Char) : Option (List Char) :=
  match trimLeft text with
  | [] => none
  | first :: rest => if first = c then some rest else none

def next? (text : List Char) : Option Char := (trimLeft text).head?

def refuse {α : Type} (expected : Expected) (text : List Char) : Reading α :=
  .error ⟨expected, trimLeft text⟩

def readPunctuation (c : Char) (text : List Char) : Reading (List Char) :=
  match eat? c text with
  | some rest => .ok rest
  | none => refuse (.punctuation c) text

def leadingWord (text : List Char) : List Char := (trimLeft text).takeWhile isNameChar

-- Names do not begin with an ASCII digit.
def readName (text : List Char) : Reading (String × List Char) :=
  match leadingWord text with
  | [] => refuse .name text
  | first :: letters =>
      if first.isDigit then refuse .name text
      else .ok (String.ofList (first :: letters), (trimLeft text).dropWhile isNameChar)

-- Child indices fit into 64 bits.
def readLookup (text : List Char) : Reading (Lookup × List Char) :=
  match eat? '#' text with
  | none => refuse .lookup text
  | some rest =>
      match readDigits? bound64 (rest.takeWhile Char.isDigit) with
      | none => .error ⟨.childIndex, rest⟩
      | some index =>
          let rest := rest.dropWhile Char.isDigit
          match eat? '.' rest with
          | none => .ok (⟨index, none⟩, rest)
          | some rest => do
              let (attr, rest) ← readName rest
              return (⟨index, some attr⟩, rest)

def startsReference (text : List Char) : Bool :=
  match next? text with
  | some c => isAlphabetic c || c == '_'
  | none => false

-- Of two calls in a row at least one follows a character that was consumed, so
-- twice the length of the text bounds the depth of the calls.
mutual
def readNode : Nat → List Char → Reading (NodeExpr × List Char)
  | 0, text => refuse .name text
  | fuel + 1, text => do
      let (name, rest) ← readName text
      let rest ← readPunctuation '(' rest
      let (fields, rest) ← readFields fuel rest
      let rest ← readPunctuation ')' rest
      return (.mk name fields, rest)
def readFields : Nat → List Char → Reading (Fields × List Char)
  | 0, text => refuse .name text
  | fuel + 1, text => do
      let (name, rest) ← readName text
      let rest ← readPunctuation '=' rest
      if startsReference rest then
        let (base, rest) ← readName rest
        let rest ← readPunctuation '.' rest
        let (field, rest) ← readName rest
        match eat? ',' rest with
        | none => return (.reference name base field .nil, rest)
        | some rest =>
            let (others, rest) ← readFields fuel rest
            return (.reference name base field others, rest)
      else
        let (expr, rest) ← readValue fuel rest
        match eat? ',' rest with
        | none => return (.value name expr .nil, rest)
        | some rest =>
            let (others, rest) ← readFields fuel rest
            return (.value name expr others, rest)
def readValue : Nat → List Char → Reading (ValueExpr × List Char)
  | 0, text => refuse .term text
  | fuel + 1, text => do
      let (first, rest) ← readTerm fuel text
      readSum fuel first rest
def readSum : Nat → ValueExpr → List Char → Reading (ValueExpr × List Char)
  | 0, _, text => refuse .term text
  | fuel + 1, sum, text =>
      match eat? '+' text with
      | none => .ok (sum, text)
      | some rest => do
          let (term, rest) ← readTerm fuel rest
          readSum fuel (.add sum term) rest
def readTerm : Nat → List Char → Reading (ValueExpr × List Char)
  | 0, text => refuse .term text
  | fuel + 1, text =>
      match trimLeft text with
      | '#' :: _ => do
          let (item, rest) ← readLookup text
          return (.lookup item, rest)
      | '[' :: rest =>
          match eat? ']' rest with
          | some rest => .ok (.list .nil, rest)
          | none => do
              let (elements, rest) ← readElements fuel rest
              let rest ← readPunctuation ']' rest
              return (.list elements, rest)
      | _ => refuse .term text
def readElements : Nat → List Char → Reading (Elements × List Char)
  | 0, text => refuse .name text
  | fuel + 1, text =>
      if next? text = some '#' then do
        let (item, rest) ← readLookup text
        match eat? ',' rest with
        | none => return (.lookup item .nil, rest)
        | some rest =>
            let (others, rest) ← readElements fuel rest
            return (.lookup item others, rest)
      else do
        let (item, rest) ← readNode fuel text
        match eat? ',' rest with
        | none => return (.node item .nil, rest)
        | some rest =>
            let (others, rest) ← readElements fuel rest
            return (.node item others, rest)
end

def depthBound (text : List Char) : Nat := 2 * text.length + 4

def read (text : List Char) : Reading (Template × List Char) :=
  let fuel := depthBound text
  match next? text with
  | some '#' | some '[' => do
      let (expr, rest) ← readValue fuel text
      return (.value expr, rest)
  | _ =>
      if leadingWord text = "foreach".toList then do
        let (_, rest) ← readName text
        let rest ← readPunctuation '(' rest
        let (item, rest) ← readLookup rest
        let rest ← readPunctuation ')' rest
        let (expr, rest) ← readNode fuel rest
        return (.foreach item expr, rest)
      else do
        let (expr, rest) ← readNode fuel text
        return (.node expr, rest)

end Template

-- The place of an error is a byte offset into the template.
structure TemplateError where
  expected : Template.Expected
  offset : Nat
  found : Option Char
deriving DecidableEq, Repr

namespace TemplateError

def ofRefusal (text : List Char) (refusal : Template.Refusal) : TemplateError :=
  ⟨refusal.expected, byteLength text - byteLength refusal.rest, refusal.rest.head?⟩

def message (error : TemplateError) : String :=
  let place := " at offset " ++ toString error.offset
  match error.expected, error.found with
  | .childIndex, _ => "expected " ++ error.expected.display ++ place
  | expected, some c => "expected " ++ expected.display ++ place ++ ", found `" ++ c.toString ++ "`"
  | expected, none => "expected " ++ expected.display ++ ", found end of annotation"

end TemplateError

-- Reads template text without the braces around it.
def Template.parse (text : String) : Except TemplateError Template :=
  match Template.read text.toList with
  | .error refusal => .error (.ofRefusal text.toList refusal)
  | .ok (template, rest) =>
      match trimLeft rest with
      | [] => .ok template
      | c :: rest => .error (.ofRefusal text.toList ⟨.endOfText, c :: rest⟩)

end IncrementalLR
