import IncrementalLR.Grammar.Error
import IncrementalLR.Grammar.Basic
import IncrementalLR.Text.Lines

namespace IncrementalLR.Source

open Text

-- The parser shifts through the terminals named by passThrough without a change
-- of state. Options of other names are kept in the order of the source.
structure Options where
  indentation : Bool
  whitespace : Bool
  passThrough : List String
  extra : List (String × String)
deriving DecidableEq, Repr, Inhabited

structure Header where
  options : Options
  precedences : List (Assoc × List String)
deriving DecidableEq, Repr, Inhabited

def readAssoc? (keyword : List Char) : Option Assoc :=
  if keyword = "left".toList then some .left
  else if keyword = "right".toList then some .right
  else if keyword = "nonassoc".toList then some .nonassoc
  else none

-- The names of a precedence line, of which none may be empty.
def readNames? (text : List Char) : Option (List String) :=
  let names := (words text).map fun word => (unquote? word).getD word
  if names.isEmpty || names.any List.isEmpty then none else some (names.map String.ofList)

def readFlag? (value : List Char) : Option Bool :=
  if value = "true".toList then some true
  else if value = "false".toList then some false
  else none

def readOption? (options : Options) (pair : List Char) : Option Options :=
  match splitAtFirst (· == '=') pair with
  | none => none
  | some (name, value) =>
      let name := trim name
      let value := trim value
      if name = "indentation".toList then
        (readFlag? value).map fun flag => { options with indentation := flag }
      else if name = "whitespace".toList || name = "implicit_ws".toList then
        (readFlag? value).map fun flag => { options with whitespace := flag }
      else if name = "passthrough".toList then
        let names := ((splitAll '|' value).map trim).filter (!·.isEmpty)
        some { options with passThrough := options.passThrough ++ names.map String.ofList }
      else
        some { options with extra := options.extra ++ [(String.ofList name, String.ofList value)] }

-- A directive without its percent sign.
def readDirective? (header : Header) (directive : List Char) : Option Header :=
  let (keyword, rest) := (splitAtFirst isBlank directive).getD (directive, [])
  match readAssoc? keyword with
  | some assoc =>
      (readNames? rest).map fun names =>
        { header with precedences := header.precedences ++ [(assoc, names)] }
  | none =>
      ((splitAll ',' directive).foldlM readOption? header.options).map fun options =>
        { header with options := options }

-- The directives at the top, the number of the line behind them, and the lines
-- from there on. Empty lines may stand between directives.
def readHeader (header : Header) (line : Nat) :
    List (List Char) → Except GrammarError (Header × Nat × List (List Char))
  | [] => .ok (header, line, [])
  | first :: rest =>
      match trim first with
      | [] => readHeader header (line + 1) rest
      | '%' :: directive =>
          match readDirective? header directive with
          | some header => readHeader header (line + 1) rest
          | none => .error (.malformedOption line (String.ofList directive))
      | _ => .ok (header, line, first :: rest)

end IncrementalLR.Source
