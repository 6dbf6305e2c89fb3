import IncrementalLR.Diagnostic.Suggestion
import IncrementalLR.Text.Bytes
import IncrementalLR.Text.Lines

namespace IncrementalLR

-- A line and a column, both counted from one. Columns count characters.
structure Location where
  line : Nat
  column : Nat
deriving DecidableEq, Repr, Inhabited

namespace Location

def atEndOf (before : List Char) : Location :=
  ⟨before.count '\n' + 1, (before.reverse.takeWhile (· != '\n')).length + 1⟩

-- The place of a byte offset. Behind the end, and within a character, it is the
-- end of the text.
def ofOffset (source : String) (offset : Nat) : Location :=
  atEndOf ((Text.takeBytes? offset source.toList).getD source.toList)

end Location

-- The text of a byte range, if its ends lie between characters of the source.
def sliceBytes? (source : String) (start stop : Nat) : Option String :=
  if stop < start then none
  else
    ((Text.dropBytes? start source.toList).bind (Text.takeBytes? (stop - start))).map String.ofList

section

open Text

-- What a byte range takes out of a text.
theorem sliceBytes?_append (front middle back : List Char) :
    sliceBytes? (String.ofList (front ++ middle ++ back)) (byteLength front) (byteLength (front ++ middle)) =
      some (String.ofList middle) := by
  have hlt : ¬ byteLength (front ++ middle) < byteLength front := by simp
  have hlength : byteLength (front ++ middle) - byteLength front = byteLength middle := by simp
  rw [sliceBytes?, if_neg hlt, String.toList_ofList, List.append_assoc front, dropBytes?_append, hlength,
    Option.bind_some, takeBytes?_append]
  rfl

end

-- A token for which the parser had no action, with its byte range and with what
-- it would have taken.
structure SyntaxError where
  node : Nat
  found : Symbol
  expected : List Symbol
  start : Nat
  stop : Nat
deriving DecidableEq, Repr, Inhabited

def displayExpected (expected : List Symbol) : String :=
  if expected.isEmpty then ""
  else ", expected " ++ ", ".intercalate (expected.map Symbol.display)

namespace SyntaxError

variable (error : SyntaxError)

def message : String := "unexpected " ++ error.found.display ++ displayExpected error.expected

def help (source : String) : String :=
  match sliceBytes? source error.start error.stop with
  | none => ""
  | some found =>
      if found.isEmpty then ""
      else
        match suggest? found error.expected with
        | some symbol => "\n  help: did you mean " ++ symbol.display ++ "?"
        | none => ""

-- The place and the message, the line with a mark below the place, and a
-- suggestion if there is one.
def report (source : String) (filename : Option String) : String :=
  let place := Location.ofOffset source error.start
  let line := String.ofList ((Text.lines source.toList).getD (place.line - 1) [])
  let name := match filename with | some name => name ++ ":" | none => ""
  name ++ toString place.line ++ ":" ++ toString place.column ++ ": " ++ error.message ++
    "\n  " ++ line ++ "\n  " ++ String.ofList (List.replicate (place.column - 1) ' ') ++ "^" ++
    error.help source

end SyntaxError

end IncrementalLR
