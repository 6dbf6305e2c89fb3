import IncrementalLR.Automaton.ConflictReport
import IncrementalLR.Text.Lines

namespace IncrementalLR

-- The values of a document in which tables are exported.
inductive JsonValue where
  | number (value : Nat)
  | text (value : String)
  | flag (value : Bool)
  | list (items : List JsonValue)
  | object (fields : List (String × JsonValue))

namespace JsonValue

def hexDigits (code : Nat) : List Char :=
  let digits := Nat.toDigits 16 code
  List.replicate (4 - digits.length) '0' ++ digits

def escapeChar (c : Char) : List Char :=
  if c = '"' || c = '\\' then ['\\', c]
  else if c = '\n' then ['\\', 'n']
  else if c = '\r' then ['\\', 'r']
  else if c = '\t' then ['\\', 't']
  else if c = '\x08' then ['\\', 'b']
  else if c = '\x0c' then ['\\', 'f']
  else if c.toNat < 32 then ['\\', 'u'] ++ hexDigits c.toNat
  else [c]

def quote (text : String) : String := String.ofList ('"' :: text.toList.flatMap escapeChar ++ ['"'])

def indentation (depth : Nat) : String := "\n" ++ String.ofList (List.replicate (2 * depth) ' ')

-- Two spaces for each level, with one item or field on a line.
mutual
def renderAt (depth : Nat) : JsonValue → String
  | number value => toString value
  | text value => quote value
  | flag true => "true"
  | flag false => "false"
  | list [] => "[]"
  | list (first :: rest) =>
      "[" ++ indentation (depth + 1) ++ renderAt (depth + 1) first ++ renderItems depth rest ++
        indentation depth ++ "]"
  | object [] => "\x7b\x7d"
  | object ((name, value) :: rest) =>
      "\x7b" ++ indentation (depth + 1) ++ quote name ++ ": " ++ renderAt (depth + 1) value ++
        renderFields depth rest ++ indentation depth ++ "\x7d"
def renderItems (depth : Nat) : List JsonValue → String
  | [] => ""
  | first :: rest =>
      "," ++ indentation (depth + 1) ++ renderAt (depth + 1) first ++ renderItems depth rest
def renderFields (depth : Nat) : List (String × JsonValue) → String
  | [] => ""
  | (name, value) :: rest =>
      "," ++ indentation (depth + 1) ++ quote name ++ ": " ++ renderAt (depth + 1) value ++
        renderFields depth rest
end

def render (value : JsonValue) : String := renderAt 0 value

end JsonValue

namespace SyntaxTable

variable (table : SyntaxTable)

def displayAction : Action → String
  | .shift state => "shift " ++ toString state
  | .reduce production => "reduce " ++ table.grammar.displayProduction production
  | .goto state => "goto " ++ toString state
  | .accept => "accept"

def symbolText (id : Nat) : JsonValue := .text (table.grammar.symbol id).display

def stateJson (id : Nat) : JsonValue :=
  let items := (table.graph.state id).display table.grammar.toRules
  .object [
    ("id", .number id),
    ("items", .list ((Text.lines items.toList).map fun line => .text (String.ofList line)))]

def edgesJson (id : Nat) : List JsonValue :=
  (table.graph.edgesFrom id).map fun (symbol, target) =>
    .object [("from", .number id), ("symbol", table.symbolText symbol), ("to", .number target)]

def actionsJson (id : Nat) : List JsonValue :=
  (table.row id).map fun (symbol, action) =>
    .object [
      ("action", .text (table.displayAction action)),
      ("state", .number id),
      ("symbol", table.symbolText symbol)]

def conflictJson (conflict : Conflict) : JsonValue :=
  .object [
    ("by_precedence", .flag conflict.byPrecedence),
    ("detail", .text (conflict.detail table.grammar.toRules)),
    ("kind", .text conflict.kind.display),
    ("state", .number conflict.state),
    ("symbol", table.symbolText conflict.symbol)]

-- The states, edges, actions and conflicts of a table in one document, whose
-- fields are in the order of their names.
def json : JsonValue :=
  let states := List.range table.graph.size
  .object [
    ("actions", .list (states.flatMap table.actionsJson)),
    ("conflicts", .list (table.conflicts.map table.conflictJson)),
    ("edges", .list (states.flatMap table.edgesJson)),
    ("mode", .text table.graph.mode.display),
    ("states", .list (states.map table.stateJson))]

end SyntaxTable

end IncrementalLR
