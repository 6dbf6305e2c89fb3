import IncrementalLR.Lexer.Token

namespace IncrementalLR

namespace Layout

def indent : String := "INDENT"

def dedent : String := "DEDENT"

def newline : String := "NEWLINE"

def unbalanced : String := "UNBALANCED"

def terminals : List String := [indent, dedent, newline, unbalanced]

def endsLine (token : Token) : Bool := token.rule == some "<return>"

-- Blanks, line ends and comments.
def isTrivia (token : Token) : Bool :=
  token.rule == some "<ws>" || token.rule == some "<return>" || token.rule == some "comment"

-- The lines of a list of tokens, each with the token that ends it.
def lines : List Token → List (List Token)
  | [] => []
  | token :: rest =>
      if endsLine token then [token] :: lines rest
      else
        match lines rest with
        | [] => [[token]]
        | line :: others => (token :: line) :: others

-- The characters of the blank token that a line begins with.
def width (line : List Token) : Nat :=
  match line with
  | first :: _ => if first.rule = some "<ws>" then first.text.length else 0
  | [] => 0

def isLogical (line : List Token) : Bool := line.any (!isTrivia ·)

-- The tokens before a line of some width and the levels that are open after
-- them. The innermost level comes first.
def openLine (place width : Nat) (levels : List Nat) : List Token × List Nat :=
  match levels with
  | [] => ([], [width])
  | top :: _ =>
      if width = top then ([.layout newline place], levels)
      else if top < width then
        ([.layout newline place, .layout indent place], width :: levels)
      else
        let closed := levels.takeWhile fun level => decide (width < level)
        let remaining := levels.drop closed.length
        if remaining.head? = some width then
          (.layout newline place :: closed.map fun _ => .layout dedent place, remaining)
        else ([.layout unbalanced place], width :: remaining)

def insertLines (levels : List Nat) : List (List Token) → List Token × List Nat
  | [] => ([], levels)
  | line :: rest =>
      if isLogical line then
        let place := (line.head?.map (·.start)).getD 0
        let (opening, levels) := openLine place (width line) levels
        let (others, levels) := insertLines levels rest
        (opening ++ line ++ others, levels)
      else
        let (others, levels) := insertLines levels rest
        (line ++ others, levels)

-- The end of the text closes the last line and all open levels but the first.
def closeText (stop : Nat) : List Nat → List Token
  | [] => []
  | _ :: outer => .layout newline stop :: outer.map fun _ => .layout dedent stop

def insert (tokens : List Token) : List Token :=
  let (out, levels) := insertLines [] (lines tokens)
  out ++ closeText ((tokens.getLast?.map (·.stop)).getD 0) levels

end Layout

end IncrementalLR
