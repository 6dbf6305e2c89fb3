namespace IncrementalLR.Text

-- The lines of a text, each with the line feed that ends it.
def linesWithEnds : List Char → List (List Char)
  | [] => []
  | c :: rest =>
      if c = '\n' then ['\n'] :: linesWithEnds rest
      else
        match linesWithEnds rest with
        | [] => [[c]]
        | line :: others => (c :: line) :: others

-- A line without its line feed and without a carriage return before that.
def dropLineEnd (line : List Char) : List Char :=
  match line.reverse with
  | '\n' :: '\r' :: body => body.reverse
  | '\n' :: body => body.reverse
  | _ => line

def lines (text : List Char) : List (List Char) := (linesWithEnds text).map dropLineEnd

-- The parts before and after the first character that satisfies p.
def splitAtFirst (p : Char → Bool) : List Char → Option (List Char × List Char)
  | [] => none
  | c :: rest =>
      if p c then some ([], rest)
      else (splitAtFirst p rest).map fun (before, after) => (c :: before, after)

-- The parts of a text between separators.
def splitAll (separator : Char) : List Char → List (List Char)
  | [] => [[]]
  | c :: rest =>
      if c = separator then [] :: splitAll separator rest
      else
        match splitAll separator rest with
        | [] => [[c]]
        | part :: others => (c :: part) :: others

def startsWith (start text : List Char) : Bool := start.isPrefixOf text

-- The text between an opening and a closing double quote.
def unquote? (text : List Char) : Option (List Char) :=
  match text with
  | '"' :: rest =>
      match rest.reverse with
      | '"' :: inner => some inner.reverse
      | _ => none
  | _ => none

end IncrementalLR.Text
