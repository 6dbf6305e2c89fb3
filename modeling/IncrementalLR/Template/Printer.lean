import IncrementalLR.Template.Basic

namespace IncrementalLR

def Lookup.display (item : Lookup) : String :=
  "#" ++ toString item.index ++ (match item.attr with | some attr => "." ++ attr | none => "")

-- Each element and each field but the first follows a comma.
mutual
def ValueExpr.display : ValueExpr → String
  | .lookup item => item.display
  | .list elements => "[" ++ elements.display "" ++ "]"
  | .add left right => left.display ++ " + " ++ right.display
def Elements.display (separator : String) : Elements → String
  | .nil => ""
  | .lookup item rest => separator ++ item.display ++ rest.display ", "
  | .node item rest => separator ++ item.display ++ rest.display ", "
def NodeExpr.display : NodeExpr → String
  | .mk name fields => name ++ "(" ++ fields.display "" ++ ")"
def Fields.display (separator : String) : Fields → String
  | .nil => ""
  | .value name expr rest => separator ++ name ++ "=" ++ expr.display ++ rest.display ", "
  | .reference name base field rest =>
      separator ++ name ++ "=" ++ base ++ "." ++ field ++ rest.display ", "
end

def Template.display : Template → String
  | .node expr => expr.display
  | .value expr => expr.display
  | .foreach item expr => "foreach(" ++ item.display ++ ") " ++ expr.display

end IncrementalLR
