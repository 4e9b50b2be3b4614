import DecisionPoint.Json.Literal

/-!
Writing syntax trees as compact JSON: no blanks, members in their order.
-/

namespace DecisionPoint.Json.Value

mutual

def render : Value → List Char
  | .null => "null".toList
  | .bool true => "true".toList
  | .bool false => "false".toList
  | .number n => n.render
  | .string s => Literal.render s
  | .array items => '[' :: renderItems items
  | .object members => '{' :: renderMembers members

/-- The items of an array, separated by commas, and its closing bracket. -/
def renderItems : List Value → List Char
  | [] => [']']
  | [v] => v.render ++ [']']
  | v :: vs => v.render ++ ',' :: renderItems vs

/-- The members of an object, separated by commas, and its closing brace. -/
def renderMembers : List (Literal × Value) → List Char
  | [] => ['}']
  | [(name, v)] => Literal.render name ++ ':' :: v.render ++ ['}']
  | (name, v) :: rest => Literal.render name ++ ':' :: v.render ++ ',' :: renderMembers rest

end

def toText (v : Value) : String :=
  String.ofList v.render

end DecisionPoint.Json.Value
