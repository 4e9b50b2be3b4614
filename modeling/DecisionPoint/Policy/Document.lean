import DecisionPoint.Policy.Rules
import DecisionPoint.Policy.Conditions
import DecisionPoint.Policy.Actions
import DecisionPoint.Text.Blank

/-!
The three documents that a policy carries as text. Reading one never fails: a
text that is blank, says null or cannot be read counts as the document with
nothing in it, so that one damaged policy leaves all others as they are.
-/

namespace DecisionPoint

/-- Reads a document by `read`, taking `blank` where it says nothing or cannot
be read. -/
def readDocument (blank : α) (read : String → Option α) (text : String) : α :=
  let text := Text.trim text
  if text = "" ∨ text = "null" then blank else (read text).getD blank

def Rules.ofDocument (text : String) : Rules :=
  readDocument .blank (fun s => (Json.Value.ofText? s).bind Rules.ofJson?) text

def Conditions.ofDocument (text : String) : Conditions :=
  readDocument .blank (fun s => (Json.Value.ofText? s).bind Conditions.ofJson?) text

/-- Reads an actions document. All of its parts must be in order, also members
that no action claims. -/
def Action.ofDocument (text : String) : List Action :=
  readDocument [] (fun s => (Json.Value.ofStrictText? s).bind Action.listOfJson?) text

def Rules.toDocument (r : Rules) : String :=
  r.toJson.toText

def Conditions.toDocument (c : Conditions) : String :=
  c.toJson.toText

def Action.toDocument (actions : List Action) : String :=
  (Action.listToJson actions).toText

end DecisionPoint
