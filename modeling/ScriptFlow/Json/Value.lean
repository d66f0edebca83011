import ScriptFlow.Decimal.Layout
import ScriptFlow.Text.Quoted

/-! JSON documents and the text of their values. An object keeps its fields in the order their names
came first. -/

namespace ScriptFlow

inductive Json where
  | null
  | bool (value : Bool)
  | int (value : Int)
  | real (value : Decimal.Binary)
  | text (value : Text)
  | list (items : List Json)
  | object (fields : List (Text × Json))
  deriving Repr

namespace Json

/-- Set a field: a name that is there already keeps its place and gets the new value. -/
def setField (name : Text) (value : Json) : List (Text × Json) → List (Text × Json)
  | [] => [(name, value)]
  | f :: fs => if f.1 = name then (name, value) :: fs else f :: setField name value fs

def field? (fields : List (Text × Json)) (name : Text) : Option Json :=
  (fields.find? fun f => f.1 == name).map Prod.snd

/-- A value that does not count as given: null, false, zero, and empty texts, lists and objects. -/
def isBlank : Json → Bool
  | .null => true
  | .bool value => !value
  | .int value => value == 0
  | .real value => value.isZero
  | .text value => value.isEmpty
  | .list items => items.isEmpty
  | .object fields => fields.isEmpty

mutual

/-- The text of a value inside another one: texts are quoted. -/
def inner : Json → String
  | .null => "None"
  | .bool true => "True"
  | .bool false => "False"
  | .int value => toString value
  | .real value => Decimal.Layout.constant.text value
  | .text value => Text.quoted value
  | .list items => "[" ++ ", ".intercalate (innerItems items) ++ "]"
  | .object fields => "\x7b" ++ ", ".intercalate (innerFields fields) ++ "\x7d"

def innerItems : List Json → List String
  | [] => []
  | v :: vs => inner v :: innerItems vs

def innerFields : List (Text × Json) → List String
  | [] => []
  | (name, v) :: fs => (Text.quoted name ++ ": " ++ inner v) :: innerFields fs

end

/-- The text of a value on its own: a text stands for itself. -/
def display : Json → Text
  | .text value => value
  | v => v.inner

end Json

end ScriptFlow
