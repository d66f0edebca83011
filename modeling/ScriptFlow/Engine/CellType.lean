import ScriptFlow.Text.Hex
import ScriptFlow.Text.Numeral

/-! Types of stack cells, and of what engine routines take and return. -/

namespace ScriptFlow

inductive CellType where
  | void | any | int | float | string | object | vector | action
  | engine (index : Fin 10)
  deriving DecidableEq, Repr

namespace CellType

def name : CellType → String
  | .void => "void" | .any => "any" | .int => "int" | .float => "float" | .string => "string"
  | .object => "object" | .vector => "vector" | .action => "action"
  | .engine index => "engine" ++ toString index.val

/-- The number of stack cells a value takes. -/
def cells : CellType → Nat
  | .void | .action => 0
  | .vector => 3
  | _ => 1

/-- Every type, in the order of their names. -/
def all : List CellType :=
  [.void, .any, .int, .float, .string, .object, .vector, .action] ++
    (List.finRange 10).map CellType.engine

/-- Engine types that have a name of their own. -/
def aliases : List (String × CellType) :=
  [("effect", .engine 0), ("event", .engine 1), ("location", .engine 2), ("talent", .engine 3),
   ("itemproperty", .engine 4)]

/-- The type a name stands for, in any case and with white space around it. No character outside
ASCII has a letter of these names as its lower-case form. -/
def ofName? (s : String) : Option CellType :=
  let token := String.ofList ((Text.trim s.toList).map Char.toLower)
  match aliases.find? fun a => a.1 == token with
  | some a => some a.2
  | none => all.find? fun t => t.name == token

end CellType

end ScriptFlow
