import ScriptFlow.Engine.CellType
import ScriptFlow.Json.Reader
import ScriptFlow.Text.Numeral

/-! Signatures of engine routines, by routine number, read from a JSON object. Keys are numbers in any
of their spellings, entries that are not objects are passed over, and of several entries for one
number the last counts. -/

namespace ScriptFlow.Engine

/-- What one engine routine takes and returns. -/
structure Signature where
  routine : Int
  name : Text
  returns : CellType := .void
  params : List CellType := []
  deriving DecidableEq, Repr

/-- A call with more arguments than the routine has parameters. -/
structure ArityError where
  name : Text
  params : Nat
  argc : Int
  deriving DecidableEq, Repr

def ArityError.message (e : ArityError) : Text :=
  e.name ++ " takes " ++ toString e.params ++ " parameters, called with " ++ toString e.argc

/-- The parameters a call passes. Trailing ones may be left out; a negative count leaves out that many
of them. -/
def Signature.passed (s : Signature) (argc : Int) : Except ArityError (List CellType) :=
  if argc > s.params.length then .error ⟨s.name, s.params.length, argc⟩
  else .ok (s.params.take (if argc < 0 then argc + s.params.length else argc).toNat)

inductive TableError where
  | notText
  | notJson
  | tooDeep
  | notObject
  /-- A decimal number in the document has too many digits. -/
  | longNumber (digits : Nat)
  /-- The number of a routine without a name has too many decimal digits to be its name. -/
  | longName
  | badKey (key : Text)
  | unknownType (name : Text)
  | notIterable
  deriving DecidableEq, Repr

/-- The complaint about a number with too many digits, and what is known about their count. -/
def tooManyDigits (count : String) : String :=
  "Exceeds the limit (" ++ toString Text.Numeral.digitLimit ++
    " digits) for integer string conversion" ++ count ++
    "; use sys.set_int_max_str_digits() to increase the limit"

def TableError.message : TableError → String
  | .notText => "action table is not UTF-8"
  | .notJson => "action table is not JSON"
  | .tooDeep => "action table is nested too deep"
  | .longNumber digits => tooManyDigits (": value has " ++ toString digits ++ " digits")
  | .longName => tooManyDigits ""
  | .notObject => "action table must contain a JSON object"
  | .badKey key =>
    "invalid literal for int() with base 0: " ++
      String.ofList ((Text.quoted key).toList.take 200)
  | .unknownType name => "unknown NWScript type " ++ Text.quoted name
  | .notIterable => "params is not iterable"

def parseType (name : Text) : Except TableError CellType :=
  match CellType.ofName? name.shown with
  | some t => .ok t
  | none => .error (.unknownType name)

/-- The texts of a list of parameters: the items of a list, the characters of a text, the names of an
object's fields. -/
def paramTexts : Json → Except TableError (List Text)
  | .list items => .ok (items.map Json.display)
  | .text s => .ok (s.map fun p => [p])
  | .object fields => .ok (fields.map Prod.fst)
  | _ => .error .notIterable

/-- The name of a routine, which has one in any case. -/
def routineName (routine : Int) (fields : List (Text × Json)) : Except TableError Text :=
  let given := (Json.field? fields "name").getD .null
  if !given.isBlank then .ok given.display
  else if (Nat.toDigits 10 routine.natAbs).length > Text.Numeral.digitLimit then .error .longName
  else .ok ("action_" ++ toString routine)

def Signature.ofFields (routine : Int) (fields : List (Text × Json)) :
    Except TableError Signature := do
  let name ← routineName routine fields
  let returns ← match Json.field? fields "returns" with
    | some given => parseType given.display
    | none => pure .void
  let texts ← paramTexts ((Json.field? fields "params").getD (.list []))
  let params ← texts.mapM parseType
  return { routine, name, returns, params }

/-- Signatures by routine number, each number once. -/
structure Table where
  entries : List (Int × Signature) := []
  deriving DecidableEq, Repr

namespace Table

def size (t : Table) : Nat := t.entries.length

def find? (t : Table) (routine : Int) : Option Signature :=
  (t.entries.find? fun e => e.1 == routine).map Prod.snd

/-- Set the signature of a routine, in place of an earlier one. -/
def insert (t : Table) (routine : Int) (s : Signature) : Table :=
  if t.entries.any fun e => e.1 == routine then
    ⟨t.entries.map fun e => if e.1 = routine then (routine, s) else e⟩
  else ⟨t.entries ++ [(routine, s)]⟩

def routineOfKey (key : Text) : Except TableError Int :=
  match Text.Numeral.parse key.shown with
  | .ok routine => .ok routine
  | .error .malformed => .error (.badKey key)
  | .error (.tooLong digits) => .error (.longNumber digits)

def addField (t : Table) (field : Text × Json) : Except TableError Table :=
  match field.2 with
  | .object fields => do
    let routine ← routineOfKey field.1
    let s ← Signature.ofFields routine fields
    return t.insert routine s
  | _ => .ok t

def ofJson : Json → Except TableError Table
  | .object fields => fields.foldlM addField {}
  | _ => .error .notObject

def ofText (s : String) : Except TableError Table :=
  match Json.parse s with
  | .ok doc => ofJson doc
  | .error .malformed => .error .notJson
  | .error (.longInteger digits) => .error (.longNumber digits)
  | .error .tooDeep => .error .tooDeep

def ofBytes (bytes : List UInt8) : Except TableError Table :=
  match String.fromUTF8? ⟨bytes.toArray⟩ with
  | some s => ofText s
  | none => .error .notText

/-- The table in a file; a missing file is an empty table. -/
def load : Option (List UInt8) → Except TableError Table
  | some bytes => ofBytes bytes
  | none => .ok {}

end Table

end ScriptFlow.Engine
