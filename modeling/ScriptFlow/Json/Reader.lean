import ScriptFlow.Json.Value
import ScriptFlow.Text.Numeral

/-! Reading JSON documents. Beside the standard grammar the words `NaN`, `Infinity` and `-Infinity` are
numbers. Of several fields with one name the last counts. The first thing that is wrong with a document
decides how it is refused. -/

namespace ScriptFlow.Json

inductive Refusal where
  | malformed
  /-- An integer has more digits than `Text.Numeral.digitLimit`. -/
  | longInteger (digits : Nat)
  /-- Lists and objects lie deeper in one another than `depthLimit`. -/
  | tooDeep
  deriving DecidableEq, Repr

/-- How deep lists and objects may lie in one another. -/
def depthLimit : Nat := 990

def isSpace (c : Char) : Bool := c == ' ' || c == '\t' || c == '\n' || c == '\r'

def skipSpace (cs : List Char) : List Char := cs.dropWhile isSpace

def isDigit (c : Char) : Bool := '0' ≤ c && c ≤ '9'

def digitsValue (cs : List Char) : Nat := cs.foldl (fun n c => n * 10 + (c.toNat - 48)) 0

def hexValue? (c : Char) : Option Nat :=
  if '0' ≤ c && c ≤ '9' then some (c.toNat - 48)
  else if 'a' ≤ c && c ≤ 'f' then some (c.toNat - 87)
  else if 'A' ≤ c && c ≤ 'F' then some (c.toNat - 55)
  else none

def hexUnit? (a b c d : Char) : Option Nat := do
  let a ← hexValue? a
  let b ← hexValue? b
  let c ← hexValue? c
  let d ← hexValue? d
  return ((a * 16 + b) * 16 + c) * 16 + d

def isHighSurrogate (n : Nat) : Bool := 0xD800 ≤ n && n ≤ 0xDBFF
def isLowSurrogate (n : Nat) : Bool := 0xDC00 ≤ n && n ≤ 0xDFFF

/-- The code point of an escaped unit on its own. -/
def unitPoint (n : Nat) : CodePoint :=
  if isHighSurrogate n || isLowSurrogate n then .half n else .char (Char.ofNat n)

def pairPoint (high low : Nat) : CodePoint :=
  .char (Char.ofNat (0x10000 + (high - 0xD800) * 0x400 + (low - 0xDC00)))

/-- The character behind a backslash, where it is a single one. -/
def shortEscape? (c : Char) : Option Char :=
  if c == '\x22' || c == '\\' || c == '/' then some c
  else if c == 'b' then some '\x08'
  else if c == 'f' then some '\x0c'
  else if c == 'n' then some '\n'
  else if c == 'r' then some '\r'
  else if c == 't' then some '\t'
  else none

/-- The rest of a text behind its opening quote, and what follows the closing one. -/
def textBody : Nat → Text → List Char → Option (Text × List Char)
  | 0, _, _ => none
  | _ + 1, _, [] => none
  | fuel + 1, done, c :: cs =>
    if c == '\x22' then some (done.reverse, cs)
    else if c.toNat < 0x20 then none
    else if c != '\\' then textBody fuel (.char c :: done) cs
    else
      match cs with
      | 'u' :: a :: b :: c :: d :: rest =>
        match hexUnit? a b c d with
        | none => none
        | some n =>
          match isHighSurrogate n, rest with
          | true, '\\' :: 'u' :: a :: b :: c :: d :: rest' =>
            match hexUnit? a b c d with
            | none => none
            | some m =>
              if isLowSurrogate m then textBody fuel (pairPoint n m :: done) rest'
              else textBody fuel (unitPoint n :: done) rest
          | _, _ => textBody fuel (unitPoint n :: done) rest
      | e :: rest =>
        match shortEscape? e with
        | some c => textBody fuel (.char c :: done) rest
        | none => none
      | [] => none

def readText (cs : List Char) : Except Refusal (Text × List Char) :=
  match textBody (cs.length + 1) [] cs with
  | some found => .ok found
  | none => .error .malformed

def digits (cs : List Char) : List Char × List Char := cs.span isDigit

/-- The fraction of a number: its digits, none if there is no fraction. -/
def fraction (cs : List Char) : List Char × List Char :=
  match cs with
  | '.' :: rest =>
    match digits rest with
    | ([], _) => ([], cs)
    | (ds, rest) => (ds, rest)
  | _ => ([], cs)

def exponent (cs : List Char) : Option Int × List Char :=
  match cs with
  | e :: rest =>
    if e == 'e' || e == 'E' then
      let (negative, body) := match rest with
        | '-' :: r => (true, r)
        | '+' :: r => (false, r)
        | r => (false, r)
      match digits body with
      | ([], _) => (none, cs)
      | (ds, rest) =>
        let n : Int := digitsValue ds
        (some (if negative then -n else n), rest)
    else (none, cs)
  | [] => (none, cs)

/-- The integer part of a number: a zero, or digits that start with another one. -/
def wholeDigits (cs : List Char) : List Char × List Char :=
  match cs with
  | '0' :: rest => (['0'], rest)
  | _ => digits cs

def readNumber (negative : Bool) (cs : List Char) : Except Refusal (Json × List Char) :=
  match wholeDigits cs with
  | ([], _) => .error .malformed
  | (whole, rest) =>
    let (part, rest) := fraction rest
    let (power, rest) := exponent rest
    match part, power with
    | [], none =>
      if whole.length > Text.Numeral.digitLimit then .error (.longInteger whole.length)
      else
        let n : Int := digitsValue whole
        .ok (.int (if negative then -n else n), rest)
    | _, _ =>
      let value := digitsValue (whole ++ part)
      .ok (.real (.ofDecimal negative value (power.getD 0 - part.length)), rest)

def word? (word : String) (cs : List Char) : Option (List Char) :=
  if word.toList.isPrefixOf cs then some (cs.drop word.length) else none

def words : List (String × Json) :=
  [("null", .null), ("true", .bool true), ("false", .bool false), ("NaN", .real .nan),
   ("Infinity", .real (.infinite false)), ("-Infinity", .real (.infinite true))]

/-- A value that holds no others. -/
def readAtom (cs : List Char) : Except Refusal (Json × List Char) :=
  match words.findSome? fun w => (word? w.1 cs).map fun rest => (w.2, rest) with
  | some found => .ok found
  | none =>
    match cs with
    | '-' :: rest => readNumber true rest
    | _ => readNumber false cs

mutual

/-- A value at the front. `levels` is how many lists and objects may still lie in one another. -/
def readValue : Nat → Nat → List Char → Except Refusal (Json × List Char)
  | 0, _, _ => .error .malformed
  | fuel + 1, levels, cs =>
    match cs with
    | '\x22' :: rest => do
      let (s, rest) ← readText rest
      return (.text s, rest)
    | '[' :: rest =>
      match levels with
      | 0 => .error .tooDeep
      | levels + 1 =>
        match skipSpace rest with
        | ']' :: rest => .ok (.list [], rest)
        | rest => do
          let (vs, rest) ← readItems fuel levels rest
          return (.list vs, rest)
    | '\x7b' :: rest =>
      match levels with
      | 0 => .error .tooDeep
      | levels + 1 =>
        match skipSpace rest with
        | '\x7d' :: rest => .ok (.object [], rest)
        | rest => do
          let (fs, rest) ← readFields fuel levels [] rest
          return (.object fs, rest)
    | _ => readAtom cs

def readItems : Nat → Nat → List Char → Except Refusal (List Json × List Char)
  | 0, _, _ => .error .malformed
  | fuel + 1, levels, cs => do
    let (v, rest) ← readValue fuel levels cs
    match skipSpace rest with
    | ']' :: rest => return ([v], rest)
    | ',' :: rest =>
      let (vs, rest) ← readItems fuel levels (skipSpace rest)
      return (v :: vs, rest)
    | _ => .error .malformed

/-- The fields of an object up to its closing brace, behind those read already. -/
def readFields : Nat → Nat → List (Text × Json) → List Char →
    Except Refusal (List (Text × Json) × List Char)
  | 0, _, _, _ => .error .malformed
  | fuel + 1, levels, done, cs =>
    match cs with
    | '\x22' :: rest => do
      let (name, rest) ← readText rest
      match skipSpace rest with
      | ':' :: rest =>
        let (v, rest) ← readValue fuel levels (skipSpace rest)
        let done := setField name v done
        match skipSpace rest with
        | '\x7d' :: rest => return (done, rest)
        | ',' :: rest => readFields fuel levels done (skipSpace rest)
        | _ => .error .malformed
      | _ => .error .malformed
    | _ => .error .malformed

end

/-- Read a document: one value with white space around it. -/
def parse (s : String) : Except Refusal Json := do
  let cs := s.toList
  let (v, rest) ← readValue (2 * cs.length + 2) depthLimit (skipSpace cs)
  if (skipSpace rest).isEmpty then return v else .error .malformed

end ScriptFlow.Json
