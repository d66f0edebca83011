import ScriptFlow.Text.Basic
import ScriptFlow.Text.Hex
import ScriptFlow.Text.Printable

/-! Texts and byte strings in quotes. Single quotes are taken unless the text has a single quote and
no double one; inside, the chosen quote, the backslash and hidden characters are escaped. -/

namespace ScriptFlow.Text

def singleQuote : Char := '\x27'
def doubleQuote : Char := '\x22'

/-- The quote that needs fewer escapes, the single one when in doubt. -/
def quoteFor (cs : List Char) : Char :=
  if cs.contains singleQuote && !cs.contains doubleQuote then doubleQuote else singleQuote

/-- The escapes that texts and byte strings have in common. -/
def shortEscape? (quote c : Char) : Option String :=
  if c == quote || c == '\\' then some (String.ofList ['\\', c])
  else if c == '\n' then some "\\n"
  else if c == '\r' then some "\\r"
  else if c == '\t' then some "\\t"
  else none

/-- A character by its code point, with as many digits as its plane needs. -/
def codeEscape (n : Nat) : String :=
  if n < 0x100 then "\\x" ++ lowerHex 2 n
  else if n < 0x10000 then "\\u" ++ lowerHex 4 n
  else "\\U" ++ lowerHex 8 n

def quoteChar (quote c : Char) : String :=
  match shortEscape? quote c with
  | some e => e
  | none => if isPrintable c then String.singleton c else codeEscape c.toNat

/-- One code point of a quoted text. Half of a surrogate pair is always escaped. -/
def quotePoint (quote : Char) : CodePoint → String
  | .char c => quoteChar quote c
  | .half unit => codeEscape unit

/-- One character of a quoted byte string: only visible ASCII stands for itself. -/
def quoteByte (quote c : Char) : String :=
  match shortEscape? quote c with
  | some e => e
  | none => if 0x20 ≤ c.toNat && c.toNat < 0x7F then String.singleton c else codeEscape c.toNat

def quoted (t : Text) : String :=
  let q := quoteFor (t.filterMap CodePoint.char?)
  String.singleton q ++ String.join (t.map (quotePoint q)) ++ String.singleton q

/-- A byte string in quotes behind a `b`. -/
def quotedBytes (bytes : List UInt8) : String :=
  let cs := bytes.map fun b => Char.ofNat b.toNat
  let q := quoteFor cs
  "b" ++ String.singleton q ++ String.join (cs.map (quoteByte q)) ++ String.singleton q

end ScriptFlow.Text
