/-! Texts. A JSON document can spell half of a surrogate pair, which is no character, and so can a
command line. A text is therefore a list of code points; a half that stands alone is kept as it is. -/

namespace ScriptFlow

/-- A character, or half of a surrogate pair that stands alone. -/
inductive CodePoint where
  | char (c : Char)
  | half (unit : Nat)
  deriving DecidableEq, Repr

namespace CodePoint

def char? : CodePoint → Option Char
  | .char c => some c
  | .half _ => none

/-- The character that stands for a code point: for a half it is the replacement character. -/
def shown : CodePoint → Char
  | .char c => c
  | .half _ => '\ufffd'

end CodePoint

abbrev Text := List CodePoint

namespace Text

def ofString (s : String) : Text := s.toList.map CodePoint.char

/-- The same text in characters; there is none if the text holds a half. -/
def toString? (t : Text) : Option String := (t.mapM CodePoint.char?).map String.ofList

/-- The text as far as characters can show it. -/
def shown (t : Text) : String := String.ofList (t.map CodePoint.shown)

/-- The parts of a text between the places where a character stands. -/
def split (sep : Char) : Text → List Text
  | [] => [[]]
  | p :: ps =>
    match split sep ps with
    | [] => [[p]]
    | part :: parts => if p = .char sep then [] :: part :: parts else (p :: part) :: parts

end Text

instance : Coe String Text := ⟨Text.ofString⟩

end ScriptFlow
