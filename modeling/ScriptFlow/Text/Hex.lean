/-! Hexadecimal numbers as messages and listings write them. -/

namespace ScriptFlow.Text

def padLeft (width : Nat) (fill : Char) (cs : List Char) : List Char :=
  List.replicate (width - cs.length) fill ++ cs

/-- Fill up with blanks on the right to `width` characters. -/
def padRight (width : Nat) (s : String) : String :=
  s ++ String.ofList (List.replicate (width - s.length) ' ')

/-- Lower-case hexadecimal, zero-filled to `width` digits. -/
def lowerHex (width n : Nat) : String :=
  String.ofList (padLeft width '0' (Nat.toDigits 16 n))

/-- Upper-case hexadecimal, zero-filled to `width` characters; a minus sign is one of them. -/
def upperHex (width : Nat) : Int → String
  | .ofNat n => String.ofList (padLeft width '0' ((Nat.toDigits 16 n).map Char.toUpper))
  | .negSucc n =>
    String.ofList ('-' :: padLeft (width - 1) '0' ((Nat.toDigits 16 (n + 1)).map Char.toUpper))

/-- An address in a message: eight digits behind `0x`. -/
def address (a : Int) : String := "0x" ++ upperHex 8 a

def byte (n : Nat) : String := "0x" ++ upperHex 2 n

def addresses (as : List Int) : String := ", ".intercalate (as.map address)

end ScriptFlow.Text
