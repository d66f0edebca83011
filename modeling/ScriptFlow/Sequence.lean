/-! Sequences: positions in them, which may count from the end, and stable sorting by an integer key.
Insertion sort is structural, so it also runs inside the kernel. -/

namespace ScriptFlow

namespace Position

/-- A position as a number of elements from the front. One below zero counts from the end, so that
minus one is the last; one that lies in front of the sequence stands for its front. -/
def clip (length : Nat) (n : Int) : Nat := (if n < 0 then n + length else n).toNat

/-- The index of the element at a position, if there is one. -/
def index? (length : Nat) (n : Int) : Option Nat :=
  let i := if n < 0 then n + length else n
  if 0 ≤ i ∧ i < length then some i.toNat else none

/-- The elements between two positions. What lies outside of the sequence is left out. -/
def slice {α : Type} (xs : Array α) (start stop : Int) : List α :=
  (xs.extract (clip xs.size start) (clip xs.size stop)).toList

end Position

namespace Order

variable {α : Type}

/-- Put `x` in front of the first element with a key that is not below its own. -/
def insertBy (key : α → Int) (x : α) : List α → List α
  | [] => [x]
  | y :: ys => if key x ≤ key y then x :: y :: ys else y :: insertBy key x ys

/-- The elements in increasing order of their keys, equal keys in their given order. -/
def sortBy (key : α → Int) : List α → List α
  | [] => []
  | x :: xs => insertBy key x (sortBy key xs)

/-- The first element whose key is least. -/
def firstMin? (key : α → Int) : List α → Option α
  | [] => none
  | x :: xs =>
    match firstMin? key xs with
    | none => some x
    | some y => if key x ≤ key y then some x else some y

/-- The first element whose key is greatest. -/
def firstMax? (key : α → Int) : List α → Option α :=
  firstMin? fun x => -key x

end Order

end ScriptFlow
