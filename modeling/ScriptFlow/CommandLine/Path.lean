import ScriptFlow.Text.Basic

/-! Paths. A path is shown without empty and `.` parts; `..` is kept. -/

namespace ScriptFlow

/-- A path: what it starts with, nothing for a relative one, and its parts. -/
structure Path where
  root : String
  parts : List Text
  deriving DecidableEq, Repr

namespace Path

/-- The slashes a path starts with. Two of them are kept apart from one; more count as one. -/
def rootOf : Text → String
  | .char '/' :: .char '/' :: .char '/' :: _ => "/"
  | .char '/' :: .char '/' :: _ => "//"
  | .char '/' :: _ => "/"
  | _ => ""

def ofText (t : Text) : Path :=
  ⟨rootOf t, (t.split '/').filter fun part => !part.isEmpty && part != ("." : Text)⟩

def text (p : Path) : Text :=
  if p.root.isEmpty && p.parts.isEmpty then "." else p.root ++ List.intercalate ("/" : Text) p.parts

/-- A name without its suffix: what stands in front of the last dot. A dot at either end of the name
starts no suffix. -/
def stem (name : Text) : Text :=
  let tail := name.reverse.takeWhile fun p => p != .char '.'
  let front := name.take (name.length - tail.length - 1)
  if tail.length < name.length && !tail.isEmpty && !front.isEmpty then front else name

/-- Replace the suffix of the last part. A path without parts has none to replace. -/
def withSuffix? (p : Path) (suffix : Text) : Option Path :=
  p.parts.getLast?.map fun name => { p with parts := p.parts.dropLast ++ [stem name ++ suffix] }

end Path

end ScriptFlow
