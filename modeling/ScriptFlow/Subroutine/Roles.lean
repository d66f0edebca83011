import ScriptFlow.Event
import ScriptFlow.Subroutine.Basic

/-! The roles of subroutines. A script starts in its lowest subroutine. A global initialiser sets up a
base pointer and calls the main subroutine; without one, the start calls it directly. A role names a
subroutine by its position in the list. -/

namespace ScriptFlow

structure Roles where
  start : Option Nat := none
  global : Option Nat := none
  main : Option Nat := none
  multipleGlobal : Bool := false
  deriving DecidableEq, Repr

namespace Roles

def nth (subs : List Subroutine) (n : Nat) : Subroutine := subs.getD n { address := 0 }

/-- The last subroutine listed with an address. -/
def withAddress? (subs : List Subroutine) (a : Int) : Option Nat :=
  ((List.range subs.length).filter fun n => (nth subs n).address == a).getLast?

/-- The first subroutine with the lowest address. -/
def startOf? (subs : List Subroutine) : Option Nat :=
  Order.firstMin? (fun n => (nth subs n).address) (List.range subs.length)

/-- The subroutines that look like a global initialiser, in address order. -/
def globalCandidates (g : Graph) (subs : List Subroutine) (start : Nat) : List Nat :=
  (Order.sortBy (fun n => (nth subs n).address) (List.range subs.length)).filter fun n =>
    n != start && (nth subs n).kind != .state &&
      ((nth subs n).findOpcode? g .savebp).isSome

/-- The target of the first call of the global initialiser behind its first base pointer. -/
def calledByGlobal? (g : Graph) (subs : List Subroutine) (global : Subroutine) : Option Nat :=
  match global.findOpcode? g .savebp with
  | none => none
  | some savebp =>
    match (global.calls g).find? fun c => c.1 > savebp.address with
    | some c => withAddress? subs c.2
    | none => none

/-- The target of the call that the start makes right after its first call of the global
initialiser. -/
def calledAfterGlobal? (g : Graph) (subs : List Subroutine) (start global : Subroutine) :
    Option Nat :=
  let targets := (start.calls g).map Prod.snd
  match targets.dropWhile fun t => t != global.address with
  | _ :: next :: _ => withAddress? subs next
  | _ => none

def onlyCall? (g : Graph) (subs : List Subroutine) (start : Subroutine) : Option Nat :=
  match start.calls g with
  | [c] => withAddress? subs c.2
  | _ => none

/-- Find the start, the global initialiser and the main subroutine. The three are different
subroutines. -/
def identify (g : Graph) (subs : List Subroutine) : Roles :=
  match startOf? subs with
  | none => {}
  | some start =>
    let candidates := globalCandidates g subs start
    let global := candidates.head?
    let main := match global with
      | some n =>
        (calledByGlobal? g subs (nth subs n)).or
          (calledAfterGlobal? g subs (nth subs start) (nth subs n))
      | none => onlyCall? g subs (nth subs start)
    { start := some start
      global
      main := main.filter fun m => m != start && some m != global
      multipleGlobal := candidates.length > 1 }

def assign (kind : SubroutineKind) (n : Option Nat) (subs : List Subroutine) : List Subroutine :=
  match n with
  | some n => subs.modify n fun s => { s with kind }
  | none => subs

def apply (r : Roles) (subs : List Subroutine) : List Subroutine :=
  assign .main r.main (assign .global r.global (assign .start r.start subs))

def events (r : Roles) (subs : List Subroutine) : List Event :=
  match r.multipleGlobal, r.global with
  | true, some n => [.ambiguousGlobal (nth subs n).address]
  | _, _ => []

end Roles

end ScriptFlow
