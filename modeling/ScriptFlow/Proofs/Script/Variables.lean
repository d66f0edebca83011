import ScriptFlow.Proofs.Script.Whole
import ScriptFlow.Proofs.Stack.Variables

/-! # The variables of a loaded script

Whatever the start of its analysis and the signatures of engine routines, and whether the analysis
succeeds or not, the variables of a loaded script are in order at all times. -/

namespace ScriptFlow

/-- What is known of the variables at each moment of the analysis from the start, those before it
taken into account. -/
structure Stack.VariablesKept (p : Stack.Program) (start : Option Subroutine) : Prop where
  recalled : ∀ past x, Stack.Moment p start past x → Stack.Recalls past x
  types : ∀ past x, Stack.Moment p start past x → ∀ (v : Nat) y, x.state.space[v]? = some y →
    y.type ∉ [CellType.void, .vector, .action]
  /-- Whatever an analysis comes to is one of these moments, and so is where it stops. -/
  visited : ∀ sub x, start = some sub → Stack.Visited p sub x → ∃ past, Stack.Moment p start past x
  failing : ∀ sub f outer s halt t, start = some sub → Stack.Visited p sub ⟨f :: outer, s⟩ →
    Stack.Sim.step p f outer s = .error halt t → ∃ past, Stack.Moment p start past ⟨f :: outer, t⟩
  answered : ∀ a events, Stack.analyze p start = .ok (a, events) →
    ∃ past x, Stack.Moment p start past x ∧ x.state = a.state

theorem Script.analyze_keeps_variables {image : List UInt8} {events : List Event} {s : Script}
    (hload : Script.load image = (events, .ok s)) (table : Engine.Table) (start : Option Subroutine)
    (hstart : ∀ sub, start = some sub → sub ∈ s.subroutines) :
    Stack.VariablesKept ⟨s.graph, s.subroutines, table⟩ start where
  recalled _ _ h := h.recalls
  types _ _ h v y hy := Stack.cells_eq_one_iff.mp (h.recalls.accounted.state.space v y hy)
  visited sub x hsub hx := by
    obtain ⟨past, htrace⟩ := hx.exists_trace
    exact ⟨past, .point hsub htrace⟩
  failing sub f outer u halt t hsub hx hstep := by
    obtain ⟨past, htrace⟩ := hx.exists_trace
    exact ⟨_, .failure hsub htrace hstep⟩
  answered _ _ h := Stack.exists_moment_of_analyze (Script.load_whole hload table) hstart h

/-- 15 SAVEBP makes the variable of 13 RSADDI a global, and 17 NEGF finds an integer. -/
def negatedBase : List UInt8 :=
  Script.magic ++ [Script.marker, 0, 0, 0, 21] ++ [0x02, 3] ++ [0x2A, 0] ++ [0x19, 4] ++ [0x20, 0]

/-- The analysis fails inside of an instruction that has read the cell by then; the global is kept. -/
theorem negatedBase_keeps_variables : ∃ (events events' : List Event) (s : Script)
    (start : Subroutine) (a : Stack.Analysis),
    Script.load negatedBase = (events, .ok s) ∧ s.inRole s.roles.start = some start ∧
    Stack.analyze ⟨s.graph, s.subroutines, {}⟩ (some start) = .ok (a, events') ∧
    a.error = some "0x00000011: NEGF expects float, variable 1 is int" ∧ a.state.globals = [0] ∧
    Stack.VariablesKept ⟨s.graph, s.subroutines, {}⟩ (some start) ∧
    ∃ past x, Stack.Moment ⟨s.graph, s.subroutines, {}⟩ (some start) past x ∧ x.state = a.state ∧
      past.findSome? Stack.Point.saves? = some [0] := by
  have hcheck : (match Script.load negatedBase with
    | (_, .ok s) => (s.inRole s.roles.start).any fun start =>
      match Stack.analyze ⟨s.graph, s.subroutines, {}⟩ (some start) with
      | .ok (a, _) => a.error == some "0x00000011: NEGF expects float, variable 1 is int" &&
        a.state.globals == [0]
      | .error _ => false
    | _ => false) = true := by
    decide +kernel
  split at hcheck
  · rename_i events s hload
    simp only [Option.any_eq_true] at hcheck
    obtain ⟨start, hstart, hanalyze⟩ := hcheck
    split at hanalyze
    · rename_i a events' hrun
      simp only [Bool.and_eq_true, beq_iff_eq] at hanalyze
      obtain ⟨herror, hglobals⟩ := hanalyze
      have hkept := Script.analyze_keeps_variables hload {} (some start)
        (fun sub hsub => by cases hsub; exact Script.mem_of_inRole hstart)
      obtain ⟨past, x, hmoment, hx⟩ := hkept.answered a events' hrun
      have hfirst := (hkept.recalled past x hmoment).globals
      rw [hx, hglobals] at hfirst
      refine ⟨events, events', s, start, a, hload, hstart, hrun, herror, hglobals, hkept, past, x,
        hmoment, hx, ?_⟩
      cases hsaves : past.findSome? Stack.Point.saves? with
      | none =>
        rw [hsaves] at hfirst
        cases hfirst
      | some stack =>
        rw [hsaves] at hfirst
        exact congrArg some hfirst.symm
    · cases hanalyze
  · cases hcheck

end ScriptFlow
