import ScriptFlow.Proofs.Script.Whole
import ScriptFlow.Proofs.Stack.Once

/-! # How the analysis of a loaded script ends

It ends with an answer, after a bounded number of steps that do nothing twice, unless it comes to an
ordering of structures. -/

namespace ScriptFlow

/-! ## Answers -/

/-- The analysis from the start comes to the instruction and executes it. -/
def Stack.Applied (p : Stack.Program) (start : Option Subroutine) (i : LinkedInstruction) : Prop :=
  ∃ sub f outer s, start = some sub ∧ Stack.Visited p sub ⟨f :: outer, s⟩ ∧ f.Faces i

/-- The stack analysis of a loaded script has an answer, whatever its start and the signatures of
engine routines, exactly if it does not execute an ordering of structures; and such an instruction is
all that it can stop at without one. -/
theorem Script.analyze_answers_unless_widthless {image : List UInt8} {events : List Event}
    {s : Script} (hload : Script.load image = (events, .ok s)) (table : Engine.Table)
    (start : Option Subroutine) (hstart : ∀ sub, start = some sub → sub ∈ s.subroutines) :
    ((∃ answer, Stack.analyze ⟨s.graph, s.subroutines, table⟩ start = .ok answer) ↔
      ∀ i, Stack.Applied ⟨s.graph, s.subroutines, table⟩ start i → ¬ i.toInstruction.Widthless) ∧
    ∀ halt, Stack.analyze ⟨s.graph, s.subroutines, table⟩ start = .error halt → ∃ i,
      Stack.Applied ⟨s.graph, s.subroutines, table⟩ start i ∧ i.toInstruction.Widthless ∧
        halt = .missingOperand i.address := by
  have hp := Script.load_whole hload table
  cases start with
  | none =>
    refine ⟨⟨fun _ i hi => ?_, fun _ => ⟨_, rfl⟩⟩, fun halt h => ?_⟩
    · obtain ⟨sub, -, -, -, hsub, -⟩ := hi
      cases hsub
    · cases h
  | some sub =>
    have hsub := hstart sub rfl
    -- an ordering of structures that is executed stops the analysis
    have stops : ∀ i, Stack.Applied ⟨s.graph, s.subroutines, table⟩ (some sub) i →
        i.toInstruction.Widthless → Stack.analyze ⟨s.graph, s.subroutines, table⟩ (some sub) =
          .error (.missingOperand i.address) := by
      intro i hi hwide
      obtain ⟨sub', f, outer, u, hsub', hvisited, hfaces⟩ := hi
      cases hsub'
      have hstep := (hvisited.orderly hp hsub).step_widthless hp hfaces hwide
      exact hvisited.analyze_of_error hp hsub hstep
    have hanswers := Stack.analyze_answers hp hsub
    generalize hr : Stack.analyze ⟨s.graph, s.subroutines, table⟩ (some sub) = r at hanswers stops
    cases hanswers with
    | success _ _ | fault _ _ =>
      refine ⟨⟨fun _ i hi hwide => ?_, fun _ => ⟨_, rfl⟩⟩, fun halt h => ?_⟩
      · cases stops i hi hwide
      · cases h
    | @width f outer u i hvisited hfaces hwide =>
      have happlied : Stack.Applied ⟨s.graph, s.subroutines, table⟩ (some sub) i :=
        ⟨sub, f, outer, u, rfl, hvisited, hfaces⟩
      refine ⟨⟨fun h => ?_, fun h => absurd hwide (h i happlied)⟩, fun halt h => ?_⟩
      · obtain ⟨answer, hanswer⟩ := h
        cases hanswer
      · cases h
        exact ⟨i, happlied, hwide, rfl⟩

/-- Two integers compared as structures: 17 GEQTT has no width. -/
def structureOrder : List UInt8 :=
  Script.magic ++ [Script.marker, 0, 0, 0, 21] ++ [0x02, 3] ++ [0x02, 3] ++ [0x0D, 0x24] ++ [0x20, 0]

theorem structureOrder_stops : ∃ (events : List Event) (s : Script) (start : Subroutine),
    Script.load structureOrder = (events, .ok s) ∧ start ∈ s.subroutines ∧
    Stack.analyze ⟨s.graph, s.subroutines, {}⟩ (some start) = .error (.missingOperand 17) ∧
    ∃ i, Stack.Applied ⟨s.graph, s.subroutines, {}⟩ (some start) i ∧ i.toInstruction.Widthless ∧
      i.address = 17 := by
  have hcheck : (match Script.load structureOrder with
    | (_, .ok s) => s.subroutines.any fun start =>
      match Stack.analyze ⟨s.graph, s.subroutines, {}⟩ (some start) with
      | .error halt => halt == .missingOperand 17
      | .ok _ => false
    | _ => false) = true := by
    decide +kernel
  split at hcheck
  · rename_i events s hload
    obtain ⟨start, hstart, hanalyze⟩ := List.any_eq_true.mp hcheck
    split at hanalyze
    · rename_i halt hhalt
      have h17 : halt = .missingOperand 17 := by simpa using hanalyze
      rw [h17] at hhalt
      obtain ⟨i, happlied, hwide, haddress⟩ := (Script.analyze_answers_unless_widthless hload {}
        (some start) (fun sub hsub => by cases hsub; exact hstart)).2 _ hhalt
      have hi : i.address = 17 := by
        injection haddress with h
        exact h.symm
      exact ⟨events, s, start, hload, hstart, hhalt, i, happlied, hwide, hi⟩
    · cases hanalyze
  · cases hcheck

/-! ## Runs -/

/-- The analysis from a subroutine ends, and does nothing twice on its way. -/
structure Stack.VisitsOnce (p : Stack.Program) (sub : Subroutine) : Prop where
  /-- No run is longer than the steps an analysis is given, -/
  bounded : ∀ trace, Stack.Trace p sub trace → trace.length ≤ p.steps
  /-- so they are never used up. -/
  ends : Stack.analyze p (some sub) ≠ .error .exhausted
  blocks : ∀ trace, Stack.Trace p sub trace → ∀ b, trace.Pairwise fun x y =>
    Stack.TakesUp b x → ¬ Stack.TakesUp b y
  effects : ∀ trace, Stack.Trace p sub trace → ∀ a, trace.Pairwise fun x y =>
    Stack.Closes a x → ¬ Stack.Closes a y
  advances : ∀ x y, Stack.Visited p sub x → Stack.Next p x y → ∀ b,
    Stack.Advances (x.state.progressOf b) (y.state.progressOf b)
  /-- Blocks advance in the same way when a step fails. -/
  failing : ∀ f outer s halt t, Stack.Visited p sub ⟨f :: outer, s⟩ →
    Stack.Sim.step p f outer s = .error halt t → ∀ b,
      Stack.Advances (s.progressOf b) (t.progressOf b)
  /-- The depth a block was entered with is part of its progress, so this holds of every state. -/
  depths : ∀ x, Stack.Visited p sub x → ∀ b,
    (∃ d, (x.state.progressOf b).depth? = some d) ↔ x.state.progressOf b ≠ .untouched
  /-- What an analysis answers with is what it knew at its last point, or behind the step that
  failed there. -/
  answers : Stack.Answers p sub (Stack.analyze p (some sub))
  finished : ∀ a events, Stack.analyze p (some sub) = .ok (a, events) → a.success = true →
    (∀ b d, a.state.progressOf b ≠ .inProgress d) ∧
      (∀ b d, a.depthAt b = some d → a.state.progressOf b = .finished d) ∧
      ∀ x, Stack.Visited p sub x → ∀ n ∈ x.state.active, (a.state.effectOf? n).isSome

theorem Script.analyze_visits_once {image : List UInt8} {events : List Event} {s : Script}
    (hload : Script.load image = (events, .ok s)) (table : Engine.Table) {sub : Subroutine}
    (hsub : sub ∈ s.subroutines) :
    Stack.VisitsOnce ⟨s.graph, s.subroutines, table⟩ sub := by
  have hp := Script.load_whole hload table
  have hanswers := Stack.analyze_answers hp hsub
  refine ⟨fun trace h => h.length_le hp hsub, fun hexhausted => ?_,
    fun trace h b => h.takesUp_once hp hsub b, fun trace h a => h.closes_once hp hsub a,
    fun x y hx hnext b => (hx.orderly hp hsub).advances hnext b,
    fun f outer u halt t hx hstep b => (hx.orderly hp hsub).advances_failing hp hstep b,
    fun x _ b => ?_, hanswers, fun a events' hanalyze hok => ?_⟩
  · rw [hexhausted] at hanswers
    cases hanswers
  · cases x.state.progressOf b <;> simp [Stack.Progress.depth?]
  · have last : ∀ x, Stack.Visited ⟨s.graph, s.subroutines, table⟩ sub x → ∃ y,
        Relation.ReflTransGen (Stack.Next _) x y ∧ y.frames = [] ∧ y.state = a.state :=
      fun x hx => hx.keeps_end hp hsub hanalyze hok
    rw [hanalyze] at hanswers
    cases hanswers with
    | @success z _ hz hframes =>
      obtain ⟨hidle, hfinished, hmet⟩ := (hz.orderly hp hsub).ended hframes
      refine ⟨hidle, hfinished, fun x hx n hn => ?_⟩
      obtain ⟨y, hsteps, -, hy⟩ := last x hx
      refine hmet n ?_
      have hstate : y.state = z.state := hy
      rw [← hstate]
      exact Stack.met_of_steps hsteps (by simp [Stack.State.met, hn])
    | fault _ _ => cases hok

theorem loopedCall_visits_once : ∃ (events : List Event) (s : Script) (start : Subroutine),
    Script.load loopedCall = (events, .ok s) ∧ start ∈ s.subroutines ∧ start.entry = some 0 ∧
    Stack.VisitsOnce ⟨s.graph, s.subroutines, {}⟩ start := by
  have hcheck : (match Script.load loopedCall with
    | (_, .ok s) => s.subroutines.any fun start => start.entry == some 0
    | _ => false) = true := by
    decide +kernel
  split at hcheck
  · rename_i events s hload
    obtain ⟨start, hstart, hentry⟩ := List.any_eq_true.mp hcheck
    exact ⟨events, s, start, hload, hstart, by simpa using hentry,
      Script.analyze_visits_once hload {} hstart⟩
  · cases hcheck

end ScriptFlow
