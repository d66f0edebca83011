import ScriptFlow.Proofs.Stack.Termination

/-! # What an analysis looks up

The signatures of engine routines are read in one place: in front of a call of a routine, and there
the one signature that the call names. So a step is the same with another table that has the same
signature there, and a run the same with one that agrees wherever it looks. A call of a routine that
the table does not have stops the run, so a run that succeeds has found all it asked for. -/

namespace ScriptFlow

/-- The engine routine an instruction calls. -/
def Instruction.routine? (i : Instruction) : Option Nat :=
  match i.opcode, i.operand with
  | .action, .call routine _ => some routine
  | _, _ => none

/-- Whatever the first table has, the second has too. -/
def Engine.Table.Extends (t u : Engine.Table) : Prop :=
  ∀ n signature, t.find? n = some signature → u.find? n = some signature

namespace Stack

/-- The two tables have the same signature, or none, for every routine that an instruction calls. -/
def AgreeOn (code : List LinkedInstruction) (t u : Engine.Table) : Prop :=
  ∀ i ∈ code, ∀ routine : Nat, i.toInstruction.routine? = some routine →
    t.find? routine = u.find? routine

/-- The same program with other signatures. -/
def Program.withTable (p : Program) (t : Engine.Table) : Program := { p with table := t }

section
variable {p : Program} {t u : Engine.Table} {f : Frame} {outer : List Frame} {s : State}
variable {x y : Point} {sub : Subroutine}

namespace Sim

variable {i : Instruction}

theorem exec_congr (height : Nat) (stack : Cells) (writes : Writes)
    (h : ∀ routine : Nat, i.routine? = some routine → t.find? routine = u.find? routine) :
    exec t height i stack writes = exec u height i stack writes := by
  unfold exec
  cases hop : i.opcode with
  | action =>
    cases hoperand : i.operand with
    | call routine argc =>
      have hfind := h routine (by rw [Instruction.routine?, hop, hoperand])
      simp only [engineCall, hfind]
    | _ => rfl
  | _ => rfl

/-- A call that succeeds has found its routine. -/
theorem exec_finds {height routine : Nat} {stack : Cells} {writes : Writes} {r : Cells × Writes}
    {s' : State} (hi : i.routine? = some routine) (h : exec t height i stack writes s = .ok r s') :
    ∃ signature, t.find? routine = some signature := by
  unfold Instruction.routine? at hi
  split at hi
  · rename_i routine' argc hop hoperand
    cases hi
    simp only [exec, hop, hoperand] at h
    obtain ⟨cells, s₁, hcall, -⟩ := bind_eq_ok.mp h
    cases hfind : t.find? routine with
    | some signature => exact ⟨signature, rfl⟩
    | none =>
      simp only [engineCall, hfind] at hcall
      cases hcall
  · cases hi

theorem step_congr (h : ∀ i, f.Faces i → ∀ routine : Nat, i.toInstruction.routine? = some routine →
    p.table.find? routine = u.find? routine) :
    step p f outer = step (p.withTable u) f outer := by
  unfold step
  cases hcursor : f.cursor with
  | running b rest stack =>
    cases rest with
    | nil => rfl
    | cons i rest =>
      simp only [exec_congr f.height stack f.writes (h i ⟨b, rest, stack, hcursor⟩)]
      rfl
  | idle => rfl
  | leaving edges stack => cases edges <;> rfl

theorem step_finds {i : LinkedInstruction} {routine : Nat} {frames : List Frame} {s' : State}
    (hi : f.Faces i) (hroutine : i.toInstruction.routine? = some routine)
    (h : step p f outer s = .ok frames s') : ∃ signature, p.table.find? routine = some signature := by
  obtain ⟨b, rest, stack, hcursor⟩ := hi
  have hop : i.opcode ≠ .jsr := by
    intro hop
    simp [Instruction.routine?, hop] at hroutine
  simp only [step, hcursor, if_neg hop] at h
  obtain ⟨r, s₁, hexec, -⟩ := bind_eq_ok.mp h
  exact exec_finds hroutine hexec

/-- What is looked up along a run is all that matters to it. The invariant tells what is known of the
points of the run. -/
theorem run_congr {Q : Point → Prop} (hnext : ∀ x y, Q x → Next p x y → Q y)
    (hasks : ∀ f outer s, Q ⟨f :: outer, s⟩ → ∀ i, f.Faces i → ∀ routine : Nat,
      i.toInstruction.routine? = some routine → p.table.find? routine = u.find? routine)
    (fuel : Nat) (hx : Q x) :
    run p fuel x.frames x.state = run (p.withTable u) fuel x.frames x.state := by
  induction fuel generalizing x with
  | zero => cases x.frames <;> rfl
  | succ fuel ih =>
    obtain ⟨frames, s⟩ := x
    cases frames with
    | nil => rfl
    | cons f outer =>
      have hstep : step p f outer s = step (p.withTable u) f outer s :=
        congrFun (step_congr (hasks f outer s hx)) s
      cases hs : step p f outer s with
      | ok frames s' =>
        have hmove : Next p ⟨f :: outer, s⟩ ⟨frames, s'⟩ := ⟨f, outer, rfl, hs⟩
        have hmove' : Next (p.withTable u) ⟨f :: outer, s⟩ ⟨frames, s'⟩ :=
          ⟨f, outer, rfl, hstep ▸ hs⟩
        rw [run_next hmove, run_next hmove']
        exact ih (hnext _ _ hx hmove)
      | error halt s' =>
        rw [run_of_error hs, run_of_error (hstep ▸ hs)]

end Sim

/-- Steps behind the point lead to the end without a failure. -/
def Point.Succeeds (p : Program) (x : Point) : Prop :=
  ∃ fuel s, Sim.run p fuel x.frames x.state = .ok () s

theorem Point.Succeeds.step (h : Point.Succeeds p ⟨f :: outer, s⟩) :
    ∃ frames s', Sim.step p f outer s = .ok frames s' ∧ Point.Succeeds p ⟨frames, s'⟩ := by
  obtain ⟨fuel, last, hrun⟩ := h
  cases fuel with
  | zero => cases hrun
  | succ fuel =>
    cases hs : Sim.step p f outer s with
    | ok frames s' =>
      have hmove : Next p ⟨f :: outer, s⟩ ⟨frames, s'⟩ := ⟨f, outer, rfl, hs⟩
      exact ⟨frames, s', rfl, fuel, last, (Sim.run_next hmove).symm.trans hrun⟩
    | error halt s' =>
      rw [Sim.run_of_error hs] at hrun
      cases hrun

theorem Point.Succeeds.next (h : x.Succeeds p) (hnext : Next p x y) : y.Succeeds p := by
  obtain ⟨frames, s⟩ := x
  obtain ⟨f, outer, hx, hstep⟩ := hnext
  cases hx
  obtain ⟨frames', s', hstep', hrest⟩ := h.step
  rw [hstep] at hstep'
  cases hstep'
  exact hrest

/-! ## Whole analyses -/

/-- An analysis is the same with another table if its run is. -/
theorem analyze_congr {start : Option Subroutine} (h : ∀ sub, start = some sub → ∀ first,
    Begins p sub first → Sim.run p p.steps first.frames first.state =
      Sim.run (p.withTable u) p.steps first.frames first.state) :
    analyze p start = analyze (p.withTable u) start := by
  cases start with
  | none => rfl
  | some sub =>
    cases hentry : sub.entry with
    | none => simp only [analyze, Option.filter, hentry]; rfl
    | some entry =>
      obtain ⟨first, hfirst, hrun⟩ := analyze_eq_ofRun (p := p) hentry
      obtain ⟨first', hfirst', hrun'⟩ := analyze_eq_ofRun (p := p.withTable u) hentry
      cases hfirst.unique (show Begins p sub first' from hfirst')
      rw [hrun, hrun', h sub rfl first hfirst]
      rfl

/-- Tables that agree on the routines of the code give the same answer. -/
theorem analyze_of_agreeOn {start : Option Subroutine} {code : List LinkedInstruction}
    (hp : p.Whole) (hstart : ∀ sub, start = some sub → sub ∈ p.subroutines)
    (hcode : ∀ b, ∀ i ∈ (p.graph.block b).instructions, i ∈ code)
    (hagree : AgreeOn code p.table u) : analyze p start = analyze (p.withTable u) start := by
  refine analyze_congr fun sub hsub first hfirst => ?_
  refine Sim.run_congr (Q := Orderly p) (fun x y hx hxy => hx.next hp hxy) ?_ _
    (hfirst.orderly hp (hstart sub hsub))
  intro f outer s hi i hfaces routine hroutine
  obtain ⟨b, rest, stack, hcursor⟩ := hfaces
  have hmem := (hi.consistent.sound f List.mem_cons_self).mem_block hcursor
  exact hagree i (hcode b i hmem) routine hroutine

/-- What an analysis that succeeds has found is there in every larger table. -/
theorem analyze_of_extends {start : Option Subroutine} {a : Analysis} {events : List Event}
    (hrun : analyze p start = .ok (a, events)) (hok : a.success = true)
    (hextends : p.table.Extends u) : analyze p start = analyze (p.withTable u) start := by
  refine analyze_congr fun sub hsub first hfirst => ?_
  have hfirstok : first.Succeeds p := by
    subst hsub
    obtain ⟨entry, hentry⟩ : ∃ entry, sub.entry = some entry := by
      cases hentry : sub.entry with
      | some entry => exact ⟨entry, rfl⟩
      | none =>
        simp only [analyze, Option.filter, hentry] at hrun
        cases hrun
        cases hok
    obtain ⟨first', hfirst', hanalyze⟩ := analyze_eq_ofRun (p := p) hentry
    cases hfirst.unique hfirst'
    rw [hrun] at hanalyze
    cases hends : Sim.run p p.steps first.frames first.state with
    | ok _ s => exact ⟨p.steps, s, hends⟩
    | error halt s =>
      rw [hends] at hanalyze
      cases halt with
      | fault fault =>
        cases hanalyze
        cases hok
      | missingOperand _ | ownerless _ | exhausted => cases hanalyze
  refine Sim.run_congr (Q := Point.Succeeds p) (fun x y hx hxy => hx.next hxy) ?_ _ hfirstok
  intro f outer s hx i hfaces routine hroutine
  obtain ⟨frames, s', hstep, -⟩ := hx.step
  obtain ⟨signature, hfind⟩ := Sim.step_finds hfaces hroutine hstep
  rw [hfind, hextends routine signature hfind]

end

end Stack

end ScriptFlow
