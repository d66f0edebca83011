import ScriptFlow.Proofs.Flow.Execution
import ScriptFlow.Proofs.Script.Whole
import ScriptFlow.Proofs.Stack.Deltas

/-! # The deltas of a loaded script

The delta that a successful analysis records of a subroutine is that of the returns its own frame
walked. It is right for a subroutine that shares no return with another, and can be missing for one
that does. -/

namespace ScriptFlow

theorem Session.analyze_of_fresh {session session' : Session} {table : Engine.Table}
    {a : Stack.Analysis} {events : List Event} (hfresh : session.analysis = none)
    (hrun : session.analyze table = .ok (session', a, events)) :
    Stack.analyze (session.program table) (session.script.inRole session.script.roles.start) =
      .ok (a, events) := by
  simp only [Session.analyze, hfresh, bind, Except.bind] at hrun
  split at hrun
  · cases hrun
  · rename_i r hanalyze
    cases hrun
    exact hanalyze

/-- Once the stack of a loaded script was analyzed with success, the delta of every subroutine with an
effect is that of the returns it walked; it is never made up, and it is right exactly if these returns
speak for all that the subroutine leads to. -/
theorem Session.analyze_delta_of_walked {image : List UInt8} {events events' : List Event}
    {session session' : Session} {table : Engine.Table} {a : Stack.Analysis}
    (hload : Script.load image = (events, .ok session.script)) (hfresh : session.analysis = none)
    (hrun : session.analyze table = .ok (session', a, events')) (hok : a.success = true) :
    ∃ start, session.script.inRole session.script.roles.start = some start ∧
      ∀ sub ∈ session.script.subroutines, ∀ effect, a.state.effectOf? sub.address = some effect →
        ∃ entry d, sub.entry = some entry ∧ a.depthAt entry = some d ∧
          Stack.DeltaTells (session.program table) a start sub entry d effect.delta := by
  have hp : (session.program table).Whole := Script.load_whole hload table
  have hanalyze := Session.analyze_of_fresh hfresh hrun
  obtain ⟨start, -, -, hstart, -⟩ := Stack.analyze_success hanalyze hok
  rw [hstart] at hanalyze
  have hmem := Script.mem_of_inRole hstart
  exact ⟨start, hstart, fun sub hsub effect heffect =>
    Stack.analyze_deltaTells hp hmem hanalyze hok hsub heffect⟩

/-- No path leads out of the blocks that a subroutine owns. -/
def Stack.Secluded (p : Stack.Program) (s : Stack.State) : Prop :=
  (∀ b < p.graph.size, ∀ c < p.graph.size, Stack.Onward p s b c →
    (p.graph.block c).owner = (p.graph.block b).owner) ∧
  ∀ sub ∈ p.subroutines, ∀ entry ∈ sub.entry, (p.graph.block entry).owner = some sub.address

instance (p : Stack.Program) (s : Stack.State) : Decidable (Stack.Secluded p s) :=
  inferInstanceAs (Decidable (_ ∧ _))

theorem Stack.Secluded.owner_of_leadsOn {p : Stack.Program} {s : Stack.State} {sub : Subroutine}
    {entry b : BlockId} (h : Stack.Secluded p s) (hp : p.WellFormed) (hsub : sub ∈ p.subroutines)
    (hentry : sub.entry = some entry) (hb : Stack.LeadsOn p s entry b) :
    b < p.graph.size ∧ (p.graph.block b).owner = some sub.address := by
  induction hb with
  | refl => exact ⟨hp.entry_lt sub hsub entry hentry, h.2 sub hsub entry hentry⟩
  | @tail b c _ honward ih =>
    have hc : c < p.graph.size := by
      cases honward with
      | edge he _ _ => exact hp.child_lt _ _ he
      | behind _ _ _ _ hnext => exact Stack.lt_of_holder? hnext
    exact ⟨hc, by rw [h.1 _ ih.1 _ hc honward, ih.2]⟩

/-- In the loop around a call, no block is shared. -/
theorem loopedCall_deltas_right : ∃ (events events' : List Event) (session session' : Session)
    (a : Stack.Analysis),
    Script.load loopedCall = (events, .ok session.script) ∧ session.analysis = none ∧
    session.analyze {} = .ok (session', a, events') ∧ a.success = true ∧
    2 ≤ a.state.effects.length ∧
    ∀ sub ∈ session.script.subroutines, ∀ effect, a.state.effectOf? sub.address = some effect →
      ∃ entry d, sub.entry = some entry ∧ a.depthAt entry = some d ∧
        Stack.DeltaRight (session.program {}) a entry d effect.delta := by
  have hcheck : (match Script.load loopedCall with
    | (_, .ok s) =>
      match Session.analyze ⟨s, none⟩ {} with
      | .ok (_, a, _) => a.success && decide (2 ≤ a.state.effects.length) &&
        decide (Stack.Secluded (Session.program ⟨s, none⟩ {}) a.state)
      | .error _ => false
    | _ => false) = true := by
    decide +kernel
  split at hcheck
  · rename_i events s hload
    split at hcheck
    · rename_i session' a events' hrun
      simp only [Bool.and_eq_true, decide_eq_true_eq] at hcheck
      obtain ⟨⟨hok, hcount⟩, hsecluded⟩ := hcheck
      refine ⟨events, events', ⟨s, none⟩, session', a, hload, rfl, hrun, hok, hcount, ?_⟩
      intro sub hsub effect heffect
      obtain ⟨start, -, htells⟩ := Session.analyze_delta_of_walked hload rfl hrun hok
      obtain ⟨entry, d, hentry, hd, htell⟩ := htells sub hsub effect heffect
      refine ⟨entry, d, hentry, hd, htell.right_of_own fun b hb _ other hother _ first hfirst hb' => ?_⟩
      have hp := (Script.load_whole hload {}).toWellFormed
      have howner := (hsecluded.owner_of_leadsOn hp hsub hentry hb).2
      have howner' := (hsecluded.owner_of_leadsOn hp hother hfirst hb').2
      rw [howner] at howner'
      exact (Option.some.inj howner').symm
    · cases hcheck
  · cases hcheck

/-- The return at 27 is walked for the subroutine that jumps there, so none is left for the subroutine
that it is the entry of: it is taken for one that never returns. -/
theorem tailCall_delta_missing : ∃ (events events' : List Event) (session session' : Session)
    (a : Stack.Analysis) (sub : Subroutine) (effect : Stack.Effect) (entry : BlockId),
    Script.load Flow.tailCall = (events, .ok session.script) ∧ session.analysis = none ∧
    session.analyze {} = .ok (session', a, events') ∧ a.success = true ∧
    sub ∈ session.script.subroutines ∧ sub.address = 27 ∧
    a.state.effectOf? sub.address = some effect ∧ sub.entry = some entry ∧
    effect.delta = none ∧ (session.program {}).Returns entry ∧
    ∀ d, ¬ Stack.DeltaRight (session.program {}) a entry d effect.delta := by
  have hcheck : (match Script.load Flow.tailCall with
    | (_, .ok s) =>
      match Session.analyze ⟨s, none⟩ {} with
      | .ok (_, a, _) => a.success && s.subroutines.any fun sub =>
        sub.address == 27 && (a.state.effectOf? sub.address).any (fun e => e.delta.isNone) &&
          sub.entry.any fun entry => decide ((Session.program ⟨s, none⟩ {}).Returns entry)
      | .error _ => false
    | _ => false) = true := by
    decide +kernel
  split at hcheck
  · rename_i events s hload
    split at hcheck
    · rename_i session' a events' hrun
      simp only [Bool.and_eq_true, List.any_eq_true, beq_iff_eq, Option.any_eq_true,
        Option.isNone_iff_eq_none, decide_eq_true_eq] at hcheck
      obtain ⟨hok, sub, hsub, ⟨haddress, effect, heffect, hdelta⟩, entry, hentry, hreturns⟩ := hcheck
      refine ⟨events, events', ⟨s, none⟩, session', a, sub, effect, entry, hload, rfl, hrun, hok, hsub,
        haddress, heffect, hentry, hdelta, hreturns, fun d hright => ?_⟩
      exact hright.none_iff.mp hdelta [] (List.isChain_singleton _) hreturns
    · cases hcheck
  · cases hcheck

end ScriptFlow
