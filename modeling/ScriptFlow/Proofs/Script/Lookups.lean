import ScriptFlow.Proofs.Script.Whole
import ScriptFlow.Proofs.Stack.Lookups

/-! # The signatures that matter to a script

The stack analysis of a loaded script depends on the signatures of the routines its code calls and on
no other. If it succeeds, it also does not depend on those it lacks. -/

namespace ScriptFlow

/-- A table is extended by the signature of a routine that it does not have. -/
theorem Engine.Table.extends_insert {t : Engine.Table} {n : Int} (s : Engine.Signature)
    (hn : t.find? n = none) : t.Extends (t.insert n s) := by
  intro m signature hm
  have habsent : ∀ e ∈ t.entries, ¬ e.1 = n := by
    simpa [Engine.Table.find?] using hn
  have hany : (t.entries.any fun e => e.1 == n) = false := by
    simpa using habsent
  obtain ⟨e, he, rfl⟩ := Option.map_eq_some_iff.mp hm
  rw [Engine.Table.insert, hany, Engine.Table.find?, if_neg Bool.false_ne_true, List.find?_append, he]
  rfl

/-- Tables with the same signatures for the routines that the code of a loaded script calls give the
same analysis, whatever its outcome; and an analysis that succeeds stays as it is when signatures are
added to its table. -/
theorem Session.analyze_asks_for_called {image : List UInt8} {events : List Event} (session : Session)
    (hload : Script.load image = (events, .ok session.script)) (t u : Engine.Table) :
    (Stack.AgreeOn session.script.code t u → session.analyze t = session.analyze u) ∧
    ∀ session' a events', session.analyze t = .ok (session', a, events') → a.success = true →
      t.Extends u → session.analyze u = .ok (session', a, events') := by
  have hstart : ∀ sub, session.script.inRole session.script.roles.start = some sub →
      sub ∈ session.script.subroutines := fun sub hsub => Script.mem_of_inRole hsub
  -- the two analyses differ in their tables only
  have hsame : Stack.analyze (session.program t)
      (session.script.inRole session.script.roles.start) =
      Stack.analyze (session.program u) (session.script.inRole session.script.roles.start) →
      session.analyze t = session.analyze u := by
    intro h
    simp only [Session.analyze, h]
  refine ⟨fun hagree => hsame ?_, fun session' a events' hrun hok hextends => ?_⟩
  · exact Stack.analyze_of_agreeOn (p := session.program t) (Script.load_whole hload t) hstart
      (fun b i hi => Script.load_mem_code hload hi) hagree
  · rw [← hrun]
    refine (?_ : session.analyze t = session.analyze u).symm
    cases hanalysis : session.analysis with
    | some known => simp only [Session.analyze, hanalysis]
    | none =>
      refine hsame ?_
      simp only [Session.analyze, hanalysis, bind, Except.bind] at hrun
      split at hrun
      · cases hrun
      · rename_i answer hanalyze
        cases hrun
        exact Stack.analyze_of_extends (p := session.program t) hanalyze hok hextends

/-- 13 ACTION calls routine 1; 26 ACTION, which nothing leads to, calls routine 2. -/
def strayAction : List UInt8 :=
  Script.magic ++ [Script.marker, 0, 0, 0, 33] ++ [0x05, 0, 0, 1, 0] ++
    [0x1B, 0, 0xFF, 0xFF, 0xFF, 0xFC] ++ [0x20, 0] ++ [0x05, 0, 0, 2, 0] ++ [0x20, 0]

/-- The signature of a routine that takes nothing and returns an integer. -/
def integerRoutine (n : Int) : Engine.Signature := { routine := n, name := "Random", returns := .int }

/-- A routine that the script does not call makes no difference, and one that only stray code calls
makes none to an analysis that succeeds. -/
theorem strayAction_asks_for_called : ∃ (events events' : List Event) (s : Script)
    (session : Session) (a : Stack.Analysis),
    let one := Engine.Table.insert {} 1 (integerRoutine 1)
    Script.load strayAction = (events, .ok s) ∧
    Stack.AgreeOn s.code one (one.insert 7 (integerRoutine 7)) ∧
    ¬ Stack.AgreeOn s.code one (one.insert 2 (integerRoutine 2)) ∧
    Session.analyze ⟨s, none⟩ one = .ok (session, a, events') ∧ a.success = true ∧
    Session.analyze ⟨s, none⟩ (one.insert 7 (integerRoutine 7)) = .ok (session, a, events') ∧
    Session.analyze ⟨s, none⟩ (one.insert 2 (integerRoutine 2)) = .ok (session, a, events') := by
  have hcheck : (match Script.load strayAction with
    | (_, .ok s) => decide (s.code.map (fun i => i.toInstruction.routine?) =
        [some 1, none, none, some 2, none]) &&
      match Session.analyze ⟨s, none⟩ (Engine.Table.insert {} 1 (integerRoutine 1)) with
      | .ok (_, a, _) => a.success
      | .error _ => false
    | _ => false) = true := by
    decide +kernel
  split at hcheck
  · rename_i events s hload
    rw [Bool.and_eq_true, decide_eq_true_eq] at hcheck
    obtain ⟨hroutines, hrun⟩ := hcheck
    split at hrun
    · rename_i session a events' hanalyze
      have hagree : Stack.AgreeOn s.code (Engine.Table.insert {} 1 (integerRoutine 1))
          ((Engine.Table.insert {} 1 (integerRoutine 1)).insert 7 (integerRoutine 7)) := by
        intro i hi routine hroutine
        have hmem : some routine ∈ s.code.map fun i => i.toInstruction.routine? :=
          List.mem_map.mpr ⟨i, hi, hroutine⟩
        rw [hroutines] at hmem
        obtain rfl | rfl : routine = 1 ∨ routine = 2 := by simpa using hmem
        · rfl
        · rfl
      have hdiffer : ¬ Stack.AgreeOn s.code (Engine.Table.insert {} 1 (integerRoutine 1))
          ((Engine.Table.insert {} 1 (integerRoutine 1)).insert 2 (integerRoutine 2)) := by
        intro h
        have hmem : some 2 ∈ s.code.map fun i => i.toInstruction.routine? := by simp [hroutines]
        obtain ⟨i, hi, hroutine⟩ := List.mem_map.mp hmem
        cases h i hi 2 hroutine
      have hseven := (Session.analyze_asks_for_called ⟨s, none⟩ hload _ _).1 hagree
      have htwo := (Session.analyze_asks_for_called ⟨s, none⟩ hload _ _).2 _ _ _
        hanalyze hrun (Engine.Table.extends_insert (n := 2) (integerRoutine 2) rfl)
      exact ⟨events, events', s, session, a, hload, hagree, hdiffer, hanalyze, hrun,
        hseven ▸ hanalyze, htwo⟩
    · cases hrun
  · cases hcheck

end ScriptFlow
