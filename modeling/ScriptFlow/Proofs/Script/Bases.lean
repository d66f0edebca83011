import ScriptFlow.Proofs.Script.Deltas
import ScriptFlow.Proofs.Stack.Bases

/-! # The base pointers of a loaded script

Base pointers follow control flow in a loaded script whose saves are nested and stay open over calls
only, as where global variables are set up. Nested saves alone are not enough: all frames share one
list of base pointers, so the arms of a branch take them from each other. -/

namespace ScriptFlow

/-- In a loaded script whose saves are nested and tidy, base pointers follow control flow, whatever the
start of the analysis and the signatures of engine routines. -/
theorem Script.bases_follow {image : List UInt8} {events : List Event} {s : Script}
    (hload : Script.load image = (events, .ok s)) (table : Engine.Table) {start : Subroutine}
    (hstart : start ∈ s.subroutines)
    (hnested : Stack.Program.Nested ⟨s.graph, s.subroutines, table⟩)
    (htidy : Stack.Program.Tidy ⟨s.graph, s.subroutines, table⟩) :
    Stack.BasesFollow ⟨s.graph, s.subroutines, table⟩ start :=
  Stack.basesFollow (Script.load_whole hload table) hstart hnested htidy

/-- If each subroutine known has returned, so does every call that a save stays open over. -/
theorem Stack.resumes_of_deltas {p : Stack.Program} {s : Stack.State}
    (h : ∀ e ∈ s.effects, e.2.delta ≠ none) : Stack.Resumes p s := by
  intro _ _ _ _ _ _ _ _ _ callee _ _ effect heffect
  obtain ⟨e, he, rfl⟩ := Option.map_eq_some_iff.mp heffect
  exact h e (List.mem_of_find?_eq_some he)

/-- A global variable: 23 SAVEBP stays open over 25 JSR, whose callee reads the variable by 41 CPTOPBP,
until 31 RESTOREBP. -/
def savedGlobal : List UInt8 :=
  Script.magic ++ [Script.marker, 0, 0, 0, 57] ++ [0x1E, 0, 0, 0, 0, 8] ++ [0x20, 0] ++ [0x02, 3] ++
    [0x2A, 0] ++ [0x1E, 0, 0, 0, 0, 16] ++ [0x2B, 0] ++ [0x1B, 0, 0xFF, 0xFF, 0xFF, 0xFC] ++
    [0x20, 0] ++ [0x27, 1, 0xFF, 0xFF, 0xFF, 0xFC, 0, 4] ++ [0x1B, 0, 0xFF, 0xFF, 0xFF, 0xFC] ++
    [0x20, 0]

/-- The saves open in front of its blocks, by the entry. -/
def savedGlobalChart : BlockId → List (BlockId × List Int)
  | 0 => [(0, []), (2, [])]
  | 1 => [(1, []), (4, [23])]
  | entry => [(entry, [])]

theorem savedGlobal_bases_follow : ∃ (events : List Event) (s : Script) (start : Subroutine),
    Script.load savedGlobal = (events, .ok s) ∧ s.inRole s.roles.start = some start ∧
    Stack.StaysOpen ⟨s.graph, s.subroutines, {}⟩ 1 ∧
    Stack.BasesFollow ⟨s.graph, s.subroutines, {}⟩ start ∧
    ∀ x, Stack.Visited ⟨s.graph, s.subroutines, {}⟩ start x →
      ∃ opens, Stack.Mirrors ⟨s.graph, s.subroutines, {}⟩ start x opens := by
  have hcheck : (match Script.load savedGlobal with
    | (_, .ok s) =>
      match Session.analyze ⟨s, none⟩ {} with
      | .ok (_, a, _) => a.success && decide (∀ e ∈ a.state.effects, e.2.delta ≠ none) &&
        decide (∀ sub ∈ s.subroutines, ∀ entry ∈ sub.entry,
          Stack.MapsNested ⟨s.graph, s.subroutines, {}⟩ entry (savedGlobalChart entry) ∧
          Stack.MapsTidy ⟨s.graph, s.subroutines, {}⟩ entry (savedGlobalChart entry)) &&
        decide (Stack.openThrough (s.graph.block 1).instructions [] = some [23])
      | .error _ => false
    | _ => false) = true := by
    decide +kernel
  split at hcheck
  · rename_i events s hload
    split at hcheck
    · rename_i session' a events' hrun
      simp only [Bool.and_eq_true, decide_eq_true_eq] at hcheck
      obtain ⟨⟨⟨hok, hdeltas⟩, hcharts⟩, hopen⟩ := hcheck
      have hp := Script.load_whole hload {}
      have hanalyze := Session.analyze_of_fresh rfl hrun
      obtain ⟨start, -, -, hrole, -⟩ := Stack.analyze_success hanalyze hok
      rw [hrole] at hanalyze
      have hstart := Script.mem_of_inRole hrole
      have hfollow := Script.bases_follow hload {} hstart
        (fun sub hsub entry hentry => (hcharts sub hsub entry hentry).1.nested hp.toWellFormed)
        (fun sub hsub entry hentry => (hcharts sub hsub entry hentry).2.tidy hp.toWellFormed)
      refine ⟨events, s, start, hload, hrole, ⟨1, [23], ⟨[], .entry, hopen⟩, List.cons_ne_nil _ _⟩,
        hfollow, fun x hx => ?_⟩
      obtain ⟨y, hsteps, -, hy⟩ := hx.keeps_end hp hstart hanalyze hok
      have hkeeps := ((hx.orderly hp hstart).keeps_of_steps hp hsteps).2
      rw [hy] at hkeeps
      exact hfollow.mirrored x hx ((Stack.resumes_of_deltas hdeltas).of_keeps hkeeps)
    · cases hcheck
  · cases hcheck

/-- A save in front of a branch, 17 JZ, and a restore in each arm. -/
def splitRestore : List UInt8 :=
  Script.magic ++ [Script.marker, 0, 0, 0, 31] ++ [0x2A, 0] ++ [0x02, 3] ++ [0x1F, 0, 0, 0, 0, 10] ++
    [0x2B, 0] ++ [0x20, 0] ++ [0x2B, 0] ++ [0x20, 0]

/-- On each path the save is restored once, but the second arm that is walked finds no base pointer:
the first one has taken it. -/
theorem splitRestore_fails : ∃ (events events' : List Event) (session session' : Session)
    (a : Stack.Analysis),
    Script.load splitRestore = (events, .ok session.script) ∧ session.analysis = none ∧
    (session.program {}).Nested ∧ session.analyze {} = .ok (session', a, events') ∧
    a.error = some "0x00000017: RESTOREBP without SAVEBP" := by
  have hcheck : (match Script.load splitRestore with
    | (_, .ok s) =>
      match Session.analyze ⟨s, none⟩ {} with
      | .ok (_, a, _) =>
        decide (a.error = some "0x00000017: RESTOREBP without SAVEBP") &&
        decide (∀ sub ∈ s.subroutines, ∀ entry ∈ sub.entry,
          Stack.MapsNested ⟨s.graph, s.subroutines, {}⟩ entry [(0, []), (1, [13]), (2, [13])])
      | .error _ => false
    | _ => false) = true := by
    decide +kernel
  split at hcheck
  · rename_i events s hload
    split at hcheck
    · rename_i session' a events' hrun
      simp only [Bool.and_eq_true, decide_eq_true_eq] at hcheck
      obtain ⟨herror, hcharts⟩ := hcheck
      have hp := Script.load_whole hload {}
      refine ⟨events, events', ⟨s, none⟩, session', a, hload, rfl, ?_, hrun, herror⟩
      intro sub hsub entry hentry
      exact (hcharts sub hsub entry hentry).nested hp.toWellFormed
    · cases hcheck
  · cases hcheck

end ScriptFlow
