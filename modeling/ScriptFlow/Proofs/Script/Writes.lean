import ScriptFlow.Proofs.Script.Deltas
import ScriptFlow.Proofs.Stack.Writes

/-! # The writes of a loaded script

The writes that an analysis records of a subroutine are the places below its entry that its own copies
went to. They are right for a subroutine that calls no other and copies to none but the cells it was
handed; they miss what its callees store, and they have cells that the subroutine had popped and pushed
again. -/

namespace ScriptFlow

/-- Whatever came of the analysis of a loaded script, the writes of every subroutine with an effect are
the places that it overwrote itself, and they are right exactly if these are the places that it and its
callees store to. -/
theorem Session.analyze_writes_of_own {image : List UInt8} {events events' : List Event}
    {session session' : Session} {table : Engine.Table} {a : Stack.Analysis}
    (hload : Script.load image = (events, .ok session.script)) (hfresh : session.analysis = none)
    (hrun : session.analyze table = .ok (session', a, events')) :
    ∀ address effect, a.state.effectOf? address = some effect →
      ∃ start, session.script.inRole session.script.roles.start = some start ∧
        Stack.WritesTell (session.program table) start address effect.writes := by
  intro address effect heffect
  have hp : (session.program table).Whole := Script.load_whole hload table
  have hanalyze := Session.analyze_of_fresh hfresh hrun
  cases hstart : session.script.inRole session.script.roles.start with
  | none =>
    rw [hstart] at hanalyze
    cases hanalyze
    cases heffect
  | some start =>
    rw [hstart] at hanalyze
    have hmem := Script.mem_of_inRole hstart
    refine ⟨start, rfl, ?_⟩
    have hanswers := Stack.analyze_answers hp hmem
    rw [hanalyze] at hanswers
    cases hanswers with
    | success hx _ => exact hx.writesTell hp hmem heffect
    | fault hx hstep =>
      -- a step that fails leaves the effects as they were in front of it
      have hsame := ((hx.orderly hp hmem).failure hp hstep).effects
      rw [Stack.State.effectOf?, hsame] at heffect
      exact hx.writesTell hp hmem heffect

/-- A callee stores an integer to the cell of its caller: 15 JSR calls 29, where 35 CPDOWNSP copies to
the cell that 13 RSADDI made. -/
def storeBelow : List UInt8 :=
  Script.magic ++ [Script.marker, 0, 0, 0, 51] ++ [0x02, 3] ++ [0x1E, 0, 0, 0, 0, 14] ++
    [0x1B, 0, 0xFF, 0xFF, 0xFF, 0xFC] ++ [0x20, 0] ++ [0x04, 3, 0, 0, 0, 5] ++
    [0x01, 1, 0xFF, 0xFF, 0xFF, 0xF8, 0, 4] ++ [0x1B, 0, 0xFF, 0xFF, 0xFF, 0xFC] ++ [0x20, 0]

/-- A call, or a copy to a cell below that was not handed over. -/
def Stack.indirect (i : LinkedInstruction) (stack passed : Stack.Cells) : Bool :=
  i.opcode == .jsr ||
    (i.targets stack.length).any fun k => decide (k < passed.length) && stack[k]? != passed[k]?

theorem storeBelow_writes_right : ∃ (events events' : List Event) (session session' : Session)
    (a : Stack.Analysis) (start : Subroutine) (effect : Stack.Effect),
    Script.load storeBelow = (events, .ok session.script) ∧ session.analysis = none ∧
    session.analyze {} = .ok (session', a, events') ∧
    session.script.inRole session.script.roles.start = some start ∧
    a.state.effectOf? 29 = some effect ∧ -1 ∈ effect.writes.offsets ∧
    Stack.WritesTell (session.program {}) start 29 effect.writes ∧
    Stack.WritesRight (session.program {}) start 29 effect.writes := by
  have hcheck : (match Script.load storeBelow with
    | (_, .ok s) =>
      match Session.analyze ⟨s, none⟩ {} with
      | .ok (_, a, _) =>
        let p := Session.program ⟨s, none⟩ {}
        (a.state.effectOf? 29).any (fun e => e.writes.offsets.contains (-1)) &&
          (s.inRole s.roles.start).any fun start =>
            !((p.trail start).any fun x => (x.next? p).isSome && x.fronts 29 Stack.indirect)
      | .error _ => false
    | _ => false) = true := by
    decide +kernel
  split at hcheck
  · rename_i events s hload
    split at hcheck
    · rename_i session' a events' hrun
      simp only [Bool.and_eq_true, Option.any_eq_true, Bool.not_eq_true'] at hcheck
      obtain ⟨⟨effect, heffect, hmem⟩, start, hstart, hnone⟩ := hcheck
      obtain ⟨start', hstart', htells⟩ :=
        Session.analyze_writes_of_own hload rfl hrun 29 effect heffect
      rw [hstart] at hstart'
      cases hstart'
      have hp : (Session.program ⟨s, none⟩ {}).Whole := Script.load_whole hload {}
      have hdirect : ¬ ∃ i stack passed, Stack.Meets (Session.program ⟨s, none⟩ {}) start 29 i stack
          passed ∧ Stack.indirect i stack passed = true := by
        rw [Stack.exists_meets_iff hp (Script.mem_of_inRole hstart), hnone]
        exact Bool.false_ne_true
      refine ⟨events, events', ⟨s, none⟩, session', a, start, effect, hload, rfl, hrun, hstart,
        heffect, by simpa using hmem, htells, htells.right_of_direct
          (fun i stack passed hmeets hop => ?_) fun i stack passed hmeets k hk hlt => ?_⟩
      · exact hdirect ⟨i, stack, passed, hmeets, by simp [Stack.indirect, hop]⟩
      · by_contra hne
        refine hdirect ⟨i, stack, passed, hmeets, ?_⟩
        rw [Stack.indirect, Bool.or_eq_true, List.any_eq_true]
        exact .inr ⟨k, hk, Bool.and_eq_true_iff.mpr ⟨decide_eq_true hlt, bne_iff_ne.mpr hne⟩⟩
    · cases hcheck
  · cases hcheck

/-- The subroutine at 35 calls 43, which stores to a cell that 35 was handed, by 49 CPDOWNSP. The
subroutine at 65 pops the cell that it was handed, and 83 CPDOWNSP copies to the one it has pushed in its
place. -/
def nestedStore : List UInt8 :=
  Script.magic ++ [Script.marker, 0, 0, 0, 99] ++ [0x02, 3] ++ [0x1E, 0, 0, 0, 0, 20] ++
    [0x1E, 0, 0, 0, 0, 44] ++ [0x1B, 0, 0xFF, 0xFF, 0xFF, 0xFC] ++ [0x20, 0] ++
    [0x1E, 0, 0, 0, 0, 8] ++ [0x20, 0] ++ [0x04, 3, 0, 0, 0, 5] ++
    [0x01, 1, 0xFF, 0xFF, 0xFF, 0xF8, 0, 4] ++ [0x1B, 0, 0xFF, 0xFF, 0xFF, 0xFC] ++ [0x20, 0] ++
    [0x1B, 0, 0xFF, 0xFF, 0xFF, 0xFC] ++ [0x04, 3, 0, 0, 0, 1] ++ [0x04, 3, 0, 0, 0, 2] ++
    [0x01, 1, 0xFF, 0xFF, 0xFF, 0xF8, 0, 4] ++ [0x1B, 0, 0xFF, 0xFF, 0xFF, 0xFC] ++ [0x20, 0]

/-- A copy to the place `j` below, into a cell that was handed over. -/
def Stack.copiesHanded (j : Nat) (i : LinkedInstruction) (stack passed : Stack.Cells) : Bool :=
  (i.targets stack.length).any fun k => k + j == passed.length && stack[k]? == passed[k]?

/-- A call of the subroutine with the address, whose place `j` below is the same place below for the
caller, with the cell that was handed over. -/
def Stack.callsHanded (p : Stack.Program) (address : Int) (j : Nat) (i : LinkedInstruction)
    (stack passed : Stack.Cells) : Bool :=
  i.opcode == .jsr && (p.callee? i).any (fun callee => callee.address == address) &&
    stack.length == passed.length && decide (j ≤ stack.length) &&
    stack[stack.length - j]? == passed[stack.length - j]?

theorem Stack.stores_of_copiesHanded {p : Stack.Program} {start : Subroutine} {n : Int} {j : Nat}
    (h : ∃ i stack passed, Stack.Meets p start n i stack passed ∧
      Stack.copiesHanded j i stack passed = true) : Stack.Stores p start n j := by
  obtain ⟨i, stack, passed, hmeets, htest⟩ := h
  obtain ⟨k, hk, hkj⟩ := List.any_eq_true.mp htest
  rw [Bool.and_eq_true, beq_iff_eq, beq_iff_eq] at hkj
  exact .copy hmeets hk hkj.1 hkj.2

theorem Stack.stores_of_callsHanded {p : Stack.Program} {start : Subroutine} {n m : Int} {j : Nat}
    (hcallee : Stack.Stores p start m j)
    (h : ∃ i stack passed, Stack.Meets p start n i stack passed ∧
      Stack.callsHanded p m j i stack passed = true) : Stack.Stores p start n j := by
  obtain ⟨i, stack, passed, hmeets, htest⟩ := h
  simp only [Stack.callsHanded, Bool.and_eq_true, beq_iff_eq, Option.any_eq_true,
    decide_eq_true_eq] at htest
  obtain ⟨⟨⟨⟨hop, callee, hc, rfl⟩, hlen⟩, hle⟩, hsame⟩ := htest
  exact .call hmeets hop hc hcallee (by omega) (by omega) hsame

/-- Of the subroutine at 35 no write is recorded, though it stores to the cell by its callee; of the
one at 65 a write is recorded, though it never stores to the cell of its caller. -/
theorem nestedStore_writes_wrong : ∃ (events events' : List Event) (session session' : Session)
    (a : Stack.Analysis) (start : Subroutine) (outer popped : Stack.Effect),
    Script.load nestedStore = (events, .ok session.script) ∧ session.analysis = none ∧
    session.analyze {} = .ok (session', a, events') ∧ a.success = true ∧
    session.script.inRole session.script.roles.start = some start ∧
    a.state.effectOf? 35 = some outer ∧ -1 ∉ outer.writes.offsets ∧
    Stack.Stores (session.program {}) start 35 1 ∧
    a.state.effectOf? 65 = some popped ∧ -1 ∈ popped.writes.offsets ∧
    ¬ Stack.Stores (session.program {}) start 65 1 := by
  have hcheck : (match Script.load nestedStore with
    | (_, .ok s) =>
      match Session.analyze ⟨s, none⟩ {} with
      | .ok (_, a, _) =>
        let p := Session.program ⟨s, none⟩ {}
        a.success && (a.state.effectOf? 35).any (fun e => !e.writes.offsets.contains (-1)) &&
          (a.state.effectOf? 65).any (fun e => e.writes.offsets.contains (-1)) &&
          (s.inRole s.roles.start).any fun start =>
            let finds := fun address test =>
              (p.trail start).any fun x => (x.next? p).isSome && x.fronts address test
            finds 43 (Stack.copiesHanded 1) && finds 35 (Stack.callsHanded p 43 1) && !finds 65
              (fun i stack passed => i.opcode == .jsr || Stack.copiesHanded 1 i stack passed)
      | .error _ => false
    | _ => false) = true := by
    decide +kernel
  split at hcheck
  · rename_i events s hload
    split at hcheck
    · rename_i session' a events' hrun
      have hp : (Session.program ⟨s, none⟩ {}).Whole := Script.load_whole hload {}
      simp only [Bool.and_eq_true, Option.any_eq_true, Bool.not_eq_true'] at hcheck
      obtain ⟨⟨⟨hok, outer, houter, hmissing⟩, popped, hpopped, hextra⟩, start, hstart, hfound⟩ :=
        hcheck
      simp only [← Bool.not_eq_true, ← Stack.exists_meets_iff hp (Script.mem_of_inRole hstart)]
        at hfound
      obtain ⟨⟨hcopy, hcall⟩, hnone⟩ := hfound
      refine ⟨events, events', ⟨s, none⟩, session', a, start, outer, popped, hload, rfl, hrun, hok,
        hstart, houter, by simpa using hmissing,
        Stack.stores_of_callsHanded (Stack.stores_of_copiesHanded hcopy) hcall, hpopped,
        by simpa using hextra, fun hstores => hnone ?_⟩
      rcases Stack.stores_iff.mp hstores with hpass | hkept
      · obtain ⟨i, stack, passed, _, _, _, hmeets, hop, -⟩ := hpass
        exact ⟨i, stack, passed, hmeets, by simp [hop]⟩
      · obtain ⟨i, stack, passed, k, hmeets, hk, hkj, hsame⟩ := hkept
        refine ⟨i, stack, passed, hmeets, ?_⟩
        rw [Bool.or_eq_true, Stack.copiesHanded, List.any_eq_true]
        exact .inr ⟨k, hk, by simp [hkj, hsame]⟩
    · cases hcheck
  · cases hcheck

end ScriptFlow
