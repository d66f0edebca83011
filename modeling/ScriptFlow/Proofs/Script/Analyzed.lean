import ScriptFlow.Proofs.Script.Laid
import ScriptFlow.Proofs.Stack.Consistency
import ScriptFlow.Script.Session

/-! # The depths of a loaded script

The graph of a loaded script is what the stack analysis takes it for: edges lead to blocks, blocks that
call or return have no other way out, and the entry of a subroutine is told by its address. -/

namespace ScriptFlow

/-! ## Loaded scripts -/

/-- Blocks that call or return lead to other subroutines only. -/
theorem Flow.Dictates.crosses {code : List LinkedInstruction} {owner : Option Int}
    {i : LinkedInstruction} {es : List (Int × EdgeKind)} (h : Dictates code owner i es)
    (hop : i.opcode = .retn ∨ i.opcode = .jsr) {a : Int} {k : EdgeKind} (hk : (a, k) ∈ es) :
    k.crosses = true := by
  unfold Dictates at h
  rcases hop with hop | hop
  · simp only [hop] at h
    rw [h.mem_iff, returnsTo, List.mem_filterMap] at hk
    obtain ⟨j, -, hj⟩ := hk
    split at hj
    · obtain ⟨f, -, hf⟩ := Option.map_eq_some_iff.mp hj
      cases hf
      rfl
    · cases hj
  · simp only [hop] at h
    obtain ⟨t, -, rfl⟩ := h
    cases List.mem_singleton.mp hk
    rfl

/-- What the stack analysis relies on holds of every loaded script. -/
theorem Script.load_wellFormed {image : List UInt8} {events : List Event} {s : Script}
    (h : Script.load image = (events, .ok s)) (table : Engine.Table) :
    Stack.Program.WellFormed ⟨s.graph, s.subroutines, table⟩ := by
  rcases load_laid h with ⟨hsize, hsubs, -⟩ | ⟨l, d, hlaid⟩
  · have hempty : ∀ b, s.graph.edges b = [] := fun b => List.eq_nil_iff_forall_not_mem.mpr
      fun e he => absurd (Graph.lt_size_of_mem_edges he) (by simp [hsize])
    refine ⟨?_, ?_, ?_, ?_⟩ <;> simp [hempty, hsubs]
  · have hs := hlaid.sound
    have hc := hlaid.complete
    have hentries := hlaid.entries
    obtain ⟨listed, root, hgraph⟩ := hlaid.marked
    have hframe := Graph.markDead_sameFrame (Flow.assemble l.code d) listed root
    have hedges := Graph.markDead_edges (Flow.assemble l.code d) listed root
    rw [← hgraph] at hframe hedges
    refine ⟨fun b e he => ?_, fun sub hsub b hb => ?_, fun sub hsub sub' hsub' ha => ?_,
      fun b last hlast hop e he hlive => ?_⟩
    · obtain ⟨e₀, he₀, hchild, -⟩ := hedges b e he
      show e.child < s.graph.size
      rw [hchild, hframe.size]
      exact hc.child_lt hs (Graph.lt_size_of_mem_edges he₀) he₀
    · show b < s.graph.size
      rw [hentries sub hsub] at hb
      rw [hframe.size]
      exact List.mem_range.mp (List.mem_of_find?_eq_some hb)
    · rw [hentries sub hsub, hentries sub' hsub', ha]
    · obtain ⟨e₀, he₀, -, hkind⟩ := hedges b e he
      obtain ⟨st, hst⟩ := Flow.exists_start (Graph.lt_size_of_mem_edges he₀)
      obtain ⟨i, hi, hdict⟩ := hc.dictates hs hst
      have hlast' : ((Flow.assemble l.code d).block b).last? = some last := by
        rw [← hlast, Block.last?, Block.last?, hframe.instructions]
      rw [hi] at hlast'
      cases hlast'
      rw [hkind.resolve_left hlive]
      exact hdict.crosses hop (List.mem_map_of_mem he₀)

/-! ## Depths -/

/-- Once the stack of a loaded script was analyzed with success, the start was entered with an empty
stack, and on every path through a subroutine whose effect is known the depths recorded are those its
instructions leave behind. -/
theorem Session.analyze_depths_agree {image : List UInt8} {events events' : List Event}
    {session session' : Session} {table : Engine.Table} {a : Stack.Analysis}
    (hload : Script.load image = (events, .ok session.script)) (hfresh : session.analysis = none)
    (hrun : session.analyze table = .ok (session', a, events')) (hok : a.success = true) :
    (∃ start entry, session.script.inRole session.script.roles.start = some start ∧
      start.entry = some entry ∧ a.depthAt entry = some 0) ∧
    ∀ sub ∈ session.script.subroutines, (a.state.effectOf? sub.address).isSome →
      ∃ entry, sub.entry = some entry ∧ ∀ rest,
        (entry :: rest).IsChain (Stack.Onward (session.program table) a.state) →
          Stack.Agrees (session.program table) a entry rest := by
  have hwf : (session.program table).WellFormed := Script.load_wellFormed hload table
  simp only [Session.analyze, hfresh, bind, Except.bind] at hrun
  split at hrun
  · cases hrun
  · rename_i r hanalyze
    cases hrun
    obtain ⟨hend, start, entry, hstart, hentry, hdepth⟩ := Stack.analyze_consistent hwf
      (fun sub hsub => Script.mem_of_inRole hsub) hanalyze hok
    refine ⟨⟨start, entry, hstart, hentry, hdepth⟩, fun sub hsub heffect => ?_⟩
    obtain ⟨effect, heffect⟩ := Option.isSome_iff_exists.mp heffect
    obtain ⟨sub', ha, hsub', entry, d, hentry, hd⟩ := hend.effects _ _ heffect
    rw [hwf.entry_unique sub' hsub' sub hsub ha] at hentry
    exact ⟨entry, hentry, fun rest hchain => hend.agrees hd hchain⟩

/-- A loop around a call: the constant 13 CONSTI is tested by 27 JZ, and 33 JSR changes it. -/
def loopedCall : List UInt8 :=
  Script.magic ++ [Script.marker, 0, 0, 0, 61] ++ [0x04, 3, 0, 0, 0, 0] ++
    [0x03, 1, 0xFF, 0xFF, 0xFF, 0xFC, 0, 4] ++ [0x1F, 0, 0, 0, 0, 18] ++
    [0x1E, 0, 0, 0, 0, 20] ++ [0x1D, 0, 0xFF, 0xFF, 0xFF, 0xEC] ++
    [0x1B, 0, 0xFF, 0xFF, 0xFF, 0xFC] ++ [0x20, 0] ++ [0x24, 3, 0xFF, 0xFF, 0xFF, 0xFC] ++ [0x20, 0]

/-- Once around the loop, over the call, and out of it. -/
theorem loopedCall_depths_agree : ∃ (events events' : List Event) (session session' : Session)
    (a : Stack.Analysis),
    Script.load loopedCall = (events, .ok session.script) ∧ session.analysis = none ∧
    session.analyze {} = .ok (session', a, events') ∧ a.success = true ∧
    [0, 5, 2, 4, 5, 1].IsChain (Stack.Onward (session.program {}) a.state) ∧
    Stack.Agrees (session.program {}) a 0 [5, 2, 4, 5, 1] := by
  have hcheck : (match Script.load loopedCall with
    | (_, .ok s) =>
      match Session.analyze ⟨s, none⟩ {} with
      | .ok (_, a, _) => a.success &&
        decide ([0, 5, 2, 4, 5, 1].IsChain (Stack.Onward (Session.program ⟨s, none⟩ {}) a.state)) &&
        s.subroutines.any fun sub =>
          sub.entry == some 0 && (a.state.effectOf? sub.address).isSome
      | .error _ => false
    | _ => false) = true := by
    decide +kernel
  split at hcheck
  · rename_i events s hload
    split at hcheck
    · rename_i session' a events' hrun
      simp only [Bool.and_eq_true, decide_eq_true_eq, List.any_eq_true, beq_iff_eq] at hcheck
      obtain ⟨⟨hok, hchain⟩, sub, hsub, hentry, heffect⟩ := hcheck
      obtain ⟨entry, hentry', hagrees⟩ :=
        (Session.analyze_depths_agree hload rfl hrun hok).2 sub hsub heffect
      rw [hentry] at hentry'
      cases hentry'
      exact ⟨events, events', ⟨s, none⟩, session', a, hload, rfl, hrun, hok, hchain,
        hagrees _ hchain⟩
    · cases hcheck
  · cases hcheck

end ScriptFlow
