import ScriptFlow.Proofs.Script.Analyzed
import ScriptFlow.Proofs.Stack.Points

/-! # Loaded scripts are whole

Every lookup that a stack analysis makes succeeds on a loaded script: calls and stored continuations
lead to entry points, which own the block they start, and a call has an instruction behind it. -/

namespace ScriptFlow

theorem Graph.SameCode.holder? {g h : Graph} (hc : Graph.SameCode g h) {a : Int} {b : BlockId}
    (hb : g.holder? a = some b) : h.holder? a = some b := by
  obtain ⟨hlt, hany, hfirst⟩ := Array.findIdx?_eq_some_iff_getElem.mp hb
  rw [Graph.getElem_blocks hlt, List.any_eq_true] at hany
  obtain ⟨i, hi, ha⟩ := hany
  have hlt' : b < h.size := hc.size ▸ hlt
  refine Graph.holder?_eq_some hlt' (by rwa [hc.instructions]) (by simpa using ha) ?_
  intro c hcb j hj hja
  rw [hc.instructions] at hj
  have hnone := hfirst c hcb
  rw [Graph.getElem_blocks (Nat.lt_trans hcb hlt)] at hnone
  exact hnone (List.any_eq_true.mpr ⟨j, hj, by simp [hja]⟩)

/-- Only stored continuations have edges of their kind. -/
theorem Flow.Dictates.of_state {code : List LinkedInstruction} {owner : Option Int}
    {i : LinkedInstruction} {es : List (Int × EdgeKind)} {a : Int} (h : Dictates code owner i es)
    (ha : (a, .state) ∈ es) : i.opcode = .storestate ∧ i.target = some a := by
  unfold Dictates at h
  split at h
  · obtain ⟨t, -, rfl⟩ := h
    simp at ha
  · obtain ⟨t, f, -, -, rfl⟩ := h
    simp at ha
  · obtain ⟨t, f, -, -, rfl⟩ := h
    simp at ha
  · obtain ⟨t, -, rfl⟩ := h
    simp at ha
  · rename_i hop
    obtain ⟨t, f, ht, -, rfl⟩ := h
    have hat : a = t := by simpa using ha
    exact ⟨hop, by rw [ht, hat]⟩
  · have hm := h.mem_iff.mp ha
    obtain ⟨j, -, hj⟩ := List.mem_filterMap.mp hm
    split at hj
    · obtain ⟨x, -, hx⟩ := Option.map_eq_some_iff.mp hj
      cases hx
    · cases hj
  · rw [h] at ha
    obtain ⟨x, -, hx⟩ := List.mem_map.mp ha
    cases hx

namespace Script

variable {s : Script} {l : Flow.Layout} {d : Flow.Discovery} {b : BlockId} {a : Int}

namespace Laid

theorem sameFrame (h : s.Laid l d) : Graph.SameFrame (Flow.assemble l.code d) s.graph := by
  obtain ⟨listed, root, hgraph⟩ := h.marked
  rw [hgraph]
  exact Graph.markDead_sameFrame _ listed root

theorem mem_code (h : s.Laid l d) {i : LinkedInstruction} (hi : i ∈ (s.graph.block b).instructions) :
    i ∈ l.code := by
  rw [h.sameFrame.instructions] at hi
  by_cases hb : b < (Flow.assemble l.code d).size
  · obtain ⟨st, hst⟩ := Flow.exists_start hb
    rw [Flow.assemble_instructions hst] at hi
    obtain ⟨q, -, -, hq⟩ := Flow.mem_cut.mp hi
    exact List.mem_of_getElem? hq
  · have hempty : ((Flow.assemble l.code d).block b).instructions = [] := by
      simp only [Graph.size] at hb
      simp [Graph.block, Array.getD, hb]
    rw [hempty] at hi
    cases hi

/-- The block of an entry point, which it owns. -/
theorem root (h : s.Laid l d) (ha : a ∈ l.roots) : ∃ b < s.graph.size,
    s.graph.holder? a = some b ∧ s.graph.addressOf b = a ∧ (s.graph.block b).owner = some a := by
  obtain ⟨i, hi, rfl⟩ := h.sound.roots_known ha
  obtain ⟨q, hq⟩ := List.getElem?_of_mem hi
  obtain ⟨hlt, haddress, howner⟩ := h.complete.owner_root h.owned hq ha
  have hframe := h.sameFrame
  refine ⟨_, hframe.size ▸ hlt, hframe.holder? (h.complete.holder?_eq h.sound hq), ?_, ?_⟩
  · rw [Graph.addressOf, hframe.address]
    exact haddress
  · rw [hframe.owner]
    exact howner

theorem distinct (h : s.Laid l d) {c : BlockId} (hb : b < s.graph.size) (hc : c < s.graph.size)
    (hbc : s.graph.addressOf b = s.graph.addressOf c) : b = c := by
  have hframe := h.sameFrame
  refine (h.complete.leaderPartition h.sound).distinct b (hframe.size ▸ hb) c (hframe.size ▸ hc) ?_
  simpa only [Graph.addressOf, hframe.address] using hbc

theorem ownerOf? (h : s.Laid l d) (table : Engine.Table) (ha : a ∈ l.roots)
    (hb : (s.graph.block b).owner = some a) :
    ∃ sub, Stack.Program.ownerOf? ⟨s.graph, s.subroutines, table⟩ b = some sub := by
  obtain ⟨sub, hsub, haddress⟩ := h.rooted a ha
  refine Option.isSome_iff_exists.mp ?_
  show (((s.graph.block b).owner).bind _).isSome = true
  rw [hb]
  exact List.find?_isSome.mpr ⟨sub, hsub, by simp [haddress]⟩

/-- The last instruction of a block, and the edges it asks for. -/
theorem dictates (h : s.Laid l d) {last : LinkedInstruction}
    (hlast : (s.graph.block b).last? = some last) :
    last ∈ l.code ∧ ∀ e ∈ s.graph.edges b, e.kind ≠ .dead → ∃ owner es,
      Flow.Dictates l.code owner last es ∧ (s.graph.addressOf e.child, e.kind) ∈ es := by
  refine ⟨h.mem_code (List.mem_of_getLast? hlast), fun e he hlive => ?_⟩
  have hframe := h.sameFrame
  obtain ⟨listed, root, hgraph⟩ := h.marked
  have hedges := Graph.markDead_edges (Flow.assemble l.code d) listed root b
  rw [← hgraph] at hedges
  obtain ⟨e₀, he₀, hchild, hkind⟩ := hedges e he
  obtain rfl := hkind.resolve_left hlive
  obtain ⟨st, hst⟩ := Flow.exists_start (Graph.lt_size_of_mem_edges he₀)
  obtain ⟨i, hi, hdict⟩ := h.complete.dictates h.sound hst
  have hlast' : ((Flow.assemble l.code d).block b).last? = some last := by
    rw [← hlast, Block.last?, Block.last?, hframe.instructions]
  rw [hi] at hlast'
  cases hlast'
  refine ⟨_, _, hdict, ?_⟩
  rw [Graph.addressOf, hframe.address]
  exact List.mem_map_of_mem he₀

theorem last_of_edge (h : s.Laid l d) {e : Edge} (he : e ∈ s.graph.edges b) :
    ∃ last, (s.graph.block b).last? = some last := by
  have hb : b < (Flow.assemble l.code d).size := by
    rw [← h.sameFrame.size]
    exact Graph.lt_size_of_mem_edges he
  have hnonempty := (h.complete.leaderPartition h.sound).nonempty b hb
  rw [← h.sameFrame.instructions] at hnonempty
  exact ⟨_, List.getLast?_eq_some_getLast hnonempty⟩

end Laid

/-- What a block of a loaded script holds is code of the script. -/
theorem load_mem_code {image : List UInt8} {events : List Event} (h : load image = (events, .ok s))
    {i : LinkedInstruction} (hi : i ∈ (s.graph.block b).instructions) : i ∈ s.code := by
  rcases load_laid h with ⟨hsize, -, -⟩ | ⟨l, d, hlaid⟩
  · have hempty : s.graph.blocks.size = 0 := hsize
    simp [Graph.block, Array.getD, hempty] at hi
  · rw [hlaid.code]
    exact hlaid.mem_code hi

theorem load_whole {image : List UInt8} {events : List Event} (h : load image = (events, .ok s))
    (table : Engine.Table) : Stack.Program.Whole ⟨s.graph, s.subroutines, table⟩ := by
  have hwf := load_wellFormed h table
  rcases load_laid h with ⟨hsize, hsubs, -⟩ | ⟨l, d, hlaid⟩
  · have hblock : ∀ b, s.graph.block b = { address := 0 } := by
      intro b
      have hempty : s.graph.blocks.size = 0 := hsize
      simp [Graph.block, Array.getD, hempty]
    refine ⟨hwf, ?_, ?_, ?_, ?_, ?_, ?_, ?_⟩ <;>
      simp [hblock, hsize, hsubs, Graph.edges, Block.last?]
  · have hframe := hlaid.sameFrame
    refine ⟨hwf, fun b hb => ?_, fun b i hi => hlaid.decoded i (hlaid.mem_code hi),
      fun sub hsub => ?_, fun b i hi hop => ?_, fun b last hlast hop => ?_, fun b e he hstate => ?_,
      fun b last hlast hjsr e he hcall => ?_⟩
    · show (s.graph.block b).instructions ≠ []
      rw [hframe.instructions]
      exact (hlaid.complete.leaderPartition hlaid.sound).nonempty b (hframe.size ▸ hb)
    · obtain ⟨b, hb, -, haddress, -⟩ := hlaid.root (hlaid.addresses sub hsub)
      rw [hframe.size] at hb
      rw [Graph.addressOf, hframe.address] at haddress
      rw [hlaid.entries sub hsub]
      refine Option.isSome_iff_exists.mp (List.find?_isSome.mpr ⟨b, List.mem_range.mpr hb, ?_⟩)
      simpa [Graph.addressOf] using haddress
    · -- the target of a call is an entry point
      have hcode := hlaid.mem_code hi
      obtain ⟨j, -, ht⟩ := hlaid.sound.linked.target hcode (by simp [hop, Opcode.branches])
      have hroot := hlaid.sound.calls_known hcode hop ht
      obtain ⟨c, -, hholder, -, howner⟩ := hlaid.root hroot
      obtain ⟨sub, hsub⟩ := hlaid.ownerOf? table hroot howner
      refine ⟨sub, Option.bind_eq_some_iff.mpr ⟨c, ?_, hsub⟩⟩
      exact Option.bind_eq_some_iff.mpr ⟨_, ht, hholder⟩
    · obtain ⟨q, hq⟩ := List.getElem?_of_mem (hlaid.dictates hlast).1
      obtain ⟨j, hj⟩ := hlaid.sound.linked.followed hq (by rw [hop]; rfl)
      refine ⟨Flow.blockOf d.starts (q + 1), Option.bind_eq_some_iff.mpr ⟨j.address, ?_, ?_⟩⟩
      · rw [hlaid.sound.linked.follower hq, hop, hj]
        rfl
      · exact hframe.holder? (hlaid.complete.holder?_eq hlaid.sound hj)
    · obtain ⟨last, hlast⟩ := hlaid.last_of_edge he
      obtain ⟨hmem, hdictates⟩ := hlaid.dictates hlast
      obtain ⟨owner, es, hdict, hes⟩ := hdictates e he (by simp [hstate])
      rw [hstate] at hes
      obtain ⟨hop, ht⟩ := hdict.of_state hes
      have hroot := hlaid.continuations last hmem hop _ ht
      obtain ⟨c, hc, -, haddress, howner⟩ := hlaid.root hroot
      rw [hlaid.distinct hc (hwf.child_lt b e he) haddress] at howner
      exact hlaid.ownerOf? table hroot howner
    · obtain ⟨hmem, hdictates⟩ := hlaid.dictates hlast
      obtain ⟨owner, es, hdict, hes⟩ := hdictates e he (by simp [hcall])
      rw [hcall] at hes
      exact hjsr (hdict.of_call hes).1

end Script

end ScriptFlow
