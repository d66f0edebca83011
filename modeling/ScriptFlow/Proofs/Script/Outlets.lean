import ScriptFlow.Proofs.Flow.Confluence
import ScriptFlow.Proofs.Graph.Search
import ScriptFlow.Proofs.Graph.Settling
import ScriptFlow.Proofs.Script.Whole
import Mathlib.Logic.Relation

/-! # Marking strands no block that is reached

A block that live edges lead to from the root has a live edge into it, or is the root; either way it
never loses all its edges at once. What it loses is the weak arm of its branch, and there is only one
of those. So a block that is reached goes on somewhere if it ever did. -/

namespace ScriptFlow

namespace Graph

/-- How a block is left: by a live edge if it has any edges, with a dead one only as one of the two
arms of a branch, and a branch either way by two arms or by one. -/
structure Outlets (g : Graph) (b : BlockId) : Prop where
  onward : g.edges b ≠ [] → ∃ e ∈ g.edges b, e.kind ≠ .dead
  lost : ∀ e ∈ g.edges b, e.kind = .dead → ∃ last, (g.block b).last? = some last ∧
    last.opcode.isConditional = true ∧
    ((g.block b).kinds = [.dead, .whenFalse] ∨ (g.block b).kinds = [.whenTrue, .dead])
  arms : ∀ last, (g.block b).last? = some last → last.opcode.isConditional = true →
    (g.block b).isOneWay = !(g.block b).isTwoWay

end Graph

/-! ## Blocks that are reached -/

namespace Flow

section
variable {b : Block} {j k : EdgeKind}

theorem WeakArm.unique (hj : WeakArm b j) (hk : WeakArm b k) : j = k := by
  rcases hj with hj | ⟨hpeek, rfl⟩
  · exact hk.eq_of_constantArm? hj
  · obtain ⟨op, hop⟩ := Option.isSome_iff_exists.mp hpeek
    exact (hk.eq_of_peekJump? hop).symm

theorem last?_of_lastTwo? {x y : LinkedInstruction} (h : b.lastTwo? = some (x, y)) :
    b.last? = some y := by
  obtain ⟨front, hfront⟩ := lastTwo?_spec h
  simp [Block.last?, hfront]

/-- Only branches have a weak arm. -/
theorem WeakArm.last (h : WeakArm b k) :
    ∃ last, b.last? = some last ∧ last.opcode.isConditional = true := by
  rcases h with h | ⟨h, -⟩
  · unfold Block.constantArm? at h
    split at h
    · rename_i i jump htwo
      split at h
      · rename_i hcond
        exact ⟨jump, last?_of_lastTwo? htwo, hcond.1⟩
      · cases h
    · cases h
  · unfold Block.peekJump? at h
    split at h
    · rename_i i jump htwo
      split at h
      · rename_i hcond
        exact ⟨jump, last?_of_lastTwo? htwo, hcond.2.2⟩
      · cases h
    · cases h

end

namespace Pruned

variable {g h : Graph} {root : Option BlockId} {b : BlockId} {n : Nat} {e : Edge}

theorem not_doomed_of_live (hh : Pruned g root h) (he : (h.edges b)[n]? = some e)
    (hlive : e.kind ≠ .dead) : ¬ Doomed g root b n ∧ (g.edges b)[n]? = some e := by
  by_cases hd : Doomed g root b n
  · rw [hh.dead hd] at he
    obtain ⟨f, -, rfl⟩ := Option.map_eq_some_iff.mp he
    exact absurd rfl hlive
  · exact ⟨hd, by rwa [← hh.spared hd]⟩

theorem doomed_of_dead (hg : Fresh g) (hh : Pruned g root h) (he : (h.edges b)[n]? = some e)
    (hdead : e.kind = .dead) : Doomed g root b n := by
  by_contra hnot
  rw [hh.spared hnot] at he
  exact hg.live b e (List.mem_of_getElem? he) hdead

/-- A block that is reached was never absorbed: it is the root, or an edge into it is not doomed. So
what it loses is a weak arm. -/
theorem weakArm_of_doomed (hh : Pruned g root h) (hreach : h.Reaches root b)
    (hd : Doomed g root b n) : ∃ e, (g.edges b)[n]? = some e ∧ WeakArm (g.block b) e.kind := by
  cases hd with
  | constant he harm => exact ⟨_, he, .inl harm⟩
  | repeated _ he hkind _ hpeek => exact ⟨_, he, .inr ⟨by rw [hpeek]; rfl, hkind⟩⟩
  | absorbed hroot _ _ hinto =>
    exfalso
    obtain ⟨r, hr, hpath⟩ := hreach
    rcases Relation.ReflTransGen.cases_tail hpath with rfl | ⟨p, -, e', he', hlive, hchild⟩
    · exact hroot hr
    · obtain ⟨m, hm⟩ := List.getElem?_of_mem he'
      obtain ⟨hnot, hkept⟩ := hh.not_doomed_of_live hm hlive
      exact hnot (hinto p m e' hkept hchild)

open Classical in
theorem kinds_eq (hh : Pruned g root h) (b : BlockId) : (h.block b).kinds =
    (g.edges b).mapIdx fun n e => if Doomed g root b n then .dead else e.kind := by
  refine List.ext_getElem? fun n => ?_
  have hkind : (h.block b).kinds[n]? = (h.edges b)[n]?.map Edge.kind := List.getElem?_map
  rw [hkind, List.getElem?_mapIdx]
  by_cases hd : Doomed g root b n
  · rw [hh.dead hd, Option.map_map]
    simp only [if_pos hd]
    rfl
  · rw [hh.spared hd]
    simp only [if_neg hd]

/-- The arms of a branch that is reached: both are live, or one of them. -/
theorem branch_kinds (hh : Pruned g root h) (hreach : h.Reaches root b) {t f : Edge}
    (hedges : g.edges b = [t, f]) (ht : t.kind = .whenTrue) (hf : f.kind = .whenFalse) :
    (h.block b).kinds = [.whenTrue, .whenFalse] ∨ (h.block b).kinds = [.dead, .whenFalse] ∨
      (h.block b).kinds = [.whenTrue, .dead] := by
  have hboth : ¬ (Doomed g root b 0 ∧ Doomed g root b 1) := by
    rintro ⟨h0, h1⟩
    -- both arms would be the weak one
    obtain ⟨t', ht', hweak⟩ := hh.weakArm_of_doomed hreach h0
    obtain ⟨f', hf', hweak'⟩ := hh.weakArm_of_doomed hreach h1
    rw [hedges] at ht' hf'
    cases ht'
    cases hf'
    have hsame := hweak.unique hweak'
    rw [ht, hf] at hsame
    cases hsame
  rw [hh.kinds_eq, hedges]
  by_cases h0 : Doomed g root b 0 <;> by_cases h1 : Doomed g root b 1
  · exact absurd ⟨h0, h1⟩ hboth
  · exact .inr (.inl (by simp [h0, h1, hf]))
  · exact .inr (.inr (by simp [h0, h1, ht]))
  · exact .inl (by simp [h0, h1, ht, hf])

/-- In a block that is reached and ends in no branch, every edge is live. -/
theorem live_of_reaches (hg : Fresh g) (hh : Pruned g root h) (hreach : h.Reaches root b)
    (hplain : ∀ last, (h.block b).last? = some last → last.opcode.isConditional = false) :
    ∀ e ∈ h.edges b, e.kind ≠ .dead := by
  intro e he hdead
  obtain ⟨n, hn⟩ := List.getElem?_of_mem he
  obtain ⟨_, -, hweak⟩ := hh.weakArm_of_doomed hreach (hh.doomed_of_dead hg hn hdead)
  obtain ⟨last, hlast, hcond⟩ := (hweak.congr (hh.instructions b)).last
  rw [hplain last hlast] at hcond
  cases hcond

/-- A block that is reached is left as it should be, given that branches were built with two arms. -/
theorem outlets (hg : Fresh g) (hh : Pruned g root h) (hreach : h.Reaches root b)
    (hbranch : ∀ last, (g.block b).last? = some last → last.opcode.isConditional = true →
      ∃ t f, g.edges b = [t, f] ∧ t.kind = .whenTrue ∧ f.kind = .whenFalse) : h.Outlets b := by
  by_cases hends : ∃ last, (h.block b).last? = some last ∧ last.opcode.isConditional = true
  · obtain ⟨last, hlast, hcond⟩ := hends
    have hlast' : (g.block b).last? = some last := by
      rw [← hlast, Block.last?, Block.last?, hh.instructions]
    obtain ⟨t, f, hedges, ht, hf⟩ := hbranch last hlast' hcond
    have hkinds := hh.branch_kinds hreach hedges ht hf
    refine ⟨fun _ => ?_, fun e he hdead => ⟨last, hlast, hcond, hkinds.resolve_left ?_⟩,
      fun _ _ _ => ?_⟩
    · have hlive : ∃ k ∈ (h.block b).kinds, k ≠ .dead := by
        rcases hkinds with hk | hk | hk <;> rw [hk] <;> decide
      obtain ⟨k, hk, hne⟩ := hlive
      obtain ⟨e, he, rfl⟩ := List.mem_map.mp hk
      exact ⟨e, he, hne⟩
    · intro hk
      have hmem : EdgeKind.dead ∈ (h.block b).kinds := List.mem_map.mpr ⟨e, he, hdead⟩
      rw [hk] at hmem
      exact absurd hmem (by decide)
    · rcases hkinds with hk | hk | hk <;> rw [Block.isOneWay, Block.isTwoWay, hk] <;> rfl
  · have hplain : ∀ last, (h.block b).last? = some last → last.opcode.isConditional = false :=
      fun last hlast => Bool.eq_false_iff.mpr fun hcond => hends ⟨last, hlast, hcond⟩
    have hlive := hh.live_of_reaches hg hreach hplain
    refine ⟨fun hne => ?_, fun e he hdead => absurd hdead (hlive e he),
      fun last hlast hcond => absurd ⟨last, hlast, hcond⟩ hends⟩
    obtain ⟨e, he⟩ := List.exists_mem_of_ne_nil _ hne
    exact ⟨e, he, hlive e he⟩

end Pruned

/-- Branches of a built graph have two arms, the one taken first. -/
theorem Complete.branch_edges {l : Layout} {d : Discovery} (hc : Complete l d) (hs : l.Sound)
    {b : BlockId} {last : LinkedInstruction}
    (hlast : ((assemble l.code d).block b).last? = some last)
    (hcond : last.opcode.isConditional = true) :
    ∃ t f, (assemble l.code d).edges b = [t, f] ∧ t.kind = .whenTrue ∧ f.kind = .whenFalse := by
  have hb : b < (assemble l.code d).size := by
    by_contra hb
    have hb' : ¬ b < (assemble l.code d).blocks.size := hb
    simp [Block.last?, Graph.block, Array.getD, hb'] at hlast
  obtain ⟨st, hst⟩ := exists_start hb
  obtain ⟨i, hi, hdict⟩ := hc.dictates hs hst
  rw [hlast] at hi
  cases hi
  obtain ⟨t, f, hes⟩ : ∃ t f,
      (assemble l.code d).leadsTo b = [(t, .whenTrue), (f, .whenFalse)] := by
    unfold Dictates at hdict
    cases hop : last.opcode <;> simp only [hop, Opcode.isConditional, Bool.false_eq_true] at hcond
    all_goals
      simp only [hop] at hdict
      obtain ⟨t, f, -, -, hes⟩ := hdict
      exact ⟨t, f, hes⟩
  obtain ⟨et, rest, hedges, het, hrest⟩ := List.map_eq_cons_iff.mp hes
  obtain ⟨ef, rest, rfl, hef, hnil⟩ := List.map_eq_cons_iff.mp hrest
  rw [List.map_eq_nil_iff] at hnil
  subst hnil
  exact ⟨et, ef, hedges, congrArg Prod.snd het, congrArg Prod.snd hef⟩

end Flow

/-! ## Loaded scripts -/

namespace Script

section
variable {image : List UInt8} {events : List Event} {s : Script}

/-- The graph of a loaded script is a built one, marked once from the block execution starts in. -/
theorem load_marked (h : load image = (events, .ok s)) :
    (s.graph.size = 0 ∧ s.root? = none) ∨ ∃ l d, l.Sound ∧ Flow.Complete l d ∧
      s.root? = rootBlock? l.code (Flow.assemble l.code d) ∧
      s.graph = ((Flow.assemble l.code d).markDead (Flow.assemble l.code d).ids
        (rootBlock? l.code (Flow.assemble l.code d))).graph := by
  obtain ⟨size, code, events', -, hcode, hof⟩ := ofCode_of_load h
  have hl := linkedCode_linked hcode
  cases code with
  | nil =>
    cases hof
    exact .inl ⟨rfl, rfl⟩
  | cons i rest =>
    have hs := sound_rootsOf hl
    obtain ⟨d, hd, hc⟩ := Flow.discover_complete hs
    simp only [ofCode, Flow.build, hd, bind, Except.bind] at hof
    cases hof
    -- marking keeps the code, and with it the block that holds the first instruction
    have hroot := hc.holder?_eq hs (p := 0) rfl
    have hframe := Graph.markDead_sameFrame (Flow.assemble (i :: rest) d)
      (Flow.assemble (i :: rest) d).ids (rootBlock? (i :: rest) (Flow.assemble (i :: rest) d))
    exact .inr ⟨_, d, hs, hc, (hframe.holder? hroot).trans hroot.symm, rfl⟩

/-- Wherever live edges lead in a loaded script, no block is stranded: one with edges has a live one,
a dead one is one of the two arms of a branch, and a branch goes either both ways or one. Marking the
graph again, whatever the blocks looked at, changes nothing about it. -/
theorem load_strands_none (h : load image = (events, .ok s)) (listed : List BlockId) :
    s.graph.markDead listed s.root? = ⟨s.graph, 0, []⟩ ∧
      ∀ b, s.graph.Reaches s.root? b → s.graph.Outlets b := by
  rcases load_marked h with ⟨hsize, hroot⟩ | ⟨l, d, hs, hc, hroot, hgraph⟩
  · refine ⟨Graph.markDead_of_idle fun b _ => Graph.idle_of_size_le (by omega), ?_⟩
    rintro b ⟨r, hr, -⟩
    rw [hroot] at hr
    cases hr
  · rw [← hroot] at hgraph
    have hfresh := hc.fresh hs
    have hpruned : Flow.Pruned (Flow.assemble l.code d) s.root? s.graph := by
      rw [hgraph]
      exact Flow.markDead_pruned hfresh fun b hb => List.mem_range.mpr hb
    have hidle : ∀ b, s.graph.Idle s.root? b := by
      intro b
      by_cases hb : b < s.graph.size
      · have := Graph.markDead_idle (Flow.assemble l.code d) s.root? (Flow.assemble l.code d).ids b
          (List.mem_range.mpr (hpruned.size ▸ hb))
        rwa [← hgraph] at this
      · exact Graph.idle_of_size_le (Nat.not_lt.mp hb)
    refine ⟨Graph.markDead_of_idle fun b _ => hidle b, fun b hreach => ?_⟩
    exact hpruned.outlets hfresh hreach fun last hlast hcond => hc.branch_edges hs hlast hcond

end

/-- A value tested twice: 15 and 23 test it first, 31 and 39 again. The jump at 45 is never come to. -/
def testedAgain : List UInt8 :=
  magic ++ [marker, 0, 0, 0, 53] ++ [0x02, 3] ++ [0x03, 1, 0xFF, 0xFF, 0xFF, 0xFC, 0, 4] ++
    [0x1F, 0, 0, 0, 0, 8] ++ [0x20, 0] ++ [0x03, 1, 0xFF, 0xFF, 0xFF, 0xFC, 0, 4] ++
    [0x1F, 0, 0, 0, 0, 12] ++ [0x1D, 0, 0, 0, 0, 6] ++ [0x20, 0]

/-- The second test is reached and keeps one arm; the block of the jump loses its only edge, which no
block that is reached does. -/
theorem testedAgain_strands_none : ∃ events s, load testedAgain = (events, .ok s) ∧
    s.graph.markDead [4, 3, 2, 1, 0] s.root? = ⟨s.graph, 0, []⟩ ∧
    (∀ b, s.graph.Reaches s.root? b → s.graph.Outlets b) ∧
    s.graph.Reaches s.root? 1 ∧ (s.graph.block 1).kinds = [.whenTrue, .dead] ∧
    (s.graph.block 4).kinds = [.dead] ∧ ¬ s.graph.Reaches s.root? 4 := by
  have hcheck : (match load testedAgain with
    | (_, .ok s) => decide (s.root? = some 0) &&
        decide (s.graph.edges 0 = [⟨1, .whenTrue⟩, ⟨2, .whenFalse⟩]) &&
        decide ((s.graph.block 1).kinds = [.whenTrue, .dead]) &&
        decide ((s.graph.block 4).kinds = [.dead])
    | _ => false) = true := by
    decide +kernel
  split at hcheck
  · rename_i events s hload
    simp only [Bool.and_eq_true, decide_eq_true_eq] at hcheck
    obtain ⟨⟨⟨hroot, hedges⟩, hsecond⟩, hjump⟩ := hcheck
    obtain ⟨hsame, houtlets⟩ := load_strands_none hload [4, 3, 2, 1, 0]
    refine ⟨events, s, hload, hsame, houtlets,
      ⟨0, hroot, .single ⟨⟨1, .whenTrue⟩, ?_, ?_, rfl⟩⟩, hsecond, hjump, fun hreach => ?_⟩
    · exact hedges ▸ List.mem_cons_self
    · decide
    · obtain ⟨e, he, hlive⟩ := (houtlets 4 hreach).onward fun hnil => by
        rw [Block.kinds, show (s.graph.block 4).edges = [] from hnil] at hjump
        cases hjump
      have hmem : e.kind ∈ (s.graph.block 4).kinds := List.mem_map_of_mem he
      rw [hjump, List.mem_singleton] at hmem
      exact hlive hmem
  · cases hcheck

end Script

end ScriptFlow
