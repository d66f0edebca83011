import ScriptFlow.Proofs.Flow.Edges
import ScriptFlow.Proofs.Graph.Marking

/-! # Dead edges are never taken

A run goes from block to block with a stack of values. Constants and copies of the top value do to it
what they say and conditional jumps go by the value they take off; all else may leave anything behind.
Edges die one after the other, and none of them is taken by a run: if it is dead for a constant, the
value tested tells; if it is dead for an earlier test or for want of a way into its block, so does the
edge the run came in by, and that one was alive. -/

namespace ScriptFlow.Flow

/-- The instructions whose effect on the values is known. -/
def Understood (i : LinkedInstruction) : Prop :=
  (i.opcode = .const ∧ i.type = TypeByte.int) ∨
    (i.opcode = .cptopsp ∧ i.operand = .cells (-4) 4) ∨ i.opcode.isConditional = true

instance (i : LinkedInstruction) : Decidable (Understood i) :=
  inferInstanceAs (Decidable (_ ∨ _ ∨ _))

/-- What an instruction does to the values, the top one first. The kind is that of the edge control
leaves by, should the block end here. Values that are not there cannot be copied or tested, nor can
an integer be pushed by a constant that holds none. -/
inductive Executes (i : LinkedInstruction) : List Int → EdgeKind → List Int → Prop
  | const {v : Int} {vs : List Int} {k : EdgeKind} : i.opcode = .const → i.type = TypeByte.int →
      i.operand = .constant (.int v) → Executes i vs k (v :: vs)
  | copy {v : Int} {vs : List Int} {k : EdgeKind} : i.opcode = .cptopsp →
      i.operand = .cells (-4) 4 → Executes i (v :: vs) k (v :: v :: vs)
  | jz {v : Int} {vs : List Int} : i.opcode = .jz →
      Executes i (v :: vs) (if v = 0 then .whenTrue else .whenFalse) vs
  | jnz {v : Int} {vs : List Int} : i.opcode = .jnz →
      Executes i (v :: vs) (if v = 0 then .whenFalse else .whenTrue) vs
  | other {vs ws : List Int} {k : EdgeKind} : ¬ Understood i → Executes i vs k ws

/-- Instructions executed one after the other; the last one tells the edge control leaves by. -/
inductive Passage : List LinkedInstruction → List Int → EdgeKind → List Int → Prop
  | last {i : LinkedInstruction} {vs ws : List Int} {k : EdgeKind} : Executes i vs k ws →
      Passage [i] vs k ws
  | next {i : LinkedInstruction} {is : List LinkedInstruction} {vs us ws : List Int}
      {j k : EdgeKind} : Executes i vs j us → Passage is us k ws → Passage (i :: is) vs k ws

/-- A run from the root, with any values on the stack: the edges it takes, each by its block and its
position there, the block it arrives in and the values it arrives with. -/
inductive Run (g : Graph) (root : BlockId) : List (BlockId × Nat) → BlockId → List Int → Prop
  | start (vs : List Int) : Run g root [] root vs
  | leave {path : List (BlockId × Nat)} {b : BlockId} {n : Nat} {e : Edge} {vs ws : List Int} :
      Run g root path b vs → (g.edges b)[n]? = some e →
      Passage (g.block b).instructions vs e.kind ws → Run g root (path ++ [(b, n)]) e.child ws

/-! ## The values a block leaves behind -/

section
variable {i x y : LinkedInstruction} {front : List LinkedInstruction} {b : Block}
variable {vs us ws : List Int} {k : EdgeKind} {op : Opcode}

/-- The arm a conditional jump takes on a value. -/
def armOn (op : Opcode) (v : Int) : EdgeKind :=
  if (v == 0) == (op == .jz) then .whenTrue else .whenFalse

theorem Executes.of_const (h : Executes i vs k ws) (hop : i.opcode = .const)
    (ht : i.type = TypeByte.int) : ∃ v, i.operand = .constant (.int v) ∧ ws = v :: vs := by
  cases h with
  | const _ _ hv => exact ⟨_, hv, rfl⟩
  | copy hop' _ | jz hop' | jnz hop' => rw [hop] at hop'; cases hop'
  | other hi => exact absurd (.inl ⟨hop, ht⟩) hi

theorem Executes.of_copy (h : Executes i vs k ws) (hop : i.opcode = .cptopsp)
    (ht : i.operand = .cells (-4) 4) : ∃ v rest, vs = v :: rest ∧ ws = v :: v :: rest := by
  cases h with
  | copy _ _ => exact ⟨_, _, rfl, rfl⟩
  | const hop' _ _ | jz hop' | jnz hop' => rw [hop] at hop'; cases hop'
  | other hi => exact absurd (.inr (.inl ⟨hop, ht⟩)) hi

theorem Executes.of_test (h : Executes i vs k ws) (hop : i.opcode.isConditional = true) :
    ∃ v, vs = v :: ws ∧ k = armOn i.opcode v := by
  cases h with
  | @jz v _ hop' => exact ⟨v, rfl, by by_cases hv : v = 0 <;> simp [armOn, hop', hv]⟩
  | @jnz v _ hop' => exact ⟨v, rfl, by by_cases hv : v = 0 <;> simp [armOn, hop', hv]⟩
  | const hop' _ _ | copy hop' _ => rw [hop'] at hop; cases hop
  | other hi => exact absurd (.inr (.inr hop)) hi

theorem Passage.tail {is : List LinkedInstruction} (h : Passage (i :: is) vs k ws) (hne : is ≠ []) :
    ∃ us j, Executes i vs j us ∧ Passage is us k ws := by
  generalize hl : i :: is = l at h
  cases h with
  | last _ =>
    cases hl
    exact absurd rfl hne
  | next hi h =>
    cases hl
    exact ⟨_, _, hi, h⟩

/-- Only the last two instructions matter for the way a block is left. -/
theorem Passage.last_two (h : Passage (front ++ [x, y]) vs k ws) :
    ∃ us j ms, Executes x us j ms ∧ Executes y ms k ws ∧ (front = [] → us = vs) := by
  induction front generalizing vs with
  | nil =>
    obtain ⟨ms, j, hx, h⟩ := h.tail (by simp)
    cases h with
    | last hy => exact ⟨_, j, ms, hx, hy, fun _ => rfl⟩
    | next _ hnil => cases hnil
  | cons i front ih =>
    obtain ⟨us, -, -, h⟩ := h.tail (by simp)
    obtain ⟨us, j, ms, hx, hy, -⟩ := ih h
    exact ⟨us, j, ms, hx, hy, fun hnil => by cases hnil⟩

theorem lastTwo?_spec (h : b.lastTwo? = some (x, y)) : ∃ front, b.instructions = front ++ [x, y] := by
  unfold Block.lastTwo? at h
  split at h
  · rename_i jump before rest hrev
    cases h
    refine ⟨rest.reverse, ?_⟩
    rw [← List.reverse_reverse b.instructions, hrev]
    simp
  · cases h

/-- On a constant only one arm is left by, and it is not the one called dead. -/
theorem Passage.constantArm?_ne (h : Passage b.instructions vs k ws) : b.constantArm? ≠ some k := by
  intro harm
  unfold Block.constantArm? at harm
  split at harm
  · rename_i i jump htwo
    split at harm
    · rename_i hcond
      obtain ⟨hjump, hop, htype⟩ := hcond
      obtain ⟨front, hfront⟩ := lastTwo?_spec htwo
      rw [hfront] at h
      obtain ⟨us, j, ms, hconst, htest, -⟩ := h.last_two
      obtain ⟨v, hv, rfl⟩ := hconst.of_const hop htype
      obtain ⟨w, hw, rfl⟩ := htest.of_test hjump
      cases hw
      have hzero : (i.operand == .constant (.int 0)) = (v == 0) := by
        rw [hv]
        by_cases hv0 : v = 0 <;> simp [hv0]
      simp only [hzero, armOn] at harm
      split at harm <;> cases harm
    · cases harm
  · cases harm

/-- A block that tests a copy of the top value leaves by the arm for it, and the value stays. -/
theorem Passage.of_peekJump? (h : Passage b.instructions vs k ws) (hpeek : b.peekJump? = some op) :
    ∃ v rest, ws = v :: rest ∧ k = armOn op v ∧ (b.instructions.length = 2 → vs = ws) := by
  unfold Block.peekJump? at hpeek
  split at hpeek
  · rename_i copy jump htwo
    split at hpeek
    · rename_i hcond
      cases hpeek
      obtain ⟨hop, hcells, hjump⟩ := hcond
      obtain ⟨front, hfront⟩ := lastTwo?_spec htwo
      rw [hfront] at h ⊢
      obtain ⟨us, j, ms, hcopy, htest, hus⟩ := h.last_two
      obtain ⟨v, rest, rfl, rfl⟩ := hcopy.of_copy hop hcells
      obtain ⟨w, hw, rfl⟩ := htest.of_test hjump
      cases hw
      refine ⟨v, rest, rfl, rfl, fun hlen => (hus ?_).symm⟩
      simpa using hlen
    · cases hpeek
  · cases hpeek

end

/-! ## Marking -/

/-- Nothing is dead yet, and blocks know the blocks that lead to them. -/
structure Fresh (g : Graph) : Prop where
  live : ∀ b, ∀ e ∈ g.edges b, e.kind ≠ .dead
  mirrored : ∀ b, ∀ e ∈ g.edges b, b ∈ (g.block e.child).parents

/-- The second graph still has every edge that a run of the first one takes. -/
structure Spares (g : Graph) (root : BlockId) (h : Graph) : Prop extends Graph.SameFrame g h where
  taken : ∀ path b vs, Run g root path b vs → ∀ (n : Nat) (e : Edge) ws, (g.edges b)[n]? = some e →
    Passage (g.block b).instructions vs e.kind ws → (h.edges b)[n]? = some e

section
variable {g h : Graph} {root b : BlockId} {path : List (BlockId × Nat)} {vs ws : List Int}

/-- A run stands in the root or came by its last edge. -/
theorem Run.came (hrun : Run g root path b vs) : b = root ∨
    ∃ path p us, ∃ (n : Nat) (e : Edge), Run g root path p us ∧ (g.edges p)[n]? = some e ∧
      e.child = b ∧ Passage (g.block p).instructions us e.kind vs := by
  cases hrun with
  | start _ => exact .inl rfl
  | leave hrun he hpass => exact .inr ⟨_, _, _, _, _, hrun, he, rfl, hpass⟩

theorem Spares.exists_liveIncoming (hg : Fresh g) (hh : Spares g root h)
    (hrun : Run g root path b vs) (hb : b ≠ root) :
    ∃ p k us, (p, k) ∈ h.liveIncoming b ∧ Passage (h.block p).instructions us k vs := by
  obtain hroot | ⟨path, p, us, n, e, hrun, he, hchild, hpass⟩ := hrun.came
  · exact absurd hroot hb
  · -- the edge the run came by is one it takes, so marking has not touched it yet
    have hlive := hg.live p e (List.mem_of_getElem? he)
    have hparent := hg.mirrored p e (List.mem_of_getElem? he)
    have hkept := hh.taken path p us hrun n e vs he hpass
    refine ⟨p, e.kind, us, Graph.mem_liveIncoming.mpr ⟨?_, e, ?_, hchild, hlive, rfl⟩, ?_⟩
    · rwa [hh.parents, ← hchild]
    · exact List.mem_of_getElem? hkept
    · rwa [hh.instructions]

/-- The step of the argument: a rule condemns no edge that a run takes, given that the edges dead
before are taken by none. -/
theorem Spares.not_condemned (hg : Fresh g) (hh : Spares g root h) (hrun : Run g root path b vs)
    {k : EdgeKind} (hpass : Passage (g.block b).instructions vs k ws) {rule : DeadRule}
    (hrule : rule ∈ Graph.rulesFor (some root) b) : h.condemns b rule k = false := by
  rw [← hh.instructions] at hpass
  -- the two rules that look at the edges into a block are not applied to the root
  have came : rule ≠ .constantCondition →
      ∃ p k us, (p, k) ∈ h.liveIncoming b ∧ Passage (h.block p).instructions us k vs := by
    intro hne
    refine hh.exists_liveIncoming hg hrun fun hroot => ?_
    exact Graph.ne_root_of_mem_rulesFor hrule hne (by rw [hroot])
  rw [← Bool.not_eq_true]
  intro hcond
  cases rule with
  | constantCondition =>
    simp only [Graph.condemns, Bool.and_eq_true, beq_iff_eq] at hcond
    exact hpass.constantArm?_ne hcond.2
  | repeatedTest =>
    obtain ⟨p, j, us, hin, hbefore⟩ := came (by simp)
    simp only [Graph.condemns, Bool.and_eq_true, beq_iff_eq] at hcond
    obtain ⟨⟨⟨rfl, hlen⟩, -⟩, hcond⟩ := hcond
    split at hcond
    · cases hcond
    · rename_i op hpeek
      simp only [Bool.and_eq_true, List.all_eq_true, beq_iff_eq] at hcond
      obtain ⟨rfl, hpeek'⟩ := hcond.2 (p, j) hin
      -- the value tested before is on top still, so it decides the second test
      obtain ⟨v, rest, rfl, harm, -⟩ := hbefore.of_peekJump? hpeek'
      obtain ⟨v', rest', rfl, harm', hkept⟩ := hpass.of_peekJump? hpeek
      cases hkept hlen
      rw [← harm'] at harm
      cases harm
  | absorbed =>
    obtain ⟨p, j, us, hin, -⟩ := came (by simp)
    simp only [Graph.condemns, Bool.and_eq_true, List.isEmpty_iff] at hcond
    rw [hcond.2] at hin
    cases hin

theorem Spares.bury (hg : Fresh g) (hh : Spares g root h) {rule : DeadRule}
    (hrule : rule ∈ Graph.rulesFor (some root) b) :
    Spares g root (h.bury b (h.condemns b rule)) where
  toSameFrame := hh.toSameFrame.bury b _
  taken := by
    intro path c vs hrun n e ws he hpass
    have hkept := hh.taken path c vs hrun n e ws he hpass
    rw [Graph.edges_bury]
    split
    · rename_i hcb
      subst hcb
      have hspared := hh.not_condemned hg hrun hpass hrule
      rw [List.getElem?_map, hkept, Option.map_some, Graph.buried_of_spared hspared]
    · exact hkept

/-- All edges of a run are as they were. -/
theorem Spares.of_mem_path (hh : Spares g root h) (hrun : Run g root path b vs) :
    ∀ t ∈ path, ∃ e, (g.edges t.1)[t.2]? = some e ∧ (h.edges t.1)[t.2]? = some e := by
  induction hrun with
  | start _ => simp
  | leave hrun he hpass ih =>
    intro t ht
    rcases List.mem_append.mp ht with ht | ht
    · exact ih t ht
    · cases List.mem_singleton.mp ht
      exact ⟨_, he, hh.taken _ _ _ hrun _ _ _ he hpass⟩

theorem markDead_spares (hg : Fresh g) (root : BlockId) (listed : List BlockId) :
    Spares g root (g.markDead listed (some root)).graph := by
  refine Graph.markDead_induction (P := Spares g root) ?_ listed ?_
  · exact fun h b rule hrule hh => hh.bury hg hrule
  · exact ⟨.refl g, fun _ _ _ _ _ _ _ he _ => he⟩

end

/-! ## Built graphs -/

theorem Dictates.ne_dead {code : List LinkedInstruction} {owner : Option Int} {i : LinkedInstruction}
    {es : List (Int × EdgeKind)} (h : Dictates code owner i es) {a : Int} {k : EdgeKind}
    (hk : (a, k) ∈ es) : k ≠ .dead := by
  rintro rfl
  unfold Dictates at h
  split at h
  case h_1 | h_4 =>
    obtain ⟨t, -, rfl⟩ := h
    simp at hk
  case h_2 | h_3 | h_5 =>
    obtain ⟨t, f, -, -, rfl⟩ := h
    simp at hk
  case h_6 =>
    rw [h.mem_iff, returnsTo, List.mem_filterMap] at hk
    obtain ⟨j, -, hj⟩ := hk
    split at hj
    · obtain ⟨f, -, hf⟩ := Option.map_eq_some_iff.mp hj
      cases hf
    · cases hj
  case h_7 =>
    rw [h] at hk
    simp at hk

theorem Complete.fresh {l : Layout} {d : Discovery} (hs : l.Sound) (hc : Complete l d) :
    Fresh (assemble l.code d) where
  live := by
    intro b e he
    obtain ⟨s, hbs⟩ := exists_start (Graph.lt_size_of_mem_edges he)
    obtain ⟨i, -, hdict⟩ := hc.dictates hs hbs
    exact hdict.ne_dead (List.mem_map_of_mem he)
  mirrored := by
    intro b e he
    have hb := Graph.lt_size_of_mem_edges he
    obtain ⟨s, hbs⟩ := exists_start hb
    obtain ⟨t, hct⟩ := exists_start (hc.child_lt hs hb he)
    rw [assemble_edges hbs] at he
    obtain ⟨k, hk, rfl⟩ := List.mem_map.mp he
    obtain ⟨hk, hkb⟩ := List.mem_filter.mp hk
    rw [assemble_parents hct]
    exact List.mem_map.mpr ⟨k, List.mem_filter.mpr ⟨hk, by simp⟩, by simpa using hkb⟩

section
variable {code : List LinkedInstruction} {roots : List (Int × SubroutineKind)}

/-- Every edge that a run from the root takes is alive once the edges that cannot be taken are marked
for it. -/
theorem build_dead_edges_untaken {is : List Instruction} {store : Code}
    (hstore : Code.ofList is = .ok store) (hlink : store.link = .ok code)
    (hroots : ∀ r ∈ roots, ∃ i ∈ code, i.address = r.1)
    (hcalls : ∀ i ∈ code, i.opcode = .jsr → ∀ a, i.target = some a → a ∈ roots.map Prod.fst) :
    ∃ built, build code roots = .ok built ∧
      ∀ root path b vs, Run built.graph root path b vs → ∀ t ∈ path, ∃ e,
        (built.graph.edges t.1)[t.2]? = some e ∧
        ((built.graph.markDead built.graph.ids (some root)).graph.edges t.1)[t.2]? = some e ∧
        e.kind ≠ .dead := by
  have hs := sound_of_link hstore hlink hroots hcalls
  obtain ⟨built, d, hbuilt, hgraph, -, hc⟩ := build_complete hs
  have hfresh := hc.fresh hs
  dsimp only at hfresh
  rw [← hgraph] at hfresh
  refine ⟨built, hbuilt, fun root path b vs hrun t ht => ?_⟩
  obtain ⟨e, he, hkept⟩ := (markDead_spares hfresh root built.graph.ids).of_mem_path hrun t ht
  exact ⟨e, he, hkept, hfresh.live _ e (List.mem_of_getElem? he)⟩

/-- A value tested twice: what stands between the second jump and its target is never reached. -/
def testedTwice : List Instruction :=
  [⟨13, .rsadd, 3, 2, .none⟩, ⟨15, .cptopsp, 1, 8, .cells (-4) 4⟩, ⟨23, .jz, 0, 6, .offset 8⟩,
   ⟨29, .retn, 0, 2, .none⟩, ⟨31, .cptopsp, 1, 8, .cells (-4) 4⟩, ⟨39, .jz, 0, 6, .offset 12⟩,
   ⟨45, .jmp, 0, 6, .offset 6⟩, ⟨51, .retn, 0, 2, .none⟩]

/-- The same code with its links. -/
def testedTwiceLinked : List LinkedInstruction :=
  [⟨⟨13, .rsadd, 3, 2, .none⟩, some 15, none, .plain⟩,
   ⟨⟨15, .cptopsp, 1, 8, .cells (-4) 4⟩, some 23, none, .plain⟩,
   ⟨⟨23, .jz, 0, 6, .offset 8⟩, some 29, some 31, .plain⟩,
   ⟨⟨29, .retn, 0, 2, .none⟩, none, none, .plain⟩,
   ⟨⟨31, .cptopsp, 1, 8, .cells (-4) 4⟩, some 39, none, .label⟩,
   ⟨⟨39, .jz, 0, 6, .offset 12⟩, some 45, some 51, .plain⟩,
   ⟨⟨45, .jmp, 0, 6, .offset 6⟩, none, some 51, .plain⟩,
   ⟨⟨51, .retn, 0, 2, .none⟩, none, none, .label⟩]

/-- The blocks of the two tests. -/
def testedTwiceBlocks : List Block :=
  [⟨13, testedTwiceLinked.take 3, some 13, [], [⟨1, .whenTrue⟩, ⟨2, .whenFalse⟩]⟩,
   ⟨31, (testedTwiceLinked.drop 4).take 2, some 13, [0], [⟨3, .whenTrue⟩, ⟨4, .whenFalse⟩]⟩]

theorem testedTwice_run {g : Graph} (h : [g.block 0, g.block 1] = testedTwiceBlocks) :
    Run g 0 [(0, 0), (1, 0)] 3 [0] := by
  obtain ⟨h0, h1⟩ : g.block 0 = testedTwiceBlocks[0] ∧ g.block 1 = testedTwiceBlocks[1] := by
    simp [← h]
  have first : Passage testedTwiceBlocks[0].instructions [] .whenTrue [0] :=
    .next (j := .unconditional) (.other (by decide))
      (.next (j := .unconditional) (.copy rfl rfl) (.last (.jz (v := 0) rfl)))
  have second : Passage testedTwiceBlocks[1].instructions [0] .whenTrue [0] :=
    .next (j := .unconditional) (.copy rfl rfl) (.last (.jz (v := 0) rfl))
  have run : Run g 0 [(0, 0)] 1 [0] :=
    .leave (e := ⟨1, .whenTrue⟩) (.start []) (by rw [Graph.edges, h0]; rfl) (h0 ▸ first)
  exact .leave (e := ⟨3, .whenTrue⟩) run (by rw [Graph.edges, h1]; rfl) (h1 ▸ second)

theorem testedTwice_untaken : Code.ofList testedTwice = .ok ⟨testedTwice.toArray⟩ ∧
    Code.link ⟨testedTwice.toArray⟩ = .ok testedTwiceLinked ∧
    ∃ built, build testedTwiceLinked [(13, .plain)] = .ok built ∧
      (∀ root path b vs, Run built.graph root path b vs → ∀ t ∈ path, ∃ e,
        (built.graph.edges t.1)[t.2]? = some e ∧
        ((built.graph.markDead built.graph.ids (some root)).graph.edges t.1)[t.2]? = some e ∧
        e.kind ≠ .dead) ∧
      Run built.graph 0 [(0, 0), (1, 0)] 3 [0] := by
  obtain ⟨built, hbuilt, huntaken⟩ := build_dead_edges_untaken
    (show Code.ofList testedTwice = .ok ⟨testedTwice.toArray⟩ from rfl)
    (show Code.link ⟨testedTwice.toArray⟩ = .ok testedTwiceLinked from rfl)
    (show ∀ r ∈ [((13 : Int), SubroutineKind.plain)], ∃ i ∈ testedTwiceLinked, i.address = r.1 by
      decide) (by decide)
  refine ⟨rfl, rfl, built, hbuilt, huntaken, testedTwice_run ?_⟩
  have hblocks : (build testedTwiceLinked [(13, .plain)]).map
      (fun built => [built.graph.block 0, built.graph.block 1]) = .ok testedTwiceBlocks := by
    decide +kernel
  rw [hbuilt] at hblocks
  exact Except.ok.inj hblocks

example : (build testedTwiceLinked [(13, .plain)]).map (fun built =>
    let marked := (built.graph.markDead built.graph.ids (some 0)).graph
    marked.ids.map fun b => (marked.addressOf b, (marked.block b).kinds)) =
    .ok [(13, [.whenTrue, .whenFalse]), (31, [.whenTrue, .dead]), (29, []), (51, []),
      (45, [.dead])] := by
  decide +kernel

end

end ScriptFlow.Flow
