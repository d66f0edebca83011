import ScriptFlow.Proofs.Graph.Mirror

/-! # Child and parent queries are two views of the same edges

The children of a block are read off its own edges, its parents off a list that is kept beside them and
then looked up among the edges of each parent. However a graph was drawn, the two lists tell of the same
edges, so what one block shows as a child behind it shows that block as a parent before it, and the
other way round. This asks neither that addresses differ nor that edges do. -/

namespace ScriptFlow.Graph

/-- Graphs drawn step by step: blocks are added, edges entered between blocks that are there, and kinds
of edges overwritten, in any order. -/
inductive Drawn : Graph → Prop
  | empty : Drawn {}
  | add {g : Graph} (address : Int) (instructions : List LinkedInstruction) (owner : Option Int) :
      Drawn g → Drawn (g.add address instructions owner)
  | link {g : Graph} {p c : BlockId} (k : EdgeKind) :
      Drawn g → p < g.size → c < g.size → Drawn (g.link p c k)
  | overwrite {g : Graph} (b : BlockId) (index : Nat) (k : EdgeKind) :
      Drawn g → Drawn (g.setKind b index k)

section
variable {g : Graph} {b p c : BlockId}

/-! ## Drawing keeps both sides equal -/

/-- Overwriting a kind leaves the edge where it leads. -/
theorem children_setKind (g : Graph) (id : BlockId) (index : Nat) (k : EdgeKind) (b : BlockId) :
    (g.setKind id index k).children true b = g.children true b := by
  rw [children_true, children_true, edges, setKind, block_update]
  split
  · refine List.ext_getElem? fun n => ?_
    rw [List.getElem?_map, List.getElem?_map, List.getElem?_modify, Option.map_eq_map,
      Option.map_map]
    refine Option.map_congr fun e _ => ?_
    rw [Function.comp_apply]
    split <;> rfl
  · rfl

theorem Mirrored.setKind (hm : g.Mirrored) (id : BlockId) (index : Nat) (k : EdgeKind) :
    (g.setKind id index k).Mirrored := by
  refine hm.keep (size_update g id _) fun b _ => ⟨children_setKind g id index k b, ?_⟩
  rw [Graph.setKind, block_update]
  split <;> rfl

theorem Drawn.mirrored (hg : Drawn g) : g.Mirrored := by
  induction hg with
  | empty => exact ⟨length_kinds _, nofun, nofun, nofun⟩
  | add address instructions owner _ ih => exact ih.add address instructions owner
  | link k _ hp hc ih => exact ih.link hp hc
  | overwrite b index k _ ih => exact ih.setKind b index k

/-! ## The queries -/

theorem mem_children {across : Bool} : c ∈ g.children across p ↔
    ∃ e ∈ g.edges p, e.child = c ∧ (across = true ∨ e.kind.crosses = false) := by
  simp only [children, List.mem_map, List.mem_filter, Bool.or_eq_true, Bool.not_eq_true']
  constructor
  · rintro ⟨e, ⟨he, hkind⟩, hchild⟩
    exact ⟨e, he, hchild, hkind⟩
  · rintro ⟨e, he, hchild, hkind⟩
    exact ⟨e, ⟨he, hkind⟩, hchild⟩

/-- A name that is not in use stands for a block without parents. -/
theorem lt_size_of_mem_parents (h : p ∈ (g.block b).parents) : b < g.size := by
  by_contra hb
  have hb' : ¬ b < g.blocks.size := hb
  simp [block, Array.getD, hb'] at h

theorem Mirrored.mem_parents (hm : g.Mirrored) :
    p ∈ (g.block c).parents ↔ c ∈ g.children true p := by
  constructor
  · intro h
    have hc := lt_size_of_mem_parents h
    have hp := hm.parents_lt c hc p h
    rw [← List.count_pos_iff, hm.counts p hp c hc]
    exact List.count_pos_iff.mpr h
  · intro h
    obtain ⟨e, he, -⟩ := mem_children.mp h
    have hp := lt_size_of_mem_edges he
    have hc := hm.children_lt p hp c h
    rw [← List.count_pos_iff, ← hm.counts p hp c hc]
    exact List.count_pos_iff.mpr h

/-- A block lists as its parents the blocks that list it as their child. -/
theorem Mirrored.mem_distinctParents (hm : g.Mirrored) {across : Bool} :
    p ∈ g.distinctParents across c ↔ c ∈ g.children across p := by
  rw [distinctParents, List.mem_eraseDups, List.mem_filter, hm.mem_parents, Bool.or_eq_true,
    List.any_eq_true, mem_children, mem_children]
  simp only [Bool.and_eq_true, beq_iff_eq, Bool.not_eq_true']
  constructor
  · rintro ⟨⟨e, he, hchild, -⟩, hacross | ⟨e', he', hchild', hlocal⟩⟩
    · exact ⟨e, he, hchild, .inl hacross⟩
    · exact ⟨e', he', hchild', .inr hlocal⟩
  · rintro ⟨e, he, hchild, hkind⟩
    refine ⟨⟨e, he, hchild, .inl trivial⟩, hkind.imp_right fun hlocal => ?_⟩
    exact ⟨e, he, hchild, hlocal⟩

theorem nodup_eraseDups (xs : List BlockId) : xs.eraseDups.Nodup := by
  match xs with
  | [] => simp
  | x :: xs =>
    rw [List.eraseDups_cons, List.nodup_cons]
    refine ⟨fun hx => ?_, nodup_eraseDups _⟩
    simp [List.mem_eraseDups] at hx
termination_by xs.length
decreasing_by exact Nat.lt_succ_of_le (List.length_filter_le _ _)

end

/-- Of any two blocks of a drawn graph, the one is a child behind the other exactly if that is a parent
before it, and a child at or before it exactly if that is a parent at or behind it; and however many
edges lead from a parent, it is listed once. -/
theorem drawn_relatives_dual {g : Graph} (hg : Drawn g) (across : Bool) (p c : BlockId) :
    (c ∈ g.laterChildren across p ↔ p ∈ g.earlierParents across c) ∧
      (c ∈ g.earlierChildren across p ↔ p ∈ g.laterParents across c) ∧
      (g.earlierParents across c).Nodup ∧ (g.laterParents across c).Nodup := by
  have hdual : c ∈ g.children across p ↔ p ∈ g.distinctParents across c :=
    hg.mirrored.mem_distinctParents.symm
  have honce : (g.distinctParents across c).Nodup := nodup_eraseDups _
  refine ⟨?_, ?_, honce.filter _, honce.filter _⟩
  · rw [laterChildren, earlierParents, List.mem_filter, List.mem_filter, hdual]
  · rw [earlierChildren, laterParents, List.mem_filter, List.mem_filter, hdual]

/-- Three blocks, two of them at one address: the first both calls and jumps to the last, which leads
back to itself and to the second, and the second to the first. The way back to the second was marked
dead later. -/
def tangle : Graph :=
  let blocks := ((({} : Graph).add 10 [] none).add 10 [] none).add 20 [] none
  let first := (blocks.link 0 2 .call).link 0 2 .unconditional
  let last := (first.link 2 2 .whenTrue).link 2 1 .whenFalse
  (last.link 1 0 .unconditional).setKind 2 1 .dead

/-- The last block of the tangle is listed twice as a child behind the first, which it lists once as a
parent before it; and it is its own child and its own parent. -/
theorem tangle_relatives_dual : Drawn tangle ∧ tangle.laterChildren true 0 = [2, 2] ∧
    tangle.earlierParents true 2 = [0] ∧
    (2 ∈ tangle.laterChildren false 0 ↔ 0 ∈ tangle.earlierParents false 2) ∧
    (2 ∈ tangle.earlierChildren false 2 ↔ 2 ∈ tangle.laterParents false 2) ∧
    (0 ∈ tangle.earlierChildren false 1 ↔ 1 ∈ tangle.laterParents false 0) := by
  have hdrawn : Drawn tangle := by
    refine .overwrite _ _ _ (.link _ (.link _ (.link _ (.link _ (.link _ ?_ ?_ ?_) ?_ ?_) ?_ ?_) ?_ ?_)
      ?_ ?_)
    · exact .add _ _ _ (.add _ _ _ (.add _ _ _ .empty))
    all_goals decide
  refine ⟨hdrawn, by decide, by decide, ?_, ?_, ?_⟩
  · exact (drawn_relatives_dual hdrawn false 0 2).1
  · exact (drawn_relatives_dual hdrawn false 2 2).2.1
  · exact (drawn_relatives_dual hdrawn false 1 0).2.1

end ScriptFlow.Graph
