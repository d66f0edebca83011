import ScriptFlow.Proofs.Flow.Ownership
import ScriptFlow.Proofs.Order
import ScriptFlow.Proofs.Script.Whole

/-! # The blocks of a subroutine

The subroutines of a loaded script share out its blocks: each has the blocks that name it as their
owner, all come to from its entry without leaving it, and what has no owner is what no entry leads
to. -/

namespace ScriptFlow.Script

/-- How the blocks of a script are shared out among its subroutines. -/
structure Ownership (s : Script) : Prop where
  /-- Subroutines stand in address order, so an address names one of them. -/
  ordered : s.subroutines.Pairwise fun x y => x.address < y.address
  /-- The entry is the block at the address of the subroutine, which owns it. -/
  entry : ∀ sub ∈ s.subroutines, ∃ e < s.graph.size, sub.entry = some e ∧
    (∀ b < s.graph.size, s.graph.addressOf b = sub.address ↔ b = e) ∧
    (s.graph.block e).owner = some sub.address
  /-- A subroutine has each block it owns once, and no other. -/
  members : ∀ sub ∈ s.subroutines, ∀ b, sub.blocks.count b =
    if b < s.graph.size ∧ (s.graph.block b).owner = some sub.address then 1 else 0
  /-- Owners are subroutines of the script. -/
  owners : ∀ b < s.graph.size, ∀ a, (s.graph.block b).owner = some a →
    ∃ sub ∈ s.subroutines, sub.address = a
  /-- What a subroutine owns is come to from its entry through what it owns. -/
  within : ∀ sub ∈ s.subroutines, ∀ e, sub.entry = some e → ∀ b < s.graph.size,
    (s.graph.block b).owner = some sub.address →
    Relation.ReflTransGen (s.graph.FlowsWithin sub.address) e b
  /-- What has no owner is what no entry leads to. -/
  strays : ∀ b < s.graph.size, (s.graph.block b).owner = none ↔
    ∀ sub ∈ s.subroutines, ∀ e, sub.entry = some e →
      ¬ Relation.ReflTransGen (s.graph.Flows LinkedInstruction.onward) e b

theorem rootsOf_pairwise {code : List LinkedInstruction} (hl : Linked code) :
    (rootsOf code).Pairwise fun x y => x.1 < y.1 := by
  cases code with
  | nil => exact .nil
  | cons i rest =>
    obtain ⟨hfirst, hrest⟩ := List.pairwise_cons.mp hl.ordered
    refine List.pairwise_cons.mpr ⟨fun r hr => ?_, ?_⟩
    · obtain ⟨j, hj, hjr⟩ := List.mem_filterMap.mp hr
      rw [rootOf?_address hjr]
      exact hfirst j hj
    · refine hrest.filterMap _ fun j k hjk x hx y hy => ?_
      rw [rootOf?_address hx, rootOf?_address hy]
      exact hjk

theorem mem_ownedBy {g : Graph} {a : Int} {b : BlockId} :
    b ∈ ownedBy g a ↔ b < g.size ∧ (g.block b).owner = some a := by
  simp [ownedBy, Graph.ids]

theorem nodup_ownedBy (g : Graph) (a : Int) : (ownedBy g a).Nodup := List.nodup_range.filter _

namespace Laid
variable {s : Script} {l : Flow.Layout} {d : Flow.Discovery} {sub : Subroutine} {b : BlockId}
variable {a : Int}

theorem reached (h : s.Laid l d) : Flow.Stage.Reached l ⟨none, d⟩ :=
  (Flow.discover_rests h.sound.linked h.discovered).1.reached

theorem crossesToRoots (h : s.Laid l d) : l.CrossesToRoots := by
  intro i hi hop a ha
  rcases hop with hop | hop
  · exact h.sound.calls_known hi hop ha
  · exact h.continuations i hi hop a ha

theorem ordered (h : s.Laid l d) : s.subroutines.Pairwise fun x y => x.address < y.address := by
  have hroots : ((rootsOf l.code).map Prod.fst).Nodup :=
    List.pairwise_map.mpr ((rootsOf_pairwise h.sound.linked).imp fun hxy => Int.ne_of_lt hxy)
  have hextents : (s.subroutines.map extent).Pairwise fun x y => x.1 < y.1 := by
    rw [h.extents]
    exact List.pairwise_map.mpr (Order.sortBy_strict hroots)
  exact (List.pairwise_map (f := extent)).mp hextents

theorem blocks_eq (h : s.Laid l d) (hsub : sub ∈ s.subroutines) :
    sub.blocks = s.graph.byAddress (ownedBy s.graph sub.address) := by
  have hmem : extent sub ∈ s.subroutines.map extent := List.mem_map_of_mem hsub
  rw [h.extents] at hmem
  obtain ⟨r, -, hr⟩ := List.mem_map.mp hmem
  obtain ⟨haddress, hblocks⟩ := Prod.mk.inj hr
  have hframe := h.sameFrame
  rw [← hblocks, ← haddress]
  simp only [ownedBy, Graph.ids, hframe.size, hframe.owner]

theorem blocks_perm (h : s.Laid l d) (hsub : sub ∈ s.subroutines) :
    sub.blocks.Perm (ownedBy s.graph sub.address) := by
  rw [h.blocks_eq hsub]
  exact Order.perm_sortBy _ _

theorem flows_iff (h : s.Laid l d) (next : LinkedInstruction → List Int) :
    s.graph.Flows next = (Flow.assemble l.code d).Flows next := by
  have hframe := h.sameFrame
  funext b c
  simp only [Graph.Flows, Block.last?, Graph.addressOf, hframe.instructions, hframe.size,
    hframe.address]

theorem flowsWithin_eq (h : s.Laid l d) (a : Int) :
    s.graph.FlowsWithin a = (Flow.assemble l.code d).FlowsWithin a := by
  funext b c
  simp only [Graph.FlowsWithin, h.flows_iff, h.sameFrame.owner]

theorem entry_eq (h : s.Laid l d) (hsub : sub ∈ s.subroutines) : ∃ e < s.graph.size,
    sub.entry = some e ∧ (∀ b < s.graph.size, s.graph.addressOf b = sub.address ↔ b = e) ∧
      (s.graph.block e).owner = some sub.address := by
  obtain ⟨e, he, -, haddress, howner⟩ := h.root (h.addresses sub hsub)
  have hat : ∀ b < s.graph.size, s.graph.addressOf b = sub.address ↔ b = e := by
    intro b hb
    constructor
    · exact fun hba => h.distinct hb he (hba.trans haddress.symm)
    · rintro rfl
      exact haddress
  refine ⟨e, he, ?_, hat, howner⟩
  have hframe := h.sameFrame
  rw [h.entries sub hsub]
  cases hfind : (Flow.assemble l.code d).ids.find? fun b =>
      (Flow.assemble l.code d).addressOf b == sub.address with
  | none =>
    have hnone := List.find?_eq_none.mp hfind e (List.mem_range.mpr (hframe.size ▸ he))
    simp only [Graph.addressOf, hframe.address] at haddress
    simp [Graph.addressOf, haddress] at hnone
  | some b =>
    have hb : b < s.graph.size := hframe.size ▸ List.mem_range.mp (List.mem_of_find?_eq_some hfind)
    have hba := List.find?_some hfind
    rw [(hat b hb).mp]
    simpa [Graph.addressOf, hframe.address] using hba

/-- The owner of a block is a subroutine, from whose entry control comes to the block. -/
theorem comes_from_entry (h : s.Laid l d) (hb : b < s.graph.size)
    (ha : (s.graph.block b).owner = some a) : a ∈ l.roots ∧ ∀ e < s.graph.size,
      s.graph.addressOf e = a → Relation.ReflTransGen (s.graph.FlowsWithin a) e b := by
  have hframe := h.sameFrame
  obtain ⟨hrooted, -⟩ := h.reached.owned h.sound.linked h.crossesToRoots
  obtain ⟨start, hstart⟩ := Flow.exists_start (hframe.size ▸ hb)
  rw [hframe.owner, Flow.assemble_owner hstart] at ha
  obtain ⟨hroot, p, hp, hpath⟩ := h.complete.comes_from_owner h.sound hrooted hstart ha
  refine ⟨hroot, fun e he hea => ?_⟩
  obtain ⟨i, hi, rfl⟩ := Flow.Layout.position?_some hp
  have hhead : p ∈ d.heads := h.complete.head_iff.mpr ⟨i, hi, .root hroot⟩
  have hentry : Flow.blockOf d.starts p = e := by
    refine h.distinct ?_ he ?_
    · exact hframe.size ▸ h.complete.blockOf_lt (List.getElem?_eq_some_iff.mp hi).1
    · rw [hea, Graph.addressOf, hframe.address]
      exact h.complete.addressOf_blockOf hhead hi
  rw [h.flowsWithin_eq, ← hentry]
  exact hpath

theorem owned_of_path (h : s.Laid l d) {e : BlockId} (howner : (s.graph.block e).owner ≠ none)
    (hpath : Relation.ReflTransGen (s.graph.Flows LinkedInstruction.onward) e b) :
    (s.graph.block b).owner ≠ none := by
  have hframe := h.sameFrame
  obtain ⟨-, hclaimed⟩ := h.reached.owned h.sound.linked h.crossesToRoots
  induction hpath with
  | refl => exact howner
  | tail _ hflow ih =>
    rw [h.flows_iff] at hflow
    rw [hframe.owner] at ih ⊢
    exact h.complete.owned_onward hclaimed hflow ih

theorem ownership (h : s.Laid l d) : s.Ownership where
  ordered := h.ordered
  entry sub hsub := h.entry_eq hsub
  members sub hsub b := by
    rw [(h.blocks_perm hsub).count_eq, (nodup_ownedBy _ _).count]
    simp only [mem_ownedBy]
  owners b hb a ha := h.rooted a (h.comes_from_entry hb ha).1
  within sub hsub e he b hb ha := by
    obtain ⟨e', hlt, he', hat, -⟩ := h.entry_eq hsub
    rw [he] at he'
    cases he'
    exact (h.comes_from_entry hb ha).2 e hlt ((hat e hlt).mpr rfl)
  strays b hb := by
    constructor
    · intro hnone sub hsub e he hpath
      obtain ⟨e', -, he', -, howner⟩ := h.entry_eq hsub
      rw [he] at he'
      cases he'
      exact h.owned_of_path (by rw [howner]; simp) hpath hnone
    · intro hno
      by_contra hsome
      obtain ⟨a, ha⟩ := Option.ne_none_iff_exists'.mp hsome
      obtain ⟨hroot, hfrom⟩ := h.comes_from_entry hb ha
      obtain ⟨sub, hsub, rfl⟩ := h.rooted a hroot
      obtain ⟨e, hlt, he, hat, -⟩ := h.entry_eq hsub
      refine hno sub hsub e he (Relation.ReflTransGen.mono (fun x y hxy => ?_) _ _
        (hfrom e hlt ((hat e hlt).mpr rfl)))
      obtain ⟨⟨i, hi, hy, hmem⟩, -⟩ := hxy
      exact ⟨i, hi, hy, LinkedInstruction.onward_of_inside hmem⟩

end Laid

/-- In every loaded script blocks belong to the subroutines they are come to from. -/
theorem load_shares_blocks {image : List UInt8} {events : List Event} {s : Script}
    (h : load image = (events, .ok s)) : s.Ownership := by
  rcases load_laid h with ⟨hsize, hsubs, -⟩ | ⟨l, d, hlaid⟩
  · constructor <;> simp [hsize, hsubs]
  · exact hlaid.ownership

/-- A call, and code nothing leads to that jumps into the middle of the subroutine called. -/
def strayJump : List UInt8 :=
  magic ++ [marker, 0, 0, 0, 39] ++ [0x1E, 0, 0, 0, 0, 16] ++ [0x20, 0] ++ [0x2D, 0] ++
    [0x1D, 0, 0, 0, 0, 8] ++ [0x02, 3] ++ [0x1B, 0, 0xFF, 0xFF, 0xFF, 0xFC] ++ [0x20, 0]

/-- The jump has no owner, and what it splits off stays with the subroutine called. -/
theorem strayJump_shares_blocks : ∃ events s, load strayJump = (events, .ok s) ∧ s.Ownership ∧
    s.subroutines.map extent = [(13, [0, 2]), (29, [1, 4])] ∧
    (s.graph.block 3).owner = none ∧ s.graph.Flows LinkedInstruction.onward 3 4 := by
  have hcheck : (match load strayJump with
    | (_, .ok s) => decide (s.subroutines.map extent = [(13, [0, 2]), (29, [1, 4])]) &&
        decide ((s.graph.block 3).owner = none) &&
        decide (4 < s.graph.size) &&
        ((s.graph.block 3).last?.map fun i => decide (s.graph.addressOf 4 ∈ i.onward)) == some true
    | _ => false) = true := by
    decide +kernel
  split at hcheck
  · rename_i events s hload
    simp only [Bool.and_eq_true, decide_eq_true_eq, beq_iff_eq] at hcheck
    obtain ⟨⟨⟨hextents, howner⟩, hlt⟩, hlast⟩ := hcheck
    obtain ⟨i, hi, hmem⟩ := Option.map_eq_some_iff.mp hlast
    exact ⟨events, s, hload, load_shares_blocks hload, hextents, howner, i, hi, hlt,
      by simpa using hmem⟩
  · cases hcheck

end ScriptFlow.Script
