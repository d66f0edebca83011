import ScriptFlow.Graph.Basic
import Mathlib.Data.List.Basic

/-! # Graphs made by adding edges

Adding an edge leaves all else of a graph as it is. After any list of additions the edges of a block
are those of the list that leave it, in order, and its parents are the blocks that lead to it, once
for each edge. -/

namespace ScriptFlow.Graph

/-- The two graphs hold the same code in the same blocks. -/
structure SameCode (g h : Graph) : Prop where
  size : h.size = g.size
  address : ∀ b, (h.block b).address = (g.block b).address
  instructions : ∀ b, (h.block b).instructions = (g.block b).instructions
  owner : ∀ b, (h.block b).owner = (g.block b).owner

theorem SameCode.refl (g : Graph) : SameCode g g := ⟨rfl, fun _ => rfl, fun _ => rfl, fun _ => rfl⟩

theorem SameCode.trans {g h k : Graph} (hgh : SameCode g h) (hhk : SameCode h k) : SameCode g k where
  size := hhk.size.trans hgh.size
  address b := (hhk.address b).trans (hgh.address b)
  instructions b := (hhk.instructions b).trans (hgh.instructions b)
  owner b := (hhk.owner b).trans (hgh.owner b)

theorem getElem_blocks {g : Graph} {b : BlockId} (hb : b < g.blocks.size) :
    g.blocks[b] = g.block b := by
  simp [block, Array.getD, hb]

theorem ext_block {g h : Graph} (hsize : h.size = g.size)
    (hblock : ∀ b < g.size, h.block b = g.block b) : h = g := by
  have hblocks : h.blocks = g.blocks := by
    refine Array.ext hsize fun b hb hb' => ?_
    rw [getElem_blocks hb, getElem_blocks hb']
    exact hblock b hb'
  cases g
  cases h
  exact congrArg Graph.mk hblocks

/-- Only blocks of the graph have edges. -/
theorem lt_size_of_mem_edges {g : Graph} {b : BlockId} {e : Edge} (he : e ∈ g.edges b) :
    b < g.size := by
  by_contra hb
  have hb' : ¬ b < g.blocks.size := hb
  simp [edges, block, Array.getD, hb'] at he

/-- The holder of an address is the first block with an instruction there. -/
theorem holder?_eq_some {g : Graph} {a : Int} {b : BlockId} {i : LinkedInstruction}
    (hb : b < g.size) (hi : i ∈ (g.block b).instructions) (ha : i.address = a)
    (hfirst : ∀ c < b, ∀ j ∈ (g.block c).instructions, j.address ≠ a) : g.holder? a = some b := by
  have hb' : b < g.blocks.size := hb
  unfold holder?
  rw [Array.findIdx?_eq_some_iff_getElem]
  refine ⟨hb', ?_, ?_⟩
  · rw [getElem_blocks hb', List.any_eq_true]
    exact ⟨i, hi, by simp [ha]⟩
  · intro c hc
    rw [getElem_blocks (Nat.lt_trans hc hb'), List.any_eq_true]
    rintro ⟨j, hj, hja⟩
    exact hfirst c hc j hj (by simpa using hja)

@[simp] theorem size_update (g : Graph) (a : BlockId) (f : Block → Block) :
    (g.update a f).size = g.size := by
  simp [update, size]

theorem block_update (g : Graph) (a b : BlockId) (f : Block → Block) :
    (g.update a f).block b = if a = b ∧ b < g.size then f (g.block b) else g.block b := by
  unfold update block size
  rw [Array.getD_eq_getD_getElem?, Array.getD_eq_getD_getElem?, Array.getElem?_modify]
  by_cases hb : b < g.blocks.size
  · by_cases hab : a = b
    · simp [hab, hb]
    · simp [hab]
  · simp [hb]

/-- Changes that do not get in each other's way can be made in either order. -/
theorem update_comm (g : Graph) (a b : BlockId) {f k : Block → Block}
    (hfk : ∀ x, f (k x) = k (f x)) :
    (g.update a f).update b k = (g.update b k).update a f := by
  refine ext_block (by simp only [size_update]) fun c _ => ?_
  simp only [block_update, size_update]
  split <;> split
  · exact (hfk _).symm
  · rfl
  · rfl
  · rfl

theorem size_add (g : Graph) (address : Int) (instructions : List LinkedInstruction)
    (owner : Option Int) : (g.add address instructions owner).size = g.size + 1 :=
  Array.size_push _

theorem block_add (g : Graph) (address : Int) (instructions : List LinkedInstruction)
    (owner : Option Int) (b : BlockId) : (g.add address instructions owner).block b =
      if b = g.size then { address, instructions, owner } else g.block b := by
  unfold add block size
  rw [Array.getD_eq_getD_getElem?, Array.getD_eq_getD_getElem?, Array.getElem?_push]
  split <;> rfl

/-- A block can be changed before or after another is added. -/
theorem update_add {g : Graph} {a : BlockId} (ha : a < g.size) (f : Block → Block) (address : Int)
    (instructions : List LinkedInstruction) (owner : Option Int) :
    (g.add address instructions owner).update a f =
      (g.update a f).add address instructions owner := by
  refine ext_block (by simp only [size_update, size_add]) fun b _ => ?_
  simp only [block_update, block_add, size_update, size_add]
  have hne : a ≠ g.size := Nat.ne_of_lt ha
  by_cases hb : b = g.size
  · simp [hb, hne]
  · by_cases hab : a = b
    · subst hab
      simp [hb, ha, Nat.lt_succ_of_lt ha]
    · simp [hb, hab]

/-- A change that touches no code keeps it. -/
theorem sameCode_update (g : Graph) (a : BlockId) {f : Block → Block}
    (hf : ∀ b, (f b).address = b.address ∧ (f b).instructions = b.instructions ∧
      (f b).owner = b.owner) : SameCode g (g.update a f) := by
  refine ⟨size_update g a f, ?_, ?_, ?_⟩ <;> intro b <;> rw [block_update] <;> split
  · exact (hf _).1
  · rfl
  · exact (hf _).2.1
  · rfl
  · exact (hf _).2.2
  · rfl

theorem sameCode_link (g : Graph) (p c : BlockId) (k : EdgeKind) : SameCode g (g.link p c k) := by
  unfold link
  apply SameCode.trans
  · exact sameCode_update g p (f := fun b => { b with edges := b.edges ++ [⟨c, k⟩] })
      (fun _ => ⟨rfl, rfl, rfl⟩)
  · exact sameCode_update _ c (fun _ => ⟨rfl, rfl, rfl⟩)

section
variable {g : Graph} {b p c : BlockId} {k : EdgeKind}

theorem edges_link (hb : b < g.size) :
    (g.link p c k).edges b = g.edges b ++ if p = b then [⟨c, k⟩] else [] := by
  unfold link edges
  by_cases hcb : c = b <;> by_cases hpb : p = b <;> simp [block_update, hcb, hpb, hb]

theorem parents_link (hb : b < g.size) :
    ((g.link p c k).block b).parents = (g.block b).parents ++ if c = b then [p] else [] := by
  unfold link
  by_cases hcb : c = b <;> by_cases hpb : p = b <;> simp [block_update, hcb, hpb, hb]

end

/-- An edge to add. -/
structure Link where
  parent : BlockId
  child : BlockId
  kind : EdgeKind

/-- Add edges one after the other. -/
def linkAll (g : Graph) (ls : List Link) : Graph :=
  ls.foldl (fun g e => g.link e.parent e.child e.kind) g

theorem linkAll_append (g : Graph) (ls ms : List Link) :
    g.linkAll (ls ++ ms) = (g.linkAll ls).linkAll ms := List.foldl_append

theorem sameCode_linkAll (g : Graph) (ls : List Link) : SameCode g (g.linkAll ls) := by
  induction ls generalizing g with
  | nil => exact .refl g
  | cons e ls ih => exact (sameCode_link g _ _ _).trans (ih _)

section
variable {g : Graph} {b : BlockId}

theorem edges_linkAll (ls : List Link) (hb : b < g.size) :
    (g.linkAll ls).edges b = g.edges b ++
      (ls.filter fun e => e.parent == b).map fun e => ⟨e.child, e.kind⟩ := by
  induction ls generalizing g with
  | nil => simp [linkAll]
  | cons e ls ih =>
    have hb' : b < (g.link e.parent e.child e.kind).size := by rwa [(sameCode_link g _ _ _).size]
    refine (ih hb').trans ?_
    rw [edges_link hb]
    by_cases he : e.parent = b <;> simp [he]

theorem parents_linkAll (ls : List Link) (hb : b < g.size) :
    ((g.linkAll ls).block b).parents = (g.block b).parents ++
      (ls.filter fun e => e.child == b).map Link.parent := by
  induction ls generalizing g with
  | nil => simp [linkAll]
  | cons e ls ih =>
    have hb' : b < (g.link e.parent e.child e.kind).size := by rwa [(sameCode_link g _ _ _).size]
    refine (ih hb').trans ?_
    rw [parents_link hb]
    by_cases he : e.child = b <;> simp [he]

/-- One block more without an edge to it can be added before the edges or after them. -/
theorem linkAll_add {ls : List Link} (hls : ∀ e ∈ ls, e.parent < g.size ∧ e.child < g.size)
    (address : Int) (instructions : List LinkedInstruction) (owner : Option Int) :
    (g.add address instructions owner).linkAll ls =
      (g.linkAll ls).add address instructions owner := by
  induction ls generalizing g with
  | nil => rfl
  | cons e ls ih =>
    obtain ⟨hp, hc⟩ := hls e List.mem_cons_self
    have hlink : (g.add address instructions owner).link e.parent e.child e.kind =
        (g.link e.parent e.child e.kind).add address instructions owner := by
      rw [link, update_add hp, update_add (by rwa [size_update])]
      rfl
    show ((g.add address instructions owner).link e.parent e.child e.kind).linkAll ls = _
    rw [hlink]
    refine ih fun f hf => ?_
    rw [(sameCode_link g _ _ _).size]
    exact hls f (List.mem_cons_of_mem _ hf)

/-- A change that has nothing to do with edges can be made before they are added or after. -/
theorem linkAll_update (ls : List Link) (a : BlockId) {f : Block → Block}
    (hedges : ∀ x es, f { x with edges := x.edges ++ es } =
      { f x with edges := (f x).edges ++ es })
    (hparents : ∀ x ps, f { x with parents := x.parents ++ ps } =
      { f x with parents := (f x).parents ++ ps }) :
    (g.update a f).linkAll ls = (g.linkAll ls).update a f := by
  induction ls generalizing g with
  | nil => rfl
  | cons e ls ih =>
    have hlink : (g.update a f).link e.parent e.child e.kind =
        (g.link e.parent e.child e.kind).update a f := by
      rw [link, update_comm g a e.parent fun x => hedges x _,
        update_comm _ a e.child fun x => hparents x _]
      rfl
    show ((g.update a f).link e.parent e.child e.kind).linkAll ls = _
    rw [hlink]
    exact ih

end

end ScriptFlow.Graph
