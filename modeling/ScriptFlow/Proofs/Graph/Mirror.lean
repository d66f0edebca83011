import ScriptFlow.Graph.Neighbours
import ScriptFlow.Proofs.Graph.Marking

/-! # Parents and children mirror each other

Every edge is entered with its parent and with its child. Building changes a graph in five ways only:
not at all, by a new block that is still empty, by code for an empty block, by one more edge, and by
splitting a block, where a new block takes over the rest of its code and all its edges, and takes its
place among the parents of its children. Each of them keeps the two sides equal, also where an edge
leads back to its own block or two edges lead to the same child. -/

namespace ScriptFlow.Graph

/-- The lists of parents and children tell of the same edges between blocks of the graph. That there
are as many kinds as children holds of every graph, for an edge is a child with a kind. -/
structure Mirrored (g : Graph) : Prop where
  kinds : ∀ b, (g.block b).kinds.length = (g.children true b).length
  counts : ∀ p < g.size, ∀ c < g.size,
    (g.children true p).count c = (g.block c).parents.count p
  children_lt : ∀ b < g.size, ∀ c ∈ g.children true b, c < g.size
  parents_lt : ∀ b < g.size, ∀ p ∈ (g.block b).parents, p < g.size

theorem children_true (g : Graph) (b : BlockId) : g.children true b = (g.edges b).map Edge.child := by
  simp [children]

theorem length_kinds (g : Graph) (b : BlockId) :
    (g.block b).kinds.length = (g.children true b).length := by
  simp [children_true, Block.kinds, edges]

/-- A block has the same edges and parents in both graphs. -/
def SameLinks (g h : Graph) (b : BlockId) : Prop :=
  h.edges b = g.edges b ∧ (h.block b).parents = (g.block b).parents

/-- The code of a block is divided: a new block of the same owner takes the rest of it, from the
instruction on that it is named after. -/
structure Divides (g h : Graph) (b : BlockId) : Prop where
  parts : (h.block b).instructions ++ (h.block g.size).instructions = (g.block b).instructions
  front_ne : (h.block b).instructions ≠ []
  first : (h.block g.size).instructions.head?.map (fun i => i.address) =
    some (h.block g.size).address
  heir : (h.block g.size).owner = (g.block b).owner
  code : ∀ c < g.size, c ≠ b → (h.block c).instructions = (g.block c).instructions
  address : ∀ c < g.size, (h.block c).address = (g.block c).address
  owner : ∀ c < g.size, (h.block c).owner = (g.block c).owner

/-- A block is split: a new block takes over the rest of its code and its edges, and what was its child
is now a child of the new one. -/
structure Splits (g h : Graph) (b : BlockId) : Prop extends Divides g h b where
  lt : b < g.size
  size : h.size = g.size + 1
  front : h.edges b = [⟨g.size, .unconditional⟩]
  back : h.edges g.size = g.edges b
  others : ∀ c < g.size, c ≠ b → h.edges c = g.edges c
  parents : ∀ c < g.size,
    (h.block c).parents = (g.block c).parents.map fun p => if p = b then g.size else p
  entered : (h.block g.size).parents = [b]

/-- What building can do to a graph. -/
inductive Rebuilds (g : Graph) : Graph → Prop
  | keep : Rebuilds g g
  | create (address : Int) (owner : Option Int) : Rebuilds g (g.add address [] owner)
  | fill {b : BlockId} (code : List LinkedInstruction) : b < g.size →
      (g.block b).instructions = [] →
      Rebuilds g (g.update b fun x => { x with instructions := code })
  | link {p c : BlockId} (k : EdgeKind) : p < g.size → c < g.size → Rebuilds g (g.link p c k)
  | split {h : Graph} {b : BlockId} : Splits g h b → Rebuilds g h

section
variable {g h : Graph} {b p c : BlockId} {k : EdgeKind}

theorem Mirrored.keep (hm : g.Mirrored) (hsize : h.size = g.size)
    (hsame : ∀ b < g.size, h.children true b = g.children true b ∧
      (h.block b).parents = (g.block b).parents) : h.Mirrored where
  kinds := h.length_kinds
  counts p hp c hc := by
    rw [hsize] at hp hc
    rw [(hsame p hp).1, (hsame c hc).2]
    exact hm.counts p hp c hc
  children_lt b hb := by
    rw [hsize] at hb ⊢
    rw [(hsame b hb).1]
    exact hm.children_lt b hb
  parents_lt b hb := by
    rw [hsize] at hb ⊢
    rw [(hsame b hb).2]
    exact hm.parents_lt b hb

theorem SameLinks.children (hs : SameLinks g h b) : h.children true b = g.children true b := by
  rw [children_true, children_true, hs.1]

theorem Mirrored.create (hm : g.Mirrored) (hsize : h.size = g.size + 1)
    (hsame : ∀ b < g.size, SameLinks g h b) (hedges : h.edges g.size = [])
    (hparents : (h.block g.size).parents = []) : h.Mirrored := by
  have hnew : h.children true g.size = [] := by rw [children_true, hedges]; rfl
  have hcases : ∀ {b}, b < h.size → b < g.size ∨ b = g.size := by
    intro b hb
    omega
  refine ⟨h.length_kinds, fun p hp c hc => ?_, fun b hb c hc => ?_, fun b hb p hp => ?_⟩
  · rcases hcases hp with hp | rfl <;> rcases hcases hc with hc | rfl
    · rw [(hsame p hp).children, (hsame c hc).2]
      exact hm.counts p hp c hc
    · rw [(hsame p hp).children, hparents, List.count_nil, List.count_eq_zero]
      intro hmem
      exact Nat.lt_irrefl _ (hm.children_lt p hp _ hmem)
    · rw [hnew, (hsame c hc).2, List.count_nil, eq_comm, List.count_eq_zero]
      intro hmem
      exact Nat.lt_irrefl _ (hm.parents_lt c hc _ hmem)
    · rw [hnew, hparents]
  · rw [hsize]
    rcases hcases hb with hb | rfl
    · rw [(hsame b hb).children] at hc
      exact Nat.lt_succ_of_lt (hm.children_lt b hb c hc)
    · rw [hnew] at hc
      cases hc
  · rw [hsize]
    rcases hcases hb with hb | rfl
    · rw [(hsame b hb).2] at hp
      exact Nat.lt_succ_of_lt (hm.parents_lt b hb p hp)
    · rw [hparents] at hp
      cases hp

theorem children_link (hb : b < g.size) :
    (g.link p c k).children true b = g.children true b ++ if p = b then [c] else [] := by
  rw [children_true, children_true, edges_link hb]
  by_cases hpb : p = b <;> simp [hpb]

theorem Mirrored.link (hm : g.Mirrored) (hp : p < g.size) (hc : c < g.size) :
    (g.link p c k).Mirrored := by
  have hsize : (g.link p c k).size = g.size := (sameCode_link g p c k).size
  refine ⟨length_kinds _, fun q hq d hd => ?_, fun b hb d hd => ?_, fun b hb q hq => ?_⟩
  · rw [hsize] at hq hd
    rw [children_link hq, parents_link hd, List.count_append, List.count_append,
      hm.counts q hq d hd]
    by_cases hpq : p = q <;> by_cases hcd : c = d <;> simp [hpq, hcd]
  · rw [hsize] at hb ⊢
    rw [children_link hb, List.mem_append] at hd
    rcases hd with hd | hd
    · exact hm.children_lt b hb d hd
    · split at hd
      · exact List.mem_singleton.mp hd ▸ hc
      · cases hd
  · rw [hsize] at hb ⊢
    rw [parents_link hb, List.mem_append] at hq
    rcases hq with hq | hq
    · exact hm.parents_lt b hb q hq
    · split at hq
      · exact List.mem_singleton.mp hq ▸ hp
      · cases hq

/-- In the parents of a child the new block stands where the old one stood. -/
theorem count_replace {ps : List BlockId} {n : BlockId} (hn : ∀ p ∈ ps, p < n) (hb : b < n) :
    (ps.map fun p => if p = b then n else p).count p =
      if p = n then ps.count b else if p = b then 0 else ps.count p := by
  induction ps with
  | nil => simp
  | cons q ps ih =>
    have hq : q ≠ n := Nat.ne_of_lt (hn q (by simp))
    have hbn : b ≠ n := Nat.ne_of_lt hb
    rw [List.map_cons, List.count_cons, ih fun p hp => hn p (List.mem_cons_of_mem _ hp),
      List.count_cons, List.count_cons]
    simp only [beq_iff_eq]
    grind

theorem Mirrored.split (hm : g.Mirrored) (hs : Splits g h b) : h.Mirrored := by
  have hfront : h.children true b = [g.size] := by rw [children_true, hs.front]; rfl
  have hback : h.children true g.size = g.children true b := by
    rw [children_true, children_true, hs.back]
  have hothers : ∀ c < g.size, c ≠ b → h.children true c = g.children true c := by
    intro c hc hcb
    rw [children_true, children_true, hs.others c hc hcb]
  have hcases : ∀ {c}, c < h.size → c < g.size ∨ c = g.size := by
    intro c hc
    have := hs.size
    omega
  have hnone : ∀ p < g.size, (g.children true p).count g.size = 0 := by
    intro p hp
    rw [List.count_eq_zero]
    exact fun hmem => Nat.lt_irrefl _ (hm.children_lt p hp _ hmem)
  have hbn : b ≠ g.size := Nat.ne_of_lt hs.lt
  refine ⟨h.length_kinds, fun p hp c hc => ?_, fun p hp c hc => ?_, fun c hc p hp => ?_⟩
  · rcases hcases hc with hc | rfl
    · -- an old block is a child of the new block wherever it was one of the split block
      rw [hs.parents c hc, count_replace (hm.parents_lt c hc) hs.lt]
      rcases hcases hp with hp | rfl
      · rw [if_neg (Nat.ne_of_lt hp)]
        by_cases hpb : p = b
        · rw [if_pos hpb, hpb, hfront, List.count_eq_zero, List.mem_singleton]
          exact Nat.ne_of_lt hc
        · rw [if_neg hpb, hothers p hp hpb]
          exact hm.counts p hp c hc
      · rw [if_pos rfl, hback]
        exact hm.counts b hs.lt c hc
    · -- the new block is a child of the split block alone
      rw [hs.entered, List.count_singleton]
      rcases hcases hp with hp | rfl
      · by_cases hpb : p = b
        · simp [hpb, hfront]
        · rw [hothers p hp hpb, hnone p hp]
          simp [Ne.symm hpb]
      · rw [hback, hnone b hs.lt]
        simp [hbn]
  · rw [hs.size]
    rcases hcases hp with hp | rfl
    · by_cases hpb : p = b
      · rw [hpb, hfront, List.mem_singleton] at hc
        exact hc ▸ Nat.lt_succ_self _
      · rw [hothers p hp hpb] at hc
        exact Nat.lt_succ_of_lt (hm.children_lt p hp c hc)
    · rw [hback] at hc
      exact Nat.lt_succ_of_lt (hm.children_lt b hs.lt c hc)
  · rw [hs.size]
    rcases hcases hc with hc | rfl
    · rw [hs.parents c hc] at hp
      obtain ⟨q, hq, rfl⟩ := List.mem_map.mp hp
      split
      · exact Nat.lt_succ_self _
      · exact Nat.lt_succ_of_lt (hm.parents_lt c hc q hq)
    · rw [hs.entered, List.mem_singleton] at hp
      exact hp ▸ Nat.lt_succ_of_lt hs.lt

theorem Mirrored.add (hm : g.Mirrored) (address : Int) (instructions : List LinkedInstruction)
    (owner : Option Int) : (g.add address instructions owner).Mirrored := by
  refine hm.create (size_add g ..) (fun b hb => ?_) ?_ ?_
  · rw [SameLinks, edges, edges, block_add, if_neg (Nat.ne_of_lt hb)]
    exact ⟨rfl, rfl⟩
  · rw [edges, block_add, if_pos rfl]
  · rw [block_add, if_pos rfl]

theorem Mirrored.fill (hm : g.Mirrored) (b : BlockId) (code : List LinkedInstruction) :
    (g.update b fun x => { x with instructions := code }).Mirrored := by
  have hsame : ∀ c < g.size, SameLinks g (g.update b fun x => { x with instructions := code }) c := by
    intro c _
    rw [SameLinks, edges, edges, block_update]
    split <;> exact ⟨rfl, rfl⟩
  exact hm.keep (size_update ..) fun c hc => ⟨(hsame c hc).children, (hsame c hc).2⟩

theorem Rebuilds.mirrored (hr : Rebuilds g h) (hm : g.Mirrored) : h.Mirrored := by
  cases hr with
  | keep => exact hm
  | create address owner => exact hm.add address [] owner
  | fill code _ _ => exact hm.fill _ code
  | link k hp hc => exact hm.link hp hc
  | split hs => exact hm.split hs

theorem Mirrored.linkAll {ls : List Link} (hm : g.Mirrored)
    (hls : ∀ e ∈ ls, e.parent < g.size ∧ e.child < g.size) : (g.linkAll ls).Mirrored := by
  induction ls generalizing g with
  | nil => exact hm
  | cons e ls ih =>
    obtain ⟨hp, hc⟩ := hls e (by simp)
    refine ih (hm.link hp hc) fun f hf => ?_
    rw [(sameCode_link g _ _ _).size]
    exact hls f (List.mem_cons_of_mem _ hf)

/-- Marking edges dead changes kinds only. -/
theorem children_bury (g : Graph) (id b : BlockId) (condemned : EdgeKind → Bool) :
    (g.bury id condemned).children true b = g.children true b := by
  rw [children_true, children_true, edges_bury]
  split
  · rw [List.map_map]
    refine List.map_congr_left fun e _ => ?_
    rw [Function.comp_apply, buried]
    split <;> rfl
  · rfl

theorem Mirrored.bury (hm : g.Mirrored) (id : BlockId) (condemned : EdgeKind → Bool) :
    (g.bury id condemned).Mirrored :=
  have hframe := (SameFrame.refl g).bury id condemned
  hm.keep hframe.size fun b _ => ⟨children_bury g id b condemned, hframe.parents b⟩

/-! ## Graphs given by their edges

A graph is often given by a list of edges to enter into blocks that have none yet. What building does
to it can be said of the list. -/

/-- No edge touches a block of the graph. -/
def Bare (g : Graph) : Prop := ∀ b < g.size, g.edges b = [] ∧ (g.block b).parents = []

/-- An edge once a block is split: what left the block leaves the new one. -/
def Link.moved (b n : BlockId) (e : Link) : Link :=
  { e with parent := if e.parent = b then n else e.parent }

variable {ls : List Link}

theorem Bare.edges (hg : g.Bare) (hb : b < g.size) : (g.linkAll ls).edges b =
    (ls.filter fun e => e.parent == b).map fun e => ⟨e.child, e.kind⟩ := by
  rw [edges_linkAll ls hb, (hg b hb).1, List.nil_append]

theorem Bare.parents (hg : g.Bare) (hb : b < g.size) : ((g.linkAll ls).block b).parents =
    (ls.filter fun e => e.child == b).map Link.parent := by
  rw [parents_linkAll ls hb, (hg b hb).2, List.nil_append]

theorem size_linkAll (g : Graph) (ls : List Link) : (g.linkAll ls).size = g.size :=
  (sameCode_linkAll g ls).size

/-- Edges do not matter for how code is divided. -/
theorem Divides.congr {g' h' : Graph} (hd : Divides g h b) (hg : SameCode g g') (hh : SameCode h h') :
    Divides g' h' b := by
  constructor <;> simp only [hg.size, hg.address, hg.instructions, hg.owner, hh.address,
    hh.instructions, hh.owner]
  case parts => exact hd.parts
  case front_ne => exact hd.front_ne
  case first => exact hd.first
  case heir => exact hd.heir
  case code => exact hd.code
  case address => exact hd.address
  case owner => exact hd.owner

/-- One block more that takes over code and edges of another, which leads to it. -/
theorem Bare.splits (hg : g.Bare) (hh : h.Bare) (hcode : Divides g h b)
    (hsize : h.size = g.size + 1) (hb : b < g.size)
    (hls : ∀ e ∈ ls, e.parent < g.size ∧ e.child < g.size) :
    Splits (g.linkAll ls)
      (h.linkAll (ls.map (Link.moved b g.size) ++ [⟨b, g.size, .unconditional⟩])) b := by
  have hbn : b ≠ g.size := Nat.ne_of_lt hb
  have hnew : g.size < h.size := hsize ▸ Nat.lt_succ_self _
  -- which edges leave a block, by where they left from before
  have left : ∀ c, (ls.filter fun e => (e.moved b g.size).parent == c) =
      if c = g.size then ls.filter fun e => e.parent == b
      else if c = b then [] else ls.filter fun e => e.parent == c := by
    intro c
    have hcongr : ∀ P : Link → Bool, (∀ e ∈ ls, ((e.moved b g.size).parent == c) = P e) →
        (ls.filter fun e => (e.moved b g.size).parent == c) = ls.filter P :=
      fun P hP => List.filter_congr hP
    split
    · refine hcongr _ fun e he => ?_
      have hne : e.parent ≠ g.size := Nat.ne_of_lt (hls e he).1
      simp only [Link.moved]
      grind
    · split
      · rw [hcongr (fun _ => false), List.filter_false]
        intro e he
        have hne : e.parent ≠ g.size := Nat.ne_of_lt (hls e he).1
        simp only [Link.moved]
        grind
      · refine hcongr _ fun e he => ?_
        have hne : e.parent ≠ g.size := Nat.ne_of_lt (hls e he).1
        simp only [Link.moved]
        grind
  have hedges : ∀ c < h.size,
      (h.linkAll (ls.map (Link.moved b g.size) ++ [⟨b, g.size, .unconditional⟩])).edges c =
        ((ls.filter fun e => (e.moved b g.size).parent == c).map fun e => ⟨e.child, e.kind⟩) ++
          if b = c then [⟨g.size, .unconditional⟩] else [] := by
    intro c hc
    rw [hh.edges hc, List.filter_append, List.map_append, List.filter_map, List.map_map]
    by_cases hbc : b = c <;> simp [hbc, Function.comp_def, Link.moved]
  constructor <;> try simp only [size_linkAll]
  case toDivides => exact hcode.congr (sameCode_linkAll _ _) (sameCode_linkAll _ _)
  case lt => exact hb
  case size => exact hsize
  case front =>
    rw [hedges b (Nat.lt_trans hb hnew), left, if_neg hbn, if_pos rfl, if_pos rfl]
    rfl
  case back =>
    rw [hedges g.size hnew, left, if_pos rfl, if_neg hbn, List.append_nil, hg.edges hb]
  case others =>
    intro c hc hcb
    rw [hedges c (Nat.lt_trans hc hnew), left, if_neg (Nat.ne_of_lt hc), if_neg hcb,
      if_neg (Ne.symm hcb), List.append_nil, hg.edges hc]
  case parents =>
    intro c hc
    rw [hh.parents (Nat.lt_trans hc hnew), hg.parents hc, List.filter_append, List.map_append,
      List.filter_map, List.map_map, List.map_map]
    simp [Function.comp_def, Link.moved, Ne.symm (Nat.ne_of_lt hc)]
  case entered =>
    rw [hh.parents hnew, List.filter_append, List.map_append, List.filter_map,
      List.filter_eq_nil_iff.mpr]
    · simp
    · intro e he
      simp only [Function.comp_apply, Link.moved, beq_iff_eq]
      exact Nat.ne_of_lt (hls e he).2

end

end ScriptFlow.Graph
