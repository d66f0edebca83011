import ScriptFlow.Proofs.Flow.Contents
import ScriptFlow.Proofs.Flow.Partition

/-! # The graph while it grows

At every moment of a search the starts, the walked code and the edges known so far make a graph. An
action of the search changes that graph as a builder that works on blocks would: it creates an empty
block, fills one, adds an edge, or splits a block where a branch comes to the middle of it. So parents
and children mirror each other while the search goes on, while the returns are entered, and whatever
edges are marked dead later; and the blocks there are in the end are those the starts cut out. -/

namespace ScriptFlow.Flow

/-- The graph of what is found so far. The returns are still missing. -/
def Discovery.graph (l : Layout) (d : Discovery) : Graph :=
  joinBlocks d.starts d.jumps (d.blocksSoFar l)

/-! ## Blocks and starts -/

section
variable {l : Layout} {busy : Option Nat} {d : Discovery} {starts : List Start} {s t : Start}
variable {p q w : Nat} {owner : Option Int} {j : Jump}

theorem blockOf_of_startOf? (h : startOf? starts w = some s) : blockOf starts w = starts.idxOf s := by
  rw [blockOf, h]

/-- One more start leaves the blocks of other starts where they are. -/
theorem blockOf_append (hs : startOf? starts w = some s)
    (hsame : startOf? (starts ++ [t]) w = startOf? starts w) :
    blockOf (starts ++ [t]) w = blockOf starts w := by
  rw [blockOf_of_startOf? hs, blockOf_of_startOf? (hsame.trans hs)]
  exact List.idxOf_append_of_mem (startOf?_spec hs).1

theorem blockOf_new (hnd : ((starts ++ [t]).map Start.position).Nodup)
    (hnew : startOf? (starts ++ [t]) w = some t) : blockOf (starts ++ [t]) w = starts.length := by
  have hfresh : t ∉ starts := by
    have := (List.nodup_append.mp (List.Nodup.of_map _ hnd)).2.2
    exact fun hm => this t hm t (by simp) rfl
  rw [blockOf_of_startOf? hnew, List.idxOf_append_of_notMem hfresh]
  simp

/-- Two positions are in the same block if they have the same start. -/
theorem startOf?_of_blockOf (hs : startOf? starts w = some s) (ht : startOf? starts p = some t)
    (h : blockOf starts w = blockOf starts p) : s = t := by
  rw [blockOf_of_startOf? hs, blockOf_of_startOf? ht] at h
  exact (List.idxOf_inj (startOf?_spec hs).1).mp h

theorem Inv.exists_serving (h : Inv l busy d) (hw : w ∈ d.walked ∨ w ∈ d.heads) :
    ∃ s ∈ d.starts, startOf? d.starts w = some s := by
  rcases hw with hw | hw
  · exact h.exists_startOf? hw
  · obtain ⟨s, hs, rfl⟩ := List.mem_map.mp hw
    exact ⟨s, hs, startOf?_eq h.heads_nodup hs (Nat.le_refl _) (fun _ _ ht => ht)⟩

theorem Inv.blockOf_lt (h : Inv l busy d) (hw : w ∈ d.walked ∨ w ∈ d.heads) :
    blockOf d.starts w < d.starts.length := by
  obtain ⟨s, hs, hws⟩ := h.exists_serving hw
  rw [blockOf_of_startOf? hws]
  exact List.idxOf_lt_length_of_mem hs

theorem Inv.source_walked (h : Inv l busy d) (hj : j ∈ d.jumps) : j.source ∈ d.walked := by
  by_contra hn
  have hmem : j ∈ d.jumpsFrom j.source := List.mem_filter.mpr ⟨hj, by simp⟩
  rw [h.no_jumps hn] at hmem
  cases hmem

theorem Inv.jumpLinks_lt (h : Inv l busy d) : ∀ e ∈ jumpLinks d,
    e.parent < d.starts.length ∧ e.child < d.starts.length := by
  intro e he
  obtain ⟨j, hj, rfl⟩ := List.mem_map.mp he
  exact ⟨h.blockOf_lt (.inl (h.source_walked hj)), h.blockOf_lt (.inr (h.jump_head hj))⟩

/-- In the middle of a block the edges leave behind. -/
theorem Inv.le_source (h : Inv l busy d) (hp : p ∈ d.walked) (hj : j ∈ d.jumps)
    (hblock : blockOf d.starts j.source = blockOf d.starts p) : p ≤ j.source := by
  by_contra hlt
  obtain ⟨s, hs, hsource⟩ := h.exists_serving (.inl (h.source_walked hj))
  obtain ⟨t, -, hpt⟩ := h.exists_serving (.inl hp)
  obtain rfl := startOf?_of_blockOf hsource hpt hblock
  obtain ⟨-, hle, -⟩ := startOf?_spec hsource
  obtain ⟨-, -, hmax⟩ := startOf?_spec hpt
  have hfree : ∀ x, j.source < x → x ≤ p → x ∉ d.heads := by
    intro x hx hxp hm
    obtain ⟨u, hu, rfl⟩ := List.mem_map.mp hm
    have := hmax u hu hxp
    omega
  -- so the source falls through into walked code that starts no block, and no edge leaves it
  obtain ⟨-, hall⟩ := h.walked_back hp (by omega) hfree
  have hends := (hall j.source (Nat.le_refl _) (by omega)).2
  have hnext : j.source + 1 ∉ d.heads := hfree _ (by omega) (by omega)
  have hwalked : j.source + 1 ∈ d.walked := by
    by_cases hlast : j.source + 1 = p
    · exact hlast ▸ hp
    · exact (hall _ (by omega) (by omega)).1
  by_cases hb : busy = some j.source
  · exact hnext (h.busy_head hb hwalked)
  · have hmem : j ∈ d.jumpsFrom j.source := List.mem_filter.mpr ⟨hj, by simp⟩
    rw [h.jumps hb (h.source_walked hj), Layout.outgoing, hends, if_neg Bool.false_ne_true,
      if_neg hnext] at hmem
    cases hmem

/-! ## One more start -/

theorem Inv.graph_open (h : Inv l busy d) (hh : p ∉ d.heads) (hw : p ∉ d.walked) (o : Option Int)
    (pending : List Nat) : Graph.Rebuilds (d.graph l)
      (Discovery.graph l { d with starts := d.starts ++ [⟨p, o⟩], pending := pending }) := by
  have hlinks : jumpLinks { d with starts := d.starts ++ [⟨p, o⟩], pending := pending } =
      jumpLinks d := by
    refine List.map_congr_left fun j hj => ?_
    have same : ∀ {w}, w ∈ d.walked ∨ w ∈ d.heads →
        blockOf (d.starts ++ [⟨p, o⟩]) w = blockOf d.starts w := by
      intro w hw'
      obtain ⟨s, -, hs⟩ := h.exists_serving hw'
      exact blockOf_append hs (h.startOf?_open hh hw o hw')
    rw [same (.inl (h.source_walked hj)), same (.inr (h.jump_head hj))]
  have hblocks := h.blocks_open (o := o) (e := { d with
    starts := d.starts ++ [⟨p, o⟩], pending := pending }) rfl rfl hh hw
  unfold Discovery.graph
  rw [joinBlocks_eq, joinBlocks_eq, hlinks, hblocks,
    Graph.linkAll_add (by rw [blocksSoFar_size]; exact h.jumpLinks_lt)]
  exact .create _ _

/-- A start in the middle of a block takes over the edges of the block. -/
theorem Inv.blockOf_split (h : Inv l busy d) (hh : p ∉ d.heads) (hw : p ∈ d.walked)
    (o : Option Int) (hj : j ∈ d.jumps) : blockOf (d.starts ++ [⟨p, o⟩]) j.source =
      if blockOf d.starts j.source = blockOf d.starts p then d.starts.length
      else blockOf d.starts j.source := by
  have hnd := h.heads_append_nodup hh o
  obtain ⟨s, hs, hsource⟩ := h.exists_serving (.inl (h.source_walked hj))
  obtain hsame | ⟨hnew, -, hold, -⟩ := startOf?_append (w := j.source) hnd
  · rw [blockOf_append hsource hsame, if_neg]
    intro hblock
    obtain ⟨-, -, hmax⟩ := startOf?_spec (hsame.trans hsource)
    have hps : p ≤ s.position := hmax ⟨p, o⟩ (by simp) (h.le_source hw hj hblock)
    obtain ⟨t, ht, hpt⟩ := h.exists_serving (.inl hw)
    obtain rfl := startOf?_of_blockOf hsource hpt hblock
    obtain ⟨-, hsp, -⟩ := startOf?_spec hpt
    obtain rfl : s.position = p := Nat.le_antisymm hsp hps
    exact hh (List.mem_map_of_mem hs)
  · rw [blockOf_new hnd hnew, if_pos]
    rw [blockOf, blockOf, hold]

/-- The edges of a split block leave the new block, and one more edge leads to it. -/
theorem Inv.jumpLinks_split (h : Inv l busy d) (hh : p ∉ d.heads) (hw : p ∈ d.walked)
    (o : Option Int) : jumpLinks
      { d with
        starts := d.starts ++ [⟨p, o⟩]
        jumps := d.jumps ++ [⟨p - 1, p, .unconditional⟩] } =
      (jumpLinks d).map (Graph.Link.moved (blockOf d.starts p) d.starts.length) ++
        [⟨blockOf d.starts p, d.starts.length, .unconditional⟩] := by
  have hnd := h.heads_append_nodup hh o
  obtain ⟨q, hpq, hq, -⟩ := h.entered hw hh
  -- the position in front stays in the block that is split
  have hfront : blockOf (d.starts ++ [⟨p, o⟩]) (p - 1) = blockOf d.starts p := by
    obtain ⟨s, -, hs⟩ := h.exists_serving (.inl hq)
    have hqp : startOf? d.starts p = startOf? d.starts q := by
      refine startOf?_congr h.heads_nodup (by omega) fun r h1 h2 => ?_
      obtain rfl : r = p := by omega
      exact hh
    rw [show p - 1 = q by omega, blockOf_append hs]
    · rw [blockOf, blockOf, hqp]
    · obtain hsame | ⟨-, hle, -⟩ := startOf?_append (w := q) hnd
      · exact hsame
      · simp only at hle
        omega
  have hnew : blockOf (d.starts ++ [⟨p, o⟩]) p = d.starts.length :=
    blockOf_new hnd (startOf?_eq hnd (by simp) (Nat.le_refl _) fun t _ ht => ht)
  have htarget : ∀ {w}, w ∈ d.heads → blockOf (d.starts ++ [⟨p, o⟩]) w = blockOf d.starts w := by
    intro w hm
    obtain ⟨s, hs, rfl⟩ := List.mem_map.mp hm
    have hs' : startOf? d.starts s.position = some s :=
      startOf?_eq h.heads_nodup hs (Nat.le_refl _) fun _ _ ht => ht
    refine blockOf_append hs' ?_
    rw [hs']
    exact startOf?_eq hnd (List.mem_append_left _ hs) (Nat.le_refl _) fun _ _ ht => ht
  unfold jumpLinks
  rw [List.map_append, List.map_map]
  congr 1
  · refine List.map_congr_left fun j hj => ?_
    rw [h.blockOf_split hh hw o hj, htarget (h.jump_head hj)]
    rfl
  · rw [List.map_singleton, hfront, hnew]

theorem Inv.graph_split (h : Inv l busy d) (hh : p ∉ d.heads) (hw : p ∈ d.walked) :
    Graph.Rebuilds (d.graph l) (Discovery.graph l
      { d with
        starts := d.starts ++ [⟨p, d.ownerOf p⟩]
        jumps := d.jumps ++ [⟨p - 1, p, .unconditional⟩] }) := by
  unfold Discovery.graph
  rw [joinBlocks_eq, joinBlocks_eq, h.jumpLinks_split hh hw (d.ownerOf p)]
  refine .split (b := blockOf d.starts p) ?_
  have hsize : (d.blocksSoFar l).size = d.starts.length := blocksSoFar_size
  rw [← hsize]
  refine (blocksSoFar_bare _ _).splits (blocksSoFar_bare _ _)
    (h.blocks_divide (by rfl) (by rfl) hh hw) ?_ ?_ ?_
  · rw [blocksSoFar_size, blocksSoFar_size, List.length_append]
    rfl
  · rw [hsize]
    exact h.blockOf_lt (.inl hw)
  · rw [hsize]
    exact h.jumpLinks_lt

theorem Inv.graph_request (h : Inv l busy d) :
    Graph.Rebuilds (d.graph l) ((d.request l p owner).graph l) := by
  obtain ⟨-, he⟩ | ⟨hh, hw, he⟩ | ⟨hh, hw, he⟩ := request_cases l p owner d
  · rw [he]
    exact .keep
  · rw [he]
    exact h.graph_split hh hw
  · rw [he]
    exact h.graph_open hh hw _ _

theorem size_graph : (d.graph l).size = d.starts.length := by
  rw [Discovery.graph, joinBlocks_eq, Graph.size_linkAll, blocksSoFar_size]

theorem graph_jump (hq : blockOf d.starts q < d.starts.length)
    (hp : blockOf d.starts p < d.starts.length) (k : EdgeKind) :
    Graph.Rebuilds (d.graph l) ((d.jump q p k).graph l) := by
  have hlink : (d.jump q p k).graph l =
      (d.graph l).link (blockOf d.starts q) (blockOf d.starts p) k := by
    show joinBlocks d.starts (d.jumps ++ [⟨q, p, k⟩]) _ = _
    rw [joinBlocks, List.foldl_append]
    rfl
  rw [hlink]
  exact .link k (by rwa [size_graph]) (by rwa [size_graph])

theorem Inv.graph_claim {rest : List Nat} (h : Inv l none d) (hpend : d.pending = p :: rest)
    (hpq : p ≤ q) (hq : q < l.code.length) (hfree : ∀ r, p ≤ r → r < q → r + 1 ∉ d.heads) :
    Graph.Rebuilds (d.graph l) ((Flow.claim d rest p q).graph l) := by
  obtain ⟨b, hb, hempty, code, hblocks⟩ := h.blocks_claim hpend hpq hq hfree
  have hfill : (Flow.claim d rest p q).graph l =
      (d.graph l).update b fun x => { x with instructions := code } := by
    rw [Discovery.graph, Discovery.graph, joinBlocks_eq, joinBlocks_eq, hblocks]
    exact Graph.linkAll_update _ _ (fun _ _ => rfl) (fun _ _ => rfl)
  rw [hfill]
  refine .fill code (by rwa [size_graph]) ?_
  rw [Discovery.graph, joinBlocks_eq, (Graph.sameCode_linkAll _ _).instructions, hempty]

end

/-! ## From the first block to the last mark -/

section
variable {l : Layout} {st st' : Stage} {d : Discovery} {g : Graph}

/-- An action of the search creates a block, fills one, adds an edge or splits a block, or leaves the
graph as it is. -/
theorem Acts.rebuilds (h : Sane l st) (hact : Acts l st st') :
    Graph.Rebuilds (st.found.graph l) (st'.found.graph l) := by
  cases hact with
  | root | orphan | follow => exact h.inv.graph_request
  | jump ht =>
    exact graph_jump (h.inv.blockOf_lt (.inl (h.busy_walked rfl))) (h.inv.blockOf_lt (.inr ht)) _
  | claim hpend hpq hq hfree _ =>
    exact h.inv.graph_claim hpend hpq hq fun r h1 h2 => (hfree r h1 h2).2.1
  | call | report | done => exact .keep

theorem Stage.Reached.mirrored (hl : Linked l.code) (h : st.Reached l) :
    (st.found.graph l).Mirrored := by
  induction h with
  | refl => exact ⟨Graph.length_kinds _, nofun, nofun, nofun⟩
  | tail hpath hact ih => exact (hact.rebuilds (Stage.Reached.sane hl hpath)).mirrored ih

theorem Sane.returnLinks_lt (h : Sane l st) : ∀ e ∈ returnLinks l.code st.found,
    e.parent < st.found.starts.length ∧ e.child < st.found.starts.length := by
  intro e he
  obtain ⟨c, hc, he⟩ := List.mem_flatMap.mp he
  obtain ⟨b, hb, rfl⟩ := List.mem_map.mp he
  have hlt : b < (blocksOf l.code st.found.starts).size :=
    List.mem_range.mp (List.mem_filter.mp hb).1
  rw [blocksOf_size] at hlt
  exact ⟨hlt, h.inv.blockOf_lt (.inr (h.back_head hc))⟩

/-- The graphs there are at some time: while the search goes on, while the returns are entered once it
rests, and when rules have marked edges dead. -/
inductive Arises (l : Layout) : Graph → Prop
  | found {st : Stage} : st.Reached l → Arises l (st.found.graph l)
  | returning {d : Discovery} (n : Nat) : Rests l d →
      Arises l ((d.graph l).linkAll ((returnLinks l.code d).take n))
  | marked {g : Graph} (id : BlockId) (rule : DeadRule) : Arises l g →
      Arises l (g.applyRule id rule).1

theorem Arises.mirrored (hl : Linked l.code) (h : Arises l g) : g.Mirrored := by
  induction h with
  | found hreached => exact hreached.mirrored hl
  | @returning d n hrests =>
    have hs := hrests.reached.sane hl
    refine (hrests.reached.mirrored hl).linkAll fun e he => ?_
    rw [size_graph]
    exact hs.returnLinks_lt e (List.mem_of_mem_take he)
  | marked id rule _ ih =>
    rw [Graph.applyRule_graph]
    exact ih.bury id _

/-- Passes over the blocks apply rules only. -/
theorem Arises.markDead (h : Arises l g) (listed : List BlockId) (root : Option BlockId) :
    Arises l (g.markDead listed root).graph := by
  refine Graph.markDead_induction (P := Arises l) ?_ listed h
  intro g id rule _ hg
  rw [← Graph.applyRule_graph]
  exact hg.marked id rule

/-- When everything is walked, the graph is that of the blocks the starts cut out of the code. -/
theorem assemble_arises (hl : Linked l.code) (h : Rests l d)
    (hwalked : ∀ p < l.code.length, p ∈ d.walked) : Arises l (assemble l.code d) := by
  have hall := Arises.returning (returnLinks l.code d).length h
  rwa [List.take_length, Discovery.graph, (h.reached.sane hl).inv.blocksSoFar_eq hwalked,
    joinBlocks_eq, ← Graph.linkAll_append, ← assemble_eq] at hall

theorem build_arises {code : List LinkedInstruction} {roots : List (Int × SubroutineKind)}
    {built : Built} (hl : Linked code) (h : build code roots = .ok built) :
    Arises ⟨code, roots.map Prod.fst⟩ built.graph := by
  obtain ⟨d, hd, h⟩ := bind_eq_ok.mp h
  cases h
  obtain ⟨hrests, hwalked⟩ := discover_rests hl hd
  exact assemble_arises hl hrests hwalked

end

/-- Parents and children mirror each other at all times: a walk is a sequence of actions, each action
changes the graph as a builder of blocks does, passes that mark edges dead may follow in any number,
and of every graph on the way the two sides are equal. -/
structure AlwaysMirrored (l : Layout) : Prop where
  walks : ∀ {d e : Discovery} {p : Nat} {rest : List Nat}, Stage.Reached l ⟨none, d⟩ →
    d.pending = p :: rest → walk l p { d with pending := rest } = .ok e →
    Relation.ReflTransGen (Acts l) ⟨none, d⟩ ⟨none, e⟩
  rebuilds : ∀ {st st' : Stage}, st.Reached l → Acts l st st' →
    Graph.Rebuilds (st.found.graph l) (st'.found.graph l)
  passes : ∀ {g : Graph} (listed : List BlockId) (root : Option BlockId), Arises l g →
    Arises l (g.markDead listed root).graph
  mirrored : ∀ {g : Graph}, Arises l g → g.Mirrored

theorem alwaysMirrored {l : Layout} (hl : Linked l.code) : AlwaysMirrored l where
  walks hreached hpend he := (walk_acts hl (hreached.sane hl) hpend he).1
  rebuilds hreached hact := hact.rebuilds (hreached.sane hl)
  passes listed root hg := hg.markDead listed root
  mirrored hg := hg.mirrored hl

/-- Linked code with known roots, all targets of calls among them, is always built, and parents and
children mirror each other from the first block to the last dead edge. -/
theorem build_always_mirrored {is : List Instruction} {store : Code}
    {code : List LinkedInstruction} {roots : List (Int × SubroutineKind)}
    (hstore : Code.ofList is = .ok store) (hlink : store.link = .ok code)
    (hroots : ∀ r ∈ roots, ∃ i ∈ code, i.address = r.1)
    (hcalls : ∀ i ∈ code, i.opcode = .jsr → ∀ a, i.target = some a → a ∈ roots.map Prod.fst) :
    AlwaysMirrored ⟨code, roots.map Prod.fst⟩ ∧
      ∃ built, build code roots = .ok built ∧
        Arises ⟨code, roots.map Prod.fst⟩ built.graph := by
  have hs := sound_of_link hstore hlink hroots hcalls
  obtain ⟨built, -, hbuilt, -⟩ := build_complete hs
  exact ⟨alwaysMirrored hs.linked, built, hbuilt, build_arises hs.linked hbuilt⟩

/-- Here a branch splits its own block between its two edges. -/
theorem loopAndCall_mirrored : Code.ofList loopAndCall = .ok ⟨loopAndCall.toArray⟩ ∧
    Code.link ⟨loopAndCall.toArray⟩ = .ok loopAndCallLinked ∧
    AlwaysMirrored ⟨loopAndCallLinked, [13, 39]⟩ ∧
      ∃ built, build loopAndCallLinked [(13, .plain), (39, .plain)] = .ok built ∧
        Arises ⟨loopAndCallLinked, [13, 39]⟩ built.graph :=
  ⟨rfl, rfl, @build_always_mirrored loopAndCall ⟨loopAndCall.toArray⟩ loopAndCallLinked
    [(13, .plain), (39, .plain)] rfl rfl (by decide) (by decide)⟩

end ScriptFlow.Flow
