import ScriptFlow.Proofs.Flow.Cutting

/-! # Blocks are the runs of code between leaders

The order in which walks come to code, cut it and come back to it leaves no trace in the blocks:
they start exactly at the leaders, and each goes on up to the next leader. -/

namespace ScriptFlow.Flow

/-- The blocks of a graph are the runs of code between leaders. -/
structure LeaderPartition (code : List LinkedInstruction) (roots : List Int) (g : Graph) : Prop where
  /-- Blocks start at the leaders and nowhere else. -/
  leaders : ∀ a, (∃ b < g.size, g.addressOf b = a) ↔ Leader code roots a
  distinct : ∀ b < g.size, ∀ c < g.size, g.addressOf b = g.addressOf c → b = c
  nonempty : ∀ b < g.size, (g.block b).instructions ≠ []
  /-- A block goes on from its leader up to the next one or to the end of the code. -/
  maximal : ∀ b < g.size, ∃ before after, code = before ++ (g.block b).instructions ++ after ∧
    (g.block b).instructions.head?.map (fun i => i.address) = some (g.addressOf b) ∧
    (∀ i ∈ (g.block b).instructions.tail, ¬ Leader code roots i.address) ∧
    ∀ i, after.head? = some i → Leader code roots i.address
  /-- Every instruction is in one block, and that block is the one found by its address. -/
  home : ∀ i ∈ code, ∃ b < g.size, g.holder? i.address = some b ∧ i ∈ (g.block b).instructions ∧
    ∀ c < g.size, i ∈ (g.block c).instructions → c = b

section
variable {l : Layout} {d : Discovery} {b p q : Nat} {s : Start} {i : LinkedInstruction}

theorem assemble_size : (assemble l.code d).size = d.starts.length := by
  rw [assemble_sameCode.size, blocksOf_size]

theorem assemble_instructions (hb : d.starts[b]? = some s) :
    ((assemble l.code d).block b).instructions = cut l.code d.starts s.position := by
  rw [assemble_sameCode.instructions, blocksOf_block hb]
  rfl

theorem assemble_owner (hb : d.starts[b]? = some s) :
    ((assemble l.code d).block b).owner = s.owner := by
  rw [assemble_sameCode.owner, blocksOf_block hb]
  rfl

theorem assemble_addressOf (hb : d.starts[b]? = some s) (hi : l.code[s.position]? = some i) :
    (assemble l.code d).addressOf b = i.address := by
  unfold Graph.addressOf
  rw [assemble_sameCode.address, blocksOf_block hb]
  simp [blockAt, hi]

theorem exists_start (hb : b < (assemble l.code d).size) : ∃ s, d.starts[b]? = some s := by
  rw [assemble_size] at hb
  exact ⟨_, List.getElem?_eq_getElem hb⟩

theorem lt_assemble_size (hb : d.starts[b]? = some s) : b < (assemble l.code d).size := by
  rw [assemble_size]
  exact (List.getElem?_eq_some_iff.mp hb).1

theorem Leader.address_mem (hs : l.Sound) {a : Int} (h : Leader l.code l.roots a) :
    ∃ i ∈ l.code, i.address = a := by
  cases h with
  | first hi => exact ⟨_, List.mem_of_mem_head? hi, rfl⟩
  | root hr => exact hs.roots_known hr
  | target hi hb ht =>
    obtain ⟨j, hj, ht'⟩ := hs.linked.target hi hb
    rw [ht] at ht'
    exact ⟨j, hj, (Option.some.inj ht').symm⟩
  | behind hi he hj => exact ⟨_, List.mem_of_getElem? hj, rfl⟩

namespace Complete

theorem start_leaderAt (hc : Complete l d) (hb : d.starts[b]? = some s) : l.LeaderAt s.position :=
  hc.head_iff.mp (List.mem_map.mpr ⟨s, List.mem_of_getElem? hb, rfl⟩)

theorem exists_start_of_leaderAt (hc : Complete l d) (hp : l.LeaderAt p) :
    ∃ (b : Nat) (s : Start), d.starts[b]? = some s ∧ s.position = p := by
  obtain ⟨s, hs, hsp⟩ := List.mem_map.mp (hc.head_iff.mpr hp)
  obtain ⟨b, hb⟩ := List.getElem?_of_mem hs
  exact ⟨b, s, hb, hsp⟩

/-- Every position is in the block found for it. -/
theorem blockOf_spec (hc : Complete l d) (hp : p < l.code.length) :
    ∃ s, d.starts[blockOf d.starts p]? = some s ∧ s.position ≤ p ∧
      p < nextStart d.starts s.position l.code.length := by
  obtain ⟨b, s, hb, hs0⟩ := hc.exists_start_of_leaderAt (Layout.leaderAt_zero (by omega))
  exact exists_blockOf hc.inv.heads_nodup (List.mem_of_getElem? hb) (by omega) hp

theorem blockOf_start (hc : Complete l d) (hb : d.starts[b]? = some s) :
    blockOf d.starts s.position = b :=
  blockOf_eq hc.inv.heads_nodup hb (Nat.le_refl _) (lt_nextStart_self (hc.start_leaderAt hb).lt)

/-- Positions of one block have the same address only if they are one. -/
theorem mem_instructions (hs : l.Sound) (hc : Complete l d) (hb : d.starts[b]? = some s)
    (hp : l.code[p]? = some i) :
    i ∈ ((assemble l.code d).block b).instructions ↔ blockOf d.starts p = b := by
  rw [assemble_instructions hb, mem_cut]
  constructor
  · rintro ⟨q, hle, hlt, hq⟩
    have hqp := position_unique hs.linked.ordered hq hp rfl
    exact hqp ▸ blockOf_eq hc.inv.heads_nodup hb hle hlt
  · rintro rfl
    obtain ⟨t, ht, hle, hlt⟩ := hc.blockOf_spec (List.getElem?_eq_some_iff.mp hp).1
    rw [hb] at ht
    cases ht
    exact ⟨p, hle, hlt, hp⟩

theorem holder?_eq (hs : l.Sound) (hc : Complete l d) (hp : l.code[p]? = some i) :
    (assemble l.code d).holder? i.address = some (blockOf d.starts p) := by
  obtain ⟨s, hb, -, -⟩ := hc.blockOf_spec (List.getElem?_eq_some_iff.mp hp).1
  have hsize := lt_assemble_size (l := l) hb
  refine Graph.holder?_eq_some hsize ((hc.mem_instructions hs hb hp).mpr rfl) rfl ?_
  intro c hlt j hj ha
  obtain ⟨t, ht⟩ := exists_start (l := l) (Nat.lt_trans hlt hsize)
  have hmem := hj
  rw [assemble_instructions ht] at hmem
  obtain ⟨q, -, -, hq⟩ := mem_cut.mp hmem
  have hqp := position_unique hs.linked.ordered hq hp ha
  subst hqp
  rw [(hc.mem_instructions hs ht hq).mp hj] at hlt
  exact Nat.lt_irrefl _ hlt

/-- Behind the start of a block and in front of the next there is no leader. -/
theorem not_leaderAt_inside (hc : Complete l d) (hlt : s.position < p)
    (hp : p < nextStart d.starts s.position l.code.length) : ¬ l.LeaderAt p := by
  intro hl
  obtain ⟨c, t, ht, rfl⟩ := hc.exists_start_of_leaderAt hl
  have := (lt_nextStart_iff.mp hp).2 t (List.mem_of_getElem? ht) hlt
  omega

theorem maximal_run (hc : Complete l d) (hb : d.starts[b]? = some s) :
    ∃ before after, l.code = before ++ ((assemble l.code d).block b).instructions ++ after ∧
      (∀ i ∈ ((assemble l.code d).block b).instructions.tail, ¬ Leader l.code l.roots i.address) ∧
      ∀ i, after.head? = some i → Leader l.code l.roots i.address := by
  have hlt := (hc.start_leaderAt hb).lt
  refine ⟨l.code.take s.position, l.code.drop (nextStart d.starts s.position l.code.length),
    ?_, ?_, ?_⟩
  · rw [assemble_instructions hb]
    exact cut_append hlt
  · intro i hi hlead
    rw [assemble_instructions hb] at hi
    obtain ⟨k, hk⟩ := List.getElem?_of_mem hi
    rw [List.getElem?_tail, cut_getElem?] at hk
    split at hk
    · rename_i hnext
      exact hc.not_leaderAt_inside (by omega) hnext ⟨i, hk, hlead⟩
    · cases hk
  · intro i hi
    rw [List.head?_drop] at hi
    obtain hend | ⟨t, ht, -, hpos⟩ := nextStart_eq d.starts s.position l.code.length
    · rw [hend, List.getElem?_eq_none (Nat.le_refl _)] at hi
      cases hi
    · obtain ⟨c, hct⟩ := List.getElem?_of_mem ht
      obtain ⟨j, hj, hlead⟩ := hc.start_leaderAt hct
      rw [← hpos, hj] at hi
      cases hi
      exact hlead

theorem leaderPartition (hs : l.Sound) (hc : Complete l d) :
    LeaderPartition l.code l.roots (assemble l.code d) where
  leaders := by
    intro a
    constructor
    · rintro ⟨b, hb, rfl⟩
      obtain ⟨s, hs⟩ := exists_start hb
      obtain ⟨i, hi, hlead⟩ := hc.start_leaderAt hs
      rwa [assemble_addressOf hs hi]
    · intro hlead
      obtain ⟨i, hi, rfl⟩ := hlead.address_mem hs
      obtain ⟨p, hp⟩ := List.getElem?_of_mem hi
      obtain ⟨b, s, hb, rfl⟩ := hc.exists_start_of_leaderAt ⟨i, hp, hlead⟩
      exact ⟨b, lt_assemble_size hb, assemble_addressOf hb hp⟩
  distinct := by
    intro b hb c hc' ha
    obtain ⟨s, hbs⟩ := exists_start hb
    obtain ⟨t, hct⟩ := exists_start hc'
    obtain ⟨i, hi, -⟩ := hc.start_leaderAt hbs
    obtain ⟨j, hj, -⟩ := hc.start_leaderAt hct
    rw [assemble_addressOf hbs hi, assemble_addressOf hct hj] at ha
    have hst := position_unique hs.linked.ordered hi hj ha
    rw [← hc.blockOf_start hbs, hst, hc.blockOf_start hct]
  nonempty := by
    intro b hb hnil
    obtain ⟨s, hbs⟩ := exists_start hb
    obtain ⟨i, hi, -⟩ := hc.start_leaderAt hbs
    have hhead : (cut l.code d.starts s.position).head? = some i := by
      rw [cut_head? (hc.start_leaderAt hbs).lt, hi]
    rw [← assemble_instructions hbs, hnil] at hhead
    cases hhead
  maximal := by
    intro b hb
    obtain ⟨s, hbs⟩ := exists_start hb
    obtain ⟨i, hi, -⟩ := hc.start_leaderAt hbs
    obtain ⟨before, after, hcode, htail, hafter⟩ := hc.maximal_run hbs
    refine ⟨before, after, hcode, ?_, htail, hafter⟩
    rw [assemble_instructions hbs, cut_head? (hc.start_leaderAt hbs).lt, hi,
      assemble_addressOf hbs hi]
    rfl
  home := by
    intro i hi
    obtain ⟨p, hp⟩ := List.getElem?_of_mem hi
    obtain ⟨s, hbs, -, -⟩ := hc.blockOf_spec (List.getElem?_eq_some_iff.mp hp).1
    refine ⟨_, lt_assemble_size hbs, hc.holder?_eq hs hp, (hc.mem_instructions hs hbs hp).mpr rfl, ?_⟩
    intro c hc' hm
    obtain ⟨t, hct⟩ := exists_start hc'
    exact ((hc.mem_instructions hs hct hp).mp hm).symm

end Complete

end

/-! ## Building -/

section
variable {code : List LinkedInstruction} {roots : List (Int × SubroutineKind)}

theorem sound_of_link {is : List Instruction} {store : Code} (hstore : Code.ofList is = .ok store)
    (hlink : store.link = .ok code) (hroots : ∀ r ∈ roots, ∃ i ∈ code, i.address = r.1)
    (hcalls : ∀ i ∈ code, i.opcode = .jsr → ∀ a, i.target = some a → a ∈ roots.map Prod.fst) :
    Layout.Sound ⟨code, roots.map Prod.fst⟩ where
  linked := Code.link_linked (Code.ofList_ordered hstore) hlink
  roots_known := by
    intro a ha
    obtain ⟨r, hr, rfl⟩ := List.mem_map.mp ha
    exact hroots r hr
  calls_known := fun hi hop ht => hcalls _ hi hop _ ht

theorem build_complete (hs : Layout.Sound ⟨code, roots.map Prod.fst⟩) :
    ∃ built d, build code roots = .ok built ∧ built.graph = assemble code d ∧
      built.subroutines = (Order.sortBy Prod.fst roots).map (subroutineOf built.graph d.calls) ∧
      Complete ⟨code, roots.map Prod.fst⟩ d := by
  obtain ⟨d, hd, hc⟩ := discover_complete hs
  refine ⟨{
    graph := assemble code d
    subroutines := (Order.sortBy Prod.fst roots).map (subroutineOf (assemble code d) d.calls)
    events := d.events ++ [.constructed (assemble code d).size code.length] }, d, ?_, rfl, rfl, hc⟩
  simp only [build, hd, bind, Except.bind]
  rfl

/-- Linked code with known roots, all targets of calls among them, always divides into blocks, and
these are the runs between leaders. -/
theorem build_partitions_at_leaders {is : List Instruction} {store : Code}
    (hstore : Code.ofList is = .ok store) (hlink : store.link = .ok code)
    (hroots : ∀ r ∈ roots, ∃ i ∈ code, i.address = r.1)
    (hcalls : ∀ i ∈ code, i.opcode = .jsr → ∀ a, i.target = some a → a ∈ roots.map Prod.fst) :
    ∃ built, build code roots = .ok built ∧
      LeaderPartition code (roots.map Prod.fst) built.graph := by
  have hs := sound_of_link hstore hlink hroots hcalls
  obtain ⟨built, d, hbuilt, hgraph, -, hc⟩ := build_complete hs
  exact ⟨built, hbuilt, hgraph ▸ hc.leaderPartition hs⟩

end

/-- A loop that jumps into the block it ends, a call, and code nothing leads to. -/
def loopAndCall : List Instruction :=
  [⟨13, .rsadd, 3, 2, .none⟩, ⟨15, .cptopsp, 1, 8, .cells (-4) 4⟩, ⟨23, .jz, 0, 6, .offset (-8)⟩,
   ⟨29, .jsr, 0, 6, .offset 10⟩, ⟨35, .retn, 0, 2, .none⟩, ⟨37, .nop, 0, 2, .none⟩,
   ⟨39, .retn, 0, 2, .none⟩]

/-- The same code with its links. -/
def loopAndCallLinked : List LinkedInstruction :=
  [⟨⟨13, .rsadd, 3, 2, .none⟩, some 15, none, .plain⟩,
   ⟨⟨15, .cptopsp, 1, 8, .cells (-4) 4⟩, some 23, none, .label⟩,
   ⟨⟨23, .jz, 0, 6, .offset (-8)⟩, some 29, some 15, .plain⟩,
   ⟨⟨29, .jsr, 0, 6, .offset 10⟩, some 35, some 39, .plain⟩,
   ⟨⟨35, .retn, 0, 2, .none⟩, none, none, .plain⟩,
   ⟨⟨37, .nop, 0, 2, .none⟩, some 39, none, .plain⟩,
   ⟨⟨39, .retn, 0, 2, .none⟩, none, none, .subroutine⟩]

theorem loopAndCall_partitions : Code.ofList loopAndCall = .ok ⟨loopAndCall.toArray⟩ ∧
    Code.link ⟨loopAndCall.toArray⟩ = .ok loopAndCallLinked ∧
    ∃ built, build loopAndCallLinked [(13, .plain), (39, .plain)] = .ok built ∧
      LeaderPartition loopAndCallLinked [13, 39] built.graph :=
  ⟨rfl, rfl, build_partitions_at_leaders
    (show Code.ofList loopAndCall = .ok ⟨loopAndCall.toArray⟩ from rfl) rfl (by decide) (by decide)⟩

end ScriptFlow.Flow
