import ScriptFlow.Proofs.Flow.Runs
import ScriptFlow.Proofs.Graph.Rounds

/-! # The order of marking does not matter

The rules are not monotone: once an edge of a block is dead, two of them pass the block over, and the
second test of a value wants a live edge into its block. Yet the edges that die are told by the graph
as it was built. A block of which only some edges are dead has lost the arm those two rules would
take, and a block without a live edge into it loses all of them. So whatever the order, marking ends
with the edges dead that are doomed from the start. -/

namespace ScriptFlow.Flow

/-- The edges bound to die, each by its block and its position there. -/
inductive Doomed (g : Graph) (root : Option BlockId) : BlockId → Nat → Prop
  | constant {b : BlockId} {n : Nat} {e : Edge} : (g.edges b)[n]? = some e →
      (g.block b).constantArm? = some e.kind → Doomed g root b n
  | repeated {b : BlockId} {n : Nat} {e : Edge} {op : Opcode} : root ≠ some b →
      (g.edges b)[n]? = some e → e.kind = .whenFalse → (g.block b).instructions.length = 2 →
      (g.block b).peekJump? = some op → (g.block b).parents ≠ [] →
      (∀ p m e', (g.edges p)[m]? = some e' → e'.child = b →
        ¬ (e'.kind = .whenTrue ∧ (g.block p).peekJump? = some op) → Doomed g root p m) →
      Doomed g root b n
  | absorbed {b : BlockId} {n : Nat} {e : Edge} : root ≠ some b →
      (g.edges b)[n]? = some e → (g.block b).parents ≠ [] →
      (∀ p m e', (g.edges p)[m]? = some e' → e'.child = b → Doomed g root p m) → Doomed g root b n

/-! ## The arm that dies first -/

section
variable {b : Block} {k : EdgeKind}

/-- The kind of edge that a test on a constant or on a value tested before takes from a block. -/
def WeakArm (b : Block) (k : EdgeKind) : Prop :=
  b.constantArm? = some k ∨ b.peekJump?.isSome ∧ k = .whenFalse

theorem isConditional_of_constantArm? (h : b.constantArm? = some k) : k.isConditional = true := by
  unfold Block.constantArm? at h
  split at h
  · split at h
    · cases h
      split <;> rfl
    · cases h
  · cases h

theorem WeakArm.isConditional (h : WeakArm b k) : k.isConditional = true := by
  rcases h with h | ⟨-, rfl⟩
  · exact isConditional_of_constantArm? h
  · rfl

theorem WeakArm.ne_dead (h : WeakArm b k) : k ≠ .dead := by
  rintro rfl
  cases h.isConditional

/-- A jump tests a constant or a copy, not both. -/
theorem peekJump?_eq_none (h : b.constantArm? = some k) : b.peekJump? = none := by
  unfold Block.constantArm? at h
  unfold Block.peekJump?
  split at h
  · rename_i i jump htwo
    split at h
    · rename_i hcond
      simp [hcond.2.1]
    · cases h
  · cases h

theorem WeakArm.eq_of_constantArm? {j : EdgeKind} (h : WeakArm b k) (hj : b.constantArm? = some j) :
    j = k := by
  rcases h with h | ⟨hpeek, -⟩
  · exact Option.some.inj (hj.symm.trans h)
  · rw [peekJump?_eq_none hj] at hpeek
    cases hpeek

theorem WeakArm.eq_of_peekJump? {op : Opcode} (h : WeakArm b k) (hop : b.peekJump? = some op) :
    k = .whenFalse := by
  rcases h with h | ⟨-, rfl⟩
  · rw [peekJump?_eq_none h] at hop
    cases hop
  · rfl

theorem constantArm?_congr {c : Block} (h : c.instructions = b.instructions) :
    c.constantArm? = b.constantArm? := by
  simp only [Block.constantArm?, Block.lastTwo?, h]

theorem peekJump?_congr {c : Block} (h : c.instructions = b.instructions) :
    c.peekJump? = b.peekJump? := by
  simp only [Block.peekJump?, Block.lastTwo?, h]

theorem WeakArm.congr {c : Block} (h : WeakArm b k) (hc : c.instructions = b.instructions) :
    WeakArm c k := by
  unfold WeakArm
  rwa [constantArm?_congr hc, peekJump?_congr hc]

/-- A branch with all its arms alive. -/
theorem isTwoWay_of_live {e : Edge} (he : e ∈ b.edges) (hk : e.kind.isConditional = true)
    (hlive : ∀ e ∈ b.edges, e.kind ≠ .dead) : b.isTwoWay = true := by
  have hdead : EdgeKind.dead ∉ b.kinds := by
    intro hmem
    obtain ⟨f, hf, hkind⟩ := List.mem_map.mp hmem
    exact hlive f hf hkind
  have hany : b.kinds.any EdgeKind.isConditional = true :=
    List.any_eq_true.mpr ⟨e.kind, List.mem_map_of_mem he, hk⟩
  simp [Block.isTwoWay, hdead, hany]

end

section
variable {g h : Graph} {root : Option BlockId} {b : BlockId} {j k : EdgeKind} {n : Nat} {e : Edge}
variable {rule : DeadRule}

/-- Whatever a rule finds to mark in a block, it marks the weak arm as well. -/
theorem condemns_weakArm (hweak : WeakArm (h.block b) k) (hj : h.condemns b rule j = true) :
    h.condemns b rule k = true := by
  cases rule with
  | constantCondition =>
    have harm : (h.block b).constantArm? = some j := by
      simp only [Graph.condemns, Bool.and_eq_true, beq_iff_eq] at hj
      exact hj.2
    rwa [← hweak.eq_of_constantArm? harm]
  | repeatedTest =>
    have hpeek : (h.block b).peekJump?.isSome ∧ j = .whenFalse := by
      simp only [Graph.condemns, Bool.and_eq_true, beq_iff_eq] at hj
      cases hop : (h.block b).peekJump? with
      | none => simp [hop] at hj
      | some op => exact ⟨rfl, hj.1.1.1⟩
    obtain ⟨op, hop⟩ := Option.isSome_iff_exists.mp hpeek.1
    rwa [hweak.eq_of_peekJump? hop, ← hpeek.2]
  | absorbed =>
    simp only [Graph.condemns, Bool.and_eq_true, bne_iff_ne, ne_eq] at hj ⊢
    exact ⟨⟨hweak.ne_dead, hj.1.2⟩, hj.2⟩

theorem buried_dead {condemned : EdgeKind → Bool} :
    (Graph.buried condemned e).kind = .dead ↔ condemned e.kind = true ∨ e.kind = .dead := by
  unfold Graph.buried
  split <;> simp_all

theorem buried_kind_eq {condemned : EdgeKind → Bool} (hk : k ≠ .dead) :
    (Graph.buried condemned e).kind = k ↔ e.kind = k ∧ condemned k = false := by
  unfold Graph.buried
  split
  · rename_i hcond
    constructor
    · exact fun h => absurd h.symm hk
    · rintro ⟨rfl, hspared⟩
      rw [hspared] at hcond
      cases hcond
  · rename_i hspared
    constructor
    · rintro rfl
      exact ⟨rfl, by simpa using hspared⟩
    · exact And.left

/-! ## What marking keeps -/

/-- Every edge is as it was, or doomed and dead. A block that has lost an edge has no weak arm. -/
structure Marked (g : Graph) (root : Option BlockId) (h : Graph) : Prop
    extends Graph.SameFrame g h where
  edge : ∀ (b n : Nat), (h.edges b)[n]? = (g.edges b)[n]? ∨ ∃ e, (g.edges b)[n]? = some e ∧
    (h.edges b)[n]? = some { e with kind := .dead } ∧ Doomed g root b n
  weak : ∀ b k, WeakArm (g.block b) k → ∀ d ∈ h.edges b, d.kind = .dead →
    ∀ e ∈ h.edges b, e.kind ≠ k

theorem Marked.refl (hg : Fresh g) (root : Option BlockId) : Marked g root g where
  toSameFrame := .refl g
  edge _ _ := .inl rfl
  weak b _ _ d hd hdead := absurd hdead (hg.live b d hd)

namespace Marked

/-- A live edge was there from the start. -/
theorem edge_of_live (hh : Marked g root h) (he : (h.edges b)[n]? = some e) (hlive : e.kind ≠ .dead) :
    (g.edges b)[n]? = some e := by
  rcases hh.edge b n with heq | ⟨f, -, hf, -⟩
  · rwa [← heq]
  · rw [he] at hf
    cases hf
    exact absurd rfl hlive

/-- An edge of the graph as it was built is live still, or doomed. -/
theorem live_or_doomed (hh : Marked g root h) (he : (g.edges b)[n]? = some e) :
    (h.edges b)[n]? = some e ∨ Doomed g root b n := by
  rcases hh.edge b n with heq | ⟨-, -, -, hdoomed⟩
  · exact .inl (heq.trans he)
  · exact .inr hdoomed

theorem mem_liveIncoming (hg : Fresh g) (hh : Marked g root h) {p : BlockId}
    (he : (g.edges p)[n]? = some e) (hkept : (h.edges p)[n]? = some e) :
    (p, e.kind) ∈ h.liveIncoming e.child := by
  have hmem := List.mem_of_getElem? he
  refine Graph.mem_liveIncoming.mpr ⟨?_, e, List.mem_of_getElem? hkept, rfl, hg.live p e hmem, rfl⟩
  rw [hh.parents]
  exact hg.mirrored p e hmem

/-- What a rule marks is doomed, given that the edges dead before are. -/
theorem doomed_of_condemns (hg : Fresh g) (hh : Marked g root h)
    (hrule : rule ∈ Graph.rulesFor root b) (he : (g.edges b)[n]? = some e)
    (hcond : h.condemns b rule e.kind = true) : Doomed g root b n := by
  cases rule with
  | constantCondition =>
    simp only [Graph.condemns, Bool.and_eq_true, beq_iff_eq] at hcond
    refine .constant he ?_
    rw [← hcond.2, constantArm?_congr (hh.instructions b)]
  | repeatedTest =>
    have hroot := Graph.ne_root_of_mem_rulesFor hrule (by simp)
    simp only [Graph.condemns, Bool.and_eq_true, beq_iff_eq] at hcond
    obtain ⟨⟨⟨hkind, hlen⟩, -⟩, hcond⟩ := hcond
    split at hcond
    · cases hcond
    · rename_i op hpeek
      simp only [Bool.and_eq_true, List.all_eq_true, beq_iff_eq, Bool.not_eq_true',
        List.isEmpty_eq_false_iff_exists_mem] at hcond
      obtain ⟨⟨⟨q, j⟩, hq⟩, hall⟩ := hcond
      rw [hh.instructions] at hlen
      rw [peekJump?_congr (hh.instructions b)] at hpeek
      refine .repeated hroot he hkind hlen hpeek ?_ fun p m e' he' hchild hother => ?_
      · rw [← hh.parents]
        exact List.ne_nil_of_mem (Graph.mem_liveIncoming.mp hq).1
      · refine (hh.live_or_doomed he').resolve_left fun hkept => hother ?_
        have hin := hh.mem_liveIncoming hg he' hkept
        rw [hchild] at hin
        rw [← peekJump?_congr (hh.instructions p)]
        exact hall _ hin
  | absorbed =>
    have hroot := Graph.ne_root_of_mem_rulesFor hrule (by simp)
    simp only [Graph.condemns, Bool.and_eq_true, Bool.not_eq_true', List.isEmpty_iff,
      List.isEmpty_eq_false_iff, hh.parents] at hcond
    refine .absorbed hroot he hcond.1.2 fun p m e' he' hchild => ?_
    refine (hh.live_or_doomed he').resolve_left fun hkept => ?_
    have hin := hh.mem_liveIncoming hg he' hkept
    rw [hchild, hcond.2] at hin
    cases hin

theorem bury (hg : Fresh g) (hh : Marked g root h) (hrule : rule ∈ Graph.rulesFor root b) :
    Marked g root (h.bury b (h.condemns b rule)) where
  toSameFrame := hh.toSameFrame.bury b _
  edge := by
    intro c n
    rw [Graph.edges_bury]
    split
    · rename_i hcb
      subst hcb
      rw [List.getElem?_map]
      rcases hh.edge c n with heq | ⟨e, he, hdead, hdoomed⟩
      · rw [heq]
        cases he : (g.edges c)[n]? with
        | none => exact .inl rfl
        | some e =>
          by_cases hcond : h.condemns c rule e.kind = true
          · exact .inr ⟨e, rfl, by simp [Graph.buried, hcond], hh.doomed_of_condemns hg hrule he hcond⟩
          · exact .inl (by simp [Graph.buried, hcond])
      · refine .inr ⟨e, he, ?_, hdoomed⟩
        rw [hdead]
        simp [Graph.buried]
    · exact hh.edge c n
  weak := by
    intro c k hweak d hd hdead e he hkind
    rw [Graph.edges_bury] at hd he
    split at hd
    · rename_i hcb
      subst hcb
      rw [if_pos rfl] at he
      obtain ⟨d, hd', rfl⟩ := List.mem_map.mp hd
      obtain ⟨e, he', rfl⟩ := List.mem_map.mp he
      -- the rule spares an edge of the weak arm, so it marks nothing here
      obtain ⟨hkind, hspared⟩ := (buried_kind_eq hweak.ne_dead).mp hkind
      rcases buried_dead.mp hdead with hcond | hdead
      · have hweak' := condemns_weakArm (hweak.congr (hh.instructions c)) hcond
        rw [hspared] at hweak'
        cases hweak'
      · exact hh.weak c k hweak d hd' hdead e he' hkind
    · rename_i hcb
      rw [if_neg hcb] at he
      exact hh.weak c k hweak d hd hdead e he hkind

/-! ## What is left in the end -/

/-- A block with its weak arm left has lost nothing, so it is a branch to all rules. -/
theorem isTwoWay (hh : Marked g root h) (he : (h.edges b)[n]? = some e)
    (hweak : WeakArm (g.block b) e.kind) : (h.block b).isTwoWay = true := by
  have hmem := List.mem_of_getElem? he
  exact isTwoWay_of_live hmem hweak.isConditional fun d hd hdead =>
    hh.weak b e.kind hweak d hd hdead e hmem rfl

/-- In a block that no live edge leads to, nothing is left alive. -/
theorem not_live_of_liveIncoming (hh : Marked g root h) (hidle : h.Idle root b)
    (hroot : root ≠ some b) (hparents : (g.block b).parents ≠ []) (hin : h.liveIncoming b = [])
    (he : (h.edges b)[n]? = some e) : e.kind = .dead := by
  have hspared := hidle .absorbed (by simp [Graph.rulesFor, hroot]) e (List.mem_of_getElem? he)
  simpa [Graph.condemns, hh.parents, hin, hparents] using hspared

/-- Where no rule applies any more, everything doomed is dead. -/
theorem dead_of_doomed (hh : Marked g root h) (hidle : ∀ b < h.size, h.Idle root b)
    (hd : Doomed g root b n) : ∀ e, (h.edges b)[n]? = some e → e.kind = .dead := by
  -- an edge still alive is as it was; the rule that dooms it then applies to its block
  have alive : ∀ {b n : Nat} {e : Edge}, (h.edges b)[n]? = some e → e.kind ≠ .dead →
      (g.edges b)[n]? = some e ∧ h.Idle root b := fun he hlive =>
    ⟨hh.edge_of_live he hlive, hidle _ (Graph.lt_size_of_mem_edges (List.mem_of_getElem? he))⟩
  induction hd with
  | @constant b n e he harm =>
    intro f hf
    by_contra hlive
    obtain ⟨hf', hidle⟩ := alive hf hlive
    cases he.symm.trans hf'
    have htwo := hh.isTwoWay hf (.inl harm)
    rw [← constantArm?_congr (hh.instructions b)] at harm
    have hspared := hidle .constantCondition (by unfold Graph.rulesFor; split <;> simp) e
      (List.mem_of_getElem? hf)
    simp [Graph.condemns, htwo, harm] at hspared
  | @repeated b n e op hroot he hkind hlen hpeek hparents _ ih =>
    intro f hf
    by_contra hlive
    obtain ⟨hf', hidle⟩ := alive hf hlive
    cases he.symm.trans hf'
    have htwo := hh.isTwoWay hf (.inr ⟨by rw [hpeek]; rfl, hkind⟩)
    have hin : h.liveIncoming b ≠ [] := fun hnil =>
      hlive (hh.not_live_of_liveIncoming hidle hroot hparents hnil hf)
    have hall : ∀ q ∈ h.liveIncoming b,
        q.2 = .whenTrue ∧ (h.block q.1).peekJump? = some op := by
      intro q hq
      obtain ⟨-, e', he', hchild, hlive', hkind'⟩ := Graph.mem_liveIncoming.mp hq
      obtain ⟨m, hm⟩ := List.getElem?_of_mem he'
      rw [peekJump?_congr (hh.instructions q.1), ← hkind']
      by_contra hother
      exact hlive' (ih q.1 m e' (hh.edge_of_live hm hlive') hchild hother e' hm)
    rw [← hh.instructions] at hlen
    rw [← peekJump?_congr (hh.instructions b)] at hpeek
    have hspared := hidle .repeatedTest (by simp [Graph.rulesFor, hroot]) e
      (List.mem_of_getElem? hf)
    have hcond : h.condemns b .repeatedTest e.kind = true := by
      simp only [Graph.condemns, hkind, hlen, htwo, hpeek]
      simpa [hin] using fun p j hq => hall (p, j) hq
    rw [hcond] at hspared
    cases hspared
  | @absorbed b n e hroot he hparents _ ih =>
    intro f hf
    by_contra hlive
    obtain ⟨-, hidle⟩ := alive hf hlive
    refine hlive (hh.not_live_of_liveIncoming hidle hroot hparents ?_ hf)
    refine List.eq_nil_iff_forall_not_mem.mpr fun q hq => ?_
    obtain ⟨-, e', he', hchild, hlive', -⟩ := Graph.mem_liveIncoming.mp hq
    obtain ⟨m, hm⟩ := List.getElem?_of_mem he'
    exact hlive' (ih q.1 m e' (hh.edge_of_live hm hlive') hchild e' hm)

end Marked

/-- The graph with nothing but the doomed edges dead. -/
structure Pruned (g : Graph) (root : Option BlockId) (h : Graph) : Prop
    extends Graph.SameFrame g h where
  spared : ∀ {b n : Nat}, ¬ Doomed g root b n → (h.edges b)[n]? = (g.edges b)[n]?
  dead : ∀ {b n : Nat}, Doomed g root b n →
    (h.edges b)[n]? = (g.edges b)[n]?.map fun e => { e with kind := .dead }

theorem markDead_pruned (hg : Fresh g) {listed : List BlockId} (hlisted : ∀ b < g.size, b ∈ listed) :
    Pruned g root (g.markDead listed root).graph := by
  have hmarked : Marked g root (g.markDead listed root).graph := by
    refine Graph.markDead_induction (P := Marked g root) ?_ listed (.refl hg root)
    exact fun h b rule hrule hh => hh.bury hg hrule
  refine ⟨hmarked.toSameFrame, fun {b n} hnot => ?_, fun {b n} hdoomed => ?_⟩
  · exact (hmarked.edge b n).resolve_right fun ⟨_, _, _, hdoomed⟩ => hnot hdoomed
  · have hidle : ∀ b < (g.markDead listed root).graph.size,
        (g.markDead listed root).graph.Idle root b := fun b hb =>
      Graph.markDead_idle g root listed b (hlisted b (hmarked.size ▸ hb))
    rcases hmarked.edge b n with heq | ⟨e, he, hdead, -⟩
    · cases he : (g.edges b)[n]? with
      | none => rw [heq, he]; rfl
      | some e =>
        have hkept := heq.trans he
        have := hg.live b e (List.mem_of_getElem? he)
        exact absurd (hmarked.dead_of_doomed hidle hdoomed e hkept) this
    · rw [hdead, he]
      rfl

theorem Pruned.unique {h' : Graph} (hh : Pruned g root h) (hh' : Pruned g root h') : h = h' := by
  have hblock : ∀ b, h.block b = h'.block b := by
    intro b
    have hedges : (h.block b).edges = (h'.block b).edges := by
      refine List.ext_getElem? fun n => ?_
      by_cases hd : Doomed g root b n
      · exact (hh.dead hd).trans (hh'.dead hd).symm
      · exact (hh.spared hd).trans (hh'.spared hd).symm
    have haddress := (hh.address b).trans (hh'.address b).symm
    have hinstructions := (hh.instructions b).trans (hh'.instructions b).symm
    have howner := (hh.owner b).trans (hh'.owner b).symm
    have hparents := (hh.parents b).trans (hh'.parents b).symm
    cases hb : h.block b
    cases hb' : h'.block b
    simp_all
  have hsize : h.blocks.size = h'.blocks.size := hh.size.trans hh'.size.symm
  have hblocks : h.blocks = h'.blocks := Array.ext hsize fun b hb hb' => by
    rw [Graph.getElem_blocks hb, Graph.getElem_blocks hb', hblock]
  cases h
  cases h'
  exact congrArg Graph.mk hblocks

end

/-! ## Built graphs -/

/-- Whatever the root and in whatever order the blocks of a built graph are looked at, the same edges
die: those doomed from the start. -/
theorem build_markDead_confluent {is : List Instruction} {store : Code}
    {code : List LinkedInstruction} {roots : List (Int × SubroutineKind)}
    (hstore : Code.ofList is = .ok store) (hlink : store.link = .ok code)
    (hroots : ∀ r ∈ roots, ∃ i ∈ code, i.address = r.1)
    (hcalls : ∀ i ∈ code, i.opcode = .jsr → ∀ a, i.target = some a → a ∈ roots.map Prod.fst) :
    ∃ built, build code roots = .ok built ∧
      ∀ root l l', l.Perm built.graph.ids → l'.Perm built.graph.ids →
        (built.graph.markDead l root).graph = (built.graph.markDead l' root).graph ∧
        ∀ b n e, ((built.graph.markDead l root).graph.edges b)[n]? = some e →
          (e.kind = .dead ↔ Doomed built.graph root b n) := by
  have hs := sound_of_link hstore hlink hroots hcalls
  obtain ⟨built, d, hbuilt, hgraph, -, hc⟩ := build_complete hs
  have hfresh := hc.fresh hs
  dsimp only at hfresh
  rw [← hgraph] at hfresh
  have hpruned : ∀ root l, l.Perm built.graph.ids →
      Pruned built.graph root (built.graph.markDead l root).graph := fun root l hl =>
    markDead_pruned hfresh fun b hb => hl.mem_iff.mpr (List.mem_range.mpr hb)
  refine ⟨built, hbuilt, fun root l l' hl hl' => ⟨?_, fun b n e he => ⟨fun hdead => ?_, fun hd => ?_⟩⟩⟩
  · exact (hpruned root l hl).unique (hpruned root l' hl')
  · by_contra hnot
    rw [(hpruned root l hl).spared hnot] at he
    exact hfresh.live b e (List.mem_of_getElem? he) hdead
  · rw [(hpruned root l hl).dead hd] at he
    obtain ⟨f, -, rfl⟩ := Option.map_eq_some_iff.mp he
    rfl

/-- Read backwards, the block behind the second test is passed over at first and takes a round of its
own. -/
theorem testedTwice_confluent : Code.ofList testedTwice = .ok ⟨testedTwice.toArray⟩ ∧
    Code.link ⟨testedTwice.toArray⟩ = .ok testedTwiceLinked ∧
    ∃ built, build testedTwiceLinked [(13, .plain)] = .ok built ∧
      built.graph.ids = [0, 1, 2, 3, 4] ∧
      (built.graph.markDead [0, 1, 2, 3, 4] (some 0)).rounds = 1 ∧
      (built.graph.markDead [4, 3, 2, 1, 0] (some 0)).rounds = 2 ∧
      (built.graph.markDead [0, 1, 2, 3, 4] (some 0)).graph =
        (built.graph.markDead [4, 3, 2, 1, 0] (some 0)).graph := by
  obtain ⟨built, hbuilt, hconfluent⟩ := build_markDead_confluent
    (show Code.ofList testedTwice = .ok ⟨testedTwice.toArray⟩ from rfl)
    (show Code.link ⟨testedTwice.toArray⟩ = .ok testedTwiceLinked from rfl)
    (show ∀ r ∈ [((13 : Int), SubroutineKind.plain)], ∃ i ∈ testedTwiceLinked, i.address = r.1 by
      decide) (by decide)
  have hrounds : (build testedTwiceLinked [(13, .plain)]).map (fun built => (built.graph.ids,
      (built.graph.markDead [0, 1, 2, 3, 4] (some 0)).rounds,
      (built.graph.markDead [4, 3, 2, 1, 0] (some 0)).rounds)) = .ok ([0, 1, 2, 3, 4], 1, 2) := by
    decide +kernel
  rw [hbuilt] at hrounds
  obtain ⟨hids, hforth, hback⟩ : built.graph.ids = [0, 1, 2, 3, 4] ∧ _ ∧ _ := by
    simpa [Except.map] using hrounds
  refine ⟨rfl, rfl, built, hbuilt, hids, hforth, hback, ?_⟩
  rw [hids] at hconfluent
  exact (hconfluent (some 0) [0, 1, 2, 3, 4] [4, 3, 2, 1, 0] (.refl _) (by decide)).1

end ScriptFlow.Flow
