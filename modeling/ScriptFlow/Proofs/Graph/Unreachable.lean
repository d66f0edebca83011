import ScriptFlow.Graph.Dead
import ScriptFlow.Proofs.Graph.Duality
import ScriptFlow.Proofs.Graph.Marking
import ScriptFlow.Proofs.Graph.Search
import ScriptFlow.Proofs.Order

/-! # Blocks that are not reached

What the search along live edges does not note is unreachable. A block that marking absorbs has no live
edge into it; unless execution starts there, it was unreachable already, and to lose its edges then
cuts off no other block. -/

namespace ScriptFlow.Graph

/-- A search along live edges. -/
def followsLive (_ : BlockId) (e : Edge) : Bool := e.kind != .dead

/-- What the query for unreachable blocks tells of listed blocks. -/
structure TellsUnreached (g : Graph) (listed : List BlockId) (root : Option BlockId) : Prop where
  /-- Its search ends, and one way only. -/
  ends : ∀ found, Collects g followsLive [] root.toList found ↔ found = g.reached root
  /-- A block that is reached is left out, -/
  omits : ∀ b, g.Reaches root b → b ∉ g.unreachable listed root
  /-- and any other is told as often as it is listed. -/
  tells : ∀ b, ¬ g.Reaches root b → (g.unreachable listed root).count b = listed.count b
  ordered : (g.unreachable listed root).Pairwise fun b c => g.addressOf b < g.addressOf c ∨ b = c
  rootless : root = none → (g.unreachable listed root).Perm listed
  /-- To absorb a block other than the root changes no answer. -/
  absorbed : ∀ id, root ≠ some id →
    (g.applyRule id .absorbed).1.unreachable listed root = g.unreachable listed root

section
variable {g h : Graph} {seen : List Int} {stack listed : List BlockId} {root : Option BlockId}
  {b c id : BlockId}

/-! ## The search -/

/-- With more fuel than there is to do the bounded search is the loop. -/
theorem collects_liveSearch {fuel : Nat} (hf : g.workLeft seen stack < fuel) :
    Collects g followsLive seen stack (g.liveSearch fuel seen stack) := by
  induction fuel generalizing seen stack with
  | zero => omega
  | succ fuel ih =>
    cases stack with
    | nil => exact .done
    | cons b stack =>
      rw [liveSearch]
      by_cases hseen : g.addressOf b ∈ seen
      · rw [if_pos (List.contains_iff_mem.mpr hseen)]
        have hless := workLeft_skip g seen b stack
        exact .skip hseen (ih (by omega))
      · rw [if_neg (mt List.contains_iff_mem.mp hseen)]
        have hless := workLeft_note followsLive stack hseen
        exact .note hseen (ih (by omega))

theorem collects_reached (g : Graph) (root : Option BlockId) :
    Collects g followsLive [] root.toList (g.reached root) :=
  collects_liveSearch (workLeft_start g (by cases root <;> simp))

theorem mem_onward_followsLive : c ∈ g.onward followsLive b ↔ g.LeadsLive b c := by
  simp only [mem_onward, followsLive, bne_iff_ne, LeadsLive]

theorem contains_reached (hg : g.Addressed) (hroot : ∀ r, root = some r → r < g.size)
    (hb : b < g.size) : (g.reached root).contains (g.addressOf b) = true ↔ g.Reaches root b := by
  have hstart : ∀ r ∈ root.toList, r < g.size := fun r hr => hroot r (Option.mem_toList.mp hr)
  rw [List.contains_iff_mem, (collects_reached g root).exact hg hstart hb]
  simp only [mem_onward_followsLive, Option.mem_toList, Reaches]

/-! ## The answer -/

theorem unreachable_perm (g : Graph) (listed : List BlockId) (root : Option BlockId) :
    (g.unreachable listed root).Perm
      (listed.filter fun b => !(g.reached root).contains (g.addressOf b)) :=
  Order.perm_sortBy _ _

theorem mem_of_mem_unreachable (hb : b ∈ g.unreachable listed root) : b ∈ listed :=
  List.mem_of_mem_filter ((unreachable_perm g listed root).mem_iff.mp hb)

theorem not_mem_unreachable (hg : g.Addressed) (hroot : ∀ r, root = some r → r < g.size)
    (hlisted : ∀ b ∈ listed, b < g.size) (hb : g.Reaches root b) :
    b ∉ g.unreachable listed root := by
  intro hmem
  have hlt := hlisted b (mem_of_mem_unreachable hmem)
  rw [(unreachable_perm g listed root).mem_iff, List.mem_filter,
    (contains_reached hg hroot hlt).mpr hb] at hmem
  cases hmem.2

theorem count_unreachable (hg : g.Addressed) (hroot : ∀ r, root = some r → r < g.size)
    (hlisted : ∀ b ∈ listed, b < g.size) (hb : ¬ g.Reaches root b) :
    (g.unreachable listed root).count b = listed.count b := by
  by_cases hmem : b ∈ listed
  · rw [(unreachable_perm g listed root).count_eq, List.count_filter]
    rw [Bool.not_eq_true', Bool.eq_false_iff]
    exact mt (contains_reached hg hroot (hlisted b hmem)).mp hb
  · rw [List.count_eq_zero.mpr hmem, List.count_eq_zero]
    exact mt mem_of_mem_unreachable hmem

theorem unreachable_ordered (hg : g.Addressed) (hlisted : ∀ b ∈ listed, b < g.size) :
    (g.unreachable listed root).Pairwise fun b c => g.addressOf b < g.addressOf c ∨ b = c := by
  refine (Order.pairwise_sortBy g.addressOf _).imp_of_mem fun {b c} hb hc hle => ?_
  rcases Int.lt_or_eq_of_le hle with hlt | heq
  · exact .inl hlt
  · have hblt := hlisted b (mem_of_mem_unreachable hb)
    have hclt := hlisted c (mem_of_mem_unreachable hc)
    exact .inr (hg.distinct b hblt c hclt heq)

theorem unreachable_none (g : Graph) (listed : List BlockId) :
    (g.unreachable listed none).Perm listed := by
  refine (unreachable_perm g listed none).trans (.of_eq ?_)
  exact List.filter_eq_self.mpr fun b _ => rfl

/-! ## Absorbing a block -/

/-- The answer depends on the blocks reached and on the addresses. -/
theorem unreachable_congr (hg : g.Addressed) (hh : h.Addressed) (hsame : SameCode g h)
    (hroot : ∀ r, root = some r → r < g.size) (hlisted : ∀ b ∈ listed, b < g.size)
    (hreach : ∀ b, h.Reaches root b ↔ g.Reaches root b) :
    h.unreachable listed root = g.unreachable listed root := by
  have haddress : h.addressOf = g.addressOf := funext hsame.address
  have hroot' : ∀ r, root = some r → r < h.size := by rwa [hsame.size]
  unfold unreachable byAddress
  rw [haddress]
  refine congrArg (Order.sortBy g.addressOf) (List.filter_congr fun b hb => ?_)
  have hlt := hlisted b hb
  have hseen : (h.reached root).contains (g.addressOf b) =
      (g.reached root).contains (g.addressOf b) := by
    rw [Bool.eq_iff_iff, contains_reached hg hroot hlt, ← hreach, ← haddress]
    exact contains_reached hh hroot' (hsame.size ▸ hlt)
  rw [hseen]

theorem Mirrored.child_lt (hm : g.Mirrored) (b : BlockId) : ∀ e ∈ g.edges b, e.child < g.size := by
  intro e he
  refine hm.children_lt b (lt_size_of_mem_edges he) e.child ?_
  exact mem_children.mpr ⟨e, he, rfl, .inl rfl⟩

theorem Addressed.bury (hg : g.Addressed) (id : BlockId) (condemned : EdgeKind → Bool) :
    (g.bury id condemned).Addressed := by
  have hframe := (SameFrame.refl g).bury id condemned
  refine ⟨fun b e he => ?_, fun b hb c hc heq => ?_⟩
  · rw [hframe.size]
    rw [edges_bury] at he
    split at he
    · obtain ⟨e₀, he₀, rfl⟩ := List.mem_map.mp he
      have hchild : (buried condemned e₀).child = e₀.child := by
        unfold buried
        split <;> rfl
      rw [hchild]
      exact hg.child_lt b e₀ he₀
    · exact hg.child_lt b e he
  · rw [hframe.size] at hb hc
    refine hg.distinct b hb c hc ?_
    rwa [addressOf, addressOf, hframe.address, hframe.address] at heq

/-- What is live after marking was live before. -/
theorem LeadsLive.of_bury {condemned : EdgeKind → Bool}
    (hlive : (g.bury id condemned).LeadsLive b c) : g.LeadsLive b c := by
  obtain ⟨e, he, hkind, hchild⟩ := hlive
  rw [edges_bury] at he
  split at he
  · obtain ⟨e₀, he₀, rfl⟩ := List.mem_map.mp he
    unfold buried at hkind hchild
    split at hkind
    · exact absurd rfl hkind
    · rename_i hspared
      rw [if_neg hspared] at hchild
      exact ⟨e₀, he₀, hkind, hchild⟩
  · exact ⟨e, he, hkind, hchild⟩

/-- Edges that leave a block which is not reached carry no path from the root. -/
theorem reaches_bury (condemned : EdgeKind → Bool) (hid : ¬ g.Reaches root id) :
    (g.bury id condemned).Reaches root b ↔ g.Reaches root b := by
  constructor
  · rintro ⟨r, hr, hpath⟩
    exact ⟨r, hr, Relation.ReflTransGen.mono (fun _ _ hlive => hlive.of_bury) _ _ hpath⟩
  · rintro ⟨r, hr, hpath⟩
    refine ⟨r, hr, ?_⟩
    induction hpath with
    | refl => exact .refl
    | @tail c d hpath hlive ih =>
      have hne : c ≠ id := by
        rintro rfl
        exact hid ⟨r, hr, hpath⟩
      obtain ⟨e, he, hkind, hchild⟩ := hlive
      refine ih.tail ⟨e, ?_, hkind, hchild⟩
      rwa [edges_bury, if_neg hne]

/-- If nothing live leads to a block and execution does not start there, it is not reached. -/
theorem not_reaches_of_liveIncoming (hm : g.Mirrored) (hroot : root ≠ some id)
    (hnone : g.liveIncoming id = []) : ¬ g.Reaches root id := by
  rintro ⟨r, hr, hpath⟩
  rcases Relation.ReflTransGen.cases_tail hpath with rfl | ⟨p, -, e, he, hlive, hchild⟩
  · exact hroot hr
  · have hparent : p ∈ (g.block id).parents :=
      hm.mem_parents.mpr (mem_children.mpr ⟨e, he, hchild, .inl rfl⟩)
    have hmem : (p, e.kind) ∈ g.liveIncoming id :=
      mem_liveIncoming.mpr ⟨hparent, e, he, hchild, hlive, rfl⟩
    rw [hnone] at hmem
    cases hmem

theorem unreachable_applyRule_absorbed (hm : g.Mirrored) (hg : g.Addressed)
    (hroot : ∀ r, root = some r → r < g.size) (hlisted : ∀ b ∈ listed, b < g.size)
    (hid : root ≠ some id) :
    (g.applyRule id .absorbed).1.unreachable listed root = g.unreachable listed root := by
  rw [applyRule_graph]
  by_cases hnone : g.liveIncoming id = []
  · have hsame := ((SameFrame.refl g).bury id (g.condemns id .absorbed)).toSameCode
    refine unreachable_congr hg (hg.bury id _) hsame hroot hlisted fun b => ?_
    exact reaches_bury _ (not_reaches_of_liveIncoming hm hid hnone)
  · -- the block keeps its edges
    have hspared : g.bury id (g.condemns id .absorbed) = g := by
      rw [← applyRule_graph]
      unfold applyRule
      simp [condemns, hnone]
    rw [hspared]

end

/-- On a drawn graph with different addresses, for any blocks listed and any root or none, the query for
unreachable blocks ends and tells, in increasing order of addresses, exactly the listed blocks that no
live edges lead to from the root; to absorb a block that is not the root does not change what it
tells. -/
theorem unreachable_complements {g : Graph} (hg : Drawn g)
    (hdistinct : ∀ b < g.size, ∀ c < g.size, g.addressOf b = g.addressOf c → b = c)
    {listed : List BlockId} (hlisted : ∀ b ∈ listed, b < g.size) {root : Option BlockId}
    (hroot : ∀ r, root = some r → r < g.size) : TellsUnreached g listed root := by
  have haddressed : g.Addressed := ⟨hg.mirrored.child_lt, hdistinct⟩
  constructor
  case ends =>
    intro found
    constructor
    · exact fun h => h.unique (collects_reached g root)
    · rintro rfl
      exact collects_reached g root
  case omits => exact fun b => not_mem_unreachable haddressed hroot hlisted
  case tells => exact fun b => count_unreachable haddressed hroot hlisted
  case ordered => exact unreachable_ordered haddressed hlisted
  case rootless =>
    rintro rfl
    exact unreachable_none g listed
  case absorbed =>
    exact fun id => unreachable_applyRule_absorbed hg.mirrored haddressed hroot hlisted

/-- A loop of two blocks, and two more behind an arm of the first that is never taken; the last of them
leads back into the loop. -/
def strandedArm : Graph :=
  let blocks := (((({} : Graph).add 13 [] none).add 19 [] none).add 27 [] none).add 35 [] none
  let loop := (blocks.link 0 1 .whenTrue).link 1 0 .unconditional
  let arm := ((loop.link 0 2 .whenFalse).link 2 3 .unconditional).link 3 1 .unconditional
  arm.setKind 0 1 .dead

/-- The two blocks behind the arm are told, one of them twice as it is listed twice, and are told again
once the first of them is absorbed. -/
theorem strandedArm_complements : Drawn strandedArm ∧
    TellsUnreached strandedArm [3, 2, 0, 1, 2] (some 0) ∧
    strandedArm.unreachable [3, 2, 0, 1, 2] (some 0) = [2, 2, 3] ∧
    ¬ strandedArm.Reaches (some 0) 3 ∧
    (strandedArm.applyRule 2 .absorbed).1.edges 2 = [⟨3, .dead⟩] ∧
    (strandedArm.applyRule 2 .absorbed).1.unreachable [3, 2, 0, 1, 2] (some 0) = [2, 2, 3] := by
  have hdrawn : Drawn strandedArm := by
    refine .overwrite _ _ _ (.link _ (.link _ (.link _ (.link _ (.link _ ?_ ?_ ?_) ?_ ?_) ?_ ?_) ?_ ?_)
      ?_ ?_)
    · exact .add _ _ _ (.add _ _ _ (.add _ _ _ (.add _ _ _ .empty)))
    all_goals decide
  have htells : TellsUnreached strandedArm [3, 2, 0, 1, 2] (some 0) :=
    unreachable_complements hdrawn (by decide) (by decide) (by decide)
  have htold : strandedArm.unreachable [3, 2, 0, 1, 2] (some 0) = [2, 2, 3] := by decide
  refine ⟨hdrawn, htells, htold, ?_, by decide, ?_⟩
  · intro hreach
    have homitted := htells.omits 3 hreach
    rw [htold] at homitted
    exact homitted (by decide)
  · rw [htells.absorbed 2 (by decide), htold]

end ScriptFlow.Graph
