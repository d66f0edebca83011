import ScriptFlow.Graph.Neighbours
import ScriptFlow.Proofs.Flow.Confluence

/-! # What marking does to the neighbours of a block

A neighbour query sees two things of an edge: where it leads, and whether it crosses into another
subroutine. Marking overwrites kinds, and a dead edge is no longer known to have crossed. The first
two rules take arms of branches only, which never cross; so an edge that crossed is lost from sight
exactly with its block, when nothing live leads there any more. From then on the block shows all its
edges, whether they were asked for or not. -/

namespace ScriptFlow

namespace Graph

/-- Marking has cut the block off: execution does not start there, and of the edges into it none is
live. -/
def isAbsorbed (g : Graph) (root : Option BlockId) (b : BlockId) : Bool :=
  root != some b && !(g.block b).parents.isEmpty && (g.liveIncoming b).isEmpty

/-- What the neighbour queries see of the edges of a block. -/
def sights (g : Graph) (b : BlockId) : List (BlockId × Bool) :=
  (g.edges b).map fun e => (e.child, e.kind.crosses)

section
variable {g h : Graph} {root : Option BlockId} {b : BlockId}

theorem isAbsorbed_iff : g.isAbsorbed root b = true ↔
    root ≠ some b ∧ (g.block b).parents ≠ [] ∧ g.liveIncoming b = [] := by
  simp [isAbsorbed, and_assoc]

theorem children_eq (g : Graph) (across : Bool) (b : BlockId) :
    g.children across b = ((g.sights b).filter fun w => across || !w.2).map Prod.fst := by
  rw [children, sights, List.filter_map, List.map_map]
  rfl

theorem eraseDups_filter {α : Type} [BEq α] [LawfulBEq α] (keep : α → Bool) (xs : List α) :
    (xs.filter keep).eraseDups = xs.eraseDups.filter keep := by
  match xs with
  | [] => simp
  | x :: xs =>
    have hrest := eraseDups_filter keep (xs.filter fun y => !y == x)
    rw [List.eraseDups_cons, List.filter_cons, List.filter_cons, ← hrest]
    split
    · rw [List.eraseDups_cons, List.filter_filter, List.filter_filter]
      simp only [Bool.and_comm]
    · rename_i hx
      -- a copy of what is left out is left out as well
      rw [List.filter_filter]
      congr 1
      refine List.filter_congr fun y _ => ?_
      by_cases hy : y = x
      · subst hy
        simpa using hx
      · simp [hy]
termination_by xs.length
decreasing_by exact Nat.lt_succ_of_le (List.length_filter_le _ _)

/-- Of its parents, a block lists those that list it as their child. -/
theorem distinctParents_eq (g : Graph) (b : BlockId) : g.distinctParents false b =
    (g.distinctParents true b).filter fun p => b ∈ g.children false p := by
  simp only [distinctParents, Bool.true_or, List.filter_true, Bool.false_or]
  rw [eraseDups_filter]
  refine List.filter_congr fun p _ => ?_
  rw [Bool.eq_iff_iff, List.any_eq_true, decide_eq_true_iff]
  simp only [children, Bool.and_eq_true, beq_iff_eq, List.mem_map, List.mem_filter, Bool.false_or]
  constructor
  · intro h
    obtain ⟨e, he, hchild, hlocal⟩ := h
    exact ⟨e, ⟨he, hlocal⟩, hchild⟩
  · intro h
    obtain ⟨e, ⟨he, hlocal⟩, hchild⟩ := h
    exact ⟨e, he, hchild, hlocal⟩

end

/-- The neighbours of blocks once edges are dead, told by the graph before. -/
structure Overlooks (g : Graph) (root : Option BlockId) (h : Graph) : Prop where
  /-- With all edges asked for, no answer changes. -/
  across : ∀ b, h.earlierChildren true b = g.earlierChildren true b ∧
    h.laterChildren true b = g.laterChildren true b ∧
    h.earlierParents true b = g.earlierParents true b ∧
    h.laterParents true b = g.laterParents true b
  /-- With edges inside of subroutines asked for, a block shows its children as before, but an
  absorbed block shows them all. -/
  children : ∀ b, h.earlierChildren false b = g.earlierChildren (h.isAbsorbed root b) b ∧
    h.laterChildren false b = g.laterChildren (h.isAbsorbed root b) b
  /-- So an absorbed parent is shown whatever its edges were. -/
  parents : ∀ b, h.earlierParents false b = (g.earlierParents true b).filter
      (fun p => b ∈ g.children (h.isAbsorbed root p) p) ∧
    h.laterParents false b = (g.laterParents true b).filter
      (fun p => b ∈ g.children (h.isAbsorbed root p) p)
  /-- No answer changes exactly if no edge of an absorbed block crossed. -/
  same : (∀ b, h.earlierChildren false b = g.earlierChildren false b ∧
      h.laterChildren false b = g.laterChildren false b ∧
      h.earlierParents false b = g.earlierParents false b ∧
      h.laterParents false b = g.laterParents false b) ↔
    ∀ b, h.isAbsorbed root b = true → ∀ e ∈ g.edges b, e.kind.crosses = false

section
variable {g h : Graph} {root : Option BlockId} {b : BlockId}

theorem length_children_eq_iff : (g.children false b).length = (g.children true b).length ↔
    ∀ e ∈ g.edges b, e.kind.crosses = false := by
  simp [children]

theorem length_children (g : Graph) (across : Bool) (b : BlockId) :
    (g.children across b).length =
      (g.earlierChildren across b).length + (g.laterChildren across b).length := by
  have hlater : g.laterChildren across b =
      (g.children across b).filter fun c => !decide (g.addressOf c ≤ g.addressOf b) := by
    unfold laterChildren
    refine List.filter_congr fun c _ => ?_
    rw [← decide_not]
    exact decide_eq_decide.mpr Int.not_le.symm
  rw [hlater, earlierChildren, List.length_eq_length_filter_add]

/-- All about neighbours follows from what blocks show of their children. -/
theorem overlooks_of_children (hframe : SameFrame g h) (hchildren : ∀ across b,
    h.children across b = g.children (across || h.isAbsorbed root b) b) : Overlooks g root h := by
  have haddress : h.addressOf = g.addressOf := funext hframe.address
  have hall : ∀ b, h.distinctParents true b = g.distinctParents true b := by
    intro b
    simp only [distinctParents, Bool.true_or, hframe.parents]
  have hlocal : ∀ b, h.distinctParents false b = (g.distinctParents true b).filter
      fun p => b ∈ g.children (h.isAbsorbed root p) p := by
    intro b
    rw [distinctParents_eq, hall]
    simp only [hchildren, Bool.false_or]
  have hchild : ∀ across b,
      h.earlierChildren across b = g.earlierChildren (across || h.isAbsorbed root b) b ∧
      h.laterChildren across b = g.laterChildren (across || h.isAbsorbed root b) b := by
    intro across b
    simp only [earlierChildren, laterChildren, hchildren, haddress, and_self]
  refine ⟨fun b => ?_, fun b => hchild false b, fun b => ?_, fun hsame b hb => ?_, fun hnone b => ?_⟩
  · simp only [hchild, Bool.true_or, earlierParents, laterParents, hall, haddress, and_self]
  · simp only [earlierParents, laterParents, hlocal, haddress, List.filter_filter, Bool.and_comm,
      and_self]
  · rw [← length_children_eq_iff, length_children, length_children]
    obtain ⟨hearlier, hlater, -⟩ := hsame b
    rw [(hchild false b).1, hb] at hearlier
    rw [(hchild false b).2, hb] at hlater
    rw [← hearlier, ← hlater]
    rfl
  · have hshown : ∀ p, g.children (h.isAbsorbed root p) p = g.children false p := by
      intro p
      cases hp : h.isAbsorbed root p with
      | false => rfl
      | true =>
        have hcross : ∀ e ∈ g.edges p, (true || !e.kind.crosses) = (false || !e.kind.crosses) :=
          fun e he => by rw [hnone p hp e he]; rfl
        exact congrArg (List.map Edge.child) (List.filter_congr hcross)
    have hparents : h.distinctParents false b = g.distinctParents false b := by
      rw [hlocal, distinctParents_eq]
      simp only [hshown]
    simp only [earlierChildren, laterChildren, earlierParents, laterParents, hchildren,
      Bool.false_or, hshown, hparents, haddress, and_self]

end

end Graph

namespace Flow

namespace Pruned

variable {g h : Graph} {root : Option BlockId} {b : BlockId} {n : Nat} {e : Edge}

/-- An edge that crosses is no arm of a branch, so it is doomed with its block only. -/
theorem isAbsorbed_of_crosses (hh : Pruned g root h) (hd : Doomed g root b n)
    (he : (g.edges b)[n]? = some e) (hcross : e.kind.crosses = true) :
    h.isAbsorbed root b = true := by
  cases hd with
  | constant he' harm =>
    rw [he] at he'
    cases he'
    have hcond := isConditional_of_constantArm? harm
    cases hk : e.kind <;> simp [hk, EdgeKind.crosses, EdgeKind.isConditional] at hcross hcond
  | repeated _ he' hkind =>
    rw [he] at he'
    cases he'
    rw [hkind] at hcross
    cases hcross
  | absorbed hroot _ hparents hinto =>
    refine Graph.isAbsorbed_iff.mpr ⟨hroot, by rwa [hh.parents], ?_⟩
    refine List.eq_nil_iff_forall_not_mem.mpr fun ⟨p, k⟩ hmem => ?_
    obtain ⟨-, e', he', hchild, hlive, -⟩ := Graph.mem_liveIncoming.mp hmem
    obtain ⟨m, hm⟩ := List.getElem?_of_mem he'
    by_cases hdoomed : Doomed g root p m
    · rw [hh.dead hdoomed] at hm
      obtain ⟨f, -, rfl⟩ := Option.map_eq_some_iff.mp hm
      exact hlive rfl
    · rw [hh.spared hdoomed] at hm
      exact hdoomed (hinto p m e' hm hchild)

theorem doomed_of_isAbsorbed (hg : Fresh g) (hh : Pruned g root h)
    (hb : h.isAbsorbed root b = true) (he : (g.edges b)[n]? = some e) : Doomed g root b n := by
  obtain ⟨hroot, hparents, hnone⟩ := Graph.isAbsorbed_iff.mp hb
  rw [hh.parents] at hparents
  refine .absorbed hroot he hparents fun p m e' he' hchild => ?_
  by_contra hspared
  have hmem := List.mem_of_getElem? he'
  have hkept : e' ∈ h.edges p := List.mem_of_getElem? ((hh.spared hspared).trans he')
  have hlive : (p, e'.kind) ∈ h.liveIncoming b := by
    refine Graph.mem_liveIncoming.mpr ⟨?_, e', hkept, hchild, hg.live p e' hmem, rfl⟩
    rw [hh.parents, ← hchild]
    exact hg.mirrored p e' hmem
  rw [hnone] at hlive
  cases hlive

/-- What is left to be seen of the edges of a block. -/
theorem sights_eq (hg : Fresh g) (hh : Pruned g root h) (b : BlockId) :
    h.sights b = (g.sights b).map fun w => (w.1, w.2 && !h.isAbsorbed root b) := by
  refine List.ext_getElem? fun n => ?_
  simp only [Graph.sights, List.getElem?_map]
  cases he : (g.edges b)[n]? with
  | none =>
    by_cases hd : Doomed g root b n
    · rw [hh.dead hd, he]
      rfl
    · rw [hh.spared hd, he]
      rfl
  | some e =>
    by_cases hd : Doomed g root b n
    · rw [hh.dead hd, he]
      have hcross : (e.kind.crosses && !h.isAbsorbed root b) = false := by
        cases hc : e.kind.crosses with
        | false => rfl
        | true => rw [hh.isAbsorbed_of_crosses hd he hc]; rfl
      simp only [Option.map_some, hcross]
      rfl
    · rw [hh.spared hd, he]
      have hb : h.isAbsorbed root b = false :=
        Bool.eq_false_iff.mpr fun hb => hd (hh.doomed_of_isAbsorbed hg hb he)
      simp [hb]

theorem overlooks (hg : Fresh g) (hh : Pruned g root h) : g.Overlooks root h := by
  refine Graph.overlooks_of_children hh.toSameFrame fun across b => ?_
  rw [Graph.children_eq, Graph.children_eq, hh.sights_eq hg, List.filter_map, List.map_map]
  congr 1
  refine List.filter_congr fun ⟨_, crosses⟩ _ => ?_
  cases across <;> cases crosses <;> cases h.isAbsorbed root b <;> rfl

end Pruned

/-- Whatever the root and the order in which blocks are looked at, the neighbours of the blocks of a
built graph stay as they are, but for absorbed blocks, which show the edges into other subroutines
too. -/
theorem build_neighbours_overlook {is : List Instruction} {store : Code}
    {code : List LinkedInstruction} {roots : List (Int × SubroutineKind)}
    (hstore : Code.ofList is = .ok store) (hlink : store.link = .ok code)
    (hroots : ∀ r ∈ roots, ∃ i ∈ code, i.address = r.1)
    (hcalls : ∀ i ∈ code, i.opcode = .jsr → ∀ a, i.target = some a → a ∈ roots.map Prod.fst) :
    ∃ built, build code roots = .ok built ∧ ∀ root l, l.Perm built.graph.ids →
      built.graph.Overlooks root (built.graph.markDead l root).graph := by
  have hs := sound_of_link hstore hlink hroots hcalls
  obtain ⟨built, d, hbuilt, hgraph, -, hc⟩ := build_complete hs
  have hfresh := hc.fresh hs
  dsimp only at hfresh
  rw [← hgraph] at hfresh
  refine ⟨built, hbuilt, fun root l hl => Pruned.overlooks hfresh ?_⟩
  exact markDead_pruned hfresh fun b hb => hl.mem_iff.mpr (List.mem_range.mpr hb)

/-- The second test leaves only a jump absorbed, which stays in its subroutine, so no answer
changes. -/
theorem testedTwice_neighbours : Code.ofList testedTwice = .ok ⟨testedTwice.toArray⟩ ∧
    Code.link ⟨testedTwice.toArray⟩ = .ok testedTwiceLinked ∧
    ∃ built, build testedTwiceLinked [(13, .plain)] = .ok built ∧
      (built.graph.markDead built.graph.ids (some 0)).graph.isAbsorbed (some 0) 4 = true ∧
      ∀ b,
        let marked := (built.graph.markDead built.graph.ids (some 0)).graph
        marked.earlierChildren false b = built.graph.earlierChildren false b ∧
        marked.laterChildren false b = built.graph.laterChildren false b ∧
        marked.earlierParents false b = built.graph.earlierParents false b ∧
        marked.laterParents false b = built.graph.laterParents false b := by
  obtain ⟨built, hbuilt, hoverlooks⟩ := build_neighbours_overlook
    (show Code.ofList testedTwice = .ok ⟨testedTwice.toArray⟩ from rfl)
    (show Code.link ⟨testedTwice.toArray⟩ = .ok testedTwiceLinked from rfl)
    (show ∀ r ∈ [((13 : Int), SubroutineKind.plain)], ∃ i ∈ testedTwiceLinked, i.address = r.1 by
      decide) (by decide)
  have hcheck : (build testedTwiceLinked [(13, .plain)]).map (fun built =>
      ((built.graph.markDead built.graph.ids (some 0)).graph.isAbsorbed (some 0) 4,
        built.graph.blocks.toList.flatMap fun b => b.edges.filter fun e => e.kind.crosses)) =
      .ok (true, []) := by
    decide +kernel
  rw [hbuilt] at hcheck
  obtain ⟨habsorbed, hlocal⟩ := Prod.mk.inj (Except.ok.inj hcheck)
  refine ⟨rfl, rfl, built, hbuilt, habsorbed, ?_⟩
  refine (hoverlooks (some 0) _ (.refl _)).same.mpr fun b _ e he => ?_
  by_contra hcross
  have hb := Graph.lt_size_of_mem_edges he
  have hmem : built.graph.block b ∈ built.graph.blocks.toList := by
    rw [← Graph.getElem_blocks hb]
    exact Array.getElem_mem_toList hb
  have hfound : e ∈ built.graph.blocks.toList.flatMap fun b =>
      b.edges.filter fun e => e.kind.crosses :=
    List.mem_flatMap.mpr ⟨_, hmem, List.mem_filter.mpr ⟨he, by simpa using hcross⟩⟩
  rw [hlocal] at hfound
  cases hfound

/-- A branch on a constant, with a call at 27 in the arm never taken. -/
def untakenCall : List Instruction :=
  [⟨13, .const, 3, 6, .constant (.int 1)⟩, ⟨19, .jz, 0, 6, .offset 8⟩, ⟨25, .retn, 0, 2, .none⟩,
   ⟨27, .jsr, 0, 6, .offset 8⟩, ⟨33, .retn, 0, 2, .none⟩, ⟨35, .retn, 0, 2, .none⟩]

/-- The same code with its links. -/
def untakenCallLinked : List LinkedInstruction :=
  [⟨⟨13, .const, 3, 6, .constant (.int 1)⟩, some 19, none, .plain⟩,
   ⟨⟨19, .jz, 0, 6, .offset 8⟩, some 25, some 27, .plain⟩,
   ⟨⟨25, .retn, 0, 2, .none⟩, none, none, .plain⟩,
   ⟨⟨27, .jsr, 0, 6, .offset 8⟩, some 33, some 35, .label⟩,
   ⟨⟨33, .retn, 0, 2, .none⟩, none, none, .plain⟩,
   ⟨⟨35, .retn, 0, 2, .none⟩, none, none, .subroutine⟩]

/-- The block of the call leads to the subroutine called and nowhere else, and that one back behind
the call. Once both edges are dead, the subroutine is shown as a child of the block that called it,
and as a parent of the block behind the call. -/
theorem untakenCall_neighbours_change : Code.ofList untakenCall = .ok ⟨untakenCall.toArray⟩ ∧
    Code.link ⟨untakenCall.toArray⟩ = .ok untakenCallLinked ∧
    ∃ built, build untakenCallLinked [(13, .plain), (35, .plain)] = .ok built ∧
      built.graph.ids.map built.graph.addressOf = [13, 27, 25, 35, 33] ∧
      built.graph.edges 1 = [⟨3, .call⟩] ∧ built.graph.edges 3 = [⟨4, .back⟩] ∧
      built.graph.laterChildren false 1 = [] ∧ built.graph.laterParents false 4 = [] ∧
      (built.graph.markDead built.graph.ids (some 0)).graph.laterChildren false 1 = [3] ∧
      (built.graph.markDead built.graph.ids (some 0)).graph.laterParents false 4 = [3] := by
  have hcheck : (match build untakenCallLinked [(13, .plain), (35, .plain)] with
    | .ok built =>
      decide (built.graph.ids.map built.graph.addressOf = [13, 27, 25, 35, 33]) &&
        decide (built.graph.edges 1 = [⟨3, .call⟩]) && decide (built.graph.edges 3 = [⟨4, .back⟩]) &&
        decide (built.graph.laterChildren false 1 = []) &&
        decide (built.graph.laterParents false 4 = []) &&
        decide ((built.graph.markDead built.graph.ids (some 0)).graph.laterChildren false 1 = [3]) &&
        decide ((built.graph.markDead built.graph.ids (some 0)).graph.laterParents false 4 = [3])
    | .error _ => false) = true := by
    decide +kernel
  split at hcheck
  · rename_i built hbuilt
    simp only [Bool.and_eq_true, decide_eq_true_eq] at hcheck
    obtain ⟨⟨⟨⟨⟨⟨hids, hcall⟩, hback⟩, hchildren⟩, hparents⟩, hchildren'⟩, hparents'⟩ := hcheck
    exact ⟨rfl, rfl, built, hbuilt, hids, hcall, hback, hchildren, hparents, hchildren', hparents'⟩
  · cases hcheck

end Flow

end ScriptFlow
