import ScriptFlow.Graph.Path
import ScriptFlow.Proofs.Graph.Links
import Mathlib.Logic.Relation

/-! # Searches along edges

A search keeps a stack of blocks to look at and the addresses it has seen. A block whose address it has
seen is dropped; of any other it notes the address and puts the blocks that edges lead to on the stack.
The edges of a block count once only, when its address is noted, so a search ends on every graph. Where
blocks are known by their addresses, the addresses noted in the end are those of the blocks that edges
lead to from where the search began. -/

namespace ScriptFlow.Graph

/-- A live edge leads from one block to another. -/
def LeadsLive (g : Graph) (b c : BlockId) : Prop := ∃ e ∈ g.edges b, e.kind ≠ .dead ∧ e.child = c

/-- Live edges lead from the root to the block. -/
def Reaches (g : Graph) (root : Option BlockId) (b : BlockId) : Prop :=
  ∃ r, root = some r ∧ Relation.ReflTransGen g.LeadsLive r b

/-- Blocks are known by their addresses: edges lead to blocks of the graph, and no two of these have
the same address. -/
structure Addressed (g : Graph) : Prop where
  child_lt : ∀ b, ∀ e ∈ g.edges b, e.child < g.size
  distinct : ∀ b < g.size, ∀ c < g.size, g.addressOf b = g.addressOf c → b = c

/-- Where the edges of a block lead that a search follows. -/
def onward (g : Graph) (follows : BlockId → Edge → Bool) (b : BlockId) : List BlockId :=
  ((g.edges b).filter (follows b)).map Edge.child

/-- A search as a loop: addresses seen and blocks on the stack, and the addresses seen once the stack
is empty. -/
inductive Collects (g : Graph) (follows : BlockId → Edge → Bool) :
    List Int → List BlockId → List Int → Prop where
  | done {seen : List Int} : Collects g follows seen [] seen
  | skip {seen found : List Int} {b : BlockId} {stack : List BlockId} : g.addressOf b ∈ seen →
      Collects g follows seen stack found → Collects g follows seen (b :: stack) found
  | note {seen found : List Int} {b : BlockId} {stack : List BlockId} : g.addressOf b ∉ seen →
      Collects g follows (g.addressOf b :: seen) ((g.onward follows b).reverse ++ stack) found →
      Collects g follows seen (b :: stack) found

section
variable {g : Graph} {follows : BlockId → Edge → Bool} {seen found : List Int} {stack : List BlockId}
  {b c : BlockId}

theorem mem_onward : c ∈ g.onward follows b ↔ ∃ e ∈ g.edges b, follows b e = true ∧ e.child = c := by
  simp only [onward, List.mem_map, List.mem_filter, and_assoc]

theorem Addressed.onward_lt (hg : g.Addressed) (h : c ∈ g.onward follows b) : c < g.size := by
  obtain ⟨e, he, -, rfl⟩ := mem_onward.mp h
  exact hg.child_lt b e he

/-- What holds of the blocks edges lead to and of those on the stack holds of the next stack. -/
theorem forall_mem_pushed {P : BlockId → Prop} (honward : ∀ c ∈ g.onward follows b, P c)
    (hstack : ∀ c ∈ stack, P c) : ∀ c ∈ (g.onward follows b).reverse ++ stack, P c := by
  rw [List.forall_mem_append]
  exact ⟨fun c hc => honward c (List.mem_reverse.mp hc), hstack⟩

/-! ## A search ends -/

theorem total_le {count count' : Block → Nat} (hle : ∀ b, count' b ≤ count b) (blocks : List Block) :
    blocks.foldr (fun b m => count' b + m) 0 ≤ blocks.foldr (fun b m => count b + m) 0 := by
  induction blocks with
  | nil => exact Nat.le_refl _
  | cons b blocks ih => exact Nat.add_le_add (hle b) ih

/-- A count that is nowhere higher, and lower by some number at one block, is lower by it in total. -/
theorem total_add_le {count count' : Block → Nat} {n : Nat} (hle : ∀ b, count' b ≤ count b)
    {blocks : List Block} {x : Block} (hx : x ∈ blocks) (hn : count' x + n ≤ count x) :
    blocks.foldr (fun b m => count' b + m) 0 + n ≤ blocks.foldr (fun b m => count b + m) 0 := by
  induction blocks with
  | nil => cases hx
  | cons b blocks ih =>
    simp only [List.foldr_cons]
    rcases List.mem_cons.mp hx with rfl | hx
    · have hrest := total_le hle blocks
      omega
    · have hrest := ih hx
      have hb := hle b
      omega

/-- The number of edges of the blocks whose addresses are still to be seen. -/
def unseenEdges (g : Graph) (seen : List Int) : Nat :=
  g.total fun b => if b.address ∈ seen then 0 else b.edges.length

theorem unseenEdges_cons (hb : g.addressOf b ∉ seen) :
    g.unseenEdges (g.addressOf b :: seen) + (g.edges b).length ≤ g.unseenEdges seen := by
  have hle : ∀ x : Block, (if x.address ∈ g.addressOf b :: seen then 0 else x.edges.length) ≤
      if x.address ∈ seen then 0 else x.edges.length := by
    intro x
    by_cases hx : x.address ∈ seen
    · simp [hx]
    · rw [if_neg hx]
      split <;> omega
  by_cases hlt : b < g.size
  · refine total_add_le hle (x := g.block b) ?_ ?_
    · rw [← getElem_blocks hlt]
      exact Array.getElem_mem_toList hlt
    · have hnew : (g.block b).address ∉ seen := hb
      have hself : (g.block b).address ∈ g.addressOf b :: seen := List.mem_cons_self
      rw [if_pos hself, if_neg hnew, Nat.zero_add]
      exact Nat.le_refl _
  · -- a name that is not in use has no edges
    have hnil : g.edges b = [] :=
      List.eq_nil_iff_forall_not_mem.mpr fun e he => hlt (lt_size_of_mem_edges he)
    rw [hnil]
    exact total_le hle _

/-- What a search has left to do: the blocks on its stack, and the edges that may still put more
there. -/
def workLeft (g : Graph) (seen : List Int) (stack : List BlockId) : Nat :=
  stack.length + g.unseenEdges seen

theorem workLeft_skip (g : Graph) (seen : List Int) (b : BlockId) (stack : List BlockId) :
    g.workLeft seen stack < g.workLeft seen (b :: stack) := by
  simp only [workLeft, List.length_cons]
  omega

theorem workLeft_note (follows : BlockId → Edge → Bool) (stack : List BlockId)
    (hb : g.addressOf b ∉ seen) :
    g.workLeft (g.addressOf b :: seen) ((g.onward follows b).reverse ++ stack) <
      g.workLeft seen (b :: stack) := by
  have hunseen := unseenEdges_cons hb
  have honward : (g.onward follows b).length ≤ (g.edges b).length := by
    rw [onward, List.length_map]
    exact List.length_filter_le _ _
  simp only [workLeft, List.length_append, List.length_reverse, List.length_cons]
  omega

/-- A search that starts with one block at most has this much to do. -/
theorem workLeft_start (g : Graph) (hstack : stack.length ≤ 1) :
    g.workLeft [] stack < g.edgeCount + 2 := by
  have hall : g.unseenEdges [] = g.edgeCount := by simp [unseenEdges, edgeCount]
  rw [workLeft, hall]
  omega

theorem Collects.unique {found' : List Int} (h : Collects g follows seen stack found)
    (h' : Collects g follows seen stack found') : found = found' := by
  induction h with
  | done => cases h'; rfl
  | skip hseen _ ih =>
    cases h' with
    | skip _ hrest => exact ih hrest
    | note hnew _ => exact absurd hseen hnew
  | note hnew _ ih =>
    cases h' with
    | skip hseen _ => exact absurd hseen hnew
    | note _ hrest => exact ih hrest

/-! ## What a search finds -/

theorem Collects.grows (h : Collects g follows seen stack found) : seen ⊆ found := by
  induction h with
  | done => exact List.Subset.refl _
  | skip _ _ ih => exact ih
  | note _ _ ih => exact List.subset_of_cons_subset ih

theorem Collects.takes (h : Collects g follows seen stack found) :
    ∀ b ∈ stack, g.addressOf b ∈ found := by
  induction h with
  | done => simp
  | skip hseen hrest ih => exact List.forall_mem_cons.mpr ⟨hrest.grows hseen, ih⟩
  | note _ hrest ih =>
    refine List.forall_mem_cons.mpr ⟨hrest.grows List.mem_cons_self, fun b hb => ?_⟩
    exact ih b (List.mem_append_right _ hb)

/-- What edges lead to from a block that was noted is noted as well. -/
theorem Collects.closed (hg : g.Addressed) (h : Collects g follows seen stack found)
    (hstack : ∀ b ∈ stack, b < g.size) : ∀ b < g.size, g.addressOf b ∈ found →
      g.addressOf b ∈ seen ∨ ∀ c ∈ g.onward follows b, g.addressOf c ∈ found := by
  induction h with
  | done => exact fun b _ hb => .inl hb
  | skip _ _ ih => exact ih fun b hb => hstack b (List.mem_cons_of_mem _ hb)
  | @note seen found b stack hnew hrest ih =>
    obtain ⟨hblt, hstack⟩ := List.forall_mem_cons.mp hstack
    have hnext : ∀ c ∈ (g.onward follows b).reverse ++ stack, c < g.size :=
      forall_mem_pushed (fun c hc => hg.onward_lt hc) hstack
    intro c hc hfound
    rcases ih hnext c hc hfound with hseen | hclosed
    · rcases List.mem_cons.mp hseen with hsame | hseen
      · -- the address just noted is that of no other block
        obtain rfl := hg.distinct c hc b hblt hsame
        refine .inr fun d hd => hrest.takes d ?_
        exact List.mem_append_left _ (List.mem_reverse.mpr hd)
      · exact .inl hseen
    · exact .inr hclosed

/-- What holds of the blocks on the stack and passes on along edges holds of all that is noted. -/
theorem Collects.sound {P : BlockId → Prop} (h : Collects g follows seen stack found)
    (hP : ∀ b, P b → ∀ c ∈ g.onward follows b, P c) (hstack : ∀ b ∈ stack, P b) :
    ∀ a ∈ found, a ∈ seen ∨ ∃ b, P b ∧ g.addressOf b = a := by
  induction h with
  | done => exact fun a ha => .inl ha
  | skip _ _ ih => exact ih fun b hb => hstack b (List.mem_cons_of_mem _ hb)
  | @note seen found b stack hnew hrest ih =>
    obtain ⟨hb, hstack⟩ := List.forall_mem_cons.mp hstack
    have hnext : ∀ c ∈ (g.onward follows b).reverse ++ stack, P c :=
      forall_mem_pushed (hP b hb) hstack
    intro a ha
    rcases ih hnext a ha with hseen | hfound
    · rcases List.mem_cons.mp hseen with rfl | hseen
      · exact .inr ⟨b, hb, rfl⟩
      · exact .inl hseen
    · exact .inr hfound

/-- A search from blocks of the graph notes the addresses of exactly the blocks that edges lead to from
there. -/
theorem Collects.exact (hg : g.Addressed) (h : Collects g follows [] stack found)
    (hstack : ∀ b ∈ stack, b < g.size) (hc : c < g.size) : g.addressOf c ∈ found ↔
      ∃ b ∈ stack, Relation.ReflTransGen (fun b c => c ∈ g.onward follows b) b c := by
  constructor
  · intro hfound
    let P (c : BlockId) : Prop :=
      c < g.size ∧ ∃ b ∈ stack, Relation.ReflTransGen (fun b c => c ∈ g.onward follows b) b c
    have hP : ∀ b, P b → ∀ c ∈ g.onward follows b, P c := by
      intro b hb c hbc
      obtain ⟨-, d, hd, hpath⟩ := hb
      exact ⟨hg.onward_lt hbc, d, hd, hpath.tail hbc⟩
    have hstart : ∀ b ∈ stack, P b := fun b hb => ⟨hstack b hb, b, hb, .refl⟩
    rcases h.sound hP hstart _ hfound with hseen | ⟨b, ⟨hb, hpath⟩, hsame⟩
    · cases hseen
    · rwa [hg.distinct b hb c hc hsame] at hpath
  · rintro ⟨b, hb, hpath⟩
    induction hpath with
    | refl => exact h.takes b hb
    | @tail d e hpath hde ih =>
      have hd : d < g.size := by
        obtain ⟨x, hx, -⟩ := mem_onward.mp hde
        exact lt_size_of_mem_edges hx
      rcases h.closed hg hstack d hd (ih hd) with hseen | hclosed
      · cases hseen
      · exact hclosed e hde

end

end ScriptFlow.Graph
