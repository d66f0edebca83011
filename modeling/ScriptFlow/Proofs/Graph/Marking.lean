import ScriptFlow.Graph.Dead
import ScriptFlow.Proofs.Graph.Links

/-! # Marking edges dead, one rule at a time

Rounds, lists of blocks and lists of rules only settle the order in which rules are applied. Each
application overwrites kinds of edges of a single block and nothing else, so what it keeps holds of
the graph in the end. -/

namespace ScriptFlow.Graph

section
variable {g : Graph} {b id : BlockId} {condemned : EdgeKind → Bool}

theorem update_eq_self {f : Block → Block} (hf : id < g.size → f (g.block id) = g.block id) :
    g.update id f = g := by
  obtain ⟨blocks⟩ := g
  show Graph.mk (blocks.modify id f) = ⟨blocks⟩
  congr 1
  refine Array.ext (by simp) fun n hn hn' => ?_
  rw [Array.getElem_modify]
  split
  · rename_i heq
    subst heq
    have := hf hn'
    rwa [← getElem_blocks hn'] at this
  · rfl

/-- What an edge is once the kinds condemned are dead. -/
def buried (condemned : EdgeKind → Bool) (e : Edge) : Edge :=
  if condemned e.kind then { e with kind := .dead } else e

theorem buried_of_spared {e : Edge} (h : condemned e.kind = false) : buried condemned e = e := by
  simp [buried, h]

theorem edges_bury (g : Graph) (id b : BlockId) (condemned : EdgeKind → Bool) :
    (g.bury id condemned).edges b =
      if b = id then (g.edges b).map (buried condemned) else g.edges b := by
  unfold bury
  rw [edges, block_update]
  by_cases hid : b = id
  · subst hid
    by_cases hb : b < g.size
    · rw [if_pos ⟨rfl, hb⟩, if_pos rfl]
      rfl
    · have hnil : g.edges b = [] :=
        List.eq_nil_iff_forall_not_mem.mpr fun e he => hb (lt_size_of_mem_edges he)
      rw [if_neg (fun h => hb h.2), if_pos rfl, hnil]
      exact hnil
  · rw [if_neg (fun h => hid h.1.symm), if_neg hid]
    rfl

/-- The two graphs differ in nothing but edges. -/
structure SameFrame (g h : Graph) : Prop extends SameCode g h where
  parents : ∀ b, (h.block b).parents = (g.block b).parents

theorem SameFrame.refl (g : Graph) : SameFrame g g := ⟨.refl g, fun _ => rfl⟩

theorem SameFrame.bury {h : Graph} (hf : SameFrame g h) (id : BlockId)
    (condemned : EdgeKind → Bool) : SameFrame g (h.bury id condemned) where
  toSameCode := hf.toSameCode.trans (sameCode_update h id fun _ => ⟨rfl, rfl, rfl⟩)
  parents b := by
    rw [← hf.parents b, Graph.bury, block_update]
    split <;> rfl

/-- A rule that finds nothing to mark leaves the graph as it would by marking. -/
theorem applyRule_graph (g : Graph) (id : BlockId) (rule : DeadRule) :
    (g.applyRule id rule).1 = g.bury id (g.condemns id rule) := by
  unfold applyRule
  dsimp only
  split
  · rfl
  · rename_i hnone
    refine (update_eq_self fun _ => ?_).symm
    have hspared : ∀ e ∈ (g.block id).edges, g.condemns id rule e.kind = false := by
      simpa [edges] using hnone
    have hedges : (g.block id).edges.map (buried (g.condemns id rule)) = (g.block id).edges :=
      (List.map_congr_left fun e he => buried_of_spared (hspared e he)).trans (List.map_id _)
    show { g.block id with edges := (g.block id).edges.map (buried (g.condemns id rule)) } =
      g.block id
    rw [hedges]

end

/-! ## What every application keeps -/

section
variable {P : Graph → Prop} {root : Option BlockId}
  (step : ∀ g id rule, rule ∈ rulesFor root id → P g → P (g.bury id (g.condemns id rule)))
include step

theorem applyRules_induction {id : BlockId} {rules : List DeadRule}
    (hrules : ∀ rule ∈ rules, rule ∈ rulesFor root id) {g : Graph} (hg : P g) :
    P (applyRules id rules g).1 := by
  induction rules generalizing g with
  | nil => exact hg
  | cons rule rules ih =>
    have hfirst : P (g.applyRule id rule).1 := by
      rw [applyRule_graph]
      exact step g id rule (hrules rule List.mem_cons_self) hg
    exact ih (fun r hr => hrules r (List.mem_cons_of_mem _ hr)) hfirst

theorem deadRound_induction (listed : List BlockId) {g : Graph} (hg : P g) :
    P (deadRound root listed g).1 := by
  induction listed generalizing g with
  | nil => exact hg
  | cons id ids ih => exact ih (applyRules_induction step (fun _ h => h) hg)

theorem deadRounds_induction (listed : List BlockId) (fuel : Nat) {g : Graph} (hg : P g) :
    P (deadRounds listed root fuel g).graph := by
  induction fuel generalizing g with
  | zero => exact hg
  | succ fuel ih =>
    have hround := deadRound_induction step listed hg
    simp only [deadRounds]
    split
    · exact hround
    · exact ih hround

/-- What holds at first and is kept by every application of a rule holds in the end. -/
theorem markDead_induction (listed : List BlockId) {g : Graph} (hg : P g) :
    P (g.markDead listed root).graph :=
  deadRounds_induction step listed _ hg

end

theorem markDead_sameFrame (g : Graph) (listed : List BlockId) (root : Option BlockId) :
    SameFrame g (g.markDead listed root).graph := by
  refine markDead_induction (P := SameFrame g) ?_ listed (.refl g)
  exact fun h id rule _ hh => hh.bury id (h.condemns id rule)

/-- Every edge leads where it led before, and is as it was or dead. -/
theorem markDead_edges (g : Graph) (listed : List BlockId) (root : Option BlockId) :
    ∀ b, ∀ e ∈ (g.markDead listed root).graph.edges b,
      ∃ e₀ ∈ g.edges b, e.child = e₀.child ∧ (e.kind = .dead ∨ e = e₀) := by
  refine markDead_induction (P := fun h => ∀ b, ∀ e ∈ h.edges b,
    ∃ e₀ ∈ g.edges b, e.child = e₀.child ∧ (e.kind = .dead ∨ e = e₀)) ?_ listed
    fun b e he => ⟨e, he, rfl, .inr rfl⟩
  intro h id rule _ hh b e he
  rw [edges_bury] at he
  split at he
  · obtain ⟨e', he', rfl⟩ := List.mem_map.mp he
    obtain ⟨e₀, he₀, hchild, hkind⟩ := hh b e' he'
    unfold buried
    split
    · exact ⟨e₀, he₀, hchild, .inl rfl⟩
    · exact ⟨e₀, he₀, hchild, hkind⟩
  · exact hh b e he

/-! ## The rules -/

section
variable {g : Graph} {b p : BlockId} {k : EdgeKind}

theorem mem_liveIncoming : (p, k) ∈ g.liveIncoming b ↔
    p ∈ (g.block b).parents ∧ ∃ e ∈ g.edges p, e.child = b ∧ e.kind ≠ .dead ∧ e.kind = k := by
  simp only [liveIncoming, List.mem_flatMap, List.mem_eraseDups, List.mem_map, List.mem_filter,
    Bool.and_eq_true, beq_iff_eq, bne_iff_ne, Prod.mk.injEq]
  constructor
  · rintro ⟨q, hq, e, ⟨he, hchild, hlive⟩, rfl, rfl⟩
    exact ⟨hq, e, he, hchild, hlive, rfl⟩
  · rintro ⟨hp, e, he, hchild, hlive, rfl⟩
    exact ⟨p, hp, e, ⟨he, hchild, hlive⟩, rfl, rfl⟩

/-- In the root only constants tell arms that are never taken. -/
theorem ne_root_of_mem_rulesFor {root : Option BlockId} {rule : DeadRule}
    (h : rule ∈ rulesFor root b) (hrule : rule ≠ .constantCondition) : root ≠ some b := by
  intro hroot
  rw [rulesFor, if_pos hroot, List.mem_singleton] at h
  exact hrule h

end

end ScriptFlow.Graph
