import ScriptFlow.Proofs.Graph.Marking
import Mathlib.Data.List.Basic

/-! # Marking comes to an end

Every event of a round stands for an edge that was live before, so there are fewer rounds with events
than live edges. The round that ends the search finds nothing: no rule condemns an edge any more. -/

namespace ScriptFlow.Graph

section
variable {g : Graph} {id : BlockId} {root : Option BlockId} {rule : DeadRule}

/-- Only live edges are condemned. -/
theorem condemns_live {k : EdgeKind} (h : g.condemns id rule k = true) : k ≠ .dead := by
  rintro rfl
  cases rule with
  | constantCondition =>
    simp only [condemns, Block.constantArm?, Bool.and_eq_true, beq_iff_eq] at h
    repeat' split at h
    all_goals cases h.2
  | repeatedTest => simp [condemns] at h
  | absorbed => simp [condemns] at h

/-! ## Counting live edges -/

theorem foldr_modify {count : Block → Nat} {f : Block → Block} {b : Block} {n : Nat}
    {blocks : List Block} (hb : blocks[id]? = some b) (hf : count (f b) + n = count b) :
    (blocks.modify id f).foldr (fun b m => count b + m) 0 + n =
      blocks.foldr (fun b m => count b + m) 0 := by
  induction blocks generalizing id with
  | nil => simp at hb
  | cons c blocks ih =>
    cases id with
    | zero =>
      cases hb
      simp only [List.modify_zero_cons, List.foldr_cons]
      omega
    | succ id =>
      have := ih hb
      simp only [List.modify_succ_cons, List.foldr_cons]
      omega

theorem countP_buried (condemned : EdgeKind → Bool) (es : List Edge) :
    (es.map (buried condemned)).countP (fun e => e.kind != .dead) +
      es.countP (fun e => condemned e.kind && e.kind != .dead) =
      es.countP fun e => e.kind != .dead := by
  induction es with
  | nil => rfl
  | cons e es ih =>
    have hhead : (buried condemned e).kind = if condemned e.kind then .dead else e.kind := by
      unfold buried
      split <;> rfl
    rw [List.map_cons, List.countP_cons, List.countP_cons, List.countP_cons, hhead]
    by_cases hc : condemned e.kind = true
    · simp only [hc, if_true, bne_self_eq_false, Bool.false_eq_true, if_false, Bool.true_and]
      omega
    · simp only [hc, Bool.false_eq_true, if_false, Bool.false_and]
      omega

theorem liveEdges_bury (condemned : EdgeKind → Bool) (hid : id < g.size) : (g.bury id condemned).liveEdges +
    (g.edges id).countP (fun e => condemned e.kind && e.kind != .dead) = g.liveEdges := by
  unfold liveEdges total bury update
  rw [Array.toList_modify]
  refine foldr_modify (b := g.block id) ?_ (countP_buried condemned (g.edges id))
  have hlt : id < g.blocks.size := hid
  rw [Array.getElem?_toList, Array.getElem?_eq_getElem hlt, getElem_blocks hlt]

/-! ## Events -/

theorem applyRule_live (g : Graph) (id : BlockId) (rule : DeadRule) :
    (g.applyRule id rule).1.liveEdges + (g.applyRule id rule).2.length ≤ g.liveEdges := by
  unfold applyRule
  dsimp only
  split
  · rename_i hany
    obtain ⟨e, he, hcond⟩ := List.any_eq_true.mp hany
    have hcount : 0 < (g.edges id).countP fun e => g.condemns id rule e.kind && e.kind != .dead :=
      List.countP_pos_iff.mpr ⟨e, he, by simpa using ⟨hcond, condemns_live hcond⟩⟩
    have hbury := liveEdges_bury (g.condemns id rule) (lt_size_of_mem_edges he)
    simp only [List.length_singleton]
    omega
  · exact Nat.le_refl _

theorem applyRules_live (id : BlockId) (rules : List DeadRule) (g : Graph) :
    (applyRules id rules g).1.liveEdges + (applyRules id rules g).2.length ≤ g.liveEdges := by
  induction rules generalizing g with
  | nil => exact Nat.le_refl _
  | cons rule rules ih =>
    have hfirst := applyRule_live g id rule
    have hrest := ih (g.applyRule id rule).1
    simp only [applyRules, List.length_append]
    omega

theorem deadRound_live (root : Option BlockId) (listed : List BlockId) (g : Graph) :
    (deadRound root listed g).1.liveEdges + (deadRound root listed g).2.length ≤ g.liveEdges := by
  induction listed generalizing g with
  | nil => exact Nat.le_refl _
  | cons id ids ih =>
    have hfirst := applyRules_live id (rulesFor root id) g
    have hrest := ih (applyRules id (rulesFor root id) g).1
    simp only [deadRound, List.length_append]
    omega

/-! ## Rounds without events -/

/-- No rule finds an edge of the block to mark. -/
def Idle (g : Graph) (root : Option BlockId) (id : BlockId) : Prop :=
  ∀ rule ∈ rulesFor root id, ∀ e ∈ g.edges id, g.condemns id rule e.kind = false

theorem applyRule_idle (h : (g.applyRule id rule).2 = []) :
    (g.applyRule id rule).1 = g ∧ ∀ e ∈ g.edges id, g.condemns id rule e.kind = false := by
  unfold applyRule at h ⊢
  dsimp only at h ⊢
  split at h
  · cases h
  · rename_i hnone
    rw [if_neg hnone]
    exact ⟨rfl, by simpa using hnone⟩

theorem applyRules_idle {rules : List DeadRule} (h : (applyRules id rules g).2 = []) :
    (applyRules id rules g).1 = g ∧
      ∀ rule ∈ rules, ∀ e ∈ g.edges id, g.condemns id rule e.kind = false := by
  induction rules with
  | nil => exact ⟨rfl, by simp⟩
  | cons rule rules ih =>
    simp only [applyRules, List.append_eq_nil_iff] at h ⊢
    obtain ⟨hg, hidle⟩ := applyRule_idle h.1
    rw [hg] at h ⊢
    obtain ⟨hg', hidle'⟩ := ih h.2
    exact ⟨hg', List.forall_mem_cons.mpr ⟨hidle, hidle'⟩⟩

theorem deadRound_idle {listed : List BlockId} (h : (deadRound root listed g).2 = []) :
    (deadRound root listed g).1 = g ∧ ∀ id ∈ listed, g.Idle root id := by
  induction listed with
  | nil => exact ⟨rfl, by simp⟩
  | cons id ids ih =>
    simp only [deadRound, List.append_eq_nil_iff] at h ⊢
    obtain ⟨hg, hidle⟩ := applyRules_idle h.1
    rw [hg] at h ⊢
    obtain ⟨hg', hidle'⟩ := ih h.2
    exact ⟨hg', List.forall_mem_cons.mpr ⟨hidle, hidle'⟩⟩

theorem deadRounds_idle {listed : List BlockId} {fuel : Nat} (hf : g.liveEdges < fuel) :
    ∀ id ∈ listed, (deadRounds listed root fuel g).graph.Idle root id := by
  induction fuel generalizing g with
  | zero => omega
  | succ fuel ih =>
    have hlive := deadRound_live root listed g
    simp only [deadRounds]
    split
    · rename_i hnone
      obtain ⟨hg, hidle⟩ := deadRound_idle (List.isEmpty_iff.mp hnone)
      rwa [hg]
    · rename_i hsome
      have hpos : 0 < (deadRound root listed g).2.length :=
        List.length_pos_iff.mpr fun hnil => hsome (by rw [hnil]; rfl)
      exact ih (by omega)

/-- In the end there is nothing left to mark in any block that was looked at. -/
theorem markDead_idle (g : Graph) (root : Option BlockId) (listed : List BlockId) :
    ∀ id ∈ listed, (g.markDead listed root).graph.Idle root id :=
  deadRounds_idle (Nat.lt_succ_self _)

end

end ScriptFlow.Graph
