import ScriptFlow.Proofs.Graph.Rounds
import Mathlib.Data.List.Forall2

/-! # The search for dead edges settles

The search is a loop with no bound of its own: it goes on while a round finds something to mark. On
every graph, of whatever shape and with edges of whatever kinds, it ends after at most as many such
rounds as there were live edges. All it leaves behind is live edges turned dead, and where it ended it
has nothing more to do. -/

namespace ScriptFlow.Graph

/-- The search as a loop: rounds follow each other until one finds nothing to mark. -/
inductive Settles (listed : List BlockId) (root : Option BlockId) : Graph → DeadReport → Prop where
  | rest {g : Graph} : (deadRound root listed g).2 = [] →
      Settles listed root g ⟨(deadRound root listed g).1, 0, []⟩
  | round {g : Graph} {r : DeadReport} : (deadRound root listed g).2 ≠ [] →
      Settles listed root (deadRound root listed g).1 r →
      Settles listed root g ⟨r.graph, r.rounds + 1, (deadRound root listed g).2 ++ r.events⟩

/-- The edge is left alone, or was live and is dead now. -/
def Dies (e e' : Edge) : Prop := e' = e ∨ e.kind ≠ .dead ∧ e' = { e with kind := .dead }

section
variable {g : Graph} {listed : List BlockId} {root : Option BlockId}

/-! ## The loop ends -/

theorem Settles.unique {r r' : DeadReport} (h : Settles listed root g r)
    (h' : Settles listed root g r') : r = r' := by
  induction h generalizing r' with
  | rest hnone =>
    cases h' with
    | rest _ => rfl
    | round hsome _ => exact absurd hnone hsome
  | round hsome _ ih =>
    cases h' with
    | rest hnone => exact absurd hnone hsome
    | round _ hrest => rw [ih hrest]

/-- A round with events leaves fewer live edges than there were. -/
theorem deadRound_liveEdges_lt (hsome : (deadRound root listed g).2 ≠ []) :
    (deadRound root listed g).1.liveEdges < g.liveEdges := by
  have hlive := deadRound_live root listed g
  have hpos := List.length_pos_iff.mpr hsome
  omega

/-- With more fuel than live edges the bounded search is the loop. -/
theorem settles_deadRounds {fuel : Nat} (hf : g.liveEdges < fuel) :
    Settles listed root g (deadRounds listed root fuel g) := by
  induction fuel generalizing g with
  | zero => omega
  | succ fuel ih =>
    simp only [deadRounds]
    by_cases hnone : (deadRound root listed g).2 = []
    · rw [if_pos (List.isEmpty_iff.mpr hnone)]
      exact .rest hnone
    · rw [if_neg (mt List.isEmpty_iff.mp hnone)]
      have hlt := deadRound_liveEdges_lt hnone
      exact .round hnone (ih (by omega))

/-- The edges still live and the rounds that marked some are together no more than the edges that
were live at first. -/
theorem Settles.rounds_le {r : DeadReport} (h : Settles listed root g r) :
    r.graph.liveEdges + r.rounds ≤ g.liveEdges := by
  induction h with
  | rest hnone => exact Nat.le_of_eq (congrArg liveEdges (deadRound_idle hnone).1)
  | round hsome _ ih =>
    have hlt := deadRound_liveEdges_lt hsome
    dsimp only
    omega

/-! ## Nothing left to mark -/

/-- A block that is not of the graph has no edges to mark. -/
theorem idle_of_size_le {id : BlockId} (h : g.size ≤ id) : g.Idle root id :=
  fun _ _ _ he => absurd (lt_size_of_mem_edges he) (Nat.not_lt.mpr h)

theorem applyRules_of_idle {id : BlockId} {rules : List DeadRule}
    (h : ∀ rule ∈ rules, ∀ e ∈ g.edges id, g.condemns id rule e.kind = false) :
    applyRules id rules g = (g, []) := by
  induction rules with
  | nil => rfl
  | cons rule rules ih =>
    have hfirst : g.applyRule id rule = (g, []) := by
      unfold applyRule
      rw [if_neg]
      simpa using h rule List.mem_cons_self
    simp only [applyRules, hfirst, ih fun r hr => h r (List.mem_cons_of_mem _ hr), List.append_nil]

theorem deadRound_of_idle (h : ∀ id ∈ listed, g.Idle root id) :
    deadRound root listed g = (g, []) := by
  induction listed with
  | nil => rfl
  | cons id ids ih =>
    simp only [deadRound, applyRules_of_idle (h id List.mem_cons_self),
      ih fun b hb => h b (List.mem_cons_of_mem _ hb), List.append_nil]

/-- A search over blocks in which no rule finds anything ends with its first round. -/
theorem markDead_of_idle (h : ∀ id ∈ listed, g.Idle root id) :
    g.markDead listed root = ⟨g, 0, []⟩ := by
  rw [markDead, deadRounds, deadRound_of_idle h]
  rfl

/-! ## What marking changes -/

theorem Dies.trans {a b c : Edge} (hab : Dies a b) (hbc : Dies b c) : Dies a c := by
  obtain rfl | ⟨ha, rfl⟩ := hab
  · exact hbc
  · obtain rfl | ⟨hdead, _⟩ := hbc
    · exact .inr ⟨ha, rfl⟩
    · exact absurd rfl hdead

theorem dies_buried (id : BlockId) (rule : DeadRule) (e : Edge) :
    Dies e (buried (g.condemns id rule) e) := by
  unfold buried
  split
  · rename_i hcond
    exact .inr ⟨condemns_live hcond, rfl⟩
  · exact .inl rfl

theorem forall₂_dies_map_buried (id : BlockId) (rule : DeadRule) {es es' : List Edge}
    (h : List.Forall₂ Dies es es') :
    List.Forall₂ Dies es (es'.map (buried (g.condemns id rule))) :=
  List.forall₂_map_right_iff.mpr (h.imp fun _ e' hd => hd.trans (dies_buried id rule e'))

theorem markDead_dies (g : Graph) (listed : List BlockId) (root : Option BlockId) (b : BlockId) :
    List.Forall₂ Dies (g.edges b) ((g.markDead listed root).graph.edges b) := by
  refine markDead_induction (P := fun h => List.Forall₂ Dies (g.edges b) (h.edges b)) ?_ listed
    (List.forall₂_same.mpr fun _ _ => .inl rfl)
  intro h id rule _ hh
  rw [edges_bury]
  split
  · exact forall₂_dies_map_buried id rule hh
  · exact hh

/-- On any graph and for any list of blocks and any root, the search ends, and ends one way only; the
rounds that mark something are at most as many as the edges live at first; only kinds of edges change,
and those from live to dead; and a second search marks nothing and counts no round. -/
theorem markDead_settles (g : Graph) (listed : List BlockId) (root : Option BlockId) :
    (∀ r, Settles listed root g r ↔ r = g.markDead listed root) ∧
      (g.markDead listed root).rounds ≤ g.liveEdges ∧
      SameFrame g (g.markDead listed root).graph ∧
      (∀ b, List.Forall₂ Dies (g.edges b) ((g.markDead listed root).graph.edges b)) ∧
      (g.markDead listed root).graph.markDead listed root =
        ⟨(g.markDead listed root).graph, 0, []⟩ := by
  have hends : Settles listed root g (g.markDead listed root) :=
    settles_deadRounds (Nat.lt_succ_self _)
  refine ⟨fun r => ⟨fun h => h.unique hends, ?_⟩, ?_, markDead_sameFrame g listed root,
    markDead_dies g listed root, markDead_of_idle (markDead_idle g root listed)⟩
  · rintro rfl
    exact hends
  · have hcount := hends.rounds_le
    omega

end

end ScriptFlow.Graph
