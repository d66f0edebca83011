import ScriptFlow.Proofs.Graph.Search

/-! # Linear paths

The question for a linear path is a search that stops early: it has its answer as soon as it meets the
block it looks for. If it never does, it was a search through all that forward edges lead to. Every
forward edge leads to a higher address, so the answers order the blocks. -/

namespace ScriptFlow.Graph

/-- An edge that is neither dead nor leads into another subroutine leads from one block to another at a
higher address. -/
def StepsForward (g : Graph) (b c : BlockId) : Prop :=
  ∃ e ∈ g.edges b, e.child = c ∧ e.kind ∉ [EdgeKind.dead, .call, .back, .state] ∧
    g.addressOf b < g.addressOf c

/-- The search for a block as a loop: it ends where the block is met on top of the stack, or with the
stack empty. -/
inductive Seeks (g : Graph) (goal : BlockId) : List Int → List BlockId → Bool → Prop where
  | missed {seen : List Int} : Seeks g goal seen [] false
  | met {seen : List Int} {stack : List BlockId} : Seeks g goal seen (goal :: stack) true
  | skip {seen : List Int} {b : BlockId} {stack : List BlockId} {r : Bool} : b ≠ goal →
      g.addressOf b ∈ seen → Seeks g goal seen stack r → Seeks g goal seen (b :: stack) r
  | note {seen : List Int} {b : BlockId} {stack : List BlockId} {r : Bool} : b ≠ goal →
      g.addressOf b ∉ seen →
      Seeks g goal (g.addressOf b :: seen) ((g.onward g.isForward b).reverse ++ stack) r →
      Seeks g goal seen (b :: stack) r

/-- The query decides whether forward edges lead from one block to another, and orders the blocks. -/
structure DecidesForward (g : Graph) : Prop where
  /-- The loop ends, and with this answer only. -/
  ends : ∀ a b r, Seeks g b [] [a] r ↔ r = g.hasLinearPath a b
  exact : ∀ a < g.size, ∀ b < g.size,
    g.hasLinearPath a b = true ↔ Relation.ReflTransGen g.StepsForward a b
  refl : ∀ a < g.size, g.hasLinearPath a a = true
  trans : ∀ a < g.size, ∀ b < g.size, ∀ c < g.size,
    g.hasLinearPath a b = true → g.hasLinearPath b c = true → g.hasLinearPath a c = true
  antisymm : ∀ a < g.size, ∀ b < g.size,
    g.hasLinearPath a b = true → g.hasLinearPath b a = true → a = b
  climbs : ∀ a < g.size, ∀ b < g.size,
    g.hasLinearPath a b = true → a = b ∨ g.addressOf a < g.addressOf b

section
variable {g : Graph} {goal a b c : BlockId} {seen : List Int} {stack : List BlockId} {r : Bool}

/-! ## The loop -/

theorem Seeks.unique {r' : Bool} (h : Seeks g goal seen stack r) (h' : Seeks g goal seen stack r') :
    r = r' := by
  induction h with
  | missed => cases h'; rfl
  | met =>
    cases h' with
    | met => rfl
    | skip hne _ _ => exact absurd rfl hne
    | note hne _ _ => exact absurd rfl hne
  | skip hne hseen _ ih =>
    cases h' with
    | met => exact absurd rfl hne
    | skip _ _ hrest => exact ih hrest
    | note _ hnew _ => exact absurd hseen hnew
  | note hne hnew _ ih =>
    cases h' with
    | met => exact absurd rfl hne
    | skip _ hseen _ => exact absurd hseen hnew
    | note _ _ hrest => exact ih hrest

/-- With more fuel than there is to do the bounded search is the loop. -/
theorem seeks_linearSearch {fuel : Nat} (hf : g.workLeft seen stack < fuel) :
    Seeks g goal seen stack (g.linearSearch goal fuel seen stack) := by
  induction fuel generalizing seen stack with
  | zero => omega
  | succ fuel ih =>
    cases stack with
    | nil => exact .missed
    | cons b stack =>
      rw [linearSearch]
      by_cases hgoal : b = goal
      · rw [if_pos hgoal, hgoal]
        exact .met
      · rw [if_neg hgoal]
        by_cases hseen : g.addressOf b ∈ seen
        · rw [if_pos (List.contains_iff_mem.mpr hseen)]
          have hless := workLeft_skip g seen b stack
          exact .skip hgoal hseen (ih (by omega))
        · rw [if_neg (mt List.contains_iff_mem.mp hseen)]
          have hless := workLeft_note g.isForward stack hseen
          exact .note hgoal hseen (ih (by omega))

theorem seeks_iff : Seeks g b [] [a] r ↔ r = g.hasLinearPath a b := by
  have hends : Seeks g b [] [a] (g.hasLinearPath a b) :=
    seeks_linearSearch (workLeft_start g (Nat.le_refl 1))
  constructor
  · exact fun h => h.unique hends
  · rintro rfl
    exact hends

/-! ## Its answer -/

theorem mem_onward_isForward : c ∈ g.onward g.isForward b ↔ g.StepsForward b c := by
  have hforward : ∀ e : Edge, g.isForward b e = true ↔
      e.kind ∉ [EdgeKind.dead, .call, .back, .state] ∧ g.addressOf b < g.addressOf e.child := by
    intro e
    cases hk : e.kind <;> simp [isForward, hk, EdgeKind.crosses]
  simp only [mem_onward, hforward]
  constructor
  · rintro ⟨e, he, ⟨hkind, hup⟩, rfl⟩
    exact ⟨e, he, rfl, hkind, hup⟩
  · rintro ⟨e, he, rfl, hkind, hup⟩
    exact ⟨e, he, ⟨hkind, hup⟩, rfl⟩

/-- A block that is met was led to from the stack. -/
theorem Seeks.sound (h : Seeks g goal seen stack true) :
    ∃ b ∈ stack, Relation.ReflTransGen g.StepsForward b goal := by
  generalize hr : true = r at h
  induction h with
  | missed => cases hr
  | met => exact ⟨goal, List.mem_cons_self, .refl⟩
  | skip _ _ _ ih =>
    obtain ⟨b, hb, hpath⟩ := ih hr
    exact ⟨b, List.mem_cons_of_mem _ hb, hpath⟩
  | @note _ b _ _ _ _ _ ih =>
    obtain ⟨c, hc, hpath⟩ := ih hr
    rcases List.mem_append.mp hc with hc | hc
    · have hstep := mem_onward_isForward.mp (List.mem_reverse.mp hc)
      exact ⟨b, List.mem_cons_self, hpath.head hstep⟩
    · exact ⟨c, List.mem_cons_of_mem _ hc, hpath⟩

/-- A search that misses its block has looked at all there is, and did not note the address of the
block. -/
theorem Seeks.collects (hg : g.Addressed) (hgoal : goal < g.size) (h : Seeks g goal seen stack false)
    (hstack : ∀ b ∈ stack, b < g.size) (hnew : g.addressOf goal ∉ seen) :
    ∃ found, Collects g g.isForward seen stack found ∧ g.addressOf goal ∉ found := by
  generalize hr : false = r at h
  induction h with
  | missed => exact ⟨_, .done, hnew⟩
  | met => cases hr
  | skip _ hseen _ ih =>
    obtain ⟨found, hfound, hmissed⟩ := ih (fun b hb => hstack b (List.mem_cons_of_mem _ hb)) hnew hr
    exact ⟨found, .skip hseen hfound, hmissed⟩
  | @note seen b stack _ hne hunseen _ ih =>
    obtain ⟨hb, hstack⟩ := List.forall_mem_cons.mp hstack
    have hnext : ∀ c ∈ (g.onward g.isForward b).reverse ++ stack, c < g.size :=
      forall_mem_pushed (fun c hc => hg.onward_lt hc) hstack
    have hstill : g.addressOf goal ∉ g.addressOf b :: seen := by
      intro hmem
      rcases List.mem_cons.mp hmem with hsame | hmem
      · exact hne (hg.distinct b hb goal hgoal hsame.symm)
      · exact hnew hmem
    obtain ⟨found, hfound, hmissed⟩ := ih hnext hstill hr
    exact ⟨found, .note hunseen hfound, hmissed⟩

theorem hasLinearPath_iff (hg : g.Addressed) (ha : a < g.size) (hb : b < g.size) :
    g.hasLinearPath a b = true ↔ Relation.ReflTransGen g.StepsForward a b := by
  have hends : Seeks g b [] [a] (g.hasLinearPath a b) := seeks_iff.mpr rfl
  have hstart : ∀ c ∈ [a], c < g.size := List.forall_mem_singleton.mpr ha
  cases hr : g.hasLinearPath a b with
  | true =>
    rw [hr] at hends
    obtain ⟨c, hc, hpath⟩ := hends.sound
    rw [List.mem_singleton.mp hc] at hpath
    simpa using hpath
  | false =>
    rw [hr] at hends
    obtain ⟨found, hfound, hmissed⟩ := hends.collects hg hb hstart (by simp)
    rw [hfound.exact hg hstart hb] at hmissed
    simp only [mem_onward_isForward, List.mem_singleton, exists_eq_left] at hmissed
    simpa using hmissed

/-! ## The order -/

theorem climbs_of_path (h : Relation.ReflTransGen g.StepsForward a b) :
    a = b ∨ g.addressOf a < g.addressOf b := by
  induction h with
  | refl => exact .inl rfl
  | tail _ hstep ih =>
    obtain ⟨-, -, -, -, hup⟩ := hstep
    rcases ih with rfl | hbelow
    · exact .inr hup
    · exact .inr (Int.lt_trans hbelow hup)

end

/-- If edges lead to blocks of the graph and addresses differ, the query ends with the right answer
whatever the edges and their kinds: it is a partial order of the blocks that never leads to a lower
address. -/
theorem hasLinearPath_decides {g : Graph} (hg : g.Addressed) : g.DecidesForward where
  ends _ _ _ := seeks_iff
  exact _ ha _ hb := hasLinearPath_iff hg ha hb
  refl _ ha := (hasLinearPath_iff hg ha ha).mpr .refl
  trans _ ha _ hb _ hc hab hbc := by
    rw [hasLinearPath_iff hg ha hb] at hab
    rw [hasLinearPath_iff hg hb hc] at hbc
    exact (hasLinearPath_iff hg ha hc).mpr (hab.trans hbc)
  antisymm _ ha _ hb hab hba := by
    rcases climbs_of_path ((hasLinearPath_iff hg ha hb).mp hab) with hsame | hup
    · exact hsame
    · rcases climbs_of_path ((hasLinearPath_iff hg hb ha).mp hba) with hsame | hdown
      · exact hsame.symm
      · omega
  climbs _ ha _ hb hab := climbs_of_path ((hasLinearPath_iff hg ha hb).mp hab)

/-- A branch whose arms meet again, with a second edge along one arm; behind the meeting a jump back to
the branch and a call. The other arm is dead. -/
def meetingArms : Graph where
  blocks := #[
    { address := 13, edges := [⟨2, .whenTrue⟩, ⟨1, .whenFalse⟩] },
    { address := 19, edges := [⟨3, .dead⟩] },
    { address := 27, edges := [⟨3, .unconditional⟩, ⟨3, .whenTrue⟩] },
    { address := 31, edges := [⟨0, .unconditional⟩, ⟨4, .call⟩] },
    { address := 43, edges := [] }]

/-- Past the live arm the blocks of the branch and of the meeting are in order; from the dead arm, from
the meeting back to the branch and into what is called no linear path leads. -/
theorem meetingArms_decided : meetingArms.Addressed ∧ meetingArms.DecidesForward ∧
    Relation.ReflTransGen meetingArms.StepsForward 0 3 ∧
    ¬ Relation.ReflTransGen meetingArms.StepsForward 1 3 ∧
    ¬ Relation.ReflTransGen meetingArms.StepsForward 3 0 ∧
    ¬ Relation.ReflTransGen meetingArms.StepsForward 3 4 := by
  have hchild : ∀ b < meetingArms.size, ∀ e ∈ meetingArms.edges b, e.child < meetingArms.size := by
    decide
  have haddressed : meetingArms.Addressed :=
    ⟨fun b e he => hchild b (lt_size_of_mem_edges he) e he, by decide⟩
  have hdecides := hasLinearPath_decides haddressed
  refine ⟨haddressed, hdecides, ?_, ?_, ?_, ?_⟩ <;>
    rw [← hdecides.exact _ (by decide) _ (by decide)] <;> decide

end ScriptFlow.Graph
