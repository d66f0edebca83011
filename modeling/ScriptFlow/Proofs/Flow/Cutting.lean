import ScriptFlow.Flow.Assemble
import ScriptFlow.Proofs.Flow.Walks
import ScriptFlow.Proofs.Graph.Links

/-! # Cutting code at its starts

A block holds the positions from its start up to the next one. The graph of a discovery is its blocks
with a list of edges added, first those the walks noted and then those of the returns. -/

namespace ScriptFlow.Flow

/-! ## The start in front of a position and the start behind it -/

section
variable {starts : List Start} {s : Start} {b p q n : Nat}

theorem startOf?_ne_none (hs : s ∈ starts) (hle : s.position ≤ p) : startOf? starts p ≠ none := by
  induction starts with
  | nil => cases hs
  | cons a rest ih =>
    rw [startOf?]
    cases hrest : startOf? rest p with
    | some u => dsimp only; split <;> simp
    | none =>
      rcases List.mem_cons.mp hs with rfl | hm
      · simp [hle]
      · exact absurd hrest (ih hm)

theorem startOf?_spec (h : startOf? starts p = some s) :
    s ∈ starts ∧ s.position ≤ p ∧ ∀ t ∈ starts, t.position ≤ p → t.position ≤ s.position := by
  induction starts generalizing s with
  | nil => cases h
  | cons a rest ih =>
    rw [startOf?] at h
    cases hrest : startOf? rest p with
    | none =>
      rw [hrest] at h
      dsimp only at h
      split at h
      · cases h
        refine ⟨by simp, by assumption, ?_⟩
        intro t ht hle
        rcases List.mem_cons.mp ht with rfl | ht
        · exact Nat.le_refl _
        · exact absurd hrest (startOf?_ne_none ht hle)
      · cases h
    | some u =>
      obtain ⟨hu, hup, humax⟩ := ih hrest
      rw [hrest] at h
      dsimp only at h
      split at h
      · rename_i hcond
        cases h
        refine ⟨by simp, hcond.1, ?_⟩
        intro t ht hle
        rcases List.mem_cons.mp ht with rfl | ht
        · exact Nat.le_refl _
        · have := humax t ht hle
          omega
      · rename_i hcond
        cases h
        refine ⟨List.mem_cons_of_mem _ hu, hup, ?_⟩
        intro t ht hle
        rcases List.mem_cons.mp ht with rfl | ht
        · by_contra hlt
          exact hcond ⟨hle, by omega⟩
        · exact humax t ht hle

theorem lt_nextStart_iff :
    q < nextStart starts p n ↔ q < n ∧ ∀ t ∈ starts, p < t.position → q < t.position := by
  induction starts generalizing n with
  | nil => simp [nextStart]
  | cons a rest ih =>
    refine ih.trans ?_
    simp only [List.mem_cons, forall_eq_or_imp]
    split <;> constructor
    · rintro ⟨hq, hall⟩
      exact ⟨by omega, fun _ => hq, hall⟩
    · rintro ⟨hq, ha, hall⟩
      exact ⟨ha (by omega), hall⟩
    · rintro ⟨hq, hall⟩
      exact ⟨hq, by omega, hall⟩
    · rintro ⟨hq, -, hall⟩
      exact ⟨hq, hall⟩

theorem nextStart_le : nextStart starts p n ≤ n := by
  by_contra h
  have := (lt_nextStart_iff.mp (Nat.lt_of_not_le h)).1
  omega

theorem lt_nextStart_self (hp : p < n) : p < nextStart starts p n :=
  lt_nextStart_iff.mpr ⟨hp, fun _ _ ht => ht⟩

/-- Behind a block the code ends or another block starts. -/
theorem nextStart_eq (starts : List Start) (p n : Nat) : nextStart starts p n = n ∨
    ∃ t ∈ starts, p < t.position ∧ t.position = nextStart starts p n := by
  by_cases hn : nextStart starts p n < n
  · by_contra hno
    rw [not_or] at hno
    have hself : nextStart starts p n < nextStart starts p n := by
      rw [lt_nextStart_iff]
      refine ⟨hn, fun t ht hpt => ?_⟩
      rcases Nat.lt_trichotomy (nextStart starts p n) t.position with h | h | h
      · exact h
      · exact absurd ⟨t, ht, hpt, h.symm⟩ hno.2
      · have := (lt_nextStart_iff.mp h).2 t ht hpt
        omega
    omega
  · have hle : nextStart starts p n ≤ n := nextStart_le
    exact .inl (by omega)

theorem blockOf_eq (hnd : (starts.map Start.position).Nodup) (hb : starts[b]? = some s)
    (hle : s.position ≤ p) (hlt : p < nextStart starts s.position n) : blockOf starts p = b := by
  have hs := List.mem_of_getElem? hb
  cases hu : startOf? starts p with
  | none => exact absurd hu (startOf?_ne_none hs hle)
  | some u =>
    obtain ⟨hmem, hup, hmax⟩ := startOf?_spec hu
    have hsu := hmax s hs hle
    have hus : u = s := by
      apply List.inj_on_of_nodup_map hnd hmem hs
      by_contra hne
      have := (lt_nextStart_iff.mp hlt).2 u hmem (by omega)
      omega
    obtain ⟨hblt, rfl⟩ := List.getElem?_eq_some_iff.mp hb
    unfold blockOf
    rw [hu, hus]
    exact List.Nodup.idxOf_getElem (List.Nodup.of_map _ hnd) b hblt

/-- Every position from the first start on is in a block. -/
theorem exists_blockOf (hnd : (starts.map Start.position).Nodup) (hs : s ∈ starts)
    (hle : s.position ≤ p) (hp : p < n) :
    ∃ t, starts[blockOf starts p]? = some t ∧ t.position ≤ p ∧
      p < nextStart starts t.position n := by
  cases ht : startOf? starts p with
  | none => exact absurd ht (startOf?_ne_none hs hle)
  | some t =>
    obtain ⟨hmem, htp, hmax⟩ := startOf?_spec ht
    obtain ⟨b, hb⟩ := List.getElem?_of_mem hmem
    have hlt : p < nextStart starts t.position n := by
      refine lt_nextStart_iff.mpr ⟨hp, fun u hu htu => ?_⟩
      by_contra hle'
      have := hmax u hu (by omega)
      omega
    exact ⟨t, by rwa [blockOf_eq hnd hb htp hlt], htp, hlt⟩

end

/-! ## The instructions of a block -/

section
variable {code : List LinkedInstruction} {starts : List Start} {p : Nat} {i : LinkedInstruction}

theorem cut_append (hp : p < code.length) :
    code = code.take p ++ cut code starts p ++ code.drop (nextStart starts p code.length) := by
  have hnext : p < nextStart starts p code.length := lt_nextStart_self hp
  unfold cut
  have hdrop : code.drop (nextStart starts p code.length) =
      (code.drop p).drop (nextStart starts p code.length - p) := by
    rw [List.drop_drop]
    congr 1
    omega
  rw [hdrop, List.append_assoc, List.take_append_drop, List.take_append_drop]

theorem cut_getElem? (k : Nat) : (cut code starts p)[k]? =
    if p + k < nextStart starts p code.length then code[p + k]? else none := by
  unfold cut
  rw [List.getElem?_take, List.getElem?_drop]
  split <;> split <;> first | rfl | omega

theorem mem_cut : i ∈ cut code starts p ↔
    ∃ q, p ≤ q ∧ q < nextStart starts p code.length ∧ code[q]? = some i := by
  rw [List.mem_iff_getElem?]
  constructor
  · rintro ⟨k, hk⟩
    rw [cut_getElem?] at hk
    split at hk
    · exact ⟨p + k, by omega, by assumption, hk⟩
    · cases hk
  · rintro ⟨q, hpq, hq, hi⟩
    refine ⟨q - p, ?_⟩
    rw [cut_getElem?, show p + (q - p) = q by omega, if_pos hq]
    exact hi

theorem cut_head? (hp : p < code.length) : (cut code starts p).head? = code[p]? := by
  rw [List.head?_eq_getElem?, cut_getElem?, Nat.add_zero, if_pos (lt_nextStart_self hp)]

theorem cut_getLast? (hp : p < code.length) :
    (cut code starts p).getLast? = code[nextStart starts p code.length - 1]? := by
  have hlt : p < nextStart starts p code.length := lt_nextStart_self hp
  have hle : nextStart starts p code.length ≤ code.length := nextStart_le
  have hlen : (cut code starts p).length = nextStart starts p code.length - p := by
    unfold cut
    rw [List.length_take, List.length_drop]
    omega
  rw [List.getLast?_eq_getElem?, hlen, cut_getElem?,
    show p + (nextStart starts p code.length - p - 1) = nextStart starts p code.length - 1 by omega,
    if_pos (by omega)]

end

/-! ## The graph of a discovery -/

section
variable {code : List LinkedInstruction} {starts : List Start} {d : Discovery}

/-- The block of a start, before any edge touches it. -/
def blockAt (code : List LinkedInstruction) (starts : List Start) (s : Start) : Block where
  address := (code[s.position]?.map fun i => i.address).getD 0
  instructions := cut code starts s.position
  owner := s.owner

theorem blocksOf_toList : (blocksOf code starts).blocks.toList = starts.map (blockAt code starts) := by
  have fold : ∀ (ss : List Start) (g : Graph),
      (ss.foldl (fun g s => g.add ((code[s.position]?.map fun i => i.address).getD 0)
        (cut code starts s.position) s.owner) g).blocks.toList =
      g.blocks.toList ++ ss.map (blockAt code starts) := by
    intro ss
    induction ss with
    | nil => simp
    | cons s ss ih =>
      intro g
      rw [List.foldl_cons, ih]
      simp [Graph.add, blockAt]
  have h := fold starts {}
  simpa [blocksOf] using h

theorem blocksOf_size : (blocksOf code starts).size = starts.length := by
  have h : (blocksOf code starts).blocks.toList.length = _ := congrArg List.length blocksOf_toList
  simpa [Graph.size] using h

theorem blocksOf_block {b : BlockId} {s : Start} (hb : starts[b]? = some s) :
    (blocksOf code starts).block b = blockAt code starts s := by
  have hat : (blocksOf code starts).blocks[b]? = some (blockAt code starts s) := by
    rw [← Array.getElem?_toList, blocksOf_toList, List.getElem?_map, hb]
    rfl
  unfold Graph.block
  rw [Array.getD_eq_getD_getElem?, hat]
  rfl

/-- The edges the walks noted. -/
def jumpLinks (d : Discovery) : List Graph.Link :=
  d.jumps.map fun j => ⟨blockOf d.starts j.source, blockOf d.starts j.target, j.kind⟩

/-- The edges of the returns. -/
def returnLinks (code : List LinkedInstruction) (d : Discovery) : List Graph.Link :=
  d.calls.flatMap fun c => (exitsOf (blocksOf code d.starts) c.callee).map fun b =>
    ⟨b, blockOf d.starts c.back, .back⟩

theorem exitsOf_congr {g h : Graph} (hgh : g.SameCode h) (root : Int) :
    exitsOf h root = exitsOf g root := by
  unfold exitsOf Graph.ids Block.last?
  simp only [hgh.size, hgh.owner, hgh.instructions]

theorem joinBlocks_eq (g : Graph) : joinBlocks d.starts d.jumps g = g.linkAll (jumpLinks d) := by
  unfold joinBlocks Graph.linkAll jumpLinks
  rw [List.foldl_map]

/-- Returns are added while calls are gone through, but which blocks return is settled before. -/
theorem joinReturns_eq {h : Graph} (hh : (blocksOf code d.starts).SameCode h) :
    joinReturns d.starts d.calls h = h.linkAll (returnLinks code d) := by
  unfold joinReturns returnLinks
  generalize d.calls = calls
  induction calls generalizing h with
  | nil => rfl
  | cons c calls ih =>
    rw [List.foldl_cons, List.flatMap_cons, Graph.linkAll_append, exitsOf_congr hh]
    have hfold : ∀ (bs : List BlockId) (g : Graph),
        bs.foldl (fun g b => g.link b (blockOf d.starts c.back) .back) g =
          g.linkAll (bs.map fun b => ⟨b, blockOf d.starts c.back, .back⟩) := by
      intro bs g
      unfold Graph.linkAll
      rw [List.foldl_map]
    rw [hfold]
    exact ih (hh.trans (Graph.sameCode_linkAll _ _))

theorem assemble_eq : assemble code d =
    (blocksOf code d.starts).linkAll (jumpLinks d ++ returnLinks code d) := by
  unfold assemble
  rw [joinBlocks_eq, joinReturns_eq (Graph.sameCode_linkAll _ _), Graph.linkAll_append]

theorem assemble_sameCode : (blocksOf code d.starts).SameCode (assemble code d) := by
  rw [assemble_eq]
  exact Graph.sameCode_linkAll _ _

theorem assemble_edges {b : BlockId} {s : Start} (hb : d.starts[b]? = some s) :
    (assemble code d).edges b =
      ((jumpLinks d ++ returnLinks code d).filter fun e => e.parent == b).map
        fun e => ⟨e.child, e.kind⟩ := by
  have hlt : b < (blocksOf code d.starts).size := by
    rw [blocksOf_size]
    exact (List.getElem?_eq_some_iff.mp hb).1
  rw [assemble_eq, Graph.edges_linkAll _ hlt, Graph.edges, blocksOf_block hb]
  rfl

theorem assemble_parents {b : BlockId} {s : Start} (hb : d.starts[b]? = some s) :
    ((assemble code d).block b).parents =
      ((jumpLinks d ++ returnLinks code d).filter fun e => e.child == b).map Graph.Link.parent := by
  have hlt : b < (blocksOf code d.starts).size := by
    rw [blocksOf_size]
    exact (List.getElem?_eq_some_iff.mp hb).1
  rw [assemble_eq, Graph.parents_linkAll _ hlt, blocksOf_block hb]
  rfl

end

end ScriptFlow.Flow
