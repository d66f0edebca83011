import ScriptFlow.Proofs.Code.Linked

/-! # Which code can be linked

Binary search finds every instruction of a store by its address. So linking succeeds exactly if every
branch leads to an instruction and no instruction that needs a follower is stored last. -/

namespace ScriptFlow.Code

section
variable {items : Array Instruction} {a : Int} {low high fuel : Nat}

/-- What is known of the positions when the search has come down to the part from `low` up to `high`. -/
structure Bracket (items : Array Instruction) (a : Int) (low high : Nat) : Prop where
  le : low ≤ high
  below : ∀ {k : Nat} {i : Instruction}, k < low → items[k]? = some i → i.address < a
  above : ∀ {k : Nat} {i : Instruction}, high ≤ k → items[k]? = some i → a ≤ i.address

theorem lowerBound_bracket (ho : Ordered ⟨items⟩) (h : Bracket items a low high)
    (hsize : high ≤ items.size) (hf : high - low ≤ fuel) :
    Bracket items a (lowerBound items a fuel low high) (lowerBound items a fuel low high) := by
  have hle := h.le
  -- addresses increase, so one comparison tells about all positions on one side
  have mono {k m : Nat} {i j : Instruction} (hkm : k ≤ m) (hi : items[k]? = some i)
      (hj : items[m]? = some j) : i.address ≤ j.address := by
    obtain ⟨hk, rfl⟩ := Array.getElem?_eq_some_iff.mp hi
    obtain ⟨hm, rfl⟩ := Array.getElem?_eq_some_iff.mp hj
    rcases Nat.lt_or_eq_of_le hkm with hlt | rfl
    · exact Int.le_of_lt (List.pairwise_iff_getElem.mp ho k m hk hm hlt)
    · exact Int.le_refl _
  induction fuel generalizing low high with
  | zero =>
    rw [lowerBound]
    exact ⟨Nat.le_refl _, h.below, fun hk => h.above (by omega)⟩
  | succ fuel ih =>
    rw [lowerBound]
    split
    · rename_i hlt
      have hmid : (low + high) / 2 < items.size := by omega
      have hget := Array.getElem?_eq_getElem hmid
      simp only [hget]
      split
      · rename_i hless
        refine ih ⟨by omega, fun hk hi => ?_, h.above⟩ hsize (by omega) (by omega)
        exact Int.lt_of_le_of_lt (mono (by omega) hi hget) hless
      · rename_i hge
        refine ih ⟨by omega, h.below, fun hk hi => ?_⟩ (by omega) (by omega) (by omega)
        exact Int.le_trans (by omega) (mono hk hget hi)
    · exact ⟨Nat.le_refl _, h.below, fun hk => h.above (by omega)⟩

end

section
variable {code : Code} {a : Int} {p : Nat} {i : Instruction}

theorem locate?_complete (ho : code.Ordered) (hp : code.items[p]? = some i) (ha : i.address = a) :
    code.locate? a = some p := by
  obtain ⟨hlt, hget⟩ := Array.getElem?_eq_some_iff.mp hp
  have hstart : Bracket code.items a 0 code.items.size :=
    ⟨Nat.zero_le _, fun hk => absurd hk (Nat.not_lt_zero _), fun hk hi => by
      have := (Array.getElem?_eq_some_iff.mp hi).1
      omega⟩
  obtain ⟨-, below, above⟩ :=
    lowerBound_bracket ho hstart (Nat.le_refl _) (show _ ≤ code.items.size by omega)
  have hbound : lowerBound code.items a code.items.size 0 code.items.size = p := by
    rcases Nat.lt_trichotomy (lowerBound code.items a code.items.size 0 code.items.size) p with h | h | h
    · have hless := List.pairwise_iff_getElem.mp ho _ p (by simp [toList]; omega) hlt h
      have := above (Nat.le_refl _) (Array.getElem?_eq_getElem (by omega))
      simp only [toList, Array.getElem_toList, hget] at hless
      omega
    · exact h
    · have := below h hp
      omega
  simp [locate?, hbound, hp, ha]

/-! ## Storing -/

theorem foldlM_append_ok (code : Code) {is : List Instruction} (h : (code.toList ++ is).Pairwise
    fun i j => i.address < j.address) : is.foldlM append code = .ok ⟨(code.toList ++ is).toArray⟩ := by
  induction is generalizing code with
  | nil => simp [toList]; rfl
  | cons i is ih =>
    have hnext : code.append i = .ok ⟨code.items.push i⟩ := by
      unfold append
      split
      · rename_i last hlast
        have hmem : last ∈ code.toList := List.mem_of_getLast? (by rwa [toList, Array.getLast?_toList])
        have hlt := (List.pairwise_append.mp h).2.2 last hmem i List.mem_cons_self
        rw [if_neg (by omega)]
      · rfl
    rw [List.foldlM_cons, hnext]
    show is.foldlM append ⟨code.items.push i⟩ = _
    rw [ih ⟨code.items.push i⟩ (by simpa [toList] using h)]
    simp [toList]

/-- Instructions in increasing address order are stored as they come. -/
theorem ofList_eq_ok {is : List Instruction} (h : is.Pairwise fun i j => i.address < j.address) :
    ofList is = .ok ⟨is.toArray⟩ := by
  rw [ofList, foldlM_append_ok {} (by simpa [toList] using h)]
  simp [toList]

/-! ## Linking -/

/-- No branch leads out of the code, and no instruction that needs a follower is stored last. -/
structure Linkable (is : List Instruction) : Prop where
  followed : ∀ {p : Nat} {i : Instruction}, is[p]? = some i → i.opcode.needsFollower = true →
    ∃ j, is[p + 1]? = some j
  lands : ∀ {i : Instruction}, i ∈ is → i.opcode.branches → ∃ j ∈ is, j.address = destination i

theorem resolve_succeeds {next : Bool} (ho : code.Ordered)
    (hnext : i.opcode.needsFollower = true → next = true)
    (hlands : i.opcode.branches → ∃ j ∈ code.toList, j.address = destination i) :
    ∃ t, code.resolve next i = .ok t := by
  unfold resolve
  rw [if_neg (by simpa using hnext)]
  split
  · exact ⟨_, rfl⟩
  · rename_i t ht
    obtain ⟨j, hj, ha⟩ := hlands (Opcode.branches_iff.mpr ⟨t, ht⟩)
    obtain ⟨q, hq⟩ := List.getElem?_of_mem hj
    rw [toList, Array.getElem?_toList] at hq
    rw [locate?_complete ho hq ha]
    exact ⟨_, rfl⟩

theorem resolveAll_succeeds {is : List Instruction} (h : ∀ (p : Nat) (i : Instruction),
    is[p]? = some i → ∃ t, code.resolve (is[p + 1]?).isSome i = .ok t) :
    ∃ ts, code.resolveAll is = .ok ts := by
  induction is with
  | nil => exact ⟨_, rfl⟩
  | cons i is ih =>
    obtain ⟨t, ht⟩ := h 0 i rfl
    obtain ⟨ts, hts⟩ := ih fun p j hj => h (p + 1) j hj
    have hnext : (!is.isEmpty) = ((i :: is)[0 + 1]?).isSome := by cases is <;> rfl
    rw [resolveAll, hnext, ht, hts]
    exact ⟨_, rfl⟩

theorem link_succeeds_iff (ho : code.Ordered) :
    (∃ linked, code.link = .ok linked) ↔ Linkable code.toList := by
  constructor
  · rintro ⟨linked, h⟩
    simp only [link, bind, Except.bind] at h
    split at h
    · cases h
    · rename_i ts hts
      obtain ⟨-, hat⟩ := resolveAll_ok hts
      refine ⟨fun hp hn => ?_, fun hi hb => ?_⟩
      · obtain ⟨t, -, hres⟩ := hat _ _ hp
        exact Option.isSome_iff_exists.mp ((resolve_ok hres).1 hn)
      · obtain ⟨p, hp⟩ := List.getElem?_of_mem hi
        obtain ⟨t, -, hres⟩ := hat _ _ hp
        obtain ⟨tag, htag⟩ := Opcode.branches_iff.mp hb
        obtain ⟨q, j, -, hj, ha⟩ := (resolve_ok hres).2 tag htag
        exact ⟨j, List.mem_of_getElem? (by rwa [toList, Array.getElem?_toList]), ha⟩
  · intro h
    obtain ⟨ts, hts⟩ := resolveAll_succeeds fun p i hp => resolve_succeeds ho
      (fun hn => Option.isSome_iff_exists.mpr (h.followed hp hn)) (h.lands (List.mem_of_getElem? hp))
    simp only [link, hts, bind, Except.bind]
    exact ⟨_, rfl⟩

end

end ScriptFlow.Code
