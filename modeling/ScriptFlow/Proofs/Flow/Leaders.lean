import ScriptFlow.Flow.Discovery
import ScriptFlow.Proofs.Code.Linked

/-! # Leaders, by address and by position

A leader is an instruction a block has to start at. The definition looks at the linked code and the
roots alone, so it is what the walks are measured against. The rest of the file moves between the
addresses that links speak of and the positions that walks count. -/

namespace ScriptFlow.Flow

/-- A block has to start here: the code starts here, a subroutine does, something branches here, or
the instruction in front ends its block. -/
inductive Leader (code : List LinkedInstruction) (roots : List Int) : Int → Prop
  | first {i : LinkedInstruction} : code.head? = some i → Leader code roots i.address
  | root {a : Int} : a ∈ roots → Leader code roots a
  | target {i : LinkedInstruction} {a : Int} : i ∈ code → i.opcode.branches → i.target = some a →
      Leader code roots a
  | behind {p : Nat} {i j : LinkedInstruction} : code[p]? = some i → i.opcode.endsBlock = true →
      code[p + 1]? = some j → Leader code roots j.address

namespace Layout

/-- The layout stands for linked code, all subroutines start at instructions of it, and every call
leads to one of them. -/
structure Sound (l : Layout) : Prop where
  linked : Linked l.code
  roots_known : ∀ {a}, a ∈ l.roots → ∃ i ∈ l.code, i.address = a
  calls_known : ∀ {i a}, i ∈ l.code → i.opcode = .jsr → i.target = some a → a ∈ l.roots

/-- The instruction at a position ends a block. -/
def ends (l : Layout) (p : Nat) : Bool := (l.code[p]?.map fun i => i.opcode.endsBlock).getD false

/-- The instruction at a position is a leader. -/
def LeaderAt (l : Layout) (p : Nat) : Prop :=
  ∃ i, l.code[p]? = some i ∧ Leader l.code l.roots i.address

/-- Where the instruction at a position leads if it ends a block, and how. -/
def ways (l : Layout) (p : Nat) : List (Nat × EdgeKind) :=
  ((l.code[p]?.map successors).getD []).filterMap fun s => (l.position? s.1).map (·, s.2)

/-- The call at a position. -/
def callAt (l : Layout) (p : Nat) : Option Call :=
  l.code[p]?.bind fun i =>
    if i.opcode = .jsr then i.target.map fun callee => ⟨i.address, callee, p + 1⟩ else none

section
variable {l : Layout} {p q : Nat} {i j : LinkedInstruction} {a : Int}

theorem LeaderAt.lt (h : l.LeaderAt p) : p < l.code.length := by
  obtain ⟨i, hi, -⟩ := h
  exact (List.getElem?_eq_some_iff.mp hi).1

theorem position?_eq (hl : Linked l.code) (hp : l.code[p]? = some i) :
    l.position? i.address = some p := by
  unfold position?
  rw [List.findIdx?_eq_some_iff_getElem]
  obtain ⟨hlt, rfl⟩ := List.getElem?_eq_some_iff.mp hp
  refine ⟨hlt, by simp, ?_⟩
  intro q hq
  have hne := List.pairwise_iff_getElem.mp hl.ordered q p (by omega) hlt hq
  simp only [beq_iff_eq]
  omega

theorem position?_some (h : l.position? a = some p) : ∃ i, l.code[p]? = some i ∧ i.address = a := by
  unfold position? at h
  rw [List.findIdx?_eq_some_iff_getElem] at h
  obtain ⟨hlt, ha, -⟩ := h
  exact ⟨_, List.getElem?_eq_getElem hlt, by simpa using ha⟩

theorem position?_of_mem (hl : Linked l.code) (hi : i ∈ l.code) :
    ∃ p, l.code[p]? = some i ∧ l.position? i.address = some p := by
  obtain ⟨p, hp⟩ := List.getElem?_of_mem hi
  exact ⟨p, hp, position?_eq hl hp⟩

theorem root?_isSome : (l.root? p).isSome = true ↔ ∃ i, l.code[p]? = some i ∧ i.address ∈ l.roots := by
  unfold root?
  cases h : l.code[p]? with
  | none => simp
  | some i => by_cases hr : i.address ∈ l.roots <;> simp [Option.filter, hr]

theorem leaderAt_root (h : (l.root? p).isSome = true) : l.LeaderAt p := by
  obtain ⟨i, hi, hr⟩ := root?_isSome.mp h
  exact ⟨i, hi, .root hr⟩

theorem leaderAt_zero (h : 0 < l.code.length) : l.LeaderAt 0 :=
  ⟨l.code[0], List.getElem?_eq_getElem h,
    .first (by rw [List.head?_eq_getElem?, List.getElem?_eq_getElem h])⟩

theorem ends_eq (hp : l.code[p]? = some i) : l.ends p = i.opcode.endsBlock := by
  simp [ends, hp]

theorem leaderAt_behind (h : l.ends q = true) (hlt : q + 1 < l.code.length) :
    l.LeaderAt (q + 1) := by
  have hi : l.code[q]? = some l.code[q] := List.getElem?_eq_getElem (by omega)
  rw [ends_eq hi] at h
  exact ⟨_, List.getElem?_eq_getElem hlt, .behind hi h (List.getElem?_eq_getElem hlt)⟩

theorem follower_eq (hl : Linked l.code) (hp : l.code[p]? = some i)
    (hn : i.opcode.needsFollower = true) :
    ∃ j, l.code[p + 1]? = some j ∧ i.follower = some j.address := by
  obtain ⟨j, hj⟩ := hl.followed hp hn
  refine ⟨j, hj, ?_⟩
  have hf : i.opcode.fallsThrough = true := by
    revert hn
    cases i.opcode <;> simp [Opcode.needsFollower, Opcode.fallsThrough]
  rw [hl.follower hp, hj, hf]
  rfl

/-- Every successor of an instruction that ends a block is the address of a leader. -/
theorem successors_leaderAt (hl : Linked l.code) (hp : l.code[p]? = some i)
    {s : Int × EdgeKind} (hs : s ∈ successors i) :
    ∃ t, l.position? s.1 = some t ∧ l.LeaderAt t := by
  have branch : ∀ {k : EdgeKind}, i.opcode.branches → s ∈ i.target.toList.map (·, k) →
      ∃ t, l.position? s.1 = some t ∧ l.LeaderAt t := by
    intro k hb hm
    obtain ⟨j, hj, ht⟩ := hl.target (List.mem_of_getElem? hp) hb
    obtain ⟨t, ht', hpos⟩ := position?_of_mem hl hj
    rw [ht] at hm
    have hs : s = (j.address, k) := by simpa using hm
    exact ⟨t, hs ▸ hpos, j, ht', .target (List.mem_of_getElem? hp) hb ht⟩
  have through : ∀ {k : EdgeKind}, i.opcode.needsFollower = true → i.opcode.endsBlock = true →
      s ∈ i.follower.toList.map (·, k) → ∃ t, l.position? s.1 = some t ∧ l.LeaderAt t := by
    intro k hn he hm
    obtain ⟨j, hj, hf⟩ := follower_eq hl hp hn
    rw [hf] at hm
    have hs : s = (j.address, k) := by simpa using hm
    exact ⟨p + 1, hs ▸ position?_eq hl hj, j, hj, .behind hp he hj⟩
  unfold successors at hs
  dsimp only at hs
  split at hs <;> rename_i hop
  · exact branch (by simp [hop, Opcode.branches]) hs
  · rcases List.mem_append.mp hs with hs | hs
    · exact branch (by simp [hop, Opcode.branches]) hs
    · exact through (by simp [hop, Opcode.needsFollower]) (by simp [hop, Opcode.endsBlock]) hs
  · rcases List.mem_append.mp hs with hs | hs
    · exact branch (by simp [hop, Opcode.branches]) hs
    · exact through (by simp [hop, Opcode.needsFollower]) (by simp [hop, Opcode.endsBlock]) hs
  · exact branch (by simp [hop, Opcode.branches]) hs
  · rcases List.mem_append.mp hs with hs | hs
    · exact branch (by simp [hop, Opcode.branches]) hs
    · exact through (by simp [hop, Opcode.needsFollower]) (by simp [hop, Opcode.endsBlock]) hs
  · cases hs

end

end Layout

end ScriptFlow.Flow
