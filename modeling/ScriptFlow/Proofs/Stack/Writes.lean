import ScriptFlow.Proofs.Stack.Records

/-! # The writes recorded of subroutines

A frame notes each place below the height it was entered with that its own instructions copy to. So
the writes recorded of a subroutine are the places its own frame overwrote, whatever was in them.
Places that its callees store to are not among them, and places that it had emptied and filled again
are. The record is right exactly if neither makes a difference. -/

namespace ScriptFlow

/-- The cells of a stack of the given depth that an instruction copies down to. -/
def Instruction.targets (i : Instruction) (depth : Nat) : List Nat :=
  match i.opcode, i.operand with
  | .cpdownsp, .cells offset size => List.range' ((depth : Int) + offset / 4).toNat (size / 4)
  | _, _ => []

theorem Instruction.targets_eq_nil {i : Instruction} {depth : Nat} (h : i.opcode ≠ .cpdownsp) :
    i.targets depth = [] := by
  unfold targets
  split
  · exact absurd (by assumption) h
  · rfl

namespace Stack

/-- The places that writes go to. -/
def Writes.offsets (writes : Writes) : List Int := writes.map Prod.fst

theorem Writes.mem_offsets_set {writes : Writes} {offset m : Int} {type : CellType} :
    m ∈ (writes.set offset type).offsets ↔ m ∈ writes.offsets ∨ m = offset := by
  unfold offsets
  induction writes with
  | nil => simp [Writes.set]
  | cons w ws ih =>
    unfold Writes.set
    split
    · rename_i heq
      simp only [List.map_cons, List.mem_cons, heq]
      tauto
    · simp only [List.map_cons, List.mem_cons, ih]
      tauto

namespace Sim

section
variable {i : Instruction} {stack : Cells} {writes : Writes} {height : Nat} {table : Engine.Table}
variable {s t : State}

/-- Copying notes what it is told to note of each target. -/
theorem ends_copyDown_offsets {note : Nat → CellType → Writes → Writes} {Q : Nat → Int → Prop}
    {n : Nat} {pairs : List (VarId × VarId)}
    (hnote : ∀ n type writes m, m ∈ (note n type writes).offsets ↔ m ∈ writes.offsets ∨ Q n m) :
    Ends (copyDown i note n pairs writes) fun w => ∀ m, m ∈ w.offsets ↔
      m ∈ writes.offsets ∨ ∃ k, n ≤ k ∧ k < n + pairs.length ∧ Q k m := by
  induction pairs generalizing n writes with
  | nil =>
    refine ends_pure fun m => ⟨.inl, fun hnoted => ?_⟩
    rcases hnoted with hm | ⟨k, h1, h2, -⟩
    · exact hm
    · rw [List.length_nil] at h2
      omega
  | cons pair pairs ih =>
    refine ends_bind fun _ => ends_bind fun _ => ends_bind fun _ => ends_bind fun _ => ?_
    refine ends_bind fun _ => ends_bind fun u => ?_
    intro s w t hw m
    rw [ih s w t hw m, hnote]
    rw [List.length_cons, or_assoc]
    refine or_congr_right ⟨fun hnoted => ?_, fun hnoted => ?_⟩
    · rcases hnoted with hm | ⟨k, h1, h2, hm⟩
      · exact ⟨n, Nat.le_refl _, by omega, hm⟩
      · exact ⟨k, by omega, by omega, hm⟩
    · obtain ⟨k, h1, h2, hm⟩ := hnoted
      by_cases hk : k = n
      · exact .inl (hk ▸ hm)
      · exact .inr ⟨k, by omega, by omega, hm⟩

theorem copyDownSP_offsets {offset : Int} {size : Nat} {w : Writes}
    (h : copyDownSP i offset size height stack writes s = .ok w t) (m : Int) : m ∈ w.offsets ↔
      m ∈ writes.offsets ∨ ∃ n ∈ List.range' ((stack.length : Int) + offset / 4).toNat (size / 4),
        n < height ∧ m = (n : Int) - height := by
  obtain ⟨⟨cells, start, count⟩, u, hspan, hcopy⟩ := bind_eq_ok.mp h
  have hsource : Yields (pure stack) (· = stack) := yields_pure rfl
  obtain ⟨-, hcount, rfl, hle, hstart, hstop⟩ := yields_copySpan hsource _ _ _ hspan
  dsimp only at hcount hstart hstop hcopy
  rw [ends_copyDown_offsets (Q := fun n m => start + n < height ∧
    m = ((start + n : Nat) : Int) - height) ?note u w t hcopy m]
  case note =>
    intro n type writes m
    split
    · rename_i hlt
      rw [Writes.mem_offsets_set]
      simp [hlt]
    · rename_i hlt
      simp [hlt]
  simp only [List.length_zip, List.length_take, List.length_drop, List.mem_range'_1]
  refine or_congr_right ⟨fun hnoted => ?_, fun hnoted => ?_⟩
  · obtain ⟨k, -, hk, hlt, hm⟩ := hnoted
    exact ⟨start + k, by omega, hlt, hm⟩
  · obtain ⟨n, hn, hlt, hm⟩ := hnoted
    refine ⟨n - start, by omega, by omega, by omega, ?_⟩
    rw [hm, show start + (n - start) = n by omega]

/-- Only copies down the stack note anything. -/
theorem exec_writes_eq (hop : i.opcode ≠ .cpdownsp) :
    Ends (exec table height i stack writes) fun r => r.2 = writes := by
  unfold exec
  cases hi : i.opcode with
  | cpdownsp => exact absurd hi hop
  | cpdownbp | decisp | incisp | cptopsp | cptopbp | action | movsp | destruct =>
    dsimp only
    split
    · exact ends_bind fun _ => ends_pure rfl
    · exact ends_throw
  | decibp | incibp =>
    dsimp only
    split
    · exact ends_bind fun _ => ends_bind fun _ => ends_pure rfl
    · exact ends_throw
  | eq | neq | geq | gt | lt | leq =>
    dsimp only
    split
    · split
      · exact ends_bind fun _ => ends_pure rfl
      · exact ends_throw
    · exact ends_bind fun _ => ends_pure rfl
  | jmp | jsr | retn | nop | storestate | storestateall => exact ends_pure rfl
  | _ => exact ends_bind fun _ => ends_pure rfl

/-- An instruction notes the cells it copies down to that are below the height. -/
theorem exec_offsets {r : Cells × Writes} (h : exec table height i stack writes s = .ok r t)
    (m : Int) : m ∈ r.2.offsets ↔ m ∈ writes.offsets ∨
      ∃ n ∈ i.targets stack.length, n < height ∧ m = (n : Int) - height := by
  by_cases hop : i.opcode = .cpdownsp
  · unfold exec at h
    simp only [hop] at h
    cases hoperand : i.operand with
    | cells offset size =>
      simp only [hoperand] at h
      obtain ⟨w, u, hcopy, hend⟩ := bind_eq_ok.mp h
      obtain ⟨rfl, -⟩ := pure_eq_ok.mp hend
      simp only [Instruction.targets, hop, hoperand]
      exact copyDownSP_offsets hcopy m
    | _ =>
      simp only [hoperand] at h
      cases h
  · rw [exec_writes_eq hop s r t h, Instruction.targets_eq_nil hop]
    simp

end

end Sim

/-! ## What a subroutine does to the cells it was handed -/

def Cursor.stack : Cursor → Cells
  | .idle => []
  | .running _ _ stack | .leaving _ stack => stack

/-- The stack that frames hand to the one they put on top. -/
def handed : List Frame → Cells
  | [] => []
  | f :: _ => f.cursor.stack

section
variable (p : Program) (start : Subroutine)

/-- In the analysis from the start, a frame of the subroutine that was handed the cells `passed` comes
to the instruction with a stack, and the analysis goes on from there. -/
def Meets (address : Int) (i : LinkedInstruction) (stack passed : Cells) : Prop :=
  ∃ f outer s y b rest, Visited p start ⟨f :: outer, s⟩ ∧ Next p ⟨f :: outer, s⟩ y ∧
    f.subroutine.address = address ∧ f.cursor = .running b (i :: rest) stack ∧
    handed outer = passed

/-- The subroutine itself copies to the place `j` below the depth it was entered with. -/
def Overwrites (address : Int) (j : Nat) : Prop :=
  ∃ i stack passed, Meets p start address i stack passed ∧
    ∃ n ∈ i.targets stack.length, n + j = passed.length

/-- The subroutine, or one that it calls, copies to the place `j` below the depth it was entered with,
while the variable is in it that was handed over. A call does what its callee does, also where the
callee was analyzed before. -/
inductive Stores : Int → Nat → Prop
  | copy {address : Int} {i : LinkedInstruction} {stack passed : Cells} {n j : Nat} :
      Meets p start address i stack passed → n ∈ i.targets stack.length → n + j = passed.length →
      stack[n]? = passed[n]? → Stores address j
  | call {address : Int} {i : LinkedInstruction} {stack passed : Cells} {callee : Subroutine}
      {n j k : Nat} : Meets p start address i stack passed → i.opcode = .jsr →
      p.callee? i = some callee → Stores callee.address k → n + k = stack.length →
      n + j = passed.length → stack[n]? = passed[n]? → Stores address j

/-- A subroutine that it calls stores to the place `j` below the depth the subroutine was entered
with. -/
def PassesOn (address : Int) (j : Nat) : Prop :=
  ∃ i stack passed callee n k, Meets p start address i stack passed ∧ i.opcode = .jsr ∧
    p.callee? i = some callee ∧ Stores p start callee.address k ∧ n + k = stack.length ∧
    n + j = passed.length ∧ stack[n]? = passed[n]?

/-- The writes are right: they have the places below that the subroutine stores to, and no others. -/
def WritesRight (address : Int) (writes : Writes) : Prop :=
  ∀ j : Nat, 0 < j → (-(j : Int) ∈ writes.offsets ↔ Stores p start address j)

end

section
variable {p : Program} {f g inner : Frame} {fs outer frames : List Frame} {s t : State}
variable {b c : BlockId} {stack : Cells} {sub start : Subroutine} {x y : Point} {n m : Int} {j : Nat}

/-! ## Frames and the stacks they were handed -/

/-- Each frame was entered with as many cells as the frame below it has handed over. -/
def Seated : List Frame → Prop
  | [] => True
  | f :: outer => f.height = (handed outer).length ∧ Seated outer

theorem Moves.seated (h : Moves p f s fs t) (hi : Seated (f :: outer)) : Seated (fs ++ outer) := by
  obtain ⟨hf, houter⟩ := hi
  cases h with
  | close _ _ => exact houter
  | call hcursor _ _ _ henter | store hcursor _ _ _ henter =>
    refine ⟨henter.height.trans ?_, hf, houter⟩
    show _ = f.cursor.stack.length
    rw [hcursor]
    rfl
  | resume _ _ _ _ _ _ hreached | follow _ _ _ _ hreached =>
    exact ⟨hreached.heir.height.trans hf, houter⟩
  | pick _ _ | exec _ _ _ | replay _ _ _ _ _ | back _ _ _ _ _ | lost _ _ _ _ _ _ | leave _ _ _ _
  | left _ | skip _ _ => exact ⟨hf, houter⟩

theorem Visited.seated (h : Visited p start x) : Seated x.frames := by
  obtain ⟨first, ⟨f, hframes, henter⟩, hsteps⟩ := h
  induction hsteps with
  | refl =>
    rw [hframes]
    exact ⟨(Sim.enter_ok henter).height, trivial⟩
  | tail _ hnext ih =>
    obtain ⟨f, outer, s, fs, t, rfl, rfl, hmoves⟩ := hnext.moves
    exact hmoves.seated ih

/-! ## Every write recorded was made -/

theorem Reached.writes (h : Reached c stack f s g t) : g.writes = f.writes := by
  cases h <;> rfl

/-- A frame that goes on has the places it had, and those that its instruction copies to. -/
theorem Moves.offsets (h : Moves p f s [g] t) : g.writes = f.writes ∨
    ∃ b i rest stack, f.cursor = .running b (i :: rest) stack ∧ ∀ m, m ∈ g.writes.offsets ↔
      m ∈ f.writes.offsets ∨ ∃ n ∈ i.targets stack.length, n < f.height ∧ m = (n : Int) - f.height := by
  cases h with
  | exec hcursor _ hexec => exact .inr ⟨_, _, _, _, hcursor, Sim.exec_offsets hexec⟩
  | resume _ _ _ _ _ _ hreached | follow _ _ _ _ hreached => exact .inl hreached.writes
  | pick _ _ | replay _ _ _ _ _ | back _ _ _ _ _ | lost _ _ _ _ _ _ | leave _ _ _ _ | left _
  | skip _ _ => exact .inl rfl

theorem Visited.overwrites (hp : p.Whole) (hstart : start ∈ p.subroutines) (h : Visited p start x) :
    Vouched (fun n e => ∀ j : Nat, -(j : Int) ∈ e.writes.offsets → Overwrites p start n j) x := by
  refine h.vouched hp hstart (fun _ => nofun) fun {f g outer s t} hx hnext hmoves hf j hj => ?_
  obtain hsame | ⟨b, i, rest, stack, hcursor, hoffsets⟩ := hmoves.offsets
  · exact hf j (by rwa [Frame.effect, ← hsame])
  · rcases (hoffsets _).mp hj with hold | ⟨n, hn, -, hnj⟩
    · exact hf j hold
    · have hheight : f.height = (handed outer).length := hx.seated.1
      exact ⟨i, stack, handed outer, ⟨f, outer, s, _, b, rest, hx, hnext, rfl, hcursor, rfl⟩, n, hn,
        by omega⟩

/-! ## Every write made is recorded -/

theorem Moves.mem_offsets (h : Moves p f s [g] t) (hm : m ∈ f.effect.writes.offsets) :
    m ∈ g.effect.writes.offsets := by
  obtain hsame | ⟨_, _, _, _, -, hoffsets⟩ := h.offsets
  · rwa [Frame.effect, hsame]
  · exact (hoffsets m).mpr (.inl hm)

/-- Behind a copy to a place below, the frame has the place. -/
theorem known_of_copy {i : LinkedInstruction} {rest : List LinkedInstruction} {k : Nat}
    (hcursor : f.cursor = .running b (i :: rest) stack) (hk : k ∈ i.targets stack.length)
    (hkj : k + j = f.height) (hj : 0 < j) (hnext : Next p ⟨f :: outer, s⟩ y) :
    Known f.subroutine.address (fun e => -(j : Int) ∈ e.writes.offsets) y := by
  obtain ⟨f', outer', s', fs, t, hx, rfl, hmoves⟩ := hnext.moves
  cases hx
  have hop : i.opcode = .cpdownsp := by
    by_contra hop
    rw [Instruction.targets_eq_nil hop] at hk
    cases hk
  cases hmoves with
  | exec hrun _ hexec =>
    rw [hcursor] at hrun
    cases hrun
    refine .inl ⟨_, List.mem_cons_self, rfl, (Sim.exec_offsets hexec _).mpr (.inr ?_)⟩
    exact ⟨k, hk, by omega, by omega⟩
  | replay hrun hjsr _ _ _ | call hrun hjsr _ _ _ =>
    rw [hcursor] at hrun
    cases hrun
    rw [hop] at hjsr
    cases hjsr
  | close hrun _ | pick hrun _ | back hrun _ _ _ _ | resume hrun _ _ _ _ _ _ | lost hrun _ _ _ _ _
  | leave hrun _ _ _ | left hrun | skip hrun _ | store hrun _ _ _ _ | follow hrun _ _ _ _ =>
    rw [hcursor] at hrun
    cases hrun

/-- The writes recorded of a subroutine are the places that it overwrote itself. -/
theorem Visited.mem_offsets_iff {effect : Effect} (hp : p.Whole) (hstart : start ∈ p.subroutines)
    (hx : Visited p start x) (heffect : x.state.effectOf? n = some effect) (hj : 0 < j) :
    -(j : Int) ∈ effect.writes.offsets ↔ Overwrites p start n j := by
  constructor
  · exact (hx.overwrites hp hstart).effectOf? heffect j
  · intro hover
    obtain ⟨i, stack, passed, ⟨f, outer, s, y, b, rest, hz, hnext, rfl, hcursor, rfl⟩, k, hk, hkj⟩ :=
      hover
    rw [← hz.seated.1] at hkj
    exact hz.effect_of_known Moves.mem_offsets hp hstart hnext
      (known_of_copy hcursor hk hkj hj hnext) hx heffect

/-! ## What the record tells -/

theorem stores_iff : Stores p start n j ↔ PassesOn p start n j ∨
    ∃ i stack passed k, Meets p start n i stack passed ∧ k ∈ i.targets stack.length ∧
      k + j = passed.length ∧ stack[k]? = passed[k]? := by
  constructor
  · intro h
    cases h with
    | copy hmeets hk hkj hsame => exact .inr ⟨_, _, _, _, hmeets, hk, hkj, hsame⟩
    | call hmeets hop hcallee hstores hkk hkj hsame =>
      exact .inl ⟨_, _, _, _, _, _, hmeets, hop, hcallee, hstores, hkk, hkj, hsame⟩
  · intro h
    rcases h with ⟨_, _, _, _, _, _, hmeets, hop, hcallee, hstores, hkk, hkj, hsame⟩ |
      ⟨_, _, _, _, hmeets, hk, hkj, hsame⟩
    · exact .call hmeets hop hcallee hstores hkk hkj hsame
    · exact .copy hmeets hk hkj hsame

/-- What the writes tell that an analysis from the start records of a subroutine. -/
structure WritesTell (p : Program) (start : Subroutine) (address : Int) (writes : Writes) : Prop where
  below : writes.Below
  recorded : ∀ j : Nat, 0 < j → (-(j : Int) ∈ writes.offsets ↔ Overwrites p start address j)
  /-- The writes are right exactly if each place the subroutine overwrites was the caller's at some
  such time, and each place that its callees store to is one it overwrites itself. -/
  right_iff : WritesRight p start address writes ↔
    (∀ j, 0 < j → Overwrites p start address j → Stores p start address j) ∧
      ∀ j, 0 < j → PassesOn p start address j → Overwrites p start address j

theorem Visited.writesTell {effect : Effect} (hp : p.Whole) (hstart : start ∈ p.subroutines)
    (hx : Visited p start x) (heffect : x.state.effectOf? n = some effect) :
    WritesTell p start n effect.writes := by
  have hiff : ∀ j : Nat, 0 < j → (-(j : Int) ∈ effect.writes.offsets ↔ Overwrites p start n j) :=
    fun j hj => hx.mem_offsets_iff hp hstart heffect hj
  refine ⟨below_of_effectOf? (hx.orderly hp hstart).effects heffect, hiff, ?_⟩
  constructor
  · intro hright
    refine ⟨fun j hj hover => (hright j hj).mp ((hiff j hj).mpr hover), fun j hj hpass => ?_⟩
    exact (hiff j hj).mp ((hright j hj).mpr (stores_iff.mpr (.inl hpass)))
  · intro h j hj
    obtain ⟨hover, hpass⟩ := h
    refine (hiff j hj).trans ⟨hover j hj, fun hstores => ?_⟩
    rcases stores_iff.mp hstores with h | ⟨i, stack, passed, k, hmeets, hk, hkj, -⟩
    · exact hpass j hj h
    · exact ⟨i, stack, passed, hmeets, k, hk, hkj⟩

/-- The writes are right of a subroutine that calls no other and copies below to none but the cells it
was handed. -/
theorem WritesTell.right_of_direct {writes : Writes} (h : WritesTell p start n writes)
    (hcalls : ∀ i stack passed, Meets p start n i stack passed → i.opcode ≠ .jsr)
    (hcells : ∀ i stack passed, Meets p start n i stack passed → ∀ k ∈ i.targets stack.length,
      k < passed.length → stack[k]? = passed[k]?) : WritesRight p start n writes := by
  refine h.right_iff.mpr ⟨fun j hj hover => ?_, fun j hj hpass => ?_⟩
  · obtain ⟨i, stack, passed, hmeets, k, hk, hkj⟩ := hover
    exact .copy hmeets hk hkj (hcells i stack passed hmeets k hk (by omega))
  · obtain ⟨i, stack, passed, callee, k, k', hmeets, hop, -⟩ := hpass
    exact absurd hop (hcalls i stack passed hmeets)

/-! ## Looking for an instruction -/

/-- The innermost frame is one of the subroutine, in front of an instruction, and the test holds of the
instruction, the stack and what the frame was handed. -/
def Point.fronts (address : Int) (test : LinkedInstruction → Cells → Cells → Bool) (x : Point) :
    Bool :=
  match x.frames with
  | [] => false
  | f :: outer =>
    match f.cursor with
    | .running _ (i :: _) stack => f.subroutine.address == address && test i stack (handed outer)
    | _ => false

theorem Point.fronts_iff {test : LinkedInstruction → Cells → Cells → Bool} : x.fronts n test = true ↔
    ∃ f outer b i rest stack, x.frames = f :: outer ∧ f.cursor = .running b (i :: rest) stack ∧
      f.subroutine.address = n ∧ test i stack (handed outer) = true := by
  unfold Point.fronts
  constructor
  · intro h
    split at h
    · cases h
    · split at h
      · rw [Bool.and_eq_true, beq_iff_eq] at h
        exact ⟨_, _, _, _, _, _, by assumption, by assumption, h.1, h.2⟩
      · cases h
  · intro h
    obtain ⟨f, outer, b, i, rest, stack, hframes, hcursor, hn, htest⟩ := h
    simp [hframes, hcursor, hn, htest]

/-- Whether a subroutine meets an instruction can be looked up. -/
theorem exists_meets_iff {test : LinkedInstruction → Cells → Cells → Bool} (hp : p.Whole)
    (hstart : start ∈ p.subroutines) :
    (∃ i stack passed, Meets p start n i stack passed ∧ test i stack passed = true) ↔
      ((p.trail start).any fun x => (x.next? p).isSome && x.fronts n test) = true := by
  rw [List.any_eq_true]
  constructor
  · intro h
    obtain ⟨i, stack, passed, ⟨f, outer, s, y, b, rest, hvisited, hnext, hn, hcursor, rfl⟩, htest⟩ := h
    refine ⟨_, (mem_trail hp hstart).mpr hvisited, Bool.and_eq_true_iff.mpr ⟨?_, ?_⟩⟩
    · rw [Point.next?_eq_some.mpr hnext]
      rfl
    · exact Point.fronts_iff.mpr ⟨f, outer, b, i, rest, stack, rfl, hcursor, hn, htest⟩
  · intro h
    obtain ⟨⟨frames, s⟩, hmem, hx⟩ := h
    obtain ⟨hnext, hfronts⟩ := Bool.and_eq_true_iff.mp hx
    obtain ⟨f, outer, b, i, rest, stack, hframes, hcursor, hn, htest⟩ := Point.fronts_iff.mp hfronts
    cases hframes
    obtain ⟨y, hy⟩ := Option.isSome_iff_exists.mp hnext
    exact ⟨i, stack, handed outer, ⟨f, outer, s, y, b, rest, (mem_trail hp hstart).mp hmem,
      Point.next?_eq_some.mp hy, hn, hcursor, rfl⟩, htest⟩

end

end Stack

end ScriptFlow
