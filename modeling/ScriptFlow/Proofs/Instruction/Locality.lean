import ScriptFlow.Proofs.Instruction.Decode

/-! # Decoding is local and goes part by part

A field is read if it ends at the bound or in front of it, and the bound decides nothing else. So what
was read with one bound is read with every higher one, decoding can be cut at the end of any
instruction, and an instruction depends on its own bytes alone. What is not read is also refused in the
same way, whatever stands behind the bound. -/

namespace ScriptFlow

namespace Stream

section
variable {s : Stream} {start site bound : Int} {w type : Nat} {shape : Shape} {bytes : List UInt8}
  {operand : Operand} {i : Instruction}

/-! ## Another bound -/

/-- The same bytes up to another bound. -/
def upTo (s : Stream) (bound : Int) : Stream := { s with bound }

theorem field_le (h : s.field site start w = .ok bytes) : start + w ≤ s.bound := by
  unfold field at h
  split at h
  · assumption
  · cases h

theorem field_upTo (hb : s.bound ≤ bound) (h : s.field site start w = .ok bytes) :
    (s.upTo bound).field site start w = .ok bytes := by
  have hle := field_le h
  rw [field, if_pos hle] at h
  rw [field, upTo, if_pos (Int.le_trans hle hb)]
  exact h

/-- An operand is read from fields that lie one behind the other up to its end. -/
theorem operand_le (h : s.operand site start type shape = .ok (operand, w)) : start + w ≤ s.bound := by
  simp only [Stream.operand] at h
  obtain ⟨front, hfront, h⟩ := bind_eq_ok.mp h
  split at h
  · obtain ⟨payload, hpayload, h⟩ := bind_eq_ok.mp h
    obtain ⟨made, -, h⟩ := bind_eq_ok.mp h
    cases h
    have hle := field_le hpayload
    omega
  · obtain ⟨made, -, h⟩ := bind_eq_ok.mp h
    cases h
    exact field_le hfront

theorem operand_upTo (hb : s.bound ≤ bound) (h : s.operand site start type shape = .ok (operand, w)) :
    (s.upTo bound).operand site start type shape = .ok (operand, w) := by
  simp only [Stream.operand] at h ⊢
  obtain ⟨front, hfront, h⟩ := bind_eq_ok.mp h
  refine bind_eq_ok.mpr ⟨front, field_upTo hb hfront, ?_⟩
  split at h
  · rename_i htext
    obtain ⟨payload, hpayload, h⟩ := bind_eq_ok.mp h
    rw [if_pos htext]
    exact bind_eq_ok.mpr ⟨payload, field_upTo hb hpayload, h⟩
  · rename_i htext
    rw [if_neg htext]
    exact h

/-- What an instruction is read from: two bytes that are an opcode with its type byte, and the operand
of the shape that they ask for. -/
theorem instruction_parts : s.instruction start = .ok i ↔
    ∃ opcodeByte typeByte shape w, s.field (s.base + start) start 2 = .ok [opcodeByte, typeByte] ∧
      Opcode.ofNumber? opcodeByte.toNat = some i.opcode ∧
      Shape.of? i.opcode typeByte.toNat = some shape ∧
      s.operand (s.base + start) (start + 2) typeByte.toNat shape = .ok (i.operand, w) ∧
      i.address = s.base + start ∧ i.type = typeByte.toNat ∧ i.size = 2 + w := by
  simp only [instruction, bind_eq_ok]
  constructor
  · rintro ⟨head, hhead, h⟩
    split at h
    · rename_i opcodeByte typeByte
      split at h
      · cases h
      · rename_i opcode hopcode
        split at h
        · cases h
        · rename_i shape hshape
          obtain ⟨⟨operand, w⟩, hoperand, h⟩ := bind_eq_ok.mp h
          cases h
          exact ⟨opcodeByte, typeByte, shape, w, hhead, hopcode, hshape, hoperand, rfl, rfl, rfl⟩
    · cases h
  · rintro ⟨opcodeByte, typeByte, shape, w, hhead, hopcode, hshape, hoperand, haddress, htype, hsize⟩
    obtain ⟨address, opcode, type, size, operand⟩ := i
    dsimp only at hopcode hshape hoperand haddress htype hsize
    subst haddress htype hsize
    refine ⟨_, hhead, ?_⟩
    simp only [hopcode, hshape, hoperand, bind, Except.bind]
    rfl

theorem instruction_extent (h : s.instruction start = .ok i) :
    i.address = s.base + start ∧ 2 ≤ i.size ∧ start + i.size ≤ s.bound := by
  obtain ⟨_, _, shape, w, -, -, -, hoperand, haddress, -, hsize⟩ := instruction_parts.mp h
  have hle := operand_le hoperand
  exact ⟨haddress, by omega, by omega⟩

theorem instruction_upTo (hb : s.bound ≤ bound) (h : s.instruction start = .ok i) :
    (s.upTo bound).instruction start = .ok i := by
  obtain ⟨opcodeByte, typeByte, shape, w, hhead, hopcode, hshape, hoperand, hrest⟩ :=
    instruction_parts.mp h
  exact instruction_parts.mpr ⟨opcodeByte, typeByte, shape, w, field_upTo hb hhead, hopcode,
    hshape, operand_upTo hb hoperand, hrest⟩

/-! ## Other bytes -/

theorem getElem?_rest {n k : Nat} (hk : ((n + k : Nat) : Int) < s.bound) :
    (s.rest n)[k]? = s.bytes[n + k]? := by
  rw [rest, List.getElem?_drop, List.getElem?_take_of_lt (by omega), Array.getElem?_toList]

/-- An instruction is read wherever its bytes are, if the bound does not lie in front of their end. -/
theorem instruction_of_same {t : Stream} {n : Nat} (hdata : s.bound ≤ s.bytes.size)
    (h : s.instruction n = .ok i) (hbase : t.base = s.base)
    (hsame : ∀ k : Nat, (n : Int) ≤ k → k < n + i.size → t.bytes[k]? = s.bytes[k]?)
    (hbound : n + i.size ≤ t.bound) : t.instruction n = .ok i := by
  obtain ⟨-, hsize, hstop⟩ := instruction_extent h
  have hs : s.Within n := ⟨by omega, hdata⟩
  obtain ⟨haddress, hwf, hbegin⟩ := (instruction_eq_ok hs).mp h
  -- the last byte is there, so the others are
  have hlast : n + i.size ≤ t.bytes.size := by
    obtain ⟨k, hk⟩ := Int.eq_ofNat_of_zero_le (show 0 ≤ n + i.size - 1 by omega)
    have hget := hsame k (by omega) (by omega)
    rw [Array.getElem?_eq_getElem (show k < s.bytes.size by omega)] at hget
    have hlt := (Array.getElem?_eq_some_iff.mp hget).1
    omega
  have hcut : (t.upTo (n + i.size)).Within n := ⟨show (n : Int) ≤ n + i.size by omega, hlast⟩
  have hread : (t.upTo (n + i.size)).instruction n = .ok i := by
    refine (instruction_eq_ok hcut).mpr ⟨haddress.trans (by rw [upTo, hbase]), hwf, ?_⟩
    rw [List.prefix_iff_getElem?] at hbegin ⊢
    intro k hk
    have hwithin : ((n + k : Nat) : Int) < n + i.size := by
      rw [hwf.size]
      omega
    rw [getElem?_rest hwithin, ← hbegin k hk, getElem?_rest (by omega)]
    exact hsame (n + k) (by omega) hwithin
  exact instruction_upTo (s := t.upTo (n + i.size)) hbound hread

/-! ## Part by part -/

/-- More rounds than needed change nothing. -/
theorem instructionsFrom_eq (fuel : Nat) (hf : s.bound - start ≤ fuel) :
    s.instructionsFrom fuel start = s.instructions start := by
  have hany : ∀ (m n : Nat) (start : Int), s.bound - start ≤ m → s.bound - start ≤ n →
      s.instructionsFrom m start = s.instructionsFrom n start := by
    intro m
    induction m with
    | zero =>
      intro n start hm hn
      cases n with
      | zero => rfl
      | succ n => rw [instructionsFrom, instructionsFrom, if_neg (by omega)]
    | succ m ih =>
      intro n start hm hn
      cases n with
      | zero => rw [instructionsFrom, instructionsFrom, if_neg (by omega)]
      | succ n =>
        rw [instructionsFrom, instructionsFrom]
        cases hi : s.instruction start with
        | error e => rfl
        | ok i =>
          have hsize := (instruction_extent hi).2.1
          simp only [bind, Except.bind, ih n (start + i.size) (by omega) (by omega)]
  exact hany _ _ _ hf (Int.self_le_toNat _)

/-- Reading goes from one instruction to the next, up to the bound. -/
theorem instructions_eq (s : Stream) (start : Int) : s.instructions start =
    if start < s.bound then
      s.instruction start >>= fun i => s.instructions (start + i.size) >>= fun is => .ok (i :: is)
    else .ok [] := by
  rw [← instructionsFrom_eq ((s.bound - start).toNat + 1) (by omega), instructionsFrom]
  split
  · cases hi : s.instruction start with
    | error e => rfl
    | ok i =>
      have hsize := (instruction_extent hi).2.1
      show (s.instructionsFrom _ (start + i.size) >>= fun is => Except.ok (i :: is)) = _
      rw [instructionsFrom_eq _ (by omega)]
      rfl
  · rfl

/-- Up to a higher bound the instructions that were read come first, and then those behind them. -/
theorem instructions_upTo {front : List Instruction} (hstart : start ≤ s.bound) (hb : s.bound ≤ bound)
    (h : s.instructions start = .ok front) :
    (s.upTo bound).instructions start = (front ++ ·) <$> (s.upTo bound).instructions s.bound := by
  induction front generalizing start with
  | nil =>
    rw [instructions_eq] at h
    split at h
    · obtain ⟨i, -, h⟩ := bind_eq_ok.mp h
      obtain ⟨is, -, h⟩ := bind_eq_ok.mp h
      cases h
    · rename_i hend
      obtain rfl : start = s.bound := by omega
      exact (id_map _).symm
  | cons i front ih =>
    rw [instructions_eq] at h
    split at h
    · rename_i hlt
      obtain ⟨j, hj, h⟩ := bind_eq_ok.mp h
      obtain ⟨is, his, h⟩ := bind_eq_ok.mp h
      cases h
      have hstop := (instruction_extent hj).2.2
      have hbelow : start < (s.upTo bound).bound := Int.lt_of_lt_of_le hlt hb
      rw [instructions_eq, if_pos hbelow, instruction_upTo hb hj]
      show ((s.upTo bound).instructions (start + i.size) >>= fun is => Except.ok (i :: is)) = _
      rw [ih hstop his]
      cases (s.upTo bound).instructions s.bound <;> rfl
    · cases h

/-! ## What stands behind the bound -/

/-- The stream without the bytes behind its bound. -/
def trim (s : Stream) : Stream := { s with bytes := (s.bytes.toList.take s.bound.toNat).toArray }

theorem field_trim (s : Stream) (site : Int) (n w : Nat) :
    s.trim.field site n w = s.field site n w := by
  unfold field
  show (if (n : Int) + w ≤ s.bound then _ else _) = _
  split
  · rename_i hle
    rw [← Int.natCast_add, slice_eq, slice_eq, trim, List.take_take, Nat.min_eq_left (by omega)]
  · rfl

theorem operand_trim (s : Stream) (site : Int) (n type : Nat) (shape : Shape) :
    s.trim.operand site n type shape = s.operand site n type shape := by
  simp only [Stream.operand, ← Int.natCast_add, field_trim]

theorem instruction_trim (s : Stream) (n : Nat) : s.trim.instruction n = s.instruction n := by
  have hnext (n : Nat) : (n : Int) + 2 = ((n + 2 : Nat) : Int) := rfl
  simp only [instruction, hnext, field_trim, operand_trim]
  rfl

theorem instructions_trim (s : Stream) (n : Nat) : s.trim.instructions n = s.instructions n := by
  show s.trim.instructionsFrom (s.bound - n).toNat n = s.instructionsFrom (s.bound - n).toNat n
  generalize (s.bound - n).toNat = fuel
  induction fuel generalizing n with
  | zero => rfl
  | succ fuel ih =>
    rw [instructionsFrom, instructionsFrom, instruction_trim]
    cases hi : s.instruction n with
    | error e => rfl
    | ok i =>
      have hsize := (instruction_extent hi).2.1
      obtain ⟨m, hm⟩ := Int.eq_ofNat_of_zero_le (show 0 ≤ n + i.size by omega)
      have hbehind : s.trim.instructionsFrom fuel (n + i.size) =
          s.instructionsFrom fuel (n + i.size) := by
        rw [hm]
        exact ih m
      simp only [bind, Except.bind, hbehind]
      rfl

end

end Stream

namespace Instruction

section
variable {data : List UInt8} {i : Instruction}

/-- Two strings of bytes have the same from one position up to another. -/
def SameBytes (data other : List UInt8) (start stop : Int) : Prop :=
  ∀ k : Nat, start ≤ k → k < stop → other[k]? = data[k]?

/-- The instruction was read in front of the bound, from its own bytes and no others. -/
structure ReadsItself (data : List UInt8) (start : Nat) (stop : Int) (i : Instruction) : Prop where
  address : i.address = start
  size : 2 ≤ i.size
  bounded : i.stop ≤ stop
  alone : ∀ (other : List UInt8) (bound : Int), SameBytes data other i.address i.stop →
    i.stop ≤ bound → read other start bound = .ok i

theorem read_itself {start : Nat} {stop : Int} (hdata : stop ≤ data.length)
    (h : read data start stop = .ok i) : ReadsItself data start stop i := by
  obtain ⟨haddress, hsize, hstop⟩ := Stream.instruction_extent h
  have haddress' : i.address = start := haddress.trans (Int.zero_add _)
  have hend : i.stop = start + i.size := by rw [Instruction.stop, haddress']
  refine ⟨haddress', hsize, hend ▸ hstop, fun other bound hsame hbound => ?_⟩
  rw [haddress', hend] at hsame
  refine Stream.instruction_of_same (s := ⟨data.toArray, stop, 0⟩) (by simpa using hdata) h rfl ?_
    (hend ▸ hbound)
  intro k hk hlt
  simpa using hsame k hk hlt

theorem decode_append {start middle stop : Int} {front : List Instruction} (hstart : start ≤ middle)
    (hstop : middle ≤ stop) (h : decode data start middle = .ok front) :
    decode data start stop = (front ++ ·) <$> decode data middle stop :=
  Stream.instructions_upTo (s := ⟨data.toArray, middle, 0⟩) hstart hstop h

theorem decode_take (data : List UInt8) (start stop : Nat) :
    decode (data.take stop) start stop = decode data start stop :=
  Stream.instructions_trim ⟨data.toArray, stop, 0⟩ start

end

end Instruction

end ScriptFlow
