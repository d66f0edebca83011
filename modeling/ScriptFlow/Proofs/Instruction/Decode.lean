import ScriptFlow.Instruction.Decode
import ScriptFlow.Proofs.Instruction.Wire

/-! # Decoding gives back what was written

Where the bytes reach up to the bound, reading a field, an operand or an instruction succeeds exactly
if one is written there. So a stream is decoded as the only list of instructions it can be the bytes
of, and a stream that is no such list is refused where the first instruction is missing. -/

namespace ScriptFlow

theorem bind_eq_ok {ε α β : Type} {x : Except ε α} {f : α → Except ε β} {b : β} :
    x >>= f = .ok b ↔ ∃ a, x = .ok a ∧ f a = .ok b := by
  cases x <;> simp [bind, Except.bind]

theorem bind_eq_error {ε α β : Type} {x : Except ε α} {f : α → Except ε β} {e : ε} :
    x >>= f = .error e ↔ x = .error e ∨ ∃ a, x = .ok a ∧ f a = .error e := by
  cases x <;> simp [bind, Except.bind]

theorem append_prefix_iff {α : Type} {front back whole : List α} :
    front ++ back <+: whole ↔ front <+: whole ∧ back <+: whole.drop front.length := by
  constructor
  · rintro ⟨tail, rfl⟩
    simp
  · rintro ⟨⟨middle, rfl⟩, h⟩
    simpa using h

namespace Opcode

theorem ofNumber?_eq_some {n : Nat} {op : Opcode} : ofNumber? n = some op ↔ op.number = n := by
  constructor
  · intro h
    simpa using List.find?_some h
  · rintro rfl
    cases op <;> rfl

theorem number_lt (op : Opcode) : op.number < 256 := by
  cases op <;> decide

end Opcode

/-- The instruction is one that can be written: its operand is of the shape its opcode and type byte
ask for. Where it stands does not matter. -/
structure Instruction.WellFormed (i : Instruction) : Prop where
  type_lt : i.type < 256
  operand : ∃ shape, Shape.of? i.opcode i.type = some shape ∧ i.operand.Fits i.type shape
  size : i.size = i.bytes.length

namespace Stream

/-- The bytes from a position up to the bound. -/
def rest (s : Stream) (n : Nat) : List UInt8 := (s.bytes.toList.take s.bound.toNat).drop n

/-- The position is not behind the bound, and the bytes reach up to it. -/
structure Within (s : Stream) (n : Nat) : Prop where
  le_bound : (n : Int) ≤ s.bound
  bound_le : s.bound ≤ s.bytes.size

section
variable {s : Stream} {n w : Nat} {site : Int} {type : Nat} {shape : Shape} {operand : Operand}
  {bytes : List UInt8} {i : Instruction} {e : ScriptError}

theorem length_rest (h : s.Within n) : ((s.rest n).length : Int) = s.bound - n := by
  have hle := h.le_bound
  have hsize := h.bound_le
  simp only [rest, List.length_drop, List.length_take, Array.length_toList]
  omega

theorem rest_add (s : Stream) (n w : Nat) : s.rest (n + w) = (s.rest n).drop w := by
  rw [rest, rest, List.drop_drop]

theorem Within.add (h : s.Within n) (hw : w ≤ (s.rest n).length) : s.Within (n + w) where
  le_bound := by have := length_rest h; omega
  bound_le := h.bound_le

theorem slice_eq (bytes : Array UInt8) (n m : Nat) :
    Position.slice bytes n m = (bytes.toList.take m).drop n := by
  have clip (k : Nat) : Position.clip bytes.size k = k := by
    rw [Position.clip, if_neg (by omega), Int.toNat_natCast]
  rw [Position.slice, clip, clip, Array.toList_extract, List.extract_eq_take_drop, List.drop_take]

/-! ## Fields and operands -/

theorem field_eq (h : s.Within n) (site : Int) (w : Nat) : s.field site n w =
    if w ≤ (s.rest n).length then .ok ((s.rest n).take w) else .error (.truncated site) := by
  have hlen := length_rest h
  unfold field
  by_cases hw : w ≤ (s.rest n).length
  · rw [if_pos hw, if_pos (by omega), ← Int.natCast_add, slice_eq, rest, List.drop_take,
      List.drop_take, List.take_take]
    congr 2
    omega
  · rw [if_neg hw, if_neg (by omega)]

theorem field_eq_ok (h : s.Within n) :
    s.field site n w = .ok bytes ↔ bytes.length = w ∧ bytes <+: s.rest n := by
  rw [field_eq h, List.prefix_iff_eq_take]
  constructor
  · intro heq
    split at heq
    · cases heq
      simp_all
    · cases heq
  · rintro ⟨rfl, heq⟩
    rw [if_pos, ← heq]
    rw [heq, List.length_take]
    omega

theorem field_eq_error (h : s.Within n) (he : s.field site n w = .error e) : e = .truncated site := by
  rw [field_eq h] at he
  split at he
  · cases he
  · cases he
    rfl

/-- With all its bytes there, an operand can be made of them whatever they are. -/
theorem ofBytes_ne_error (hlen : bytes.length = shape.bytes ∨ shape = .text) :
    Operand.ofBytes site type bytes shape ≠ .error e := by
  cases shape with
  | call => simp [Operand.ofBytes_call site (hlen.resolve_right (by simp))]
  | float => simp [Operand.ofBytes, show bytes.length = 4 from hlen.resolve_right (by simp)]
  | _ => simp [Operand.ofBytes]

theorem operand_eq_error (h : s.Within n) (he : s.operand site n type shape = .error e) :
    e = .truncated site := by
  simp only [Stream.operand] at he
  obtain he | ⟨front, hfront, he⟩ := bind_eq_error.mp he
  · exact field_eq_error h he
  obtain ⟨hlen, hbegin⟩ := (field_eq_ok h).mp hfront
  split at he
  · rename_i htext
    subst htext
    have h2 := h.add (hlen ▸ hbegin.length_le)
    obtain he | ⟨payload, -, he⟩ := bind_eq_error.mp he
    · exact field_eq_error h2 he
    · obtain he | ⟨_, -, he⟩ := bind_eq_error.mp he
      · exact absurd he (ofBytes_ne_error (.inr rfl))
      · cases he
  · obtain he | ⟨_, -, he⟩ := bind_eq_error.mp he
    · exact absurd he (ofBytes_ne_error (.inl hlen))
    · cases he

theorem operand_text_eq_ok (h : s.Within n) : s.operand site n type .text = .ok (operand, w) ↔
    operand.Fits type .text ∧ operand.bytes.length = w ∧ operand.bytes <+: s.rest n := by
  simp only [Stream.operand, if_true, bind_eq_ok, field_eq_ok h, Shape.bytes]
  constructor
  · rintro ⟨front, ⟨hlen, hfront⟩, payload, hpayload, made, hmade, hok⟩
    cases hmade
    cases hok
    obtain ⟨hcount, hpayload⟩ := (field_eq_ok (h.add (hlen ▸ hfront.length_le))).mp hpayload
    have hcount' : payload.length < Wire.span 2 := hcount ▸ Wire.unsigned_lt hlen
    have hbytes : (Operand.constant (.text (Wire.latin payload))).bytes = front ++ payload := by
      rw [Operand.bytes, Wire.latinBytes_latin, hcount, Wire.bytesOf_unsigned hlen]
    refine ⟨⟨Wire.latin_lt payload, by simpa [Wire.latin] using hcount'⟩, ?_, ?_⟩
    · rw [hbytes, List.length_append, hlen, hcount]
    · rw [hbytes, append_prefix_iff]
      rw [rest_add, ← hlen] at hpayload
      exact ⟨hfront, hpayload⟩
  · rintro ⟨hfits, rfl, hbegin⟩
    obtain ⟨value, rfl⟩ := Operand.exists_text hfits
    have hcount : (Wire.latinBytes value).length < Wire.span 2 := by
      simpa [Wire.latinBytes] using hfits.2
    rw [Operand.bytes, append_prefix_iff] at hbegin
    have hlen := Wire.length_bytesOf 2 (Wire.latinBytes value).length
    refine ⟨_, ⟨hlen, hbegin.1⟩, Wire.latinBytes value, ?_, _,
      Operand.ofBytes_text site hfits, ?_⟩
    · rw [← Int.natCast_add, field_eq_ok (h.add (hlen ▸ hbegin.1.length_le)), rest_add]
      exact ⟨(Wire.unsigned_bytesOf hcount).symm, hlen ▸ hbegin.2⟩
    · rw [Wire.unsigned_bytesOf hcount, Operand.bytes, List.length_append, hlen]
      rfl

theorem operand_eq_ok (h : s.Within n) : s.operand site n type shape = .ok (operand, w) ↔
    operand.Fits type shape ∧ operand.bytes.length = w ∧ operand.bytes <+: s.rest n := by
  by_cases hs : shape = .text
  · subst hs
    exact operand_text_eq_ok h
  simp only [Stream.operand, if_neg hs, bind_eq_ok, field_eq_ok h]
  constructor
  · rintro ⟨bytes, ⟨hlen, hbegin⟩, made, hmade, hok⟩
    cases hok
    obtain ⟨hfits, rfl⟩ := Operand.bytes_of_ofBytes hs hlen hmade
    exact ⟨hfits, hlen, hbegin⟩
  · rintro ⟨hfits, rfl, hbegin⟩
    have hlen := Operand.length_bytes hfits hs
    exact ⟨operand.bytes, ⟨hlen, hbegin⟩, operand, Operand.ofBytes_bytes site hfits hs, by rw [hlen]; rfl⟩

/-! ## Instructions -/

/-- What an instruction is read as whose opcode and type byte are there. -/
def body (s : Stream) (n : Nat) (opcodeByte typeByte : UInt8) : Except ScriptError Instruction :=
  match Opcode.ofNumber? opcodeByte.toNat with
  | none => .error (.badOpcode (s.base + n) opcodeByte.toNat)
  | some opcode =>
    match Shape.of? opcode typeByte.toNat with
    | none => .error (.badConstant (s.base + n) typeByte.toNat)
    | some shape => do
      let (operand, width) ← s.operand (s.base + n) ((n + 2 : Nat) : Int) typeByte.toNat shape
      return { address := s.base + n, opcode, type := typeByte.toNat, size := 2 + width, operand }

theorem instruction_eq (h : s.Within n) : s.instruction n =
    match s.rest n with
    | opcodeByte :: typeByte :: _ => s.body n opcodeByte typeByte
    | _ => .error (.truncated (s.base + n)) := by
  simp only [instruction, field_eq h]
  match hrest : s.rest n with
  | [] => rfl
  | [_] => rfl
  | opcodeByte :: typeByte :: tail => rfl

theorem body_eq_ok {opcodeByte typeByte : UInt8} (h : s.Within (n + 2)) :
    s.body n opcodeByte typeByte = .ok i ↔ i.address = s.base + n ∧ i.WellFormed ∧
      UInt8.ofNat i.opcode.number = opcodeByte ∧ UInt8.ofNat i.type = typeByte ∧
      i.operand.bytes <+: s.rest (n + 2) := by
  unfold body
  constructor
  · intro hok
    split at hok
    · cases hok
    · rename_i opcode hopcode
      split at hok
      · cases hok
      · rename_i shape hshape
        obtain ⟨⟨operand, width⟩, hoperand, hok⟩ := bind_eq_ok.mp hok
        cases hok
        obtain ⟨hfits, rfl, hbegin⟩ := (operand_eq_ok h).mp hoperand
        refine ⟨rfl, ⟨typeByte.toNat_lt, ⟨shape, hshape, hfits⟩, ?_⟩, ?_, UInt8.ofNat_toNat, hbegin⟩
        · simp only [Instruction.bytes, List.length_cons]
          omega
        · rw [Opcode.ofNumber?_eq_some.mp hopcode, UInt8.ofNat_toNat]
  · rintro ⟨haddress, hwf, rfl, rfl, hbegin⟩
    obtain ⟨shape, hshape, hfits⟩ := hwf.operand
    have hopcode : (UInt8.ofNat i.opcode.number).toNat = i.opcode.number :=
      UInt8.toNat_ofNat_of_lt' i.opcode.number_lt
    have htype : (UInt8.ofNat i.type).toNat = i.type := UInt8.toNat_ofNat_of_lt' hwf.type_lt
    have hoperand : s.operand (s.base + n) ((n + 2 : Nat) : Int) i.type shape =
        .ok (i.operand, i.operand.bytes.length) := (operand_eq_ok h).mpr ⟨hfits, rfl, hbegin⟩
    simp only [hopcode, htype, Opcode.ofNumber?_eq_some.mpr rfl, hshape, hoperand, bind, Except.bind]
    have hsize := hwf.size
    simp only [Instruction.bytes, List.length_cons] at hsize
    have hsize' : (2 : Int) + i.operand.bytes.length = i.size := by omega
    rw [hsize', ← haddress]
    rfl

theorem instruction_eq_ok (h : s.Within n) : s.instruction n = .ok i ↔
    i.address = s.base + n ∧ i.WellFormed ∧ i.bytes <+: s.rest n := by
  rw [instruction_eq h]
  match hrest : s.rest n with
  | [] | [_] => simp [Instruction.bytes]
  | opcodeByte :: typeByte :: tail =>
    have htail : s.rest (n + 2) = tail := by rw [rest_add, hrest]; rfl
    rw [body_eq_ok (h.add (by simp [hrest])), htail]
    simp [Instruction.bytes, List.cons_prefix_cons]

theorem instruction_eq_error (h : s.Within n) (he : s.instruction n = .error e) :
    e = .truncated (s.base + n) ∨ (∃ b, e = .badOpcode (s.base + n) b) ∨
      ∃ b, e = .badConstant (s.base + n) b := by
  rw [instruction_eq h] at he
  split at he
  · rename_i opcodeByte typeByte tail hrest
    unfold body at he
    split at he
    · cases he
      exact .inr (.inl ⟨_, rfl⟩)
    · split at he
      · cases he
        exact .inr (.inr ⟨_, rfl⟩)
      · obtain he | ⟨⟨_, _⟩, -, he⟩ := bind_eq_error.mp he
        · exact .inl (operand_eq_error (h.add (by simp [hrest])) he)
        · cases he
  · cases he
    exact .inl rfl

theorem not_prefix_of_error (h : s.Within n) (he : s.instruction n = .error e) (hi : i.WellFormed) :
    ¬ i.bytes <+: s.rest n := by
  intro hbegin
  have hok := (instruction_eq_ok (i := { i with address := s.base + n }) h).mpr
    ⟨rfl, ⟨hi.type_lt, hi.operand, hi.size⟩, hbegin⟩
  rw [he] at hok
  cases hok

end

end Stream

/-! ## Lists of instructions -/

namespace Instruction

/-- The instructions stand one behind the other between two addresses. -/
def Contiguous : Int → List Instruction → Int → Prop
  | start, [], stop => start = stop
  | start, i :: is, stop => i.address = start ∧ Contiguous i.stop is stop

/-- The bytes are those of instructions that stand one behind the other between two addresses. -/
structure Written (start stop : Int) (is : List Instruction) (bytes : List UInt8) : Prop where
  wellFormed : ∀ i ∈ is, i.WellFormed
  contiguous : Contiguous start is stop
  bytes : is.flatMap Instruction.bytes = bytes

section
variable {start stop : Int} {i : Instruction} {is : List Instruction} {bytes : List UInt8}

theorem WellFormed.stop_eq (h : i.WellFormed) : i.stop = i.address + i.bytes.length := by
  rw [Instruction.stop, h.size]

theorem length_bytes_pos (i : Instruction) : 0 < i.bytes.length := by
  simp [Instruction.bytes]

theorem written_nil : Written start stop [] bytes ↔ start = stop ∧ bytes = [] := by
  constructor
  · rintro ⟨-, hcont, rfl⟩
    exact ⟨hcont, rfl⟩
  · rintro ⟨rfl, rfl⟩
    exact ⟨by simp, rfl, rfl⟩

theorem written_cons : Written start stop (i :: is) bytes ↔ i.address = start ∧ i.WellFormed ∧
    ∃ tail, bytes = i.bytes ++ tail ∧ Written (start + i.bytes.length) stop is tail := by
  constructor
  · rintro ⟨hwf, ⟨hi, hcont⟩, rfl⟩
    have hiwf := hwf i List.mem_cons_self
    rw [hiwf.stop_eq, hi] at hcont
    exact ⟨hi, hiwf, _, rfl, fun j hj => hwf j (List.mem_cons_of_mem _ hj), hcont, rfl⟩
  · rintro ⟨hi, hiwf, tail, rfl, hwf, hcont, rfl⟩
    refine ⟨List.forall_mem_cons.mpr ⟨hiwf, hwf⟩, ⟨hi, ?_⟩, rfl⟩
    rwa [hiwf.stop_eq, hi]

/-- Instructions can be moved to stand one behind the other. -/
theorem exists_written (start : Int) (h : ∀ i ∈ is, i.WellFormed) :
    ∃ js, Written start (start + (is.flatMap Instruction.bytes).length) js
      (is.flatMap Instruction.bytes) := by
  induction is generalizing start with
  | nil => exact ⟨[], written_nil.mpr ⟨by simp, rfl⟩⟩
  | cons i is ih =>
    obtain ⟨hi, his⟩ := List.forall_mem_cons.mp h
    obtain ⟨js, hjs⟩ := ih (start + i.bytes.length) his
    refine ⟨{ i with address := start } :: js,
      written_cons.mpr ⟨rfl, ⟨hi.type_lt, hi.operand, hi.size⟩, _, rfl, ?_⟩⟩
    rw [List.flatMap_cons, List.length_append, Int.natCast_add, ← Int.add_assoc]
    exact hjs

end

end Instruction

namespace Stream

open Instruction

section
variable {s : Stream} {n fuel : Nat} {is : List Instruction} {e : ScriptError}

theorem instructionsFrom_bound (h : s.bound ≤ n) : s.instructionsFrom fuel n = .ok [] := by
  cases fuel with
  | zero => rfl
  | succ fuel => rw [instructionsFrom, if_neg (by omega)]

/-- One round reads an instruction and what stands behind it. -/
theorem instructionsFrom_succ (hn : (n : Int) < s.bound) : s.instructionsFrom (fuel + 1) n =
    s.instruction n >>= fun i => s.instructionsFrom fuel (n + i.size) >>= fun is => .ok (i :: is) := by
  rw [instructionsFrom, if_pos hn]
  rfl

theorem written_rest_bound (h : s.Within n) (hn : ¬ (n : Int) < s.bound) :
    Written (s.base + n) (s.base + s.bound) is (s.rest n) ↔ is = [] := by
  have hlen := length_rest h
  have hbound := h.le_bound
  have hnil : s.rest n = [] := List.length_eq_zero_iff.mp (by omega)
  rw [hnil]
  constructor
  · intro hw
    cases is with
    | nil => rfl
    | cons i is =>
      have hbytes := hw.bytes
      simp [Instruction.bytes] at hbytes
  · rintro rfl
    exact written_nil.mpr ⟨by omega, rfl⟩

theorem instructionsFrom_eq_ok (h : s.Within n) (hf : s.bound - n ≤ fuel) :
    s.instructionsFrom fuel n = .ok is ↔
      Written (s.base + n) (s.base + s.bound) is (s.rest n) := by
  induction fuel generalizing n is with
  | zero =>
    rw [instructionsFrom_bound (by omega), written_rest_bound h (by omega)]
    simp [eq_comm]
  | succ fuel ih =>
    by_cases hn : (n : Int) < s.bound
    · -- the instructions behind the first one are read by the rounds that are left
      have behind {i : Instruction} {js : List Instruction} (hwf : i.WellFormed)
          (hbegin : i.bytes <+: s.rest n) : s.instructionsFrom fuel (n + i.size) = .ok js ↔
            Written (s.base + n + i.bytes.length) (s.base + s.bound) js
              ((s.rest n).drop i.bytes.length) := by
        have hpos := i.length_bytes_pos
        rw [hwf.size, ← Int.natCast_add, ih (h.add hbegin.length_le) (by omega), rest_add,
          Int.natCast_add, ← Int.add_assoc]
      rw [instructionsFrom_succ hn]
      simp only [bind_eq_ok]
      constructor
      · rintro ⟨i, hi, js, hjs, hok⟩
        cases hok
        obtain ⟨haddress, hwf, hbegin⟩ := (instruction_eq_ok h).mp hi
        exact written_cons.mpr ⟨haddress, hwf, _, (List.prefix_iff_eq_append.mp hbegin).symm,
          (behind hwf hbegin).mp hjs⟩
      · intro hw
        cases is with
        | nil =>
          have hnil := (written_nil.mp hw).1
          omega
        | cons i js =>
          obtain ⟨haddress, hwf, tail, hrest, hjs⟩ := written_cons.mp hw
          have hbegin : i.bytes <+: s.rest n := ⟨tail, hrest.symm⟩
          refine ⟨i, (instruction_eq_ok h).mpr ⟨haddress, hwf, hbegin⟩, js, ?_, rfl⟩
          rw [behind hwf hbegin, hrest, List.drop_left]
          exact hjs
    · rw [instructionsFrom_bound (by omega), written_rest_bound h hn]
      simp [eq_comm]

/-- Reading stops at the first instruction that cannot be read. -/
theorem instructionsFrom_eq_error (h : s.Within n) (he : s.instructionsFrom fuel n = .error e) :
    ∃ front bytes m, s.Within m ∧ (m : Int) < s.bound ∧ s.instruction m = .error e ∧
      Written (s.base + n) (s.base + m) front bytes ∧ s.rest n = bytes ++ s.rest m := by
  induction fuel generalizing n with
  | zero => cases he
  | succ fuel ih =>
    by_cases hn : (n : Int) < s.bound
    · rw [instructionsFrom_succ hn] at he
      obtain he | ⟨i, hi, he⟩ := bind_eq_error.mp he
      · exact ⟨[], [], n, h, hn, he, written_nil.mpr ⟨rfl, rfl⟩, rfl⟩
      obtain he | ⟨js, -, he⟩ := bind_eq_error.mp he
      · obtain ⟨haddress, hwf, hbegin⟩ := (instruction_eq_ok h).mp hi
        rw [hwf.size, ← Int.natCast_add] at he
        obtain ⟨front, bytes, m, hm, hlt, hem, hw, hrest⟩ := ih (h.add hbegin.length_le) he
        rw [Int.natCast_add, ← Int.add_assoc] at hw
        refine ⟨i :: front, i.bytes ++ bytes, m, hm, hlt, hem,
          written_cons.mpr ⟨haddress, hwf, bytes, rfl, hw⟩, ?_⟩
        rw [List.append_assoc, ← hrest, rest_add]
        exact (List.prefix_iff_eq_append.mp hbegin).symm
      · cases he
    · rw [instructionsFrom_bound (by omega)] at he
      cases he

end

end Stream

namespace Instruction

/-- The first place of a part of the data at which no instruction is written, though all in front of it
is. -/
structure FirstGap (data : List UInt8) (start stop site : Nat) : Prop where
  start_le : start ≤ site
  lt_stop : site < stop
  front : ∃ is, Written start site is ((data.take site).drop start)
  unwritten : ∀ i : Instruction, i.WellFormed → ¬ i.bytes <+: (data.take stop).drop site

section
variable {data : List UInt8} {start stop : Nat}

theorem decode_eq_ok (h : start ≤ stop) (hdata : stop ≤ data.length) {is : List Instruction} :
    decode data start stop = .ok is ↔ Written start stop is ((data.take stop).drop start) := by
  have hw : Stream.Within ⟨data.toArray, stop, 0⟩ start := ⟨by simpa using h, by simpa using hdata⟩
  refine (Stream.instructionsFrom_eq_ok hw (Int.self_le_toNat _)).trans ?_
  simp only [Stream.rest, Int.zero_add, Int.toNat_natCast]

theorem decode_eq_error (h : start ≤ stop) (hdata : stop ≤ data.length) {e : ScriptError}
    (he : decode data start stop = .error e) : ∃ site, FirstGap data start stop site ∧
      (e = .truncated site ∨ (∃ b, e = .badOpcode site b) ∨ ∃ b, e = .badConstant site b) := by
  have hw : Stream.Within ⟨data.toArray, stop, 0⟩ start := ⟨by simpa using h, by simpa using hdata⟩
  obtain ⟨front, bytes, site, hsite, hlt, herr, hfront, hrest⟩ := Stream.instructionsFrom_eq_error hw he
  have hnot := fun (i : Instruction) (hi : i.WellFormed) => Stream.not_prefix_of_error hsite herr hi
  have hcause := Stream.instruction_eq_error hsite herr
  have hlen := congrArg List.length hrest
  simp only [Stream.rest, Int.zero_add, Int.toNat_natCast, List.length_append, List.length_drop,
    List.length_take] at hlt hfront hrest hnot hcause hlen
  have hle : start ≤ site ∧ site < stop ∧ bytes.length = site - start := by omega
  have hbytes : bytes = (data.take site).drop start := by
    have htake := congrArg (List.take (site - start)) hrest
    rw [← hle.2.2, List.take_left, hle.2.2, List.drop_take, List.take_take,
      Nat.min_eq_left (by omega), ← List.drop_take] at htake
    exact htake.symm
  exact ⟨site, ⟨hle.1, hle.2.1, ⟨front, hbytes ▸ hfront⟩, hnot⟩, hcause⟩

/-- Decoding accepts exactly the bytes of instructions that stand one behind the other, and gives these
instructions back. All other bytes are refused at the first place where no instruction is written. -/
theorem decode_exact (h : start ≤ stop) (hdata : stop ≤ data.length) :
    (∀ is, decode data start stop = .ok is ↔ Written start stop is ((data.take stop).drop start)) ∧
    ∀ e, decode data start stop = .error e →
      (∀ is : List Instruction, (∀ i ∈ is, i.WellFormed) →
        is.flatMap Instruction.bytes ≠ (data.take stop).drop start) ∧
      ∃ site, FirstGap data start stop site ∧ e.address? = some (site : Int) ∧
        (e = .truncated site ∨ (∃ b, e = .badOpcode site b) ∨ ∃ b, e = .badConstant site b) := by
  refine ⟨fun is => decode_eq_ok h hdata, fun e he => ⟨fun is hwf hbytes => ?_, ?_⟩⟩
  · obtain ⟨js, hjs⟩ := exists_written start hwf
    rw [hbytes, List.length_drop, List.length_take, Nat.min_eq_left hdata, ← Int.natCast_add,
      Nat.add_sub_cancel' h, ← decode_eq_ok h hdata, he] at hjs
    cases hjs
  · obtain ⟨site, hgap, hcause⟩ := decode_eq_error h hdata he
    refine ⟨site, hgap, ?_, hcause⟩
    obtain rfl | ⟨b, rfl⟩ | ⟨b, rfl⟩ := hcause <;> rfl

/-- A text, a stored continuation and a comparison of structures behind two other bytes, and a jump that
is cut off. -/
def mixedBytes : List UInt8 :=
  [0, 0] ++ [0x04, 5, 0, 1, 0x41] ++ [0x2C, 0x10, 0, 0, 0, 8, 0, 0, 0, 4] ++ [0x0B, 0x24, 0, 12] ++
    [0x1D, 0, 0xFF]

def mixedInstructions : List Instruction :=
  [⟨2, .const, 5, 5, .constant (.text "A")⟩, ⟨7, .storestate, 0x10, 10, .resume 0x10 8 4⟩,
   ⟨17, .eq, 0x24, 4, .width 12⟩]

theorem mixedBytes_exact : mixedBytes.length = 24 ∧
    Written (2 : Nat) (21 : Nat) mixedInstructions ((mixedBytes.take 21).drop 2) ∧
    decode mixedBytes (2 : Nat) (24 : Nat) = .error (.truncated 21) ∧
    FirstGap mixedBytes 2 24 21 := by
  have hok : decode mixedBytes (2 : Nat) (21 : Nat) = .ok mixedInstructions := by decide +kernel
  have herror : decode mixedBytes (2 : Nat) (24 : Nat) = .error (.truncated 21) := by decide +kernel
  obtain ⟨-, site, hgap, haddress, -⟩ :=
    (decode_exact (show 2 ≤ 24 by decide) (show 24 ≤ mixedBytes.length by decide)).2 _ herror
  have hsite : 21 = site := Int.ofNat_inj.mp (Option.some.inj haddress)
  exact ⟨rfl, ((decode_exact (by decide) (by decide)).1 mixedInstructions).mp hok, herror,
    hsite ▸ hgap⟩

end

end Instruction

end ScriptFlow
