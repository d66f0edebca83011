import ScriptFlow.Instruction.Wire
import Mathlib.Data.List.Induction

/-! # Operands and their bytes

Numbers of a fixed width, texts and whole operands are read as what they were written as, and every
string of bytes of the right length is read as an operand that is written by these very bytes. -/

namespace ScriptFlow

namespace Wire

section
variable {bytes : List UInt8} {width n : Nat}

@[simp] theorem span_zero : span 0 = 1 := rfl

theorem span_succ (width : Nat) : span (width + 1) = span width * 256 := Nat.pow_succ 256 width

theorem unsigned_concat (bytes : List UInt8) (b : UInt8) :
    unsigned (bytes ++ [b]) = unsigned bytes * 256 + b.toNat := by
  simp [unsigned]

@[simp] theorem length_bytesOf (width n : Nat) : (bytesOf width n).length = width := by
  induction width generalizing n with
  | zero => rfl
  | succ width ih => simp [bytesOf, ih]

theorem unsigned_bytesOf (h : n < span width) : unsigned (bytesOf width n) = n := by
  induction width generalizing n with
  | zero =>
    have : n = 0 := by simpa using h
    simp [this, bytesOf, unsigned]
  | succ width ih =>
    rw [span_succ] at h
    have hlow : (UInt8.ofNat (n % 256)).toNat = n % 256 :=
      UInt8.toNat_ofNat_of_lt' (Nat.mod_lt _ (by decide))
    rw [bytesOf, unsigned_concat, ih (by omega), hlow]
    omega

theorem unsigned_lt (h : bytes.length = width) : unsigned bytes < span width := by
  induction bytes using List.reverseRecOn generalizing width with
  | nil => simp [← h, unsigned]
  | append_singleton bytes b ih =>
    have hb := b.toNat_lt
    have hlt := ih rfl
    rw [unsigned_concat, ← h, List.length_append, List.length_singleton, span_succ]
    omega

theorem bytesOf_unsigned (h : bytes.length = width) : bytesOf width (unsigned bytes) = bytes := by
  induction bytes using List.reverseRecOn generalizing width with
  | nil => rw [← h]; rfl
  | append_singleton bytes b ih =>
    have hb := b.toNat_lt
    rw [unsigned_concat, ← h, List.length_append, List.length_singleton, bytesOf,
      show (unsigned bytes * 256 + b.toNat) / 256 = unsigned bytes by omega,
      show (unsigned bytes * 256 + b.toNat) % 256 = b.toNat by omega, ih rfl, UInt8.ofNat_toNat]

/-- The numbers that two's complement has of a width in bytes. -/
def InRange (width : Nat) (v : Int) : Prop := -(span width : Int) ≤ 2 * v ∧ 2 * v < span width

instance (width : Nat) (v : Int) : Decidable (InRange width v) := inferInstanceAs (Decidable (_ ∧ _))

@[simp] theorem length_signedBytesOf (width : Nat) (v : Int) :
    (signedBytesOf width v).length = width := length_bytesOf _ _

theorem span_pos (width : Nat) : 0 < span width := Nat.pow_pos (by decide)

theorem signed_signedBytesOf {v : Int} (h : InRange width v) : signed (signedBytesOf width v) = v := by
  obtain ⟨hlow, hhigh⟩ := h
  have hpos := span_pos width
  have hmod := Int.emod_nonneg v (b := (span width : Int)) (by omega)
  have hlt := Int.emod_lt_of_pos v (b := (span width : Int)) (by omega)
  unfold signed
  rw [length_signedBytesOf, signedBytesOf, unsigned_bytesOf (by omega)]
  by_cases hv : 0 ≤ v
  · rw [Int.emod_eq_of_lt hv (by omega)]
    dsimp only
    rw [if_pos (by omega)]
    omega
  · have hwrap : v % (span width : Int) = v + span width := by
      rw [← Int.add_emod_right, Int.emod_eq_of_lt (by omega) (by omega)]
    rw [hwrap]
    dsimp only
    rw [if_neg (by omega)]
    omega

theorem inRange_signed (h : bytes.length = width) : InRange width (signed bytes) := by
  have hlt := unsigned_lt h
  subst h
  unfold InRange signed
  dsimp only
  split <;> omega

theorem signedBytesOf_signed (h : bytes.length = width) : signedBytesOf width (signed bytes) = bytes := by
  have hlt := unsigned_lt h
  subst h
  have hmod : (signed bytes % span bytes.length).toNat = unsigned bytes := by
    unfold signed
    dsimp only
    split
    · rw [Int.emod_eq_of_lt (by omega) (by omega)]
      omega
    · rw [Int.sub_emod_right, Int.emod_eq_of_lt (by omega) (by omega)]
      omega
  rw [signedBytesOf, hmod, bytesOf_unsigned rfl]

theorem signedBytesOf_of_nonneg {v : Int} (h : 0 ≤ v) (hlt : v < span width) :
    signedBytesOf width v = bytesOf width v.toNat := by
  rw [signedBytesOf, Int.emod_eq_of_lt h hlt]

theorem toNat_ofNat_byte (b : UInt8) : (Char.ofNat b.toNat).toNat = b.toNat := by
  have hb : b.toNat < 256 := b.toNat_lt
  have hvalid : b.toNat.isValidChar := .inl (by omega)
  rw [Char.ofNat, dif_pos hvalid]
  rfl

@[simp] theorem latinBytes_latin (bytes : List UInt8) : latinBytes (latin bytes) = bytes := by
  unfold latinBytes latin
  rw [String.toList_ofList, List.map_map]
  refine (List.map_congr_left fun b _ => ?_).trans (List.map_id bytes)
  show UInt8.ofNat (Char.ofNat b.toNat).toNat = id b
  rw [toNat_ofNat_byte, UInt8.ofNat_toNat]
  rfl

theorem latin_latinBytes {text : String} (h : ∀ c ∈ text.toList, c.toNat < 256) :
    latin (latinBytes text) = text := by
  unfold latin latinBytes
  rw [List.map_map]
  have hmap : text.toList.map ((fun b => Char.ofNat b.toNat) ∘ fun c => UInt8.ofNat c.toNat) =
      text.toList := by
    refine (List.map_congr_left fun c hc => ?_).trans (List.map_id _)
    show Char.ofNat (UInt8.ofNat c.toNat).toNat = id c
    rw [UInt8.toNat_ofNat_of_lt' (h c hc), Char.ofNat_toNat]
    rfl
  rw [hmap, String.ofList_toList]

theorem latin_lt (bytes : List UInt8) : ∀ c ∈ (latin bytes).toList, c.toNat < 256 := by
  intro c hc
  rw [latin, String.toList_ofList] at hc
  obtain ⟨b, -, rfl⟩ := List.mem_map.mp hc
  rw [toNat_ofNat_byte]
  exact b.toNat_lt

end

end Wire

open Wire in
/-- The operand is one that its shape can hold. The type byte is the distance of a continuation. -/
def Operand.Fits (type : Nat) : Shape → Operand → Prop
  | .none, .none => True
  | .cells, .cells start size => InRange 4 start ∧ size < span 2
  | .int, .constant (.int value) => InRange 4 value
  | .object, .constant (.int value) => 0 ≤ value ∧ value < span 4
  | .float, .constant (.float bits) => bits < span 4
  | .text, .constant (.text value) =>
    (∀ c ∈ value.toList, c.toNat < 256) ∧ value.toList.length < span 2
  | .call, .call routine argc => routine < span 2 ∧ argc < span 1
  | .width, .width size => size < span 2
  | .offset, .offset value => InRange 4 value
  | .region, .region size start keep => InRange 2 size ∧ InRange 2 start ∧ InRange 2 keep
  | .resume, .resume distance base stack => distance = type ∧ base < span 4 ∧ stack < span 4
  | _, _ => False

namespace Operand

open Wire

section
variable {type : Nat} {shape : Shape} {operand : Operand} {bytes : List UInt8}

theorem exists_text (h : operand.Fits type .text) : ∃ value, operand = .constant (.text value) := by
  cases operand with
  | constant value =>
    cases value with
    | text value => exact ⟨value, rfl⟩
    | _ => exact h.elim
  | _ => exact h.elim

theorem length_bytes (h : operand.Fits type shape) (hs : shape ≠ .text) :
    operand.bytes.length = shape.bytes := by
  unfold Fits at h
  split at h <;> simp_all [Operand.bytes, Shape.bytes]

theorem ofBytes_call (site : Int) (hlen : bytes.length = 3) : Operand.ofBytes site type bytes .call =
    .ok (.call (unsigned (bytes.take 2)) (unsigned (bytes.drop 2))) := by
  rw [Operand.ofBytes]
  split
  · rename_i hnil
    have := List.drop_eq_nil_iff.mp hnil
    omega
  · rfl

/-- What was written can be read again. -/
theorem ofBytes_bytes (site : Int) (h : operand.Fits type shape) (hs : shape ≠ .text) :
    Operand.ofBytes site type operand.bytes shape = .ok operand := by
  unfold Fits at h
  split at h
  case h_1 => rfl
  case h_2 | h_10 | h_11 =>
    simp [Operand.bytes, Operand.ofBytes, List.drop_append, List.drop_of_length_le,
      signed_signedBytesOf, unsigned_bytesOf, h]
  case h_3 | h_9 => simp [Operand.bytes, Operand.ofBytes, signed_signedBytesOf h]
  case h_4 =>
    rw [Operand.bytes, Operand.ofBytes, signedBytesOf_of_nonneg h.1 h.2,
      unsigned_bytesOf ((Int.toNat_lt h.1).mpr h.2), Int.toNat_of_nonneg h.1]
  case h_5 | h_8 => simp [Operand.bytes, Operand.ofBytes, unsigned_bytesOf h]
  case h_6 => exact absurd rfl hs
  case h_7 =>
    rw [ofBytes_call site (by simp [Operand.bytes])]
    simp [Operand.bytes, unsigned_bytesOf h.1, unsigned_bytesOf h.2]
  case h_12 => cases h

/-- The same of a text, which is read without the length in front of it. -/
theorem ofBytes_text (site : Int) {text : String} (h : (constant (.text text)).Fits type .text) :
    Operand.ofBytes site type (latinBytes text) .text = .ok (.constant (.text text)) := by
  rw [Operand.ofBytes, latin_latinBytes h.1]

/-- What was read is what was written. -/
theorem bytes_of_ofBytes {site : Int} (hs : shape ≠ .text) (hlen : bytes.length = shape.bytes)
    (h : Operand.ofBytes site type bytes shape = .ok operand) :
    operand.Fits type shape ∧ operand.bytes = bytes := by
  cases shape with
  | none =>
    cases h
    exact ⟨trivial, (List.length_eq_zero_iff.mp hlen).symm⟩
  | text => exact absurd rfl hs
  | cells =>
    cases h
    have htake : (bytes.take 4).length = 4 := by simp [hlen, Shape.bytes]
    have hdrop : (bytes.drop 4).length = 2 := by simp [hlen, Shape.bytes]
    refine ⟨⟨inRange_signed htake, unsigned_lt hdrop⟩, ?_⟩
    simp [Operand.bytes, signedBytesOf_signed htake, bytesOf_unsigned hdrop]
  | int | offset =>
    cases h
    exact ⟨inRange_signed hlen, signedBytesOf_signed hlen⟩
  | object =>
    cases h
    have hlt : unsigned bytes < span 4 := unsigned_lt hlen
    refine ⟨⟨Int.natCast_nonneg _, Int.ofNat_lt.mpr hlt⟩, ?_⟩
    rw [Operand.bytes, signedBytesOf_of_nonneg (Int.natCast_nonneg _) (Int.ofNat_lt.mpr hlt),
      Int.toNat_natCast]
    exact bytesOf_unsigned hlen
  | float =>
    simp only [Operand.ofBytes, show bytes.length = 4 from hlen, if_true] at h
    cases h
    exact ⟨unsigned_lt hlen, bytesOf_unsigned hlen⟩
  | width =>
    cases h
    exact ⟨unsigned_lt hlen, bytesOf_unsigned hlen⟩
  | call =>
    rw [ofBytes_call site hlen] at h
    cases h
    have htake : (bytes.take 2).length = 2 := by simp [hlen, Shape.bytes]
    have hdrop : (bytes.drop 2).length = 1 := by simp [hlen, Shape.bytes]
    refine ⟨⟨unsigned_lt htake, unsigned_lt hdrop⟩, ?_⟩
    simp [Operand.bytes, bytesOf_unsigned htake, bytesOf_unsigned hdrop]
  | region =>
    cases h
    have hfirst : (bytes.take 2).length = 2 := by simp [hlen, Shape.bytes]
    have hsecond : ((bytes.drop 2).take 2).length = 2 := by simp [hlen, Shape.bytes]
    have hthird : (bytes.drop 4).length = 2 := by simp [hlen, Shape.bytes]
    refine ⟨⟨inRange_signed hfirst, inRange_signed hsecond, inRange_signed hthird⟩, ?_⟩
    rw [Operand.bytes, signedBytesOf_signed hfirst, signedBytesOf_signed hsecond,
      signedBytesOf_signed hthird, ← List.take_add, List.take_append_drop]
  | resume =>
    cases h
    have htake : (bytes.take 4).length = 4 := by simp [hlen, Shape.bytes]
    have hdrop : (bytes.drop 4).length = 4 := by simp [hlen, Shape.bytes]
    refine ⟨⟨rfl, unsigned_lt htake, unsigned_lt hdrop⟩, ?_⟩
    simp [Operand.bytes, bytesOf_unsigned htake, bytesOf_unsigned hdrop]

end

end Operand

end ScriptFlow
