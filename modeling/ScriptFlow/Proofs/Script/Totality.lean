import ScriptFlow.Proofs.Code.Linkable
import ScriptFlow.Proofs.Instruction.Decode
import ScriptFlow.Proofs.Script.Loading

/-! # Every image is loaded or refused

An image is loaded exactly if its header is right, its bytes are those of instructions and these can be
linked. All other images are refused with an error about the image; nothing else can go wrong, in
particular not once the code is linked. -/

namespace ScriptFlow

/-- A fault of the image. The other errors say that bytes are missing though their number is known, that
instructions are stored out of order or that their sizes do not add up. -/
def ScriptError.IsRefusal : ScriptError → Prop
  | .cutHead _ _ | .cutCall _ | .cutFloat _ | .outOfOrder _ | .uncovered _ _ => False
  | _ => True

namespace Instruction

section
variable {start stop : Int} {is : List Instruction}

theorem Contiguous.start_le (h : Contiguous start is stop) (hsize : ∀ i ∈ is, 0 ≤ i.size) :
    start ≤ stop ∧ ∀ i ∈ is, start ≤ i.address := by
  induction is generalizing start with
  | nil => exact ⟨Int.le_of_eq h, by simp⟩
  | cons i is ih =>
    obtain ⟨rfl, h⟩ := h
    obtain ⟨hi, his⟩ := List.forall_mem_cons.mp hsize
    obtain ⟨hle, hall⟩ := ih h his
    have hstop : i.stop = i.address + i.size := rfl
    refine ⟨by omega, List.forall_mem_cons.mpr ⟨Int.le_refl _, fun j hj => ?_⟩⟩
    have := hall j hj
    omega

theorem Contiguous.pairwise (h : Contiguous start is stop) (hsize : ∀ i ∈ is, 0 < i.size) :
    is.Pairwise fun i j => i.address < j.address := by
  induction is generalizing start with
  | nil => exact .nil
  | cons i is ih =>
    obtain ⟨rfl, h⟩ := h
    obtain ⟨hi, his⟩ := List.forall_mem_cons.mp hsize
    refine .cons (fun j hj => ?_) (ih h his)
    have hle := (h.start_le fun k hk => Int.le_of_lt (his k hk)).2 j hj
    have hstop : i.stop = i.address + i.size := rfl
    omega

/-- Sizes add up to the distance they bridge. -/
theorem Contiguous.size_eq (h : Contiguous start is stop) :
    is.foldr (fun i n => i.size + n) 0 = stop - start := by
  induction is generalizing start with
  | nil =>
    cases h
    simp
  | cons i is ih =>
    obtain ⟨rfl, h⟩ := h
    have hstop : i.stop = i.address + i.size := rfl
    rw [List.foldr_cons, ih h]
    omega

end

end Instruction

namespace Code

theorem resolve_error {code : Code} {next : Bool} {i : Instruction} {e : ScriptError}
    (h : code.resolve next i = .error e) : e.IsRefusal := by
  unfold resolve at h
  split at h
  · cases h
    trivial
  · split at h
    · cases h
    · split at h
      · cases h
      · cases h
        trivial

theorem resolveAll_error {code : Code} {is : List Instruction} {e : ScriptError}
    (h : code.resolveAll is = .error e) : e.IsRefusal := by
  induction is with
  | nil => cases h
  | cons i is ih =>
    rw [resolveAll] at h
    obtain h | ⟨t, -, h⟩ := bind_eq_error.mp h
    · exact resolve_error h
    · obtain h | ⟨ts, -, h⟩ := bind_eq_error.mp h
      · exact ih h
      · cases h

theorem link_error {code : Code} {e : ScriptError} (h : code.link = .error e) : e.IsRefusal := by
  unfold link at h
  obtain h | ⟨ts, -, h⟩ := bind_eq_error.mp h
  · exact resolveAll_error h
  · cases h

end Code

namespace Script

/-- The header of an image is right and announces a size. -/
structure ValidHeader (image : List UInt8) (size : Nat) : Prop where
  complete : headerSize ≤ image.length
  magic : image.take 8 = magic
  marker : image[8]? = some marker
  announced : size = Wire.unsigned ((image.drop 9).take 4)
  least : headerSize ≤ size
  most : size ≤ image.length

/-- The header is right, the bytes behind it are those of instructions, and these can be linked. -/
structure Loadable (image : List UInt8) (size : Nat) (is : List Instruction) : Prop where
  header : ValidHeader image size
  written : Instruction.Written headerSize size is ((image.take size).drop headerSize)
  linkable : Code.Linkable is

section
variable {image : List UInt8} {size : Nat} {is : List Instruction} {e : ScriptError}

theorem declaredSize_eq_ok : declaredSize image = .ok size ↔ ValidHeader image size := by
  unfold declaredSize
  dsimp only
  constructor
  · intro h
    repeat' split at h
    all_goals cases h
    rename_i hlen hmagic hmarker hmost hleast
    exact ⟨by omega, by simpa using hmagic, by simpa using hmarker, rfl, by omega, by omega⟩
  · rintro ⟨hlen, hmagic, hmarker, rfl, hleast, hmost⟩
    rw [if_neg (by omega), if_neg (by simpa using hmagic), if_neg (by simpa using hmarker),
      if_neg (by omega), if_neg (by omega)]

theorem declaredSize_error (h : declaredSize image = .error e) : e.IsRefusal := by
  unfold declaredSize at h
  dsimp only at h
  repeat' split at h
  all_goals cases h
  all_goals trivial

/-- Decoded instructions are stored and fill the script, whatever they are; only linking can refuse
them. -/
theorem linkedCode_of_decode (hleast : headerSize ≤ size) (hmost : size ≤ image.length)
    (h : Instruction.decode image headerSize size = .ok is) :
    linkedCode image size = (Code.mk is.toArray).link ∧ (Code.mk is.toArray).Ordered := by
  have hw := (Instruction.decode_eq_ok hleast hmost).mp h
  have hpos : ∀ i ∈ is, 0 < i.size := by
    intro i hi
    have := i.length_bytes_pos
    rw [(hw.wellFormed i hi).size]
    omega
  have hpairwise := hw.contiguous.pairwise hpos
  have hsize : (Code.mk is.toArray).size = size - headerSize := hw.contiguous.size_eq
  refine ⟨?_, hpairwise⟩
  simp only [linkedCode, h, Code.ofList_eq_ok hpairwise, bind, Except.bind]
  rw [if_neg]
  rw [hsize]
  omega

theorem linkedCode_error (hleast : headerSize ≤ size) (hmost : size ≤ image.length)
    (h : linkedCode image size = .error e) : e.IsRefusal := by
  cases hdecode : Instruction.decode image headerSize size with
  | error e' =>
    simp only [linkedCode, hdecode, bind, Except.bind] at h
    cases h
    obtain ⟨site, -, rfl | ⟨b, rfl⟩ | ⟨b, rfl⟩⟩ := Instruction.decode_eq_error hleast hmost hdecode
    all_goals trivial
  | ok is =>
    rw [(linkedCode_of_decode hleast hmost hdecode).1] at h
    exact Code.link_error h

theorem linkedCode_succeeds_iff (hleast : headerSize ≤ size) (hmost : size ≤ image.length) :
    (∃ code, linkedCode image size = .ok code) ↔
      ∃ is, Instruction.Written headerSize size is ((image.take size).drop headerSize) ∧
        Code.Linkable is := by
  simp only [← Instruction.decode_eq_ok hleast hmost]
  constructor
  · rintro ⟨code, hcode⟩
    have hdecode := hcode
    rw [linkedCode] at hdecode
    obtain ⟨is, his, -⟩ := bind_eq_ok.mp hdecode
    obtain ⟨heq, hordered⟩ := linkedCode_of_decode hleast hmost his
    exact ⟨is, his, (Code.link_succeeds_iff hordered).mp ⟨code, heq ▸ hcode⟩⟩
  · rintro ⟨is, his, hlinkable⟩
    obtain ⟨heq, hordered⟩ := linkedCode_of_decode hleast hmost his
    rw [heq]
    exact (Code.link_succeeds_iff hordered).mpr hlinkable

theorem load_error {err : LoadError} (h : (load image).2 = .error err) :
    ∃ e, err = .script e ∧ e.IsRefusal := by
  unfold load at h
  split at h
  · rename_i e he
    cases h
    exact ⟨e, rfl, declaredSize_error he⟩
  · rename_i size hsize
    have hheader := declaredSize_eq_ok.mp hsize
    dsimp only at h
    split at h
    · rename_i e he
      cases h
      exact ⟨e, rfl, linkedCode_error hheader.least hheader.most he⟩
    · rename_i code hcode
      obtain ⟨s, events, hof, -⟩ := ofCode_ok size (linkedCode_linked hcode)
      rw [hof] at h
      cases h

theorem load_succeeds_iff : (∃ s, (load image).2 = .ok s) ↔ ∃ size is, Loadable image size is := by
  constructor
  · rintro ⟨s, h⟩
    unfold load at h
    split at h
    · cases h
    · rename_i size hsize
      have hheader := declaredSize_eq_ok.mp hsize
      dsimp only at h
      split at h
      · cases h
      · rename_i code hcode
        obtain ⟨is, hwritten, hlinkable⟩ :=
          (linkedCode_succeeds_iff hheader.least hheader.most).mp ⟨code, hcode⟩
        exact ⟨size, is, hheader, hwritten, hlinkable⟩
  · rintro ⟨size, is, hheader, hwritten, hlinkable⟩
    obtain ⟨code, hcode⟩ :=
      (linkedCode_succeeds_iff hheader.least hheader.most).mpr ⟨is, hwritten, hlinkable⟩
    obtain ⟨events, s, hload, -⟩ := load_of_linkedCode (declaredSize_eq_ok.mpr hheader) hcode
    exact ⟨s, by rw [hload]⟩

/-- An image is either loaded, exactly if it is well-formed, or refused with a fault of the image. Of
linked code, all that is looked up later on is there, so it always becomes a script. -/
theorem load_total (image : List UInt8) :
    ((∃ s, (load image).2 = .ok s) ↔ ∃ size is, Loadable image size is) ∧
    (∀ err, (load image).2 = .error err → ∃ e, err = .script e ∧ e.IsRefusal) ∧
    ∀ size code, linkedCode image size = .ok code →
      Flow.Layout.Sound ⟨code, (rootsOf code).map Prod.fst⟩ ∧
      (∀ i ∈ code, i.opcode.branches → i.target.isSome) ∧
      (∀ i ∈ code, i.opcode.needsFollower = true → i.follower.isSome) ∧
      ∃ s events, ofCode size code = .ok (s, events) := by
  refine ⟨load_succeeds_iff, fun err => load_error, fun size code hcode => ?_⟩
  have hlinked := linkedCode_linked hcode
  refine ⟨sound_rootsOf hlinked, fun i hi hb => ?_, fun i hi hn => ?_, ?_⟩
  · obtain ⟨j, -, htarget⟩ := hlinked.target hi hb
    rw [htarget]
    rfl
  · obtain ⟨p, hp⟩ := List.getElem?_of_mem hi
    obtain ⟨j, -, hfollower⟩ := Flow.Layout.follower_eq (l := ⟨code, []⟩) hlinked hp hn
    rw [hfollower]
    rfl
  · obtain ⟨s, events, hof, -⟩ := ofCode_ok size hlinked
    exact ⟨s, events, hof⟩

end

end Script

end ScriptFlow
