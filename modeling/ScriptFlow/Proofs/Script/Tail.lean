import ScriptFlow.Proofs.Instruction.Locality
import ScriptFlow.Proofs.Script.Totality

/-! # What stands behind a script

An image may be longer than the size its header announces. The bytes behind that size are never read: an
image and its announced part give the same script or the same refusal, and only a warning tells them
apart. -/

namespace ScriptFlow.Script

/-- The size that the header announces. -/
def announcedSize (image : List UInt8) : Nat := Wire.unsigned ((image.drop 9).take 4)

/-- What is reported of an image because of the bytes behind its script. -/
def excess (image : List UInt8) (size : Nat) : List Event :=
  if size < image.length then [.excessBytes size image.length] else []

/-- Without the bytes behind the given size, the image gives the same script, if any. Once its header is
accepted it also gives the same refusal and the same reports, apart from the one about these bytes. -/
structure TailUnread (image : List UInt8) (size : Nat) : Prop where
  loaded : ∀ s, (load image).2 = .ok s ↔ (load (image.take size)).2 = .ok s
  outcome : declaredSize image = .ok size → (load image).2 = (load (image.take size)).2
  reports : declaredSize image = .ok size →
    (load image).1 = excess image size ++ (load (image.take size)).1

section
variable {image : List UInt8} {size : Nat}

/-- The header lies in front of the announced size if it is right. -/
theorem validHeader_take {m : Nat} (hsize : size = announcedSize image) (hmost : size ≤ image.length) :
    ValidHeader (image.take size) m ↔ ValidHeader image m := by
  -- the fields of the header are the same in both, as soon as the size does not cut them
  have hmagic (h : headerSize ≤ size) : (image.take size).take 8 = image.take 8 := by
    rw [List.take_take, Nat.min_eq_left (Nat.le_trans (by decide) h)]
  have hmarker (h : headerSize ≤ size) : (image.take size)[8]? = image[8]? :=
    List.getElem?_take_of_lt (Nat.lt_of_lt_of_le (by decide) h)
  have hannounced (h : headerSize ≤ size) : announcedSize (image.take size) = announcedSize image := by
    unfold headerSize at h
    rw [announcedSize, announcedSize, List.drop_take, List.take_take, Nat.min_eq_left (by omega)]
  have hlength : (image.take size).length = size := by
    rw [List.length_take, Nat.min_eq_left hmost]
  constructor
  · intro h
    have hleast : headerSize ≤ size := hlength ▸ h.complete
    have hm : m = announcedSize image := h.announced.trans (hannounced hleast)
    exact ⟨Nat.le_trans hleast hmost, hmagic hleast ▸ h.magic, hmarker hleast ▸ h.marker, hm, h.least,
      hm ▸ hsize ▸ hmost⟩
  · intro h
    have hm : m = size := h.announced.trans hsize.symm
    have hleast : headerSize ≤ size := hm ▸ h.least
    exact ⟨hlength.symm ▸ hleast, (hmagic hleast).trans h.magic, (hmarker hleast).trans h.marker,
      h.announced.trans (hannounced hleast).symm, h.least,
      Nat.le_of_eq (hm.trans hlength.symm)⟩

theorem linkedCode_take (image : List UInt8) (size : Nat) :
    linkedCode (image.take size) size = linkedCode image size := by
  rw [linkedCode, Instruction.decode_take]
  rfl

theorem load_take (h : declaredSize image = .ok size) :
    load image = (excess image size ++ (load (image.take size)).1, (load (image.take size)).2) := by
  have hheader := declaredSize_eq_ok.mp h
  have htake : declaredSize (image.take size) = .ok size :=
    declaredSize_eq_ok.mpr ((validHeader_take hheader.announced hheader.most).mpr hheader)
  have hlength : (image.take size).length = size := by
    rw [List.length_take, Nat.min_eq_left hheader.most]
  unfold load
  simp only [h, htake, linkedCode_take, hlength, Nat.lt_irrefl, if_false, excess]
  cases linkedCode image size with
  | error e => simp
  | ok code =>
    dsimp only
    cases ofCode size code with
    | error e => simp
    | ok built => simp

theorem load_refused {e : ScriptError} (h : declaredSize image = .error e) :
    load image = ([], .error (.script e)) := by
  rw [load, h]

theorem tail_unread (hsize : size = announcedSize image) (hmost : size ≤ image.length) :
    TailUnread image size := by
  have htake : declaredSize image = .ok size →
      (load image).2 = (load (image.take size)).2 ∧
        (load image).1 = excess image size ++ (load (image.take size)).1 := by
    intro h
    rw [load_take h]
    exact ⟨rfl, rfl⟩
  refine ⟨fun s => ?_, fun h => (htake h).1, fun h => (htake h).2⟩
  cases hdeclared : declaredSize image with
  | ok m =>
    have hm : m = size := (declaredSize_eq_ok.mp hdeclared).announced.trans hsize.symm
    rw [(htake (hm ▸ hdeclared)).1]
  | error e =>
    -- a header that is refused is refused again when it is cut
    cases hcut : declaredSize (image.take size) with
    | ok m =>
      have hheader := (validHeader_take hsize hmost).mp (declaredSize_eq_ok.mp hcut)
      rw [declaredSize_eq_ok.mpr hheader] at hdeclared
      cases hdeclared
    | error e' =>
      rw [load_refused hdeclared, load_refused hcut]
      simp

end

/-- An instruction that is read takes two bytes or more, ends in front of the bound and is read from
every other string with its bytes; decoding up to a bound goes on behind the instructions up to a lower
one; and of an image only the part is read that its header announces. -/
theorem decoding_local_and_composed :
    (∀ (data : List UInt8) (start : Nat) (stop : Int) (i : Instruction), stop ≤ data.length →
      Instruction.read data start stop = .ok i → Instruction.ReadsItself data start stop i) ∧
    (∀ (data : List UInt8) (start middle stop : Int) (front : List Instruction), start ≤ middle →
      middle ≤ stop → Instruction.decode data start middle = .ok front →
      Instruction.decode data start stop = (front ++ ·) <$> Instruction.decode data middle stop) ∧
    ∀ (image : List UInt8) (size : Nat), size = announcedSize image → size ≤ image.length →
      TailUnread image size := by
  refine ⟨fun data start stop i => ?_, fun data start middle stop front => ?_, fun image size => ?_⟩
  · exact Instruction.read_itself
  · exact Instruction.decode_append
  · exact tail_unread

/-- 13 CONSTS and 19 RETN are announced; no instruction starts with the bytes behind them. -/
def strayTail : List UInt8 :=
  magic ++ [marker, 0, 0, 0, 21] ++ [0x04, 5, 0, 2, 0x41, 0x42] ++ [0x20, 0] ++ [0xFF, 0xFF, 0x20]

/-- The text is read as well where nothing follows it and the bound lies far behind; the return and the
fault behind it come after the text; and the image is loaded without its last three bytes. -/
theorem strayTail_local_and_composed :
    let text : Instruction := ⟨13, .const, 5, 6, .constant (.text "AB")⟩
    Instruction.read strayTail (13 : Nat) 21 = .ok text ∧
      Instruction.read (List.replicate 13 0 ++ [0x04, 5, 0, 2, 0x41, 0x42]) (13 : Nat) 1000 =
        .ok text ∧
      Instruction.decode strayTail 13 19 = .ok [text] ∧
      Instruction.decode strayTail 13 24 = (text :: ·) <$> Instruction.decode strayTail 19 24 ∧
      Instruction.decode strayTail 13 24 = .error (.badOpcode 21 255) ∧
      announcedSize strayTail = 21 ∧ declaredSize strayTail = .ok 21 ∧
      (load strayTail).2 = (load (strayTail.take 21)).2 ∧
      (load strayTail).1 = .excessBytes 21 24 :: (load (strayTail.take 21)).1 := by
  obtain ⟨hlocal, hcomposed, htail⟩ := decoding_local_and_composed
  have hread : Instruction.read strayTail (13 : Nat) 21 =
      .ok ⟨13, .const, 5, 6, .constant (.text "AB")⟩ := by decide +kernel
  have hdecode : Instruction.decode strayTail 13 19 =
      .ok [⟨13, .const, 5, 6, .constant (.text "AB")⟩] := by decide +kernel
  have hsize : declaredSize strayTail = .ok 21 := by decide +kernel
  have hunread := htail strayTail 21 (by decide +kernel) (by decide)
  refine ⟨hread, ?_, hdecode, hcomposed strayTail 13 19 24 _ (by decide) (by decide) hdecode,
    by decide +kernel, by decide +kernel, hsize, hunread.outcome hsize, hunread.reports hsize⟩
  refine (hlocal strayTail 13 21 _ (by decide) hread).alone _ 1000 ?_ (by decide)
  intro k hfrom hto
  have hk : k = 13 ∨ k = 14 ∨ k = 15 ∨ k = 16 ∨ k = 17 ∨ k = 18 := by
    change 13 ≤ (k : Int) at hfrom
    change (k : Int) < 19 at hto
    omega
  rcases hk with rfl | rfl | rfl | rfl | rfl | rfl <;> rfl

end ScriptFlow.Script
