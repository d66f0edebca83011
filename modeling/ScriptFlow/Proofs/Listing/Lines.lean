import ScriptFlow.Listing
import ScriptFlow.Proofs.Text.Hex

/-! # Telling the lines of a listing apart

The first characters of a line tell whether it opens a block, shows an instruction or shows an edge,
and its last ones whether the edge is dead. So what a listing says of blocks and instructions can be
read off its text alone, line by line. -/

namespace ScriptFlow

namespace Text

@[simp] theorem ofString_append (s t : String) : ofString (s ++ t) = ofString s ++ ofString t := by
  simp [ofString]

theorem ofString_injective {s t : String} (h : ofString s = ofString t) : s = t := by
  refine String.ext (List.map_injective_iff.mpr ?_ h)
  intro c d hcd
  exact CodePoint.char.inj hcd

end Text

namespace Listing

/-- The text starts with the given one. -/
def opens (front : String) (t : Text) : Bool := (Text.ofString front).isPrefixOf t

/-- The text ends with the given one. -/
def closes (back : String) (t : Text) : Bool := (Text.ofString back).isSuffixOf t

/-- The line is indented: it is about a block. -/
def indented (t : Text) : Bool := opens " " t

/-- The line opens a block. -/
def opensBlock (t : Text) : Bool := opens "  ; block " t

/-- The line shows an instruction. -/
def showsInstruction (t : Text) : Bool := opens "    " t && !opens "    ;" t

/-- The line shows a dead edge. -/
def showsDeadEdge (t : Text) : Bool := opens "    ; -> " t && closes " (dead)" t

/-- The line for an instruction. -/
def instructionLine (i : LinkedInstruction) : String := "    " ++ i.line

section
variable {s : Session} {showDead : Bool} {b c : BlockId} {i j : LinkedInstruction} {t : Text}

theorem opens_iff {front : String} : opens front t = true ↔ ∃ r, t = Text.ofString front ++ r := by
  rw [opens, List.isPrefixOf_iff_prefix]
  exact ⟨fun ⟨r, hr⟩ => ⟨r, hr.symm⟩, fun ⟨r, hr⟩ => ⟨r, hr.symm⟩⟩

theorem indented_of_opensBlock (h : opensBlock t = true) : indented t = true := by
  obtain ⟨r, rfl⟩ := opens_iff.mp h
  simp [indented, opens, Text.ofString, List.isPrefixOf]

theorem indented_of_showsInstruction (h : showsInstruction t = true) : indented t = true := by
  obtain ⟨r, rfl⟩ := opens_iff.mp (Bool.and_eq_true_iff.mp h).1
  simp [indented, opens, Text.ofString, List.isPrefixOf]

theorem indented_of_showsDeadEdge (h : showsDeadEdge t = true) : indented t = true := by
  obtain ⟨r, rfl⟩ := opens_iff.mp (Bool.and_eq_true_iff.mp h).1
  simp [indented, opens, Text.ofString, List.isPrefixOf]

/-! ## Lines of a block -/

theorem line_eq (i : LinkedInstruction) : ∃ rest : String,
    i.line = Text.upperHex 8 i.address ++ (": " ++ rest) := by
  unfold LinkedInstruction.line Instruction.line
  dsimp only
  split
  · exact ⟨_, String.append_assoc⟩
  · simp only [String.append_assoc]
    exact ⟨_, rfl⟩

theorem blockHeader_eq (s : Session) (b : BlockId) : ∃ rest : String,
    blockHeader s b = "  ; block " ++ ("0x" ++ (Text.upperHex 8 (s.script.graph.addressOf b) ++ rest)) ∧
      ∀ c, rest.toList.head? = some c → c = ' ' := by
  unfold blockHeader
  dsimp only
  split <;> split
  all_goals
    simp only [Text.address, String.append_assoc]
    refine ⟨_, rfl, ?_⟩
    simp

/-- An instruction's line starts with its address. -/
theorem address_eq_of_instructionLine (h : instructionLine i = instructionLine j) :
    i.address = j.address := by
  obtain ⟨r, hr⟩ := line_eq i
  obtain ⟨u, hu⟩ := line_eq j
  rw [instructionLine, instructionLine, hr, hu] at h
  have hlist := congrArg String.toList h
  simp only [String.toList_append] at hlist
  refine Text.upperHex_append_injective ?_ ?_ (List.append_cancel_left hlist) <;>
    simp [Text.isHex]

/-- A block's header shows its address behind the same words. -/
theorem addressOf_eq_of_blockHeader (h : blockHeader s b = blockHeader s c) :
    s.script.graph.addressOf b = s.script.graph.addressOf c := by
  obtain ⟨r, hr, hblank⟩ := blockHeader_eq s b
  obtain ⟨u, hu, hblank'⟩ := blockHeader_eq s c
  rw [hr, hu] at h
  have hlist := congrArg String.toList h
  simp only [String.toList_append] at hlist
  have hrest := List.append_cancel_left (List.append_cancel_left hlist)
  refine Text.upperHex_append_injective ?_ ?_ hrest
  · intro c hc
    rw [hblank c hc]
    decide
  · intro c hc
    rw [hblank' c hc]
    decide

@[simp] theorem opensBlock_blockHeader (s : Session) (b : BlockId) :
    opensBlock (Text.ofString (blockHeader s b)) = true := by
  obtain ⟨r, hr, -⟩ := blockHeader_eq s b
  rw [hr, Text.ofString_append]
  exact opens_iff.mpr ⟨_, rfl⟩

@[simp] theorem showsInstruction_blockHeader (s : Session) (b : BlockId) :
    showsInstruction (Text.ofString (blockHeader s b)) = false := by
  obtain ⟨r, hr, -⟩ := blockHeader_eq s b
  rw [hr, Text.ofString_append]
  simp [showsInstruction, opens, Text.ofString, List.isPrefixOf]

@[simp] theorem showsDeadEdge_blockHeader (s : Session) (b : BlockId) :
    showsDeadEdge (Text.ofString (blockHeader s b)) = false := by
  obtain ⟨r, hr, -⟩ := blockHeader_eq s b
  rw [hr, Text.ofString_append]
  simp [showsDeadEdge, opens, Text.ofString, List.isPrefixOf]

@[simp] theorem opensBlock_instructionLine (i : LinkedInstruction) :
    opensBlock (Text.ofString (instructionLine i)) = false := by
  rw [instructionLine, Text.ofString_append]
  simp [opensBlock, opens, Text.ofString, List.isPrefixOf]

/-- Behind the blanks there is a digit, so the line is not taken for one about an edge. -/
theorem not_opens_instructionLine (i : LinkedInstruction) :
    opens "    ;" (Text.ofString (instructionLine i)) = false := by
  obtain ⟨r, hr⟩ := line_eq i
  rw [instructionLine, hr]
  cases hdigits : (Text.upperHex 8 i.address).toList with
  | nil => simp [opens, Text.ofString, hdigits, List.isPrefixOf]
  | cons c cs =>
    have hhex : Text.isHex c = true := Text.isHex_of_mem_upperHex (by rw [hdigits]; simp)
    have hne : c ≠ ';' := by
      rintro rfl
      revert hhex
      decide
    simp [opens, Text.ofString, hdigits, List.isPrefixOf, Ne.symm hne]

@[simp] theorem showsInstruction_instructionLine (i : LinkedInstruction) :
    showsInstruction (Text.ofString (instructionLine i)) = true := by
  rw [showsInstruction, not_opens_instructionLine]
  refine Bool.and_eq_true_iff.mpr ⟨opens_iff.mpr ⟨Text.ofString i.line, ?_⟩, rfl⟩
  rw [instructionLine, Text.ofString_append]

@[simp] theorem showsDeadEdge_instructionLine (i : LinkedInstruction) :
    showsDeadEdge (Text.ofString (instructionLine i)) = false := by
  rw [Bool.eq_false_iff]
  intro h
  obtain ⟨r, hr⟩ := opens_iff.mp (Bool.and_eq_true_iff.mp h).1
  have hno := not_opens_instructionLine i
  rw [hr] at hno
  simp [opens, Text.ofString, List.isPrefixOf] at hno

@[simp] theorem opensBlock_edgeLine (g : Graph) (e : Edge) :
    opensBlock (Text.ofString (edgeLine g e)) = false := by
  simp [opensBlock, edgeLine, opens, Text.ofString, List.isPrefixOf]

@[simp] theorem showsInstruction_edgeLine (g : Graph) (e : Edge) :
    showsInstruction (Text.ofString (edgeLine g e)) = false := by
  simp [showsInstruction, edgeLine, opens, Text.ofString, List.isPrefixOf]

@[simp] theorem showsDeadEdge_edgeLine (g : Graph) (e : Edge) :
    showsDeadEdge (Text.ofString (edgeLine g e)) = (e.kind == .dead) := by
  have hopens : opens "    ; -> " (Text.ofString (edgeLine g e)) = true := by
    simp [edgeLine, opens, Text.ofString, List.isPrefixOf]
  rw [showsDeadEdge, hopens, Bool.true_and]
  cases h : e.kind <;>
    simp [edgeLine, closes, Text.ofString, List.isSuffixOf, List.isPrefixOf, h, EdgeKind.name] <;>
    rfl

/-! ## The lines of a block, by what they show -/

/-- The lines of a block as texts. -/
def blockTexts (s : Session) (showDead : Bool) (b : BlockId) : List Text :=
  (blockLines s showDead b).map Text.ofString

theorem blockTexts_eq (s : Session) (showDead : Bool) (b : BlockId) : blockTexts s showDead b =
    Text.ofString (blockHeader s b) ::
      ((s.script.graph.block b).instructions.map fun i => Text.ofString (instructionLine i)) ++
      (shownEdges showDead (s.script.graph.edges b)).map
        fun e => Text.ofString (edgeLine s.script.graph e) := by
  simp [blockTexts, blockLines, instructionLine, Function.comp_def]

theorem blockTexts_opensBlock (s : Session) (showDead : Bool) (b : BlockId) :
    (blockTexts s showDead b).filter opensBlock = [Text.ofString (blockHeader s b)] := by
  simp [blockTexts_eq, List.filter_map, Function.comp_def]

theorem blockTexts_showsInstruction (s : Session) (showDead : Bool) (b : BlockId) :
    (blockTexts s showDead b).filter showsInstruction =
      (s.script.graph.block b).instructions.map fun i => Text.ofString (instructionLine i) := by
  simp [blockTexts_eq, List.filter_map, Function.comp_def]

/-- Without its dead edges a block has the other lines, in their order. -/
theorem blockTexts_hidden (s : Session) (b : BlockId) : blockTexts s false b =
    (blockTexts s true b).filter fun t => !showsDeadEdge t := by
  simp [blockTexts_eq, List.filter_map, Function.comp_def, shownEdges, bne]

theorem mem_blockTexts_showsDeadEdge (h : t ∈ blockTexts s true b) (hd : showsDeadEdge t = true) :
    ∃ e ∈ s.script.graph.edges b, e.kind = .dead ∧ t = Text.ofString (edgeLine s.script.graph e) := by
  rw [blockTexts_eq, List.cons_append, List.mem_cons, List.mem_append] at h
  rcases h with rfl | h | h
  · rw [showsDeadEdge_blockHeader] at hd
    cases hd
  · obtain ⟨i, -, rfl⟩ := List.mem_map.mp h
    rw [showsDeadEdge_instructionLine] at hd
    cases hd
  · obtain ⟨e, he, rfl⟩ := List.mem_map.mp h
    rw [showsDeadEdge_edgeLine] at hd
    exact ⟨e, List.mem_of_mem_filter he, by simpa using hd, rfl⟩

end

end Listing

end ScriptFlow
