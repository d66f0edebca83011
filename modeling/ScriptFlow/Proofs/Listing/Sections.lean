import ScriptFlow.Proofs.Listing.Lines
import Mathlib.Data.List.Basic

/-! # The sections of a listing

Between its opening and its closing lines a listing is made of sections, one for each subroutine and
one for code outside of all. Only the lines of the blocks in them are indented, so these are all that
a look for headers, instructions or edges comes upon. Hiding dead edges takes away their lines and no
other. -/

namespace ScriptFlow.Listing

/-- A part of a listing under a title of its own. -/
structure Section where
  owner : Option Int
  title : String
  blocks : List BlockId

namespace Section

/-- The lines that open a section. -/
def front (sec : Section) : List Text := [Text.ofString "", Text.ofString sec.title]

/-- The lines of a section: an empty one, the title, and the lines of its blocks. -/
def lines (s : Session) (showDead : Bool) (sec : Section) : List Text :=
  sec.front ++ sec.blocks.flatMap (blockTexts s showDead)

/-- The instructions of a section in the order it shows them. -/
def code (g : Graph) (sec : Section) : List LinkedInstruction :=
  sec.blocks.flatMap fun b => (g.block b).instructions

end Section

/-- The section of a subroutine. -/
def ofSubroutine (sub : Subroutine) : Section := ⟨some sub.address, subroutineHeader sub, sub.blocks⟩

/-- The section of code that belongs to no subroutine, if there is such code. -/
def straySection (script : Script) : List Section :=
  match orphans script with
  | [] => []
  | bs => [⟨none, "; code outside any subroutine", bs⟩]

/-- The sections of a listing. -/
def sections (script : Script) : List Section :=
  script.subroutines.map ofSubroutine ++ straySection script

/-- The lines in front of the sections. -/
def opening (s : Session) : List Text :=
  (summary s.script).map Text.ofString ++ (s.analysis.map analysisLine).toList

/-- The lines behind the sections. -/
def closing (s : Session) : List Text := (unreachableLines s.script).map Text.ofString

/-- The lines that show the dead edges of a script. -/
def deadLines (s : Session) : List Text :=
  s.script.graph.ids.flatMap fun b =>
    ((s.script.graph.edges b).filter fun e => e.kind == .dead).map
      fun e => Text.ofString (edgeLine s.script.graph e)

section
variable {s : Session} {showDead : Bool} {t : Text}

theorem blocks_straySection (script : Script) :
    (straySection script).flatMap Section.blocks = orphans script := by
  unfold straySection
  cases orphans script <;> simp

theorem lines_eq (s : Session) (showDead : Bool) : lines s showDead =
    opening s ++ (sections s.script).flatMap (Section.lines s showDead) ++ closing s := by
  have texts : ∀ bs : List BlockId, (bs.flatMap (blockLines s showDead)).map Text.ofString =
      bs.flatMap (blockTexts s showDead) := fun bs => List.map_flatMap
  have hsub : ∀ sub, (subroutineLines s showDead sub).map Text.ofString =
      (ofSubroutine sub).lines s showDead := by
    intro sub
    rw [subroutineLines, List.map_cons, List.map_cons, texts]
    rfl
  have hstray : (orphanLines s showDead).map Text.ofString =
      (straySection s.script).flatMap (Section.lines s showDead) := by
    unfold orphanLines straySection
    cases orphans s.script with
    | nil => rfl
    | cons b bs =>
      dsimp only
      rw [List.map_cons, List.map_cons, texts, List.flatMap_singleton]
      rfl
  simp only [lines, codeLines, opening, closing, sections, List.map_append, List.flatMap_append,
    List.map_flatMap, hsub, hstray, List.flatMap_map, List.append_assoc]

/-! ## Lines that are about no block -/

theorem not_indented_opening (h : t ∈ opening s) : indented t = false := by
  have hsemicolon : ∀ rest : Text, indented (Text.ofString "; " ++ rest) = false := by
    intro rest
    simp [indented, opens, Text.ofString, List.isPrefixOf]
  rcases List.mem_append.mp h with h | h
  · obtain ⟨line, hline, rfl⟩ := List.mem_map.mp h
    rcases List.mem_append.mp hline with hline | hline
    · simp only [List.mem_cons, List.not_mem_nil, or_false] at hline
      rcases hline with rfl | rfl | rfl | rfl <;>
        simp [roleLine, indented, opens, Text.ofString, List.isPrefixOf]
    · split at hline
      · rw [List.mem_singleton.mp hline]
        decide +kernel
      · cases hline
  · obtain ⟨a, -, rfl⟩ := Option.map_eq_some_iff.mp (Option.mem_toList.mp h)
    simp [analysisLine, indented, opens, Text.ofString, List.isPrefixOf]

theorem not_indented_closing (h : t ∈ closing s) : indented t = false := by
  obtain ⟨line, hline, rfl⟩ := List.mem_map.mp h
  unfold unreachableLines at hline
  split at hline
  · cases hline
  · simp only [List.mem_cons, List.not_mem_nil, or_false] at hline
    rcases hline with rfl | rfl <;> simp [indented, opens, Text.ofString, List.isPrefixOf]

theorem not_indented_front {sec : Section} {script : Script} (h : sec ∈ sections script)
    (ht : t ∈ sec.front) : indented t = false := by
  simp only [Section.front, List.mem_cons, List.not_mem_nil, or_false] at ht
  rcases ht with rfl | rfl
  · decide +kernel
  rcases List.mem_append.mp h with h | h
  · obtain ⟨sub, -, rfl⟩ := List.mem_map.mp h
    cases hkind : sub.kind <;>
      simp [ofSubroutine, subroutineHeader, Subroutine.name, hkind, indented, opens, Text.ofString,
        List.isPrefixOf]
  · unfold straySection at h
    split at h
    · cases h
    · rw [List.mem_singleton.mp h]
      simp [indented, opens, Text.ofString, List.isPrefixOf]

theorem filter_eq_nil {P : Text → Bool} {ts : List Text}
    (hP : ∀ t, P t = true → indented t = true) (hts : ∀ t ∈ ts, indented t = false) :
    ts.filter P = [] := by
  refine List.filter_eq_nil_iff.mpr fun t ht hp => ?_
  have hflat := hts t ht
  rw [hP t hp] at hflat
  cases hflat

/-- A line of a section that is indented is a line of one of its blocks. -/
theorem filter_sectionLines {P : Text → Bool} (hP : ∀ t, P t = true → indented t = true)
    {sec : Section} (hsec : sec ∈ sections s.script) (showDead : Bool) :
    (sec.lines s showDead).filter P =
      sec.blocks.flatMap fun b => (blockTexts s showDead b).filter P := by
  rw [Section.lines, List.filter_append, filter_eq_nil hP fun t ht => not_indented_front hsec ht,
    List.nil_append, List.filter_flatMap]

theorem filter_lines {P : Text → Bool} (hP : ∀ t, P t = true → indented t = true) (s : Session)
    (showDead : Bool) : (lines s showDead).filter P =
      ((sections s.script).flatMap Section.blocks).flatMap
        fun b => (blockTexts s showDead b).filter P := by
  rw [lines_eq, List.filter_append, List.filter_append,
    filter_eq_nil hP fun t ht => not_indented_opening ht,
    filter_eq_nil hP fun t ht => not_indented_closing ht, List.nil_append, List.append_nil,
    List.filter_flatMap, List.flatMap_assoc]
  exact List.flatMap_congr fun sec hsec => filter_sectionLines hP hsec showDead

/-! ## Hiding dead edges -/

theorem not_showsDeadEdge (h : indented t = false) : showsDeadEdge t = false := by
  rw [Bool.eq_false_iff]
  intro hd
  rw [indented_of_showsDeadEdge hd] at h
  cases h

theorem lines_hidden (s : Session) :
    lines s false = (lines s true).filter fun t => !showsDeadEdge t := by
  have hkeep : ∀ ts : List Text, (∀ t ∈ ts, indented t = false) →
      (ts.filter fun t => !showsDeadEdge t) = ts := by
    intro ts hts
    refine List.filter_eq_self.mpr fun t ht => ?_
    rw [not_showsDeadEdge (hts t ht)]
    rfl
  rw [lines_eq, lines_eq, List.filter_append, List.filter_append,
    hkeep _ fun t ht => not_indented_opening ht, hkeep _ fun t ht => not_indented_closing ht,
    List.filter_flatMap]
  congr 2
  refine List.flatMap_congr fun sec hsec => ?_
  rw [Section.lines, Section.lines, List.filter_append,
    hkeep _ fun t ht => not_indented_front hsec ht, List.filter_flatMap]
  congr 1
  exact List.flatMap_congr fun b _ => blockTexts_hidden s b

/-- Of the lines of a listing those with the marks of a dead edge are those that show one. -/
theorem showsDeadEdge_iff (hblocks : ∀ b ∈ (sections s.script).flatMap Section.blocks,
    b < s.script.graph.size) (ht : t ∈ lines s true) :
    showsDeadEdge t = (deadLines s).contains t := by
  rw [Bool.eq_iff_iff, List.contains_iff_mem]
  constructor
  · intro hd
    have hmem : t ∈ (lines s true).filter showsDeadEdge := List.mem_filter.mpr ⟨ht, hd⟩
    rw [filter_lines (fun _ => indented_of_showsDeadEdge)] at hmem
    obtain ⟨b, hb, hmem⟩ := List.mem_flatMap.mp hmem
    obtain ⟨e, he, hdead, rfl⟩ := mem_blockTexts_showsDeadEdge (List.mem_filter.mp hmem).1 hd
    refine List.mem_flatMap.mpr ⟨b, List.mem_range.mpr (hblocks b hb), ?_⟩
    exact List.mem_map.mpr ⟨e, List.mem_filter.mpr ⟨he, by simp [hdead]⟩, rfl⟩
  · intro hmem
    obtain ⟨b, -, hmem⟩ := List.mem_flatMap.mp hmem
    obtain ⟨e, he, rfl⟩ := List.mem_map.mp hmem
    rw [showsDeadEdge_edgeLine]
    exact (List.mem_filter.mp he).2

end

end ScriptFlow.Listing
