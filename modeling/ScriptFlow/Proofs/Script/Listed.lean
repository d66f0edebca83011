import ScriptFlow.Proofs.Listing.Breaks
import ScriptFlow.Proofs.Script.Ownership

/-! # A listing shows everything once

The blocks of a loaded script are shared out among the sections of its listing by owner, and its
instructions among its blocks. So every block and every instruction has one line, in the section of
its owner and in address order, whatever is known of the stack. The text of the listing is these lines,
each with a line break. -/

namespace ScriptFlow.Listing

/-- What the listing of a script shows. -/
structure ShowsAll (s : Session) : Prop where
  layout : ∀ showDead, lines s showDead =
    opening s ++ (sections s.script).flatMap (Section.lines s showDead) ++ closing s
  /-- Every block has one header, and there are no others. -/
  header : ∀ showDead, ∀ b < s.script.graph.size,
    (lines s showDead).count (Text.ofString (blockHeader s b)) = 1
  headers : ∀ showDead, (lines s showDead).countP opensBlock = s.script.graph.size
  /-- Every instruction has one line, and there are no others. -/
  instruction : ∀ showDead, ∀ i ∈ s.script.code,
    (lines s showDead).count (Text.ofString (instructionLine i)) = 1
  instructions : ∀ showDead, (lines s showDead).countP showsInstruction = s.script.code.length
  /-- The lines of a block stand together in the section of its owner. -/
  home : ∀ b < s.script.graph.size, ∃ sec ∈ sections s.script,
    sec.owner = (s.script.graph.block b).owner ∧
      ∀ showDead, blockTexts s showDead b <:+: sec.lines s showDead
  /-- The line of an instruction is among those of its block. -/
  placed : ∀ i ∈ s.script.code, ∃ b < s.script.graph.size,
    i ∈ (s.script.graph.block b).instructions ∧
      ∀ showDead, Text.ofString (instructionLine i) ∈ blockTexts s showDead b
  /-- Headers and instructions of a section stand in address order. -/
  ordered : ∀ sec ∈ sections s.script, ∀ showDead,
    (sec.lines s showDead).filter opensBlock =
      sec.blocks.map (fun b => Text.ofString (blockHeader s b)) ∧
    sec.blocks.Pairwise (fun b c => s.script.graph.addressOf b < s.script.graph.addressOf c) ∧
    (sec.lines s showDead).filter showsInstruction =
      (sec.code s.script.graph).map (fun i => Text.ofString (instructionLine i)) ∧
    (sec.code s.script.graph).Pairwise fun i j => i.address < j.address
  /-- Hiding dead edges takes away their lines and no other. -/
  hidden : lines s false = (lines s true).filter fun t => !(deadLines s).contains t
  /-- The text is the lines, each with a break behind it, -/
  text : ∀ showDead, Text.split '\n' (render s showDead) =
    (lines s showDead).flatMap (Text.split '\n') ++ [[]]
  /-- and no line but the one about the analysis can hold a break of its own. -/
  line : ∀ showDead, ∀ t ∈ lines s showDead,
    Text.split '\n' t = [t] ∨ ∃ a, s.analysis = some a ∧ t = analysisLine a

end ScriptFlow.Listing

namespace ScriptFlow.Script

namespace Ownership
variable {s : Script} {sub : Subroutine} {b : BlockId}

theorem mem_blocks (h : s.Ownership) (hsub : sub ∈ s.subroutines) :
    b ∈ sub.blocks ↔ b < s.graph.size ∧ (s.graph.block b).owner = some sub.address := by
  rw [← List.count_pos_iff, h.members sub hsub b]
  split <;> simp_all

theorem nodup_blocks (h : s.Ownership) (hsub : sub ∈ s.subroutines) : sub.blocks.Nodup := by
  rw [List.nodup_iff_count_le_one]
  intro b
  rw [h.members sub hsub b]
  split <;> omega

theorem mem_orphans : b ∈ Listing.orphans s ↔ b < s.graph.size ∧ (s.graph.block b).owner = none := by
  simp [Listing.orphans, blocks, Graph.byAddress, Flow.mem_sortBy, Graph.ids]

theorem blocks_sections : (Listing.sections s).flatMap Listing.Section.blocks =
    s.subroutines.flatMap Subroutine.blocks ++ Listing.orphans s := by
  rw [Listing.sections, List.flatMap_append, Listing.blocks_straySection, List.flatMap_map]
  rfl

/-- Every block is in one section. -/
theorem sections_perm (h : s.Ownership) :
    ((Listing.sections s).flatMap Listing.Section.blocks).Perm s.graph.ids := by
  have horphans : (Listing.orphans s).Nodup :=
    ((Order.perm_sortBy _ _).nodup_iff.mpr List.nodup_range).filter _
  have hids : s.graph.ids.Nodup := List.nodup_range
  rw [blocks_sections, List.perm_ext_iff_of_nodup _ hids]
  · intro b
    simp only [List.mem_append, List.mem_flatMap, mem_orphans, Graph.ids, List.mem_range]
    constructor
    · intro hb
      rcases hb with ⟨sub, hsub, hb⟩ | hb
      · exact ((h.mem_blocks hsub).mp hb).1
      · exact hb.1
    · intro hb
      cases ha : (s.graph.block b).owner with
      | none => exact .inr ⟨hb, rfl⟩
      | some a =>
        obtain ⟨sub, hsub, rfl⟩ := h.owners b hb a ha
        exact .inl ⟨sub, hsub, (h.mem_blocks hsub).mpr ⟨hb, ha⟩⟩
  · rw [List.nodup_append]
    refine ⟨List.nodup_flatMap.mpr ⟨fun sub hsub => h.nodup_blocks hsub, ?_⟩, horphans, ?_⟩
    · refine h.ordered.imp_of_mem fun hx hy hxy b hbx hby => ?_
      have hown := ((h.mem_blocks hx).mp hbx).2
      rw [((h.mem_blocks hy).mp hby).2, Option.some.injEq] at hown
      omega
    · intro b hb c hc hbc
      obtain ⟨sub, hsub, hb⟩ := List.mem_flatMap.mp hb
      have hown := ((h.mem_blocks hsub).mp hb).2
      rw [hbc, (mem_orphans.mp hc).2] at hown
      cases hown

theorem owner_of_mem_section (h : s.Ownership) : ∀ sec ∈ Listing.sections s, ∀ b ∈ sec.blocks,
    (s.graph.block b).owner = sec.owner := by
  intro sec hsec b hb
  rcases List.mem_append.mp hsec with hsec | hsec
  · obtain ⟨sub, hsub, rfl⟩ := List.mem_map.mp hsec
    exact ((h.mem_blocks hsub).mp hb).2
  · unfold Listing.straySection at hsec
    split at hsec
    · cases hsec
    · rw [List.mem_singleton.mp hsec] at hb ⊢
      exact (mem_orphans.mp hb).2

theorem lt_of_mem_section (h : s.Ownership) {sec : Listing.Section} (hsec : sec ∈ Listing.sections s) :
    ∀ b ∈ sec.blocks, b < s.graph.size := by
  intro b hb
  exact List.mem_range.mp (h.sections_perm.mem_iff.mp (List.mem_flatMap.mpr ⟨sec, hsec, hb⟩))

end Ownership

/-- How blocks and instructions of a script are arranged for its listing. -/
structure Arranged (s : Script) : Prop where
  blocks : ((Listing.sections s).flatMap Listing.Section.blocks).Perm s.graph.ids
  code : (s.graph.ids.flatMap fun b => (s.graph.block b).instructions).Perm s.code
  distinct : ∀ {b c}, b < s.graph.size → c < s.graph.size →
    s.graph.addressOf b = s.graph.addressOf c → b = c
  addresses : (s.code.map fun i => i.address).Nodup
  blocks_ordered : ∀ sec ∈ Listing.sections s,
    sec.blocks.Pairwise fun b c => s.graph.addressOf b < s.graph.addressOf c
  code_ordered : ∀ sec ∈ Listing.sections s,
    (sec.code s.graph).Pairwise fun i j => i.address < j.address
  owner : ∀ sec ∈ Listing.sections s, ∀ b ∈ sec.blocks, (s.graph.block b).owner = sec.owner

namespace Laid
variable {s : Script} {l : Flow.Layout} {d : Flow.Discovery} {b c : BlockId}
variable {i j : LinkedInstruction}

/-- A block's instructions are code from its start up to the start behind it. -/
theorem exists_cut (h : s.Laid l d) (hb : b < s.graph.size) : ∃ st ∈ d.starts,
    (s.graph.block b).instructions = Flow.cut l.code d.starts st.position ∧
      ∃ i, l.code[st.position]? = some i ∧ s.graph.addressOf b = i.address := by
  have hframe := h.sameFrame
  obtain ⟨st, hst⟩ := Flow.exists_start (hframe.size ▸ hb)
  obtain ⟨i, hi, -⟩ := h.complete.start_leaderAt hst
  refine ⟨st, List.mem_of_getElem? hst, ?_, i, hi, ?_⟩
  · rw [hframe.instructions, Flow.assemble_instructions hst]
  · rw [Graph.addressOf, hframe.address]
    exact Flow.assemble_addressOf hst hi

theorem pairwise_instructions (h : s.Laid l d) (hb : b < s.graph.size) :
    (s.graph.block b).instructions.Pairwise fun i j => i.address < j.address := by
  obtain ⟨st, -, hcut, -⟩ := h.exists_cut hb
  rw [hcut]
  exact h.sound.linked.ordered.sublist ((List.take_sublist _ _).trans (List.drop_sublist _ _))

/-- Blocks do not interleave. -/
theorem address_lt (h : s.Laid l d) (hb : b < s.graph.size) (hc : c < s.graph.size)
    (hbc : s.graph.addressOf b < s.graph.addressOf c) (hi : i ∈ (s.graph.block b).instructions)
    (hj : j ∈ (s.graph.block c).instructions) : i.address < j.address := by
  obtain ⟨st, -, hcut, x, hx, hbx⟩ := h.exists_cut hb
  obtain ⟨tt, htt, hcut', y, hy, hcy⟩ := h.exists_cut hc
  rw [hcut] at hi
  rw [hcut'] at hj
  obtain ⟨p, -, hp, hpi⟩ := Flow.mem_cut.mp hi
  obtain ⟨q, hq, -, hqj⟩ := Flow.mem_cut.mp hj
  have mono : ∀ {p q : Nat} {i j : LinkedInstruction}, l.code[p]? = some i → l.code[q]? = some j →
      (p < q → i.address < j.address) := by
    intro p q i j hp hq hpq
    obtain ⟨hp', rfl⟩ := List.getElem?_eq_some_iff.mp hp
    obtain ⟨hq', rfl⟩ := List.getElem?_eq_some_iff.mp hq
    exact List.pairwise_iff_getElem.mp h.sound.linked.ordered p q hp' hq' hpq
  have hstarts : st.position < tt.position := by
    rcases Nat.lt_trichotomy st.position tt.position with hlt | heq | hgt
    · exact hlt
    · rw [heq, hy] at hx
      cases hx
      omega
    · have := mono hy hx hgt
      omega
  have hpt := (Flow.lt_nextStart_iff.mp hp).2 tt htt hstarts
  exact mono hpi hqj (by omega)

theorem mem_block (h : s.Laid l d) (hi : i ∈ s.code) :
    ∃ b < s.graph.size, i ∈ (s.graph.block b).instructions ∧
      ∀ c < s.graph.size, i ∈ (s.graph.block c).instructions → c = b := by
  have hframe := h.sameFrame
  rw [h.code] at hi
  obtain ⟨b, hb, -, hmem, honly⟩ := (h.complete.leaderPartition h.sound).home i hi
  refine ⟨b, hframe.size ▸ hb, by rwa [hframe.instructions], fun c hc hmem' => ?_⟩
  exact honly c (hframe.size ▸ hc) (by rwa [hframe.instructions] at hmem')

/-- The blocks together hold the code. -/
theorem instructions_perm (h : s.Laid l d) :
    (s.graph.ids.flatMap fun b => (s.graph.block b).instructions).Perm s.code := by
  have hcode : s.code.Nodup := by
    rw [h.code]
    exact h.sound.linked.ordered.imp fun hij heq => by rw [heq] at hij; omega
  rw [List.perm_ext_iff_of_nodup _ hcode]
  · intro i
    rw [List.mem_flatMap]
    constructor
    · intro hmem
      obtain ⟨b, -, hi⟩ := hmem
      rw [h.code]
      exact h.mem_code hi
    · intro hi
      obtain ⟨b, hb, hmem, -⟩ := h.mem_block hi
      exact ⟨b, List.mem_range.mpr hb, hmem⟩
  · refine List.nodup_flatMap.mpr ⟨fun b hb => ?_, ?_⟩
    · refine (h.pairwise_instructions (List.mem_range.mp hb)).imp fun hij heq => ?_
      rw [heq] at hij
      omega
    · refine List.Pairwise.imp_of_mem (fun hb hc hbc i hi hj => hbc ?_)
        (List.nodup_range (n := s.graph.size))
      obtain ⟨b', -, -, honly⟩ := h.mem_block (i := i) (by rw [h.code]; exact h.mem_code hi)
      rw [honly _ (List.mem_range.mp hb) hi, honly _ (List.mem_range.mp hc) hj]

/-- Sorted blocks of a script have increasing addresses. -/
theorem byAddress_strict (h : s.Laid l d) {bs : List BlockId} (hbs : ∀ b ∈ bs, b < s.graph.size)
    (hnd : bs.Nodup) :
    (s.graph.byAddress bs).Pairwise fun b c => s.graph.addressOf b < s.graph.addressOf c :=
  Order.sortBy_strict (hnd.map_on fun b hb c hc hbc => h.distinct (hbs b hb) (hbs c hc) hbc)

theorem section_ordered (h : s.Laid l d) {sec : Listing.Section} (hsec : sec ∈ Listing.sections s) :
    sec.blocks.Pairwise fun b c => s.graph.addressOf b < s.graph.addressOf c := by
  rcases List.mem_append.mp hsec with hsec | hsec
  · obtain ⟨sub, hsub, rfl⟩ := List.mem_map.mp hsec
    show sub.blocks.Pairwise _
    rw [h.blocks_eq hsub]
    exact h.byAddress_strict (fun b hb => (mem_ownedBy.mp hb).1) (nodup_ownedBy _ _)
  · unfold Listing.straySection at hsec
    split at hsec
    · cases hsec
    · rw [List.mem_singleton.mp hsec]
      exact (h.byAddress_strict (fun b hb => List.mem_range.mp hb) List.nodup_range).filter _

theorem arranged (h : s.Laid l d) : s.Arranged where
  blocks := h.ownership.sections_perm
  code := h.instructions_perm
  distinct := fun hb hc => h.distinct hb hc
  addresses := by
    rw [h.code]
    exact List.pairwise_map.mpr (h.sound.linked.ordered.imp fun hij => Int.ne_of_lt hij)
  blocks_ordered sec hsec := h.section_ordered hsec
  code_ordered sec hsec := by
    have hlt := h.ownership.lt_of_mem_section hsec
    refine List.pairwise_flatMap.mpr ⟨fun b hb => h.pairwise_instructions (hlt b hb), ?_⟩
    refine (h.section_ordered hsec).imp_of_mem fun hb hc hbc i hi j hj => ?_
    exact h.address_lt (hlt _ hb) (hlt _ hc) hbc hi hj
  owner := h.ownership.owner_of_mem_section

end Laid

theorem arranged_of_empty {s : Script} (hsize : s.graph.size = 0) (hsubs : s.subroutines = [])
    (hcode : s.code = []) : s.Arranged := by
  have hids : s.graph.ids = [] := by simp [Graph.ids, hsize]
  have hsections : Listing.sections s = [] := by
    simp [Listing.sections, Listing.straySection, Listing.orphans, blocks, Graph.byAddress,
      Order.sortBy, hids, hsubs]
  constructor <;> simp [hsections, hids, hcode, hsize]

theorem load_arranged {image : List UInt8} {events : List Event} {s : Script}
    (h : load image = (events, .ok s)) : s.Arranged := by
  rcases load_laid h with ⟨hsize, hsubs, hcode⟩ | ⟨l, d, hlaid⟩
  · exact arranged_of_empty hsize hsubs hcode
  · exact hlaid.arranged

end ScriptFlow.Script

namespace ScriptFlow.Listing

/-- A text among those of one shape, told from each other by what they show, occurs once. -/
theorem count_eq_one {α : Type} {P : Text → Bool} {ts : List Text} {xs : List α} {f : α → Text}
    {x : α} (hperm : (ts.filter P).Perm (xs.map f)) (hnd : (xs.map f).Nodup) (hP : P (f x) = true)
    (hx : x ∈ xs) : ts.count (f x) = 1 := by
  rw [← List.count_filter hP, hperm.count_eq]
  exact List.count_eq_one_of_mem hnd (List.mem_map_of_mem hx)

section
variable {s : Session}

theorem headers_eq (bs : List BlockId) (showDead : Bool) :
    (bs.flatMap fun b => (blockTexts s showDead b).filter opensBlock) =
      bs.map fun b => Text.ofString (blockHeader s b) := by
  simp only [blockTexts_opensBlock]
  exact List.map_eq_flatMap.symm

theorem instructions_eq (bs : List BlockId) (showDead : Bool) :
    (bs.flatMap fun b => (blockTexts s showDead b).filter showsInstruction) =
      (bs.flatMap fun b => (s.script.graph.block b).instructions).map
        fun i => Text.ofString (instructionLine i) := by
  simp only [blockTexts_showsInstruction, List.map_flatMap]

variable (h : s.script.Arranged)
include h

theorem headers_perm (showDead : Bool) : ((lines s showDead).filter opensBlock).Perm
    (s.script.graph.ids.map fun b => Text.ofString (blockHeader s b)) := by
  rw [filter_lines fun _ => indented_of_opensBlock, headers_eq]
  exact h.blocks.map _

theorem instructions_perm (showDead : Bool) : ((lines s showDead).filter showsInstruction).Perm
    (s.script.code.map fun i => Text.ofString (instructionLine i)) := by
  rw [filter_lines fun _ => indented_of_showsInstruction, instructions_eq]
  exact ((h.blocks.flatMap_right _).trans h.code).map _

theorem nodup_headers :
    (s.script.graph.ids.map fun b => Text.ofString (blockHeader s b)).Nodup := by
  refine List.Nodup.map_on (fun b hb c hc hbc => ?_) List.nodup_range
  exact h.distinct (List.mem_range.mp hb) (List.mem_range.mp hc)
    (addressOf_eq_of_blockHeader (Text.ofString_injective hbc))

theorem nodup_instructionLines :
    (s.script.code.map fun i => Text.ofString (instructionLine i)).Nodup := by
  have hcode := List.pairwise_map.mp h.addresses
  refine List.pairwise_map.mpr (hcode.imp fun hne heq => hne ?_)
  exact address_eq_of_instructionLine (Text.ofString_injective heq)

theorem showsAll : ShowsAll s where
  layout := lines_eq s
  header showDead b hb :=
    count_eq_one (f := fun b => Text.ofString (blockHeader s b)) (headers_perm h showDead)
      (nodup_headers h) (opensBlock_blockHeader s b) (List.mem_range.mpr hb)
  headers showDead := by
    rw [List.countP_eq_length_filter, (headers_perm h showDead).length_eq, List.length_map]
    exact List.length_range
  instruction showDead i hi :=
    count_eq_one (f := fun i => Text.ofString (instructionLine i)) (instructions_perm h showDead)
      (nodup_instructionLines h) (showsInstruction_instructionLine i) hi
  instructions showDead := by
    rw [List.countP_eq_length_filter, (instructions_perm h showDead).length_eq, List.length_map]
  home b hb := by
    obtain ⟨sec, hsec, hmem⟩ := List.mem_flatMap.mp (h.blocks.mem_iff.mpr (List.mem_range.mpr hb))
    refine ⟨sec, hsec, (h.owner sec hsec b hmem).symm, fun showDead => ?_⟩
    exact (List.infix_of_mem_flatten (List.mem_map_of_mem hmem)).trans
      (List.suffix_append _ _).isInfix
  placed i hi := by
    obtain ⟨b, hb, hmem⟩ := List.mem_flatMap.mp (h.code.mem_iff.mpr hi)
    refine ⟨b, List.mem_range.mp hb, hmem, fun showDead => ?_⟩
    rw [blockTexts_eq]
    exact List.mem_append_left _ (List.mem_cons_of_mem _ (List.mem_map_of_mem hmem))
  ordered sec hsec showDead := by
    refine ⟨?_, h.blocks_ordered sec hsec, ?_, h.code_ordered sec hsec⟩
    · rw [filter_sectionLines (fun _ => indented_of_opensBlock) hsec, headers_eq]
    · rw [filter_sectionLines (fun _ => indented_of_showsInstruction) hsec, instructions_eq]
      rfl
  hidden := by
    rw [lines_hidden]
    refine List.filter_congr fun t ht => ?_
    rw [showsDeadEdge_iff _ ht]
    intro b hb
    exact List.mem_range.mp (h.blocks.mem_iff.mp hb)
  text showDead := Text.split_lines _
  line showDead _ ht := split_line ht

end

/-- The listing of a loaded script shows all of it once, with or without an analysis of the stack. -/
theorem load_listed_once {image : List UInt8} {events : List Event} {script : Script}
    (h : Script.load image = (events, .ok script)) (analysis : Option Stack.Analysis) :
    ShowsAll ⟨script, analysis⟩ :=
  showsAll (Script.load_arranged h)

/-- A branch on a constant: one of its arms is dead. -/
def deadArm : List UInt8 :=
  Script.magic ++ [Script.marker, 0, 0, 0, 29] ++ [0x04, 3, 0, 0, 0, 0] ++ [0x1F, 0, 0, 0, 0, 8] ++
    [0x20, 0] ++ [0x20, 0]

/-- Three blocks, and one line less without the dead arm. -/
theorem deadArm_listed_once : ∃ events script, Script.load deadArm = (events, .ok script) ∧
    (∀ analysis, ShowsAll ⟨script, analysis⟩) ∧ script.graph.size = 3 ∧
    (lines ⟨script, none⟩ false).length + 1 = (lines ⟨script, none⟩ true).length := by
  have hcheck : (match Script.load deadArm with
    | (_, .ok s) => decide (s.graph.size = 3) &&
        decide ((lines ⟨s, none⟩ false).length + 1 = (lines ⟨s, none⟩ true).length)
    | _ => false) = true := by
    decide +kernel
  split at hcheck
  · rename_i events script hload
    simp only [Bool.and_eq_true, decide_eq_true_eq] at hcheck
    exact ⟨events, script, hload, fun analysis => load_listed_once hload analysis, hcheck⟩
  · cases hcheck

end ScriptFlow.Listing
