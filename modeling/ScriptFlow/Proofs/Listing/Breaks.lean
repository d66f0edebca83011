import ScriptFlow.Proofs.Listing.Sections

/-! # The text of a listing

A text of lines, each with a break behind it, gives the lines back when it is read from break to break.
No line of a listing holds a break: addresses and numbers are digits, and a quoted text has its breaks
escaped. The one exception is the line about the stack analysis, for what failed may have to do with a
routine, and a routine may have any name. -/

namespace ScriptFlow

namespace Text

/-! ## From break to break -/

/-- There is no line break in the text. -/
def Unbroken (t : Text) : Prop := CodePoint.char '\n' ∉ t

theorem split_ne_nil (sep : Char) (t : Text) : split sep t ≠ [] := by
  cases t with
  | nil => simp [split]
  | cons p ps =>
    rw [split]
    split
    · simp
    · split <;> simp

/-- A text is read up to the first place where it is divided, and from there on. -/
theorem split_append (sep : Char) (t u : Text) :
    split sep (t ++ .char sep :: u) = split sep t ++ split sep u := by
  induction t with
  | nil =>
    cases hu : split sep u with
    | nil => exact absurd hu (split_ne_nil sep u)
    | cons part parts => simp [split, hu]
  | cons p t ih =>
    rw [List.cons_append, split, ih, split]
    cases ht : split sep t with
    | nil => exact absurd ht (split_ne_nil sep t)
    | cons part parts =>
      simp only [List.cons_append]
      split <;> rfl

theorem split_of_unbroken {t : Text} (h : Unbroken t) : split '\n' t = [t] := by
  induction t with
  | nil => rfl
  | cons p t ih =>
    obtain ⟨hp, ht⟩ := not_or.mp (List.mem_cons.not.mp h)
    rw [split, ih ht]
    exact if_neg (Ne.symm hp)

theorem split_lines (ls : List Text) :
    split '\n' (ls.flatMap fun line => line ++ "\n") = ls.flatMap (split '\n') ++ [[]] := by
  induction ls with
  | nil => rfl
  | cons line ls ih =>
    rw [List.flatMap_cons, List.append_assoc]
    show split '\n' (line ++ .char '\n' :: ls.flatMap _) = _
    rw [split_append, ih, List.flatMap_cons, List.append_assoc]

/-! ## Texts on one line -/

/-- There is no line break in the string. -/
def OneLine (s : String) : Prop := '\n' ∉ s.toList

instance (s : String) : Decidable (OneLine s) := inferInstanceAs (Decidable (_ ∉ _))

theorem unbroken_ofString {s : String} : Unbroken (ofString s) ↔ OneLine s := by
  simp [Unbroken, OneLine, ofString]

@[simp] theorem oneLine_append {s t : String} : OneLine (s ++ t) ↔ OneLine s ∧ OneLine t := by
  simp [OneLine, not_or]

@[simp] theorem oneLine_ofList {cs : List Char} : OneLine (String.ofList cs) ↔ '\n' ∉ cs := by
  simp [OneLine]

theorem oneLine_ite {c : Prop} [Decidable c] {s t : String} (hs : OneLine s) (ht : OneLine t) :
    OneLine (if c then s else t) := by
  split
  · exact hs
  · exact ht

theorem oneLine_join {ss : List String} (h : ∀ s ∈ ss, OneLine s) : OneLine (String.join ss) := by
  rw [OneLine, String.toList_join, List.mem_flatMap]
  intro hmem
  obtain ⟨s, hs, hbreak⟩ := hmem
  exact h s hs hbreak

theorem oneLine_intercalate {sep : String} (hsep : OneLine sep) {ss : List String}
    (h : ∀ s ∈ ss, OneLine s) : OneLine (sep.intercalate ss) := by
  induction ss with
  | nil => simp [OneLine]
  | cons s ss ih =>
    obtain ⟨hs, hss⟩ := List.forall_mem_cons.mp h
    cases ss with
    | nil => simpa using hs
    | cons t ss =>
      rw [String.intercalate_cons_cons]
      simpa using ⟨⟨hs, hsep⟩, ih hss⟩

theorem digitChar_ne_break : ∀ d < 16, '\n' ≠ Nat.digitChar d := by decide

theorem break_notMem_toDigits {base : Nat} (hbase : 1 < base) (hmost : base ≤ 16) (n : Nat) :
    '\n' ∉ Nat.toDigits base n := by
  induction n using Nat.strongRecOn with
  | _ n ih =>
    by_cases hn : n < base
    · rw [Nat.toDigits_of_lt_base hn, List.mem_singleton]
      exact digitChar_ne_break n (by omega)
    · have hlt : n / base < n := Nat.div_lt_self (by omega) hbase
      have hdigit : n % base < base := Nat.mod_lt _ (by omega)
      rw [Nat.toDigits_of_base_le hbase (by omega), List.mem_append, List.mem_singleton, not_or]
      exact ⟨ih _ hlt, digitChar_ne_break _ (by omega)⟩

@[simp] theorem oneLine_nat (n : Nat) : OneLine (toString n) := by
  rw [Nat.toString_eq_ofList_toDigits, oneLine_ofList]
  exact break_notMem_toDigits (by decide) (by decide) n

@[simp] theorem oneLine_int (n : Int) : OneLine (toString n) := by
  rw [Int.toString_eq_repr, Int.repr_eq_if]
  split
  · exact oneLine_nat _
  · exact oneLine_append.mpr ⟨by decide, oneLine_nat _⟩

theorem break_notMem_padLeft {width : Nat} {cs : List Char} (h : '\n' ∉ cs) :
    '\n' ∉ padLeft width '0' cs := by
  intro hmem
  rcases mem_padLeft hmem with hzero | hmem
  · cases hzero
  · exact h hmem

@[simp] theorem oneLine_upperHex (width : Nat) (a : Int) : OneLine (upperHex width a) := by
  intro hmem
  have hhex := isHex_of_mem_upperHex hmem
  revert hhex
  decide

@[simp] theorem oneLine_lowerHex (width n : Nat) : OneLine (lowerHex width n) :=
  oneLine_ofList.mpr (break_notMem_padLeft (break_notMem_toDigits (by decide) (by decide) n))

@[simp] theorem oneLine_address (a : Int) : OneLine (address a) :=
  oneLine_append.mpr ⟨by decide, oneLine_upperHex 8 a⟩

@[simp] theorem oneLine_addresses (as : List Int) : OneLine (addresses as) := by
  refine oneLine_intercalate (by decide) fun s hs => ?_
  obtain ⟨a, -, rfl⟩ := List.mem_map.mp hs
  exact oneLine_address a

theorem oneLine_padRight {width : Nat} {s : String} (h : OneLine s) : OneLine (padRight width s) := by
  refine oneLine_append.mpr ⟨h, oneLine_ofList.mpr fun hmem => ?_⟩
  cases List.eq_of_mem_replicate hmem

/-! ## Quotes -/

theorem oneLine_codeEscape (n : Nat) : OneLine (codeEscape n) := by
  unfold codeEscape
  split
  · exact oneLine_append.mpr ⟨by decide, oneLine_lowerHex 2 n⟩
  · split
    · exact oneLine_append.mpr ⟨by decide, oneLine_lowerHex 4 n⟩
    · exact oneLine_append.mpr ⟨by decide, oneLine_lowerHex 8 n⟩

theorem oneLine_of_shortEscape? {quote c : Char} {e : String} (hquote : quote ≠ '\n')
    (h : shortEscape? quote c = some e) : OneLine e := by
  unfold shortEscape? at h
  split at h
  · rename_i hself
    cases h
    have hc : '\n' ≠ c := by
      intro hc
      subst hc
      simp [Ne.symm hquote] at hself
    rw [oneLine_ofList, List.mem_cons, List.mem_singleton, not_or]
    exact ⟨by decide, hc⟩
  · split at h
    · cases h
      decide
    · split at h
      · cases h
        decide
      · split at h
        · cases h
          decide
        · cases h

theorem ne_break_of_shortEscape? {quote c : Char} (h : shortEscape? quote c = none) : '\n' ≠ c := by
  intro hc
  subst hc
  unfold shortEscape? at h
  split at h <;> cases h

/-- A break in a quoted text is escaped. -/
theorem oneLine_quotePoint {quote : Char} (hquote : quote ≠ '\n') (p : CodePoint) :
    OneLine (quotePoint quote p) := by
  cases p with
  | half unit => exact oneLine_codeEscape unit
  | char c =>
    show OneLine (quoteChar quote c)
    unfold quoteChar
    split
    · rename_i e hshort
      exact oneLine_of_shortEscape? hquote hshort
    · rename_i hshort
      split
      · rw [OneLine, String.toList_singleton, List.mem_singleton]
        exact ne_break_of_shortEscape? hshort
      · exact oneLine_codeEscape _

theorem quoteFor_ne_break (cs : List Char) : quoteFor cs ≠ '\n' := by
  unfold quoteFor
  split <;> decide

@[simp] theorem oneLine_quoted (t : Text) : OneLine (quoted t) := by
  have hquote := quoteFor_ne_break (t.filterMap CodePoint.char?)
  have hmark : OneLine (String.singleton (quoteFor (t.filterMap CodePoint.char?))) := by
    rw [OneLine, String.toList_singleton, List.mem_singleton]
    exact Ne.symm hquote
  refine oneLine_append.mpr ⟨oneLine_append.mpr ⟨hmark, oneLine_join fun s hs => ?_⟩, hmark⟩
  obtain ⟨p, -, rfl⟩ := List.mem_map.mp hs
  exact oneLine_quotePoint hquote p

end Text

/-! ## Lines -/

open Text (OneLine oneLine_append oneLine_ofList)

namespace Decimal

theorem break_notMem_positional {ds : List Char} (h : '\n' ∉ ds) (place : Int) :
    '\n' ∉ positional ds place := by
  have hzeros : ∀ n, '\n' ∉ List.replicate n '0' := by
    intro n hmem
    cases List.eq_of_mem_replicate hmem
  unfold positional
  split
  · simp [h, hzeros]
  · dsimp only
    split
    · simp [h, hzeros]
    · have htake : '\n' ∉ ds.take place.toNat := fun hmem => h (List.mem_of_mem_take hmem)
      have hdrop : '\n' ∉ ds.drop place.toNat := fun hmem => h (List.mem_of_mem_drop hmem)
      simp [htake, hdrop]

theorem break_notMem_exponential {ds : List Char} (h : '\n' ∉ ds) (width : Nat) (exponent : Int) :
    '\n' ∉ exponential width ds exponent := by
  have hdigits : '\n' ∉ Text.padLeft width '0' (Nat.toDigits 10 exponent.natAbs) :=
    Text.break_notMem_padLeft (Text.break_notMem_toDigits (by decide) (by decide) _)
  have hsign : '\n' ≠ if exponent < 0 then '-' else '+' := by split <;> decide
  unfold exponential
  dsimp only
  rw [List.mem_append, List.mem_cons, List.mem_cons, not_or, not_or, not_or]
  refine ⟨?_, by decide, hsign, hdigits⟩
  split
  · exact h
  · exact h
  · rename_i d rest _
    obtain ⟨hd, hrest⟩ := not_or.mp (List.mem_cons.not.mp h)
    rw [List.mem_cons, List.mem_cons, not_or, not_or]
    exact ⟨hd, by decide, hrest⟩

theorem Layout.oneLine_text (l : Layout) (x : Binary) : OneLine (l.text x) := by
  cases x with
  | nan => exact (by decide : OneLine "nan")
  | infinite negative => exact Text.oneLine_ite (by decide) (by decide)
  | finite negative mantissa exponent =>
    refine oneLine_append.mpr ⟨Text.oneLine_ite (by decide) (by decide), oneLine_ofList.mpr ?_⟩
    split
    · decide
    · have hdigits : '\n' ∉ Nat.toDigits 10 (shortest mantissa exponent).digits :=
        Text.break_notMem_toDigits (by decide) (by decide) _
      unfold Layout.write
      dsimp only
      split
      · exact break_notMem_positional hdigits _
      · exact break_notMem_exponential hdigits _ _

end Decimal

theorem TypeByte.oneLine_suffix (b : Int) : OneLine (suffix b) := by
  have hpair : OneLine ("E" ++ toString (b - enginePair) ++ "E" ++ toString (b - enginePair)) := by
    simp only [oneLine_append, Text.oneLine_int, and_true]
    decide
  refine Text.oneLine_ite (oneLine_append.mpr ⟨by decide, Text.oneLine_int _⟩)
    (Text.oneLine_ite hpair ?_)
  iterate 14 refine Text.oneLine_ite (by decide) ?_
  decide

theorem Constant.oneLine_display (c : Constant) : OneLine c.display := by
  cases c with
  | int value => exact Text.oneLine_int value
  | float bits => exact Decimal.Layout.oneLine_text _ _
  | text value => exact Text.oneLine_quoted value

theorem Instruction.oneLine_mnemonic (i : Instruction) : OneLine i.mnemonic := by
  have hname : OneLine i.opcode.name := by cases i.opcode <;> decide
  unfold mnemonic
  split
  · exact hname
  · exact oneLine_append.mpr ⟨hname, TypeByte.oneLine_suffix _⟩

theorem Instruction.oneLine_line (i : Instruction) (target : Option Int) : OneLine (i.line target) := by
  have hoperands : ∀ s ∈ i.operand.args.map toString ++
      (i.operand.constant?.map Constant.display).toList ++
      (target.map fun a => "-> " ++ Text.address a).toList, OneLine s := by
    intro s hs
    rcases List.mem_append.mp hs with hs | hs
    · rcases List.mem_append.mp hs with hs | hs
      · obtain ⟨n, -, rfl⟩ := List.mem_map.mp hs
        exact Text.oneLine_int n
      · obtain ⟨c, -, rfl⟩ := Option.map_eq_some_iff.mp (Option.mem_toList.mp hs)
        exact c.oneLine_display
    · obtain ⟨a, -, rfl⟩ := Option.map_eq_some_iff.mp (Option.mem_toList.mp hs)
      exact oneLine_append.mpr ⟨by decide, Text.oneLine_address a⟩
  have hhead : OneLine (Text.upperHex 8 i.address ++ ": ") :=
    oneLine_append.mpr ⟨Text.oneLine_upperHex 8 _, by decide⟩
  unfold line
  dsimp only
  split
  · exact oneLine_append.mpr ⟨hhead, i.oneLine_mnemonic⟩
  · have hname : OneLine (Text.padRight 14 i.mnemonic) := Text.oneLine_padRight i.oneLine_mnemonic
    have hfront := oneLine_append.mpr ⟨hhead, hname⟩
    refine oneLine_append.mpr ⟨oneLine_append.mpr ⟨hfront, by decide⟩, ?_⟩
    exact Text.oneLine_intercalate (by decide) hoperands

namespace Listing

section
variable {s : Session} {showDead : Bool} {t : Text}

@[simp] theorem oneLine_edgeLine (g : Graph) (e : Edge) : OneLine (edgeLine g e) := by
  have hname : OneLine e.kind.name := by cases e.kind <;> decide
  simp only [edgeLine, oneLine_append, Text.oneLine_address, hname, and_true]
  decide

theorem oneLine_blockHeader (s : Session) (b : BlockId) : OneLine (blockHeader s b) := by
  unfold blockHeader
  dsimp only
  refine oneLine_append.mpr ⟨oneLine_append.mpr ⟨oneLine_append.mpr ⟨by decide,
    Text.oneLine_address _⟩, Text.oneLine_ite (by decide) ?_⟩, ?_⟩
  · exact oneLine_append.mpr ⟨by decide, Text.oneLine_addresses _⟩
  · split
    · exact oneLine_append.mpr ⟨by decide, Text.oneLine_nat _⟩
    · decide

theorem unbroken_blockTexts {b : BlockId} (h : t ∈ blockTexts s showDead b) : t.Unbroken := by
  rw [blockTexts_eq, List.cons_append, List.mem_cons, List.mem_append] at h
  rcases h with rfl | h | h
  · exact Text.unbroken_ofString.mpr (oneLine_blockHeader s b)
  · obtain ⟨i, -, rfl⟩ := List.mem_map.mp h
    refine Text.unbroken_ofString.mpr (oneLine_append.mpr ⟨by decide, ?_⟩)
    exact Instruction.oneLine_line _ _
  · obtain ⟨e, -, rfl⟩ := List.mem_map.mp h
    exact Text.unbroken_ofString.mpr (oneLine_edgeLine _ e)

theorem oneLine_subroutineHeader (sub : Subroutine) : OneLine (subroutineHeader sub) := by
  have hname : OneLine sub.name := by
    unfold Subroutine.name
    split
    · decide
    · decide
    · decide
    · exact oneLine_append.mpr ⟨by decide, Text.oneLine_upperHex 8 _⟩
    · exact oneLine_append.mpr ⟨by decide, Text.oneLine_upperHex 8 _⟩
  have hkind : OneLine sub.kind.name := by cases sub.kind <;> decide
  unfold subroutineHeader
  refine oneLine_append.mpr ⟨?_, Text.oneLine_ite (by decide) (Text.oneLine_addresses _)⟩
  simp only [oneLine_append, hname, hkind, true_and, and_true]
  decide

theorem unbroken_front {sec : Section} {script : Script} (h : sec ∈ sections script)
    (ht : t ∈ sec.front) : t.Unbroken := by
  simp only [Section.front, List.mem_cons, List.not_mem_nil, or_false] at ht
  rcases ht with rfl | rfl
  · exact Text.unbroken_ofString.mpr (by decide)
  rw [Text.unbroken_ofString]
  rcases List.mem_append.mp h with h | h
  · obtain ⟨sub, -, rfl⟩ := List.mem_map.mp h
    exact oneLine_subroutineHeader sub
  · unfold straySection at h
    split at h
    · cases h
    · rw [List.mem_singleton.mp h]
      show OneLine "; code outside any subroutine"
      decide

theorem oneLine_roleLine (label : String) (hlabel : OneLine label) (sub : Option Subroutine) :
    OneLine (roleLine label sub) := by
  refine oneLine_append.mpr ⟨?_, ?_⟩
  · simp only [oneLine_append, hlabel, and_true]
    decide
  · cases sub with
    | none => exact (by decide : OneLine "-")
    | some sub => exact Text.oneLine_address _

theorem oneLine_summary {script : Script} {line : String} (h : line ∈ summary script) :
    OneLine line := by
  rcases List.mem_append.mp h with h | h
  · simp only [List.mem_cons, List.not_mem_nil, or_false] at h
    rcases h with rfl | rfl | rfl | rfl
    · simp only [oneLine_append, Text.oneLine_nat, and_true]
      decide
    · exact oneLine_roleLine _ (by decide) _
    · exact oneLine_roleLine _ (by decide) _
    · exact oneLine_roleLine _ (by decide) _
  · split at h
    · rw [List.mem_singleton.mp h]
      decide
    · cases h

theorem unbroken_closing (h : t ∈ closing s) : t.Unbroken := by
  obtain ⟨line, hline, rfl⟩ := List.mem_map.mp h
  rw [Text.unbroken_ofString]
  unfold unreachableLines at hline
  split at hline
  · cases hline
  · simp only [List.mem_cons, List.not_mem_nil, or_false] at hline
    rcases hline with rfl | rfl
    · decide
    · exact oneLine_append.mpr ⟨by decide, Text.oneLine_addresses _⟩

/-- A line of a listing holds no break, unless it is the one about the analysis. -/
theorem split_line (h : t ∈ lines s showDead) :
    Text.split '\n' t = [t] ∨ ∃ a, s.analysis = some a ∧ t = analysisLine a := by
  rw [lines_eq, List.mem_append, List.mem_append] at h
  rcases h with (h | h) | h
  · rcases List.mem_append.mp h with h | h
    · obtain ⟨line, hline, rfl⟩ := List.mem_map.mp h
      exact .inl (Text.split_of_unbroken (Text.unbroken_ofString.mpr (oneLine_summary hline)))
    · obtain ⟨a, ha, rfl⟩ := Option.map_eq_some_iff.mp (Option.mem_toList.mp h)
      exact .inr ⟨a, ha, rfl⟩
  · obtain ⟨sec, hsec, ht⟩ := List.mem_flatMap.mp h
    rcases List.mem_append.mp ht with ht | ht
    · exact .inl (Text.split_of_unbroken (unbroken_front hsec ht))
    · obtain ⟨b, -, ht⟩ := List.mem_flatMap.mp ht
      exact .inl (Text.split_of_unbroken (unbroken_blockTexts ht))
  · exact .inl (Text.split_of_unbroken (unbroken_closing h))

end

end Listing

end ScriptFlow
