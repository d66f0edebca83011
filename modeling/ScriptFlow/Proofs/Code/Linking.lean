import ScriptFlow.Proofs.Code.Linkable
import ScriptFlow.Proofs.Code.Tags
import ScriptFlow.Proofs.Instruction.Decode

/-! # Linking against its specification

What the links of an instruction are can be told from the list of instructions alone, without the order
in which they are found: the follower stands next in the list, the branch leads where address and first
argument point, and the tag is the strongest that any branch to the instruction asks for. Linking fails
exactly if the list does not say what a link is, and then at the first instruction of which it does
not. -/

namespace ScriptFlow

/-- The first argument of the instruction leads from its own address to the given one. -/
def Instruction.Points (i : Instruction) (a : Int) : Prop :=
  ∃ d, i.operand.args.head? = some d ∧ i.address + d = a

/-- The opcodes whose targets bear a tag, or a stronger one. -/
def Tag.opcodes : Tag → List Opcode
  | .plain => []
  | .label => [.jmp, .jz, .jnz]
  | .state => [.storestate]
  | .subroutine => [.jsr]

namespace Code

/-- A branch of the code to the address asks for the tag. -/
def Asked (code : List LinkedInstruction) (t : Tag) (a : Int) : Prop :=
  ∃ i ∈ code, i.opcode ∈ t.opcodes ∧ i.target = some a

instance (code : List LinkedInstruction) (t : Tag) (a : Int) : Decidable (Asked code t a) :=
  inferInstanceAs (Decidable (∃ i ∈ code, i.opcode ∈ t.opcodes ∧ i.target = some a))

/-- The strongest tag that branches to the address ask for, wherever in the code they stand. -/
def strongestTag (code : List LinkedInstruction) (a : Int) : Tag :=
  if Asked code .subroutine a then .subroutine
  else if Asked code .state a then .state
  else if Asked code .label a then .label
  else .plain

/-- The code is made of the instructions, each with its links. -/
structure Resolved (is : List Instruction) (code : List LinkedInstruction) : Prop where
  kept : code.map LinkedInstruction.toInstruction = is
  follower : ∀ p i, code[p]? = some i → i.follower =
    if i.opcode = .jmp ∨ i.opcode = .retn then none else is[p + 1]?.map Instruction.address
  branch : ∀ i ∈ code, i.opcode.branches →
    ∃ j ∈ is, i.Points j.address ∧ i.target = some j.address
  straight : ∀ i ∈ code, ¬ i.opcode.branches → i.target = none
  tag : ∀ i ∈ code, i.tag = strongestTag code i.address

/-- The instruction at the position needs the one stored next, and there is none. -/
def Unfollowed (is : List Instruction) (p : Nat) : Prop :=
  ∃ i, is[p]? = some i ∧ i.opcode ∈ [Opcode.jz, .jnz, .jsr, .storestate] ∧ is[p + 1]? = none

/-- The instruction at the position branches to where none is stored. -/
def Astray (is : List Instruction) (p : Nat) : Prop :=
  ∃ i, is[p]? = some i ∧ i.opcode.branches ∧ ∀ j ∈ is, ¬ i.Points j.address

/-- The error is that of the first instruction which cannot be linked; if it has no follower, this is
told and not where it branches to. -/
def Complains (is : List Instruction) (e : ScriptError) : Prop :=
  ∃ p i, is[p]? = some i ∧ (∀ q < p, ¬ Unfollowed is q ∧ ¬ Astray is q) ∧
    e.address? = some i.address ∧
    (Unfollowed is p ∧ e = .noFollower i.address i.mnemonic ∨
      ¬ Unfollowed is p ∧ Astray is p ∧
        ∃ a, i.Points a ∧ e = .badDestination i.address i.mnemonic a)

/-! ## Instructions as they are stored -/

section
variable {is : List Instruction} {store code : Code} {i : Instruction}

theorem toList_of_foldlM (h : is.foldlM append code = .ok store) :
    store.toList = code.toList ++ is := by
  induction is generalizing code with
  | nil =>
    cases h
    simp
  | cons i is ih =>
    simp only [List.foldlM_cons, bind, Except.bind] at h
    split at h
    · cases h
    · rename_i next hnext
      rw [ih h, (append_ok hnext).1, List.append_assoc]
      rfl

theorem toList_of_ofList (h : ofList is = .ok store) : store.toList = is :=
  toList_of_foldlM h

theorem shape_of_branches {op : Opcode} {type : Nat} {shape : Shape} (hb : op.branches)
    (h : Shape.of? op type = some shape) : shape = .offset ∨ shape = .resume := by
  unfold Opcode.branches at hb
  simp only [List.mem_cons, List.not_mem_nil, or_false] at hb
  rcases hb with rfl | rfl | rfl | rfl | rfl <;> cases h <;> simp

/-- An instruction that was read and branches has an argument to tell where. -/
theorem points_iff (hi : i.WellFormed) (hb : i.opcode.branches) {a : Int} :
    i.Points a ↔ destination i = a := by
  obtain ⟨shape, hshape, hfits⟩ := hi.operand
  have hhead : ∃ d, i.operand.args.head? = some d := by
    rcases shape_of_branches hb hshape with rfl | rfl
    all_goals
      cases hoperand : i.operand <;> simp [hoperand, Operand.Fits, Operand.args] at hfits ⊢
  obtain ⟨d, hd⟩ := hhead
  simp [Instruction.Points, destination, hd]

/-! ## The first instruction that cannot be linked -/

variable {next : Bool} {e : ScriptError}

theorem needsFollower_iff {op : Opcode} :
    op.needsFollower = true ↔ op ∈ [Opcode.jz, .jnz, .jsr, .storestate] := by
  cases op <;> simp [Opcode.needsFollower]

theorem resolve_eq_error (ho : code.Ordered) : code.resolve next i = .error e ↔
    (i.opcode.needsFollower = true ∧ next = false) ∧ e = .noFollower i.address i.mnemonic ∨
      ¬ (i.opcode.needsFollower = true ∧ next = false) ∧
        (i.opcode.branches ∧ ∀ j ∈ code.toList, j.address ≠ destination i) ∧
        e = .badDestination i.address i.mnemonic (destination i) := by
  unfold resolve
  by_cases hneeds : i.opcode.needsFollower = true ∧ next = false
  · rw [if_pos (by simp [hneeds])]
    simp [hneeds, eq_comm]
  · rw [if_neg (by simpa using hneeds)]
    simp only [hneeds, false_and, false_or, not_false_eq_true, true_and]
    cases htag : Tag.ofOpcode? i.opcode with
    | none =>
      have hbranches : ¬ i.opcode.branches := by
        intro hb
        obtain ⟨t, ht⟩ := Opcode.branches_iff.mp hb
        rw [htag] at ht
        cases ht
      simp [hbranches]
    | some t =>
      have hbranches : i.opcode.branches := Opcode.branches_iff.mpr ⟨t, htag⟩
      cases hfound : code.locate? (destination i) with
      | some p =>
        obtain ⟨j, hj, ha⟩ := locate?_sound hfound
        have hmem : j ∈ code.toList := List.mem_of_getElem? (by rwa [toList, Array.getElem?_toList])
        simp only [reduceCtorEq, false_iff, not_and]
        exact fun h _ => h.2 j hmem ha
      | none =>
        have hnone : ∀ j ∈ code.toList, j.address ≠ destination i := by
          intro j hj ha
          obtain ⟨p, hp⟩ := List.getElem?_of_mem hj
          rw [toList, Array.getElem?_toList] at hp
          rw [locate?_complete ho hp ha] at hfound
          cases hfound
        simp only [Except.error.injEq, hbranches, true_and]
        exact ⟨fun h => ⟨hnone, h.symm⟩, fun h => h.2.symm⟩

/-- Instructions are resolved one after the other, up to the first that is refused. -/
theorem resolveAll_eq_error : code.resolveAll is = .error e ↔
    ∃ p i, is[p]? = some i ∧ code.resolve (is[p + 1]?).isSome i = .error e ∧
      ∀ q < p, ∀ j, is[q]? = some j → ∃ t, code.resolve (is[q + 1]?).isSome j = .ok t := by
  induction is with
  | nil => simp [resolveAll]
  | cons i is ih =>
    have hnext : (!is.isEmpty) = ((i :: is)[0 + 1]?).isSome := by cases is <;> rfl
    rw [resolveAll, hnext, bind_eq_error]
    constructor
    · rintro (herror | ⟨t, hfirst, hrest⟩)
      · exact ⟨0, i, rfl, herror, fun q hq => absurd hq (Nat.not_lt_zero q)⟩
      · obtain hrest | ⟨ts, -, hpure⟩ := bind_eq_error.mp hrest
        · obtain ⟨p, j, hj, herror, hearlier⟩ := ih.mp hrest
          refine ⟨p + 1, j, hj, herror, fun q hq k hk => ?_⟩
          cases q with
          | zero =>
            cases hk
            exact ⟨t, hfirst⟩
          | succ q => exact hearlier q (Nat.lt_of_succ_lt_succ hq) k hk
        · cases hpure
    · rintro ⟨p, j, hj, herror, hearlier⟩
      cases p with
      | zero =>
        cases hj
        exact .inl herror
      | succ p =>
        obtain ⟨t, hfirst⟩ := hearlier 0 (Nat.succ_pos p) i rfl
        refine .inr ⟨t, hfirst, bind_eq_error.mpr (.inl (ih.mpr ⟨p, j, hj, herror, ?_⟩))⟩
        exact fun q hq => hearlier (q + 1) (Nat.succ_lt_succ hq)

theorem link_eq_error : store.link = .error e ↔ store.resolveAll store.toList = .error e := by
  unfold link
  rw [bind_eq_error]
  constructor
  · rintro (herror | ⟨ts, -, hpure⟩)
    · exact herror
    · cases hpure
  · exact .inl

section
variable {p : Nat} (ho : store.Ordered) (hread : ∀ i ∈ store.toList, i.WellFormed)
  (hp : store.toList[p]? = some i)
include ho hread hp

theorem resolve_eq_error_iff : store.resolve (store.toList[p + 1]?).isSome i = .error e ↔
    Unfollowed store.toList p ∧ e = .noFollower i.address i.mnemonic ∨
      ¬ Unfollowed store.toList p ∧ Astray store.toList p ∧
        ∃ a, i.Points a ∧ e = .badDestination i.address i.mnemonic a := by
  have hwf := hread i (List.mem_of_getElem? hp)
  have hunfollowed : Unfollowed store.toList p ↔
      i.opcode.needsFollower = true ∧ (store.toList[p + 1]?).isSome = false := by
    simp [Unfollowed, hp, needsFollower_iff]
  have hastray : Astray store.toList p ∧ (∃ a, i.Points a ∧
      e = .badDestination i.address i.mnemonic a) ↔
      (i.opcode.branches ∧ ∀ j ∈ store.toList, j.address ≠ destination i) ∧
        e = .badDestination i.address i.mnemonic (destination i) := by
    by_cases hb : i.opcode.branches
    · simp [Astray, hp, hb, points_iff hwf hb, eq_comm]
    · simp [Astray, hp, hb]
  rw [resolve_eq_error ho, hunfollowed, hastray]

theorem resolve_fails_iff : (∃ e, store.resolve (store.toList[p + 1]?).isSome i = .error e) ↔
    Unfollowed store.toList p ∨ Astray store.toList p := by
  constructor
  · rintro ⟨e, herror⟩
    rcases (resolve_eq_error_iff ho hread hp).mp herror with ⟨hlast, -⟩ | ⟨-, hastray, -⟩
    · exact .inl hlast
    · exact .inr hastray
  · intro hflaw
    by_cases hlast : Unfollowed store.toList p
    · exact ⟨_, (resolve_eq_error_iff ho hread hp).mpr (.inl ⟨hlast, rfl⟩)⟩
    · have hastray := hflaw.resolve_left hlast
      have ⟨j, hj, hbranches, _⟩ := hastray
      obtain rfl : i = j := Option.some.inj (hp.symm.trans hj)
      have hpoints := (points_iff (hread i (List.mem_of_getElem? hp)) hbranches).mpr rfl
      exact ⟨_, (resolve_eq_error_iff ho hread hp).mpr (.inr ⟨hlast, hastray, _, hpoints, rfl⟩)⟩

theorem resolve_succeeds_iff :
    (∃ t, store.resolve (store.toList[p + 1]?).isSome i = .ok t) ↔
      ¬ Unfollowed store.toList p ∧ ¬ Astray store.toList p := by
  rw [← not_or, ← resolve_fails_iff ho hread hp]
  cases store.resolve (store.toList[p + 1]?).isSome i <;> simp

end

theorem link_eq_error_iff (ho : store.Ordered) (hread : ∀ i ∈ store.toList, i.WellFormed) :
    store.link = .error e ↔ Complains store.toList e := by
  rw [link_eq_error, resolveAll_eq_error, Complains]
  refine exists_congr fun p => exists_congr fun i => and_congr_right fun hp => ?_
  rw [resolve_eq_error_iff ho hread hp]
  constructor
  · rintro ⟨hflaw, hearlier⟩
    refine ⟨fun q hq => ?_, ?_, hflaw⟩
    · have hlt : q < store.toList.length :=
        Nat.lt_trans hq (List.getElem?_eq_some_iff.mp hp).1
      have hj := List.getElem?_eq_getElem hlt
      exact (resolve_succeeds_iff ho hread hj).mp (hearlier q hq _ hj)
    · rcases hflaw with ⟨-, rfl⟩ | ⟨-, -, a, -, rfl⟩ <;> rfl
  · rintro ⟨hearlier, -, hflaw⟩
    exact ⟨hflaw, fun q hq j hj => (resolve_succeeds_iff ho hread hj).mpr (hearlier q hq)⟩

theorem link_fails_iff (ho : store.Ordered) (hread : ∀ i ∈ store.toList, i.WellFormed) :
    (∃ e, store.link = .error e) ↔ ∃ p, Unfollowed store.toList p ∨ Astray store.toList p := by
  constructor
  · rintro ⟨e, herror⟩
    obtain ⟨p, i, -, -, -, hflaw⟩ := (link_eq_error_iff ho hread).mp herror
    rcases hflaw with ⟨hlast, -⟩ | ⟨-, hastray, -⟩
    · exact ⟨p, .inl hlast⟩
    · exact ⟨p, .inr hastray⟩
  · rintro ⟨p, hflaw⟩
    cases hlink : store.link with
    | error e => exact ⟨e, rfl⟩
    | ok code =>
      have hat : ∃ i, store.toList[p]? = some i := by
        rcases hflaw with ⟨i, hi, -⟩ | ⟨i, hi, -⟩ <;> exact ⟨i, hi⟩
      obtain ⟨i, hi⟩ := hat
      have hlt : p < code.length := link_length hlink ▸ (List.getElem?_eq_some_iff.mp hi).1
      obtain ⟨hstored, -, t, hresolved, -⟩ := link_at hlink (List.getElem?_eq_getElem hlt)
      obtain ⟨hlast, hastray⟩ := (resolve_succeeds_iff ho hread hstored).mp ⟨t, hresolved⟩
      exact absurd hflaw (not_or.mpr ⟨hlast, hastray⟩)

end

/-! ## The links -/

section
variable {store : Code} {code : List LinkedInstruction} {i : LinkedInstruction}

theorem link_kept (h : store.link = .ok code) :
    code.map LinkedInstruction.toInstruction = store.toList := by
  refine List.ext_getElem? fun p => ?_
  rw [List.getElem?_map]
  cases hp : code[p]? with
  | some i => exact (link_at h hp).1.symm
  | none =>
    have hge := List.getElem?_eq_none_iff.mp hp
    rw [link_length h] at hge
    exact (List.getElem?_eq_none hge).symm

theorem fallsThrough_iff {op : Opcode} : op.fallsThrough = true ↔ ¬ (op = .jmp ∨ op = .retn) := by
  cases op <;> simp [Opcode.fallsThrough]

theorem link_branch (hread : ∀ i ∈ store.toList, i.WellFormed) (h : store.link = .ok code)
    (hi : i ∈ code) (hb : i.opcode.branches) :
    ∃ j ∈ store.toList, i.Points j.address ∧ i.target = some j.address := by
  obtain ⟨p, hp⟩ := List.getElem?_of_mem hi
  obtain ⟨hstored, -, t, hresolved, htarget⟩ := link_at h hp
  obtain ⟨tag, htag⟩ := Opcode.branches_iff.mp hb
  obtain ⟨q, j, rfl, hj, ha⟩ := (resolve_ok hresolved).2 tag htag
  have hmem : j ∈ store.toList := List.mem_of_getElem? (by rwa [toList, Array.getElem?_toList])
  refine ⟨j, hmem, ?_, by simp [htarget, hj]⟩
  exact (points_iff (hread _ (List.mem_of_getElem? hstored)) hb).mpr ha.symm

theorem link_straight (h : store.link = .ok code) (hi : i ∈ code) (hb : ¬ i.opcode.branches) :
    i.target = none := by
  obtain ⟨p, hp⟩ := List.getElem?_of_mem hi
  obtain ⟨-, -, t, hresolved, htarget⟩ := link_at h hp
  have hnone : Tag.ofOpcode? i.opcode = none := by
    rw [Option.eq_none_iff_forall_ne_some]
    exact fun t ht => hb (Opcode.branches_iff.mpr ⟨t, ht⟩)
  unfold resolve at hresolved
  rw [hnone] at hresolved
  split at hresolved
  · cases hresolved
  · cases hresolved
    exact htarget

theorem ofOpcode?_eq_some {op : Opcode} {t : Tag} :
    Tag.ofOpcode? op = some t ↔ op ∈ t.opcodes := by
  cases t <;> cases op <;> decide

/-- A tag is as strong as every branch asks for, and some branch asks for it. -/
theorem link_tag (ho : store.Ordered) (h : store.link = .ok code) (hi : i ∈ code) :
    i.tag = strongestTag code i.address := by
  have hasked : ∀ t, i.tag.rank < t.rank → ¬ Asked code t i.address := by
    rintro t hlt ⟨j, hj, hop, htarget⟩
    have hle := (link_linked ho h).tagged hj hi (ofOpcode?_eq_some.mpr hop) htarget
    omega
  have hcaused : i.tag ≠ .plain → Asked code i.tag i.address := by
    intro hne
    obtain ⟨j, hj, hop, htarget⟩ := link_caused h hi hne
    exact ⟨j, hj, ofOpcode?_eq_some.mp hop, htarget⟩
  unfold strongestTag
  cases htag : i.tag <;> rw [htag] at hasked hcaused
  case subroutine => rw [if_pos (hcaused nofun)]
  case state => rw [if_neg (hasked .subroutine (by decide)), if_pos (hcaused nofun)]
  case label =>
    rw [if_neg (hasked .subroutine (by decide)), if_neg (hasked .state (by decide)),
      if_pos (hcaused nofun)]
  case plain =>
    rw [if_neg (hasked .subroutine (by decide)), if_neg (hasked .state (by decide)),
      if_neg (hasked .label (by decide))]

theorem link_resolved (ho : store.Ordered) (hread : ∀ i ∈ store.toList, i.WellFormed)
    (h : store.link = .ok code) : Resolved store.toList code where
  kept := link_kept h
  follower p i hp := by
    rw [(link_at h hp).2.1]
    by_cases hstops : i.opcode = .jmp ∨ i.opcode = .retn
    · rw [if_pos hstops, if_neg fun hfalls => fallsThrough_iff.mp hfalls hstops]
    · rw [if_neg hstops, if_pos (fallsThrough_iff.mpr hstops)]
  branch _ hi := link_branch hread h hi
  straight _ hi := link_straight h hi
  tag _ hi := link_tag ho h hi

end

/-- Instructions that were read and stored are linked as specified, or linking fails: exactly if one of
them lacks its follower or its branch leads to none of them, and with the error of the first of
these. -/
theorem link_meets_specification {is : List Instruction} {store : Code}
    (hstore : ofList is = .ok store) (hread : ∀ i ∈ is, i.WellFormed) :
    (∀ code, store.link = .ok code → Resolved is code) ∧
      ((∃ e, store.link = .error e) ↔ ∃ p, Unfollowed is p ∨ Astray is p) ∧
      ∀ e, store.link = .error e ↔ Complains is e := by
  have ho := ofList_ordered hstore
  obtain rfl := toList_of_ofList hstore
  refine ⟨fun code => link_resolved ho hread, link_fails_iff ho hread, fun e => ?_⟩
  exact link_eq_error_iff ho hread

/-- Address 29 is stored for later and jumped to, from before and from behind it; address 35 is called
twice and fallen into as well. -/
def crossroads : List Instruction :=
  [{ address := 13, opcode := .storestate, type := 16, size := 10, operand := .resume 16 0 0 },
    { address := 23, opcode := .jmp, type := 0, size := 6, operand := .offset 6 },
    { address := 29, opcode := .jsr, type := 0, size := 6, operand := .offset 6 },
    { address := 35, opcode := .retn, type := 0, size := 2 },
    { address := 37, opcode := .jz, type := 0, size := 6, operand := .offset (-8) },
    { address := 43, opcode := .jsr, type := 0, size := 6, operand := .offset (-8) },
    { address := 49, opcode := .retn, type := 0, size := 2 }]

/-- The jump leads to the last instruction, which cannot be linked for two reasons at once. -/
def washout : List Instruction :=
  [{ address := 13, opcode := .jmp, type := 0, size := 6, operand := .offset 6 },
    { address := 19, opcode := .jz, type := 0, size := 6, operand := .offset (-8) }]

/-- The instructions of the crossroads are read from their bytes behind a head of 13, and so are those of
the washout; the first are linked with a tag for each of the two addresses, the second are refused. -/
theorem crossroads_meets_specification :
    Instruction.decode (List.replicate 13 0 ++ crossroads.flatMap Instruction.bytes) 13 51 =
        .ok crossroads ∧
      (∃ store code, ofList crossroads = .ok store ∧ store.link = .ok code ∧
        Resolved crossroads code ∧ code.map LinkedInstruction.tag =
          [.plain, .plain, .state, .subroutine, .plain, .plain, .plain]) ∧
      Instruction.decode (List.replicate 13 0 ++ washout.flatMap Instruction.bytes) 13 25 =
        .ok washout ∧
      ∃ store, ofList washout = .ok store ∧ Astray washout 1 ∧
        Complains washout (.noFollower 19 "JZ") ∧
        store.link = .error (.noFollower 19 "JZ") := by
  have hcrossroads : Instruction.decode
      (List.replicate 13 0 ++ crossroads.flatMap Instruction.bytes) 13 51 = .ok crossroads := by
    decide +kernel
  have hwashout : Instruction.decode
      (List.replicate 13 0 ++ washout.flatMap Instruction.bytes) 13 25 = .ok washout := by
    decide +kernel
  have hread := ((Instruction.decode_eq_ok (by decide) (by decide)).mp hcrossroads).wellFormed
  have hread' := ((Instruction.decode_eq_ok (by decide) (by decide)).mp hwashout).wellFormed
  have hlink : link ⟨washout.toArray⟩ = .error (.noFollower 19 "JZ") := by decide +kernel
  refine ⟨hcrossroads, ⟨⟨crossroads.toArray⟩, _, rfl, rfl, ?_, by decide +kernel⟩, hwashout,
    ⟨washout.toArray⟩, rfl, ?_, ?_, hlink⟩
  · exact (link_meets_specification rfl hread).1 _ rfl
  · refine ⟨_, rfl, by decide, ?_⟩
    simp [washout, Instruction.Points, Operand.args]
  · exact ((link_meets_specification rfl hread').2.2 _).mp hlink

end Code

end ScriptFlow
