import ScriptFlow.Proofs.Instruction.Decode
import ScriptFlow.Proofs.Stack.Steps

/-! # Instructions that fail

However an instruction ends, what is recorded about blocks and subroutines stays as it was, and so do
the base pointers, but for the two instructions that save and restore one. What stops an instruction of
decoded code is a fault of its own, with a single exception: an ordering of structures has no width in
the code and needs one. -/

namespace ScriptFlow

/-- An ordering of structures. Only equality has the width of the structures in the code. -/
def Instruction.Widthless (i : Instruction) : Prop :=
  i.opcode ∈ [Opcode.geq, .gt, .lt, .leq] ∧ i.type = TypeByte.structPair

instance (i : Instruction) : Decidable i.Widthless := inferInstanceAs (Decidable (_ ∧ _))

/-! ## Operands of decoded code -/

namespace Operand.Fits

variable {type : Nat} {operand : Operand}

theorem cells (h : operand.Fits type .cells) : ∃ start size, operand = .cells start size := by
  cases operand with
  | cells start size => exact ⟨start, size, rfl⟩
  | _ => exact h.elim

theorem call (h : operand.Fits type .call) : ∃ routine argc, operand = .call routine argc := by
  cases operand with
  | call routine argc => exact ⟨routine, argc, rfl⟩
  | _ => exact h.elim

theorem width (h : operand.Fits type .width) : ∃ size, operand = .width size := by
  cases operand with
  | width size => exact ⟨size, rfl⟩
  | _ => exact h.elim

theorem offset (h : operand.Fits type .offset) : ∃ value, operand = .offset value := by
  cases operand with
  | offset value => exact ⟨value, rfl⟩
  | _ => exact h.elim

theorem region (h : operand.Fits type .region) :
    ∃ size start keep, operand = .region size start keep := by
  cases operand with
  | region size start keep => exact ⟨size, start, keep, rfl⟩
  | _ => exact h.elim

theorem none (h : operand.Fits type .none) : operand = .none := by
  cases operand with
  | none => rfl
  | _ => exact h.elim

end Operand.Fits

theorem Instruction.WellFormed.fits {i : Instruction} {shape : Shape} (h : i.WellFormed)
    (hshape : Shape.of? i.opcode i.type = some shape) : i.operand.Fits i.type shape := by
  obtain ⟨shape', hshape', hfits⟩ := h.operand
  rw [hshape] at hshape'
  cases hshape'
  exact hfits

namespace Stack

/-- The two states know the same about blocks and subroutines, and have the same base pointers. -/
structure SameBooks (s t : State) : Prop extends SameRecords s t where
  bases : t.bases = s.bases

theorem SameBooks.refl (s : State) : SameBooks s s := ⟨.refl s, rfl⟩

theorem SameBooks.trans {s t u : State} (hst : SameBooks s t) (htu : SameBooks t u) :
    SameBooks s u :=
  ⟨hst.toSameRecords.trans htu.toSameRecords, htu.bases.trans hst.bases⟩

/-- Every write goes to a cell of the caller. -/
def Writes.Below (writes : Writes) : Prop := ∀ w ∈ writes, w.1 < 0

theorem Writes.below_nil : Writes.Below [] := fun _ hw => absurd hw List.not_mem_nil

theorem Writes.Below.set {writes : Writes} {offset : Int} {type : CellType} (h : writes.Below)
    (hoffset : offset < 0) : (writes.set offset type).Below := by
  induction writes with
  | nil => simpa [Writes.set, Writes.Below] using hoffset
  | cons w ws ih =>
    have hw : w.1 < 0 := h w List.mem_cons_self
    have hws : Writes.Below ws := fun x hx => h x (List.mem_cons_of_mem _ hx)
    unfold Writes.set
    split
    · exact List.forall_mem_cons.mpr ⟨hoffset, hws⟩
    · exact List.forall_mem_cons.mpr ⟨hw, ih hws⟩

namespace Sim

/-! ## Computations that only a fault stops -/

section
variable {α β : Type} {x : Sim α} {f : α → Sim β} {P : α → Prop} {s t : State} {i : Instruction}
variable {halt : Halt}

theorem bind_eq_error : (x >>= f) s = .error halt t ↔
    x s = .error halt t ∨ ∃ a u, x s = .ok a u ∧ f a u = .error halt t := by
  show EStateM.bind x f s = .error halt t ↔ _
  unfold EStateM.bind
  cases x s <;> simp

/-- The computation leaves the books alone, and only a fault of its instruction stops it. -/
structure Tame (i : Instruction) (x : Sim α) : Prop where
  ok : ∀ {s a t}, x s = .ok a t → SameBooks s t
  error : ∀ {s halt t}, x s = .error halt t →
    SameBooks s t ∧ ∃ cause, halt = .fault (.site i cause)

theorem tame_pure {a : α} : Tame i (pure a : Sim α) where
  ok h := by
    obtain ⟨-, rfl⟩ := pure_eq_ok.mp h
    exact .refl _
  error := nofun

theorem tame_refuse {cause : Cause} : Tame i (refuse i cause : Sim α) where
  ok := nofun
  error h := by
    cases h
    exact ⟨.refl _, cause, rfl⟩

/-- What is known of a result may be used behind it. -/
theorem Tame.bindOf (hx : Tame i x) (hy : Yields x P) (hf : ∀ a, P a → Tame i (f a)) :
    Tame i (x >>= f) where
  ok h := by
    obtain ⟨a, u, ha, h⟩ := bind_eq_ok.mp h
    exact (hx.ok ha).trans ((hf a (hy _ _ _ ha).2).ok h)
  error h := by
    rcases bind_eq_error.mp h with h | ⟨a, u, ha, h⟩
    · exact hx.error h
    · obtain ⟨hbooks, hcause⟩ := (hf a (hy _ _ _ ha).2).error h
      exact ⟨(hx.ok ha).trans hbooks, hcause⟩

theorem Tame.bind (hx : Tame i x) (hf : ∀ a, Tame i (f a)) : Tame i (x >>= f) :=
  hx.bindOf (P := fun _ => True) (fun _ _ _ h => ⟨(hx.ok h).toSameRecords, trivial⟩) fun a _ => hf a

theorem tame_modify {g : State → State} (h : ∀ s, SameBooks s (g s)) :
    Tame i (modify g : Sim Unit) where
  ok := by
    intro s a t ha
    cases ha
    exact h s
  error := nofun

theorem tame_get : Tame i (get : Sim State) where
  ok := by
    intro s a t ha
    cases ha
    exact .refl s
  error := nofun

theorem tame_forM {f : α → Sim Unit} (hf : ∀ a, Tame i (f a)) (l : List α) :
    Tame i (l.forM f) := by
  induction l with
  | nil => exact tame_pure
  | cons a l ih => exact (hf a).bind fun _ => ih

end

section
variable {table : Engine.Table} {i : Instruction} {stack : Cells} {type : CellType}
variable {types : List CellType} {v : VarId} {source : Sim Cells} {offset : Int} {size : Nat}

theorem tame_updateVar (f : Variable → Variable) : Tame i (modify fun s => s.updateVar v f) :=
  tame_modify fun _ => ⟨⟨rfl, rfl, rfl⟩, rfl⟩

theorem tame_addReader : Tame i (addReader i v) := tame_updateVar _

theorem tame_addWriter : Tame i (addWriter i v) := tame_updateVar _

theorem tame_unify : Tame i (unify i type v) := by
  refine tame_get.bind fun s => ?_
  dsimp only
  split
  · exact tame_pure
  · split
    · exact tame_updateVar _
    · exact tame_refuse

theorem tame_create : Tame i (create i type) := by
  refine tame_get.bind fun s => (tame_modify fun _ => ?_).bind fun _ => tame_pure
  exact ⟨⟨rfl, rfl, rfl⟩, rfl⟩

theorem tame_createAll : Tame i (createAll i types) := by
  induction types with
  | nil => exact tame_pure
  | cons type types ih => exact tame_create.bind fun _ => ih.bind fun _ => tame_pure

theorem tame_push : Tame i (push i type stack) := tame_create.bind fun _ => tame_pure

theorem tame_pushAll : Tame i (pushAll i types stack) := tame_createAll.bind fun _ => tame_pure

theorem tame_cut {height : Nat} : Tame i (cut i height stack) :=
  (tame_forM (fun _ => tame_addReader) _).bind fun _ => tame_pure

theorem tame_pop {count : Nat} : Tame i (pop i count stack) := by
  unfold pop
  split
  · exact tame_refuse
  · exact tame_cut

theorem tame_popTyped : Tame i (popTyped i types stack) :=
  tame_pop.bind fun _ => (tame_forM (fun _ => tame_unify) _).bind fun _ => tame_pure

theorem tame_cellsIn {value : Int} : Tame i (cellsIn i value) := by
  unfold cellsIn
  split
  · exact tame_pure
  · exact tame_refuse

theorem tame_slot {count : Int} : Tame i (slot i offset count stack) := by
  refine tame_cellsIn.bind fun n => ?_
  dsimp only
  split
  · exact tame_refuse
  · exact tame_pure

theorem tame_base : Tame i (base i) := by
  refine tame_get.bind fun s => ?_
  split
  · exact tame_pure
  · exact tame_refuse

theorem tame_single : Tame i (single i) := by
  unfold single
  split
  · exact tame_pure
  · exact tame_refuse

theorem tame_operands : Tame i (operands i) := by
  unfold operands
  split
  · exact tame_pure
  · exact tame_refuse

theorem tame_copies {vs : Cells} : Tame i (copies i vs) := by
  induction vs with
  | nil => exact tame_pure
  | cons v vs ih =>
    refine tame_addReader.bind fun _ => tame_get.bind fun s => tame_create.bind fun w => ?_
    exact ih.bind fun _ => tame_pure

theorem tame_copyDown {note : Nat → CellType → Writes → Writes} {n : Nat}
    {pairs : List (VarId × VarId)} {writes : Writes} : Tame i (copyDown i note n pairs writes) := by
  induction pairs generalizing n writes with
  | nil => exact tame_pure
  | cons pair pairs ih =>
    refine tame_get.bind fun _ => tame_unify.bind fun _ => tame_get.bind fun _ => ?_
    exact tame_unify.bind fun _ => tame_addWriter.bind fun _ => tame_get.bind fun _ => ih

theorem tame_copySpan (hsource : Tame i source) : Tame i (copySpan i offset size stack source) := by
  refine tame_cellsIn.bind fun n => ?_
  dsimp only
  split
  · exact tame_refuse
  · exact hsource.bind fun cells => tame_slot.bind fun start => tame_pure

theorem tame_copyTop (hsource : Tame i source) : Tame i (copyTop i offset size stack source) :=
  (tame_copySpan hsource).bind fun _ => tame_copies.bind fun _ => tame_pure

theorem tame_copyDownSP {height : Nat} {writes : Writes} :
    Tame i (copyDownSP i offset size height stack writes) :=
  (tame_copySpan tame_pure).bind fun _ => tame_copyDown

theorem tame_copyDownBP : Tame i (copyDownBP i offset size stack) :=
  (tame_copySpan tame_base).bind fun _ => tame_copyDown.bind fun _ => tame_pure

theorem tame_popParams {params : List CellType} : Tame i (popParams i params stack) := by
  induction params generalizing stack with
  | nil => exact tame_pure
  | cons param params ih => exact tame_popTyped.bind fun _ => ih

theorem tame_engineCall {routine argc : Nat} : Tame i (engineCall table i routine argc stack) := by
  unfold engineCall
  split
  · exact tame_refuse
  · split
    · exact tame_refuse
    · exact tame_popParams.bind fun _ => tame_pushAll

theorem tame_binary {o : Operands} {result : List CellType} : Tame i (binary i o result stack) :=
  tame_popTyped.bind fun _ => tame_popTyped.bind fun _ => tame_pushAll

theorem tame_destroy {size start keep : Int} : Tame i (destroy i size start keep stack) := by
  refine tame_cellsIn.bind fun count => ?_
  split
  · exact tame_refuse
  · refine tame_cellsIn.bind fun first => tame_cellsIn.bind fun length => ?_
    exact tame_cut.bind fun _ => tame_pure

/-- A slot lies on the stack, so the cell to be changed is there. -/
theorem tame_adjust {cells : Cells} : Tame i (adjust i offset cells) := by
  refine tame_slot.bindOf yields_slot fun start hstart => ?_
  have hlt : start < cells.length := by omega
  rw [List.getElem?_eq_getElem hlt]
  exact tame_unify.bind fun _ => tame_addReader.bind fun _ => tame_addWriter

/-- Writes to cells of the caller find them, or run off the bottom of the stack. -/
theorem tame_replayWrites {writes : Writes} (h : writes.Below) :
    Tame i (replayWrites i stack writes) := by
  induction writes with
  | nil => exact tame_pure
  | cons w writes ih =>
    have hbelow : w.1 < 0 := h w List.mem_cons_self
    have hrest := ih fun x hx => h x (List.mem_cons_of_mem _ hx)
    unfold replayWrites
    dsimp only
    split
    · exact tame_refuse
    · have hlt : ((stack.length : Int) + w.1).toNat < stack.length := by omega
      rw [List.getElem?_eq_getElem hlt]
      exact tame_unify.bind fun _ => tame_addWriter.bind fun _ => hrest

theorem tame_replay {effect : Effect} (h : effect.writes.Below) :
    Tame i (replay i effect stack) := by
  refine (tame_replayWrites h).bind fun _ => ?_
  split
  · exact tame_pure
  · split
    · exact tame_pop.bind fun _ => tame_pure
    · exact tame_pushAll

end

/-! ## Instructions -/

section
variable {table : Engine.Table} {i : Instruction} {stack : Cells} {height : Nat} {writes : Writes}
variable {s t : State} {halt : Halt}

theorem tame_keep {run : Sim Cells} (h : Tame i run) :
    Tame i (do return (← run, writes)) :=
  h.bind fun _ => tame_pure

/-- Decoded instructions are tame, but for those about base pointers and for orderings that need a
width. -/
theorem exec_tame (hi : i.WellFormed) (hwide : ¬ i.Widthless) (hsave : i.opcode ≠ .savebp)
    (hrestore : i.opcode ≠ .restorebp) : Tame i (exec table height i stack writes) := by
  unfold exec
  cases hop : i.opcode with
  | cpdownsp =>
    obtain ⟨start, size, hoperand⟩ := (hi.fits (by rw [hop]; rfl)).cells
    simp only [hoperand]
    exact tame_copyDownSP.bind fun _ => tame_pure
  | cpdownbp =>
    obtain ⟨start, size, hoperand⟩ := (hi.fits (by rw [hop]; rfl)).cells
    simp only [hoperand]
    exact tame_copyDownBP.bind fun _ => tame_pure
  | cptopsp =>
    obtain ⟨start, size, hoperand⟩ := (hi.fits (by rw [hop]; rfl)).cells
    simp only [hoperand]
    exact tame_keep (tame_copyTop tame_pure)
  | cptopbp =>
    obtain ⟨start, size, hoperand⟩ := (hi.fits (by rw [hop]; rfl)).cells
    simp only [hoperand]
    exact tame_keep (tame_copyTop tame_base)
  | rsadd | const => exact tame_keep (tame_single.bind fun _ => tame_push)
  | action =>
    obtain ⟨routine, argc, hoperand⟩ := (hi.fits (by rw [hop]; rfl)).call
    simp only [hoperand]
    exact tame_keep tame_engineCall
  | logand | logor | incor | excor | booland | shleft | shright | ushright | mod | comp | noti =>
    exact tame_keep (tame_popTyped.bind fun _ => tame_push)
  | eq | neq =>
    dsimp only
    split
    · rename_i htype
      have hshape : Shape.of? i.opcode i.type = some .width := by
        rw [hop, htype]
        rfl
      obtain ⟨size, hoperand⟩ := (hi.fits hshape).width
      simp only [hoperand]
      exact tame_keep (tame_cellsIn.bind fun _ => tame_pop.bind fun _ => tame_push)
    · exact tame_keep (tame_operands.bind fun _ => tame_binary)
  | geq | gt | lt | leq =>
    dsimp only
    split
    · rename_i htype
      exact absurd ⟨by simp [hop], htype⟩ hwide
    · exact tame_keep (tame_operands.bind fun _ => tame_binary)
  | add | sub | mul | div =>
    refine tame_keep (tame_operands.bind fun o => ?_)
    split
    · exact tame_refuse
    · exact tame_binary
  | neg => exact tame_keep (tame_single.bind fun _ => tame_popTyped.bind fun _ => tame_push)
  | movsp =>
    obtain ⟨value, hoperand⟩ := (hi.fits (by rw [hop]; rfl)).offset
    simp only [hoperand]
    refine tame_keep ?_
    split
    · exact tame_refuse
    · exact tame_cellsIn.bind fun _ => tame_pop.bind fun _ => tame_pure
  | jz | jnz => exact tame_keep tame_popTyped
  | destruct =>
    obtain ⟨size, start, keep, hoperand⟩ := (hi.fits (by rw [hop]; rfl)).region
    simp only [hoperand]
    exact tame_keep tame_destroy
  | decisp | incisp =>
    obtain ⟨value, hoperand⟩ := (hi.fits (by rw [hop]; rfl)).offset
    simp only [hoperand]
    exact tame_adjust.bind fun _ => tame_pure
  | decibp | incibp =>
    obtain ⟨value, hoperand⟩ := (hi.fits (by rw [hop]; rfl)).offset
    simp only [hoperand]
    exact tame_base.bind fun _ => tame_adjust.bind fun _ => tame_pure
  | savebp => exact absurd hop hsave
  | restorebp => exact absurd hop hrestore
  | jmp | jsr | retn | nop | storestate | storestateall => exact tame_pure

/-- An ordering of structures stops for want of a width. -/
theorem exec_widthless (hi : i.WellFormed) (h : i.Widthless) :
    exec table height i stack writes s = .error (.missingOperand i.address) s := by
  obtain ⟨hop, htype⟩ := h
  simp only [List.mem_cons, List.not_mem_nil, or_false] at hop
  rcases hop with hop | hop | hop | hop
  all_goals
    have hshape : Shape.of? i.opcode i.type = some .none := by
      rw [hop]
      rfl
    have hoperand := (hi.fits hshape).none
    simp only [exec, hop, htype, hoperand, if_true]
    rfl

/-! ## Base pointers -/

theorem forM_ne_error {α : Type} {f : α → Sim Unit} (hf : ∀ a s t, f a s ≠ .error halt t)
    (l : List α) (s t : State) : l.forM f s ≠ .error halt t := by
  induction l generalizing s with
  | nil =>
    intro h
    cases h
  | cons a l ih =>
    intro h
    rcases bind_eq_error.mp h with h | ⟨_, u, -, h⟩
    · exact hf a s t h
    · exact ih u h

/-- Taking cells off the stack may fail for their number or their types, not for a base pointer. -/
theorem popTyped_ne_noBase {types : List CellType} :
    popTyped i types stack s ≠ .error (.fault (.site i .noBase)) t := by
  have hunify : ∀ (x : VarId × CellType) (s t : State),
      unify i x.2 x.1 s ≠ .error (.fault (.site i .noBase)) t := by
    intro x s t h
    rcases bind_eq_error.mp h with h | ⟨found, u, -, h⟩
    · cases h
    · split at h
      · cases h
      · split at h <;> cases h
  intro h
  rcases bind_eq_error.mp h with h | ⟨r, u, -, h⟩
  · unfold pop at h
    split at h
    · cases h
    · rcases bind_eq_error.mp h with h | ⟨_, u, -, h⟩
      · exact forM_ne_error (fun _ _ _ h => by cases h) _ _ _ h
      · cases h
  · rcases bind_eq_error.mp h with h | ⟨_, u, -, h⟩
    · exact forM_ne_error hunify _ _ _ h
    · cases h

theorem base_eq_ok {cells : Cells} (h : base i s = .ok cells t) :
    t = s ∧ ∃ bases, s.bases = cells :: bases := by
  rw [base, get_bind_eq_ok] at h
  cases hbases : s.bases with
  | nil =>
    simp only [hbases] at h
    cases h
  | cons top bases =>
    simp only [hbases] at h
    obtain ⟨rfl, rfl⟩ := pure_eq_ok.mp h
    exact ⟨rfl, bases, rfl⟩

theorem base_of_cons {cells : Cells} {bases : List Cells} (h : s.bases = cells :: bases) :
    base i s = .ok cells s := by
  rw [base, get_bind_eq_ok, h]
  rfl

theorem restoreBase_eq_ok {r : Cells} (h : restoreBase i stack s = .ok r t) :
    ∃ cells, s.bases = cells :: t.bases := by
  unfold restoreBase at h
  obtain ⟨cells, u, hbase, hrest⟩ := bind_eq_ok.mp h
  obtain ⟨hu, bases, hbases⟩ := base_eq_ok hbase
  subst hu
  obtain ⟨left, v, hpop, hend⟩ := bind_eq_ok.mp hrest
  rw [modify_bind_eq_ok] at hend
  obtain ⟨-, rfl⟩ := pure_eq_ok.mp hend
  refine ⟨cells, ?_⟩
  rw [(tame_popTyped.ok hpop).bases, hbases]
  rfl

/-- A base pointer is restored unless there is none, or the cell saved with it is not on top. -/
theorem restoreBase_eq_error (h : restoreBase i stack s = .error halt t) :
    SameBooks s t ∧ ∃ cause, halt = .fault (.site i cause) ∧ (cause = .noBase → s.bases = []) := by
  unfold restoreBase at h
  rcases bind_eq_error.mp h with hbase | ⟨cells, u, hbase, hpop⟩
  · obtain ⟨hbooks, cause, hcause⟩ := tame_base.error hbase
    refine ⟨hbooks, cause, hcause, fun _ => ?_⟩
    cases hbases : s.bases with
    | nil => rfl
    | cons cells bases =>
      rw [base_of_cons hbases] at hbase
      cases hbase
  · obtain ⟨hu, -⟩ := base_eq_ok hbase
    subst hu
    rcases bind_eq_error.mp hpop with hpop | ⟨left, v, -, hend⟩
    · obtain ⟨hbooks, cause, hcause⟩ := tame_popTyped.error hpop
      refine ⟨hbooks, cause, hcause, fun hnone => ?_⟩
      rw [hcause, hnone] at hpop
      exact absurd hpop popTyped_ne_noBase
    · rcases bind_eq_error.mp hend with hend | ⟨_, w, -, hend⟩ <;> cases hend

theorem markGlobals_eq (l : Cells) (s : State) : ∃ t, (l.forM fun v =>
    (modify fun s => s.updateVar v fun x => { x with isGlobal := true } : Sim Unit)) s = .ok () t ∧
      t.bases = s.bases := by
  induction l generalizing s with
  | nil => exact ⟨s, rfl, rfl⟩
  | cons v l ih => exact ih (s.updateVar v fun x => { x with isGlobal := true })

theorem saveBase_eq (i : Instruction) (stack : Cells) (s : State) :
    ∃ r t, saveBase i stack s = .ok r t ∧ t.bases = stack :: s.bases := by
  simp only [saveBase, get_bind_eq_ok]
  by_cases hempty : s.globals.isEmpty = true
  · obtain ⟨u, hu, hbases⟩ := markGlobals_eq stack { s with globals := stack }
    rw [if_pos hempty]
    refine ⟨_, _, bind_eq_ok.mpr ⟨(), _, rfl, bind_eq_ok.mpr ⟨(), u, hu, rfl⟩⟩, ?_⟩
    show stack :: u.bases = _
    rw [hbases]
  · rw [if_neg hempty]
    exact ⟨_, _, rfl, rfl⟩

/-- The base pointers behind an instruction. -/
def basesAfter (op : Opcode) (stack : Cells) (bases : List Cells) : List Cells :=
  match op with
  | .savebp => stack :: bases
  | .restorebp => bases.tail
  | _ => bases

theorem basesAfter_eq {op : Opcode} {bases : List Cells} (hsave : op ≠ .savebp)
    (hrestore : op ≠ .restorebp) : basesAfter op stack bases = bases := by
  cases op <;> first | rfl | contradiction

theorem exec_savebp (hop : i.opcode = .savebp) : exec table height i stack writes =
    do return (← saveBase i stack, writes) := by
  simp only [exec, hop]

theorem exec_restorebp (hop : i.opcode = .restorebp) : exec table height i stack writes =
    do return (← restoreBase i stack, writes) := by
  simp only [exec, hop]

/-- Base pointers are as their two instructions leave them. -/
theorem exec_bases {r : Cells × Writes} (hi : i.WellFormed)
    (h : exec table height i stack writes s = .ok r t) :
    t.bases = basesAfter i.opcode stack s.bases ∧
      (i.opcode = .restorebp → ∃ cells, s.bases = cells :: t.bases) := by
  by_cases hsave : i.opcode = .savebp
  · rw [exec_savebp hsave] at h
    obtain ⟨left, u, hrun, h⟩ := bind_eq_ok.mp h
    obtain ⟨-, rfl⟩ := pure_eq_ok.mp h
    obtain ⟨r', v, hrun', hbases⟩ := saveBase_eq i stack s
    rw [hrun] at hrun'
    cases hrun'
    rw [hsave]
    exact ⟨hbases, nofun⟩
  · by_cases hrestore : i.opcode = .restorebp
    · rw [exec_restorebp hrestore] at h
      obtain ⟨left, u, hrun, h⟩ := bind_eq_ok.mp h
      obtain ⟨-, rfl⟩ := pure_eq_ok.mp h
      obtain ⟨cells, hbases⟩ := restoreBase_eq_ok hrun
      rw [hrestore]
      exact ⟨by rw [hbases]; rfl, fun _ => ⟨cells, hbases⟩⟩
    · have hwide : ¬ i.Widthless := by
        intro hwide
        rw [exec_widthless hi hwide] at h
        cases h
      rw [basesAfter_eq hsave hrestore]
      exact ⟨((exec_tame hi hwide hsave hrestore).ok h).bases, fun hop => absurd hop hrestore⟩

/-- What stops a decoded instruction is a fault of its own, unless it is an ordering of structures. -/
theorem exec_eq_error (hi : i.WellFormed) (hwide : ¬ i.Widthless)
    (h : exec table height i stack writes s = .error halt t) : SameBooks s t ∧ ∃ cause,
      halt = .fault (.site i cause) ∧
        (i.opcode = .restorebp → cause = .noBase → s.bases = []) := by
  by_cases hsave : i.opcode = .savebp
  · rw [exec_savebp hsave] at h
    obtain ⟨r, u, hrun, -⟩ := saveBase_eq i stack s
    rcases bind_eq_error.mp h with h | ⟨_, v, -, h⟩
    · rw [hrun] at h
      cases h
    · cases h
  · by_cases hrestore : i.opcode = .restorebp
    · rw [exec_restorebp hrestore] at h
      rcases bind_eq_error.mp h with h | ⟨_, v, -, h⟩
      · obtain ⟨hbooks, cause, hcause, hbase⟩ := restoreBase_eq_error h
        exact ⟨hbooks, cause, hcause, fun _ => hbase⟩
      · cases h
    · obtain ⟨hbooks, cause, hcause⟩ := (exec_tame hi hwide hsave hrestore).error h
      exact ⟨hbooks, cause, hcause, fun hop => absurd hop hrestore⟩

/-! ## Writes -/

/-- What a computation ends with. -/
def Ends {α : Type} (x : Sim α) (Q : α → Prop) : Prop := ∀ s a t, x s = .ok a t → Q a

theorem ends_pure {α : Type} {a : α} {Q : α → Prop} (h : Q a) : Ends (pure a) Q := by
  intro s b t hb
  obtain ⟨rfl, -⟩ := pure_eq_ok.mp hb
  exact h

theorem ends_bind {α β : Type} {x : Sim α} {f : α → Sim β} {Q : β → Prop}
    (h : ∀ a, Ends (f a) Q) : Ends (x >>= f) Q := by
  intro s b t hb
  obtain ⟨a, u, -, hb⟩ := bind_eq_ok.mp hb
  exact h a u b t hb

theorem ends_throw {α : Type} {Q : α → Prop} : Ends (throw halt : Sim α) Q := nofun

theorem ends_copyDown {note : Nat → CellType → Writes → Writes} {n : Nat}
    {pairs : List (VarId × VarId)} {P : Writes → Prop}
    (hnote : ∀ n type writes, P writes → P (note n type writes)) (h : P writes) :
    Ends (copyDown i note n pairs writes) P := by
  induction pairs generalizing n writes with
  | nil => exact ends_pure h
  | cons pair pairs ih =>
    refine ends_bind fun _ => ends_bind fun _ => ends_bind fun _ => ends_bind fun _ => ?_
    exact ends_bind fun _ => ends_bind fun _ => ih (hnote _ _ _ h)

/-- Copies noted for the caller lie below the depth at the call. -/
theorem ends_copyDownSP {offset : Int} {size : Nat} (h : writes.Below) :
    Ends (copyDownSP i offset size height stack writes) Writes.Below := by
  refine ends_bind fun r => ends_copyDown (fun n type writes hwrites => ?_) h
  split
  · exact hwrites.set (by omega)
  · exact hwrites

/-- Writes noted for the caller are writes to its cells. -/
theorem exec_writes (h : writes.Below) :
    Ends (exec table height i stack writes) fun r => r.2.Below := by
  unfold exec
  cases i.opcode with
  | cpdownsp =>
    dsimp only
    cases i.operand with
    | cells start size =>
      intro s r t hrun
      obtain ⟨w, u, hcopy, hend⟩ := bind_eq_ok.mp hrun
      obtain ⟨rfl, -⟩ := pure_eq_ok.mp hend
      exact ends_copyDownSP h s w u hcopy
    | _ => exact ends_throw
  | cpdownbp | decisp | incisp | cptopsp | cptopbp | action | movsp | destruct =>
    dsimp only
    split
    · exact ends_bind fun _ => ends_pure h
    · exact ends_throw
  | decibp | incibp =>
    dsimp only
    split
    · exact ends_bind fun _ => ends_bind fun _ => ends_pure h
    · exact ends_throw
  | eq | neq | geq | gt | lt | leq =>
    dsimp only
    split
    · split
      · exact ends_bind fun _ => ends_pure h
      · exact ends_throw
    · exact ends_bind fun _ => ends_pure h
  | jmp | jsr | retn | nop | storestate | storestateall => exact ends_pure h
  | _ => exact ends_bind fun _ => ends_pure h

end

end Sim

end Stack

end ScriptFlow
