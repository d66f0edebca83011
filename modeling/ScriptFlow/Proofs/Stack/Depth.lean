import ScriptFlow.Stack.Exec
import Mathlib.Data.List.Basic

/-! # Instructions by the depth they leave behind

How many cells an instruction takes off the stack and puts on it is told by its opcode, its type byte
and its operand, and for an engine call by the signature of the routine. The cells themselves do not
matter. Wherever an instruction succeeds, this reading of it gives the depth, and nothing of what the
analysis has recorded about blocks and subroutines has changed. -/

namespace ScriptFlow.Stack

/-! ## The reading -/

/-- What happens to the depth of a stack. -/
inductive DepthChange where
  /-- So many cells must be there; some are taken off the top and others put in their place. -/
  | trade (needs takes gives : Nat)
  /-- The stack is cut off at a height. -/
  | cut (height : Nat)
  deriving DecidableEq, Repr

namespace DepthChange

def swap (takes gives : Nat) : DepthChange := .trade takes takes gives

/-- The depth afterwards; none if the stack is too short. -/
def after : DepthChange → Nat → Option Nat
  | .trade needs takes gives, d => if needs ≤ d then some (d - takes + gives) else none
  | .cut height, d => some (min height d)

@[simp] theorem after_trade {needs takes gives d n : Nat} :
    (trade needs takes gives).after d = some n ↔ needs ≤ d ∧ d - takes + gives = n := by
  simp [after]

@[simp] theorem after_swap {takes gives d n : Nat} :
    (swap takes gives).after d = some n ↔ takes ≤ d ∧ d - takes + gives = n :=
  after_trade

@[simp] theorem after_cut {height d n : Nat} : (cut height).after d = some n ↔ min height d = n := by
  simp [after]

end DepthChange

/-- The number of cells of a region of `count` that are kept. -/
def keptCells (count : Nat) (first length : Int) : Nat :=
  min (Position.clip count (first + length)) count - Position.clip count first

/-- The number of cells that values of the given types take. -/
def cellCount : List CellType → Nat
  | [] => 0
  | type :: types => type.cells + cellCount types

/-- What an instruction that is not a call does to the depth; nothing is known of one that lacks its
operand or has a type it cannot have. -/
def depthChange? (table : Engine.Table) (i : Instruction) : Option DepthChange :=
  match i.opcode with
  | .cpdownsp =>
    match i.operand with
    | .cells start _ => some (.trade (-(start / 4)).toNat 0 0)
    | _ => none
  | .cptopsp =>
    match i.operand with
    | .cells start size => some (.trade (-(start / 4)).toNat 0 (size / 4))
    | _ => none
  | .cpdownbp =>
    match i.operand with
    | .cells _ size => some (.trade (size / 4) 0 0)
    | _ => none
  | .cptopbp =>
    match i.operand with
    | .cells _ size => some (.trade (size / 4) 0 (size / 4))
    | _ => none
  | .rsadd | .const | .savebp => some (.swap 0 1)
  | .action =>
    match i.operand with
    | .call routine argc => do
      let signature ← table.find? routine
      let params ← (signature.passed argc).toOption
      return .swap (cellCount params) signature.returns.cells
    | _ => none
  | .logand | .logor | .incor | .excor | .booland | .shleft | .shright | .ushright | .mod =>
    some (.swap 2 1)
  | .eq | .neq | .geq | .gt | .lt | .leq =>
    if i.type = TypeByte.structPair then
      match i.operand with
      | .width size => some (.swap (2 * (size / 4)) 1)
      | _ => none
    else (operands? i.type).map fun o => .swap (o.left.length + o.right.length) 1
  | .add | .sub | .mul | .div =>
    (operands? i.type).map fun o => .swap (o.left.length + o.right.length) o.result.length
  | .neg | .comp | .noti => some (.swap 1 1)
  | .movsp =>
    match i.operand with
    | .offset value => some (.swap (-(value / 4)).toNat 0)
    | _ => none
  | .jz | .jnz | .restorebp => some (.swap 1 0)
  | .destruct =>
    match i.operand with
    | .region size start keep =>
      if size < 0 then some (.cut (-(size / 4)).toNat)
      else some (.swap (size / 4).toNat (keptCells (size / 4).toNat (start / 4) (keep / 4)))
    | _ => none
  | .decisp | .incisp =>
    match i.operand with
    | .offset value => some (.trade (-(value / 4)).toNat 0 0)
    | _ => none
  | .decibp | .incibp | .jmp | .jsr | .retn | .nop | .storestate | .storestateall => some (.swap 0 0)

/-- The depth behind a call with a known effect: the delta is added, and a callee that never returns
leaves the depth as it is. -/
def Effect.after (e : Effect) (d : Nat) : Option Nat :=
  match e.delta with
  | none => some d
  | some delta => if 0 ≤ d + delta then some (d + delta).toNat else none

/-! ## What cells are made of -/

theorem length_cellsOf (type : CellType) : (cellsOf type).length = type.cells := by
  cases type <;> rfl

theorem length_slice {α : Type} (xs : Array α) (first length : Int) :
    (Position.slice xs first (first + length)).length = keptCells xs.size first length := by
  simp only [Position.slice, keptCells, Array.length_toList, Array.size_extract]

/-! ## Computations that leave the records alone -/

/-- The two states know the same about blocks and subroutines. -/
structure SameRecords (s t : State) : Prop where
  progress : t.progress = s.progress
  effects : t.effects = s.effects
  active : t.active = s.active

theorem SameRecords.refl (s : State) : SameRecords s s := ⟨rfl, rfl, rfl⟩

theorem SameRecords.trans {s t u : State} (hst : SameRecords s t) (htu : SameRecords t u) :
    SameRecords s u :=
  ⟨htu.progress.trans hst.progress, htu.effects.trans hst.effects, htu.active.trans hst.active⟩

namespace Sim

section
variable {α β : Type} {x : Sim α} {f : α → Sim β} {P Q : α → Prop} {R : β → Prop}
variable {s t : State} {i : Instruction}

@[simp] theorem pure_eq_ok {a b : α} : (pure a : Sim α) s = .ok b t ↔ a = b ∧ s = t := by
  show EStateM.Result.ok a s = .ok b t ↔ _
  simp

theorem bind_eq_ok {b : β} :
    (x >>= f) s = .ok b t ↔ ∃ a u, x s = .ok a u ∧ f a u = .ok b t := by
  show EStateM.bind x f s = .ok b t ↔ _
  unfold EStateM.bind
  cases x s <;> simp

/-- Success tells something of the result and leaves the records alone. -/
def Yields (x : Sim α) (Q : α → Prop) : Prop := ∀ s a t, x s = .ok a t → SameRecords s t ∧ Q a

theorem yields_pure {a : α} (h : Q a) : Yields (pure a) Q := by
  intro s b t hb
  obtain ⟨rfl, rfl⟩ := pure_eq_ok.mp hb
  exact ⟨.refl s, h⟩

theorem Yields.bind (hx : Yields x P) (hf : ∀ a, P a → Yields (f a) R) : Yields (x >>= f) R := by
  intro s b t hb
  obtain ⟨a, u, ha, hb⟩ := bind_eq_ok.mp hb
  obtain ⟨hsu, hP⟩ := hx s a u ha
  obtain ⟨hut, hR⟩ := hf a hP u b t hb
  exact ⟨hsu.trans hut, hR⟩

theorem Yields.mono (hx : Yields x P) (h : ∀ a, P a → Q a) : Yields x Q := fun s a t ha =>
  ⟨(hx s a t ha).1, h a (hx s a t ha).2⟩

theorem yields_throw {h : Halt} : Yields (throw h : Sim α) Q := nofun

theorem yields_refuse {c : Cause} : Yields (refuse i c : Sim α) Q := yields_throw

theorem yields_modify {g : State → State} (h : ∀ s, SameRecords s (g s)) :
    Yields (modify g : Sim Unit) fun _ => True := by
  intro s a t ha
  cases ha
  exact ⟨h s, trivial⟩

theorem yields_get : Yields (get : Sim State) fun _ => True := by
  intro s a t ha
  cases ha
  exact ⟨.refl s, trivial⟩

end

/-! ## Cells -/

section
variable {i : Instruction} {stack : Cells} {type : CellType} {types : List CellType} {v : VarId}

theorem yields_updateVar (v : VarId) (f : Variable → Variable) :
    Yields (modify fun s => s.updateVar v f) fun _ => True :=
  yields_modify fun _ => ⟨rfl, rfl, rfl⟩

theorem yields_addReader : Yields (addReader i v) fun _ => True := yields_updateVar v _

theorem yields_addWriter : Yields (addWriter i v) fun _ => True := yields_updateVar v _

theorem yields_forM {α : Type} {f : α → Sim Unit} (hf : ∀ a, Yields (f a) fun _ => True)
    (l : List α) : Yields (l.forM f) fun _ => True := by
  induction l with
  | nil => exact yields_pure trivial
  | cons a l ih => exact (hf a).bind fun _ _ => ih

theorem yields_unify : Yields (unify i type v) fun _ => True := by
  refine yields_get.bind fun s _ => ?_
  dsimp only
  split
  · exact yields_pure trivial
  · split
    · exact yields_updateVar v _
    · exact yields_refuse

theorem yields_create : Yields (create i type) fun _ => True := by
  refine yields_get.bind fun s _ => (yields_modify fun _ => ?_).bind fun _ _ => yields_pure trivial
  exact ⟨rfl, rfl, rfl⟩

theorem yields_createAll : Yields (createAll i types) fun vs => vs.length = types.length := by
  induction types with
  | nil => exact yields_pure rfl
  | cons type types ih =>
    refine yields_create.bind fun v _ => ih.bind fun vs hvs => yields_pure ?_
    simp [hvs]

theorem yields_push : Yields (push i type stack) fun r => r.length = stack.length + 1 :=
  yields_create.bind fun _ _ => yields_pure (by simp)

theorem yields_pushAll :
    Yields (pushAll i types stack) fun r => r.length = stack.length + types.length :=
  yields_createAll.bind fun _ hvs => yields_pure (by simp [hvs])

theorem yields_cut {height : Nat} :
    Yields (cut i height stack) fun r => r.1.length = min height stack.length :=
  (yields_forM (fun _ => yields_addReader) _).bind fun _ _ => yields_pure (by simp)

theorem yields_pop {count : Nat} :
    Yields (pop i count stack) fun r => r.1.length + count = stack.length := by
  unfold pop
  split
  · exact yields_refuse
  · exact yields_cut.mono fun r hr => by omega

theorem yields_popTyped :
    Yields (popTyped i types stack) fun r => r.length + types.length = stack.length := by
  refine yields_pop.bind fun r hr => ?_
  exact (yields_forM (fun _ => yields_unify) _).bind fun _ _ => yields_pure hr

theorem yields_cellsIn {value : Int} :
    Yields (cellsIn i value) fun n => n = value / 4 ∧ value % 4 = 0 := by
  unfold cellsIn
  split
  · exact yields_pure ⟨rfl, by assumption⟩
  · exact yields_refuse

theorem yields_slot {offset count : Int} : Yields (slot i offset count stack) fun start =>
    (start : Int) = stack.length + offset / 4 ∧ start + count ≤ stack.length := by
  refine yields_cellsIn.bind fun n hn => ?_
  dsimp only
  split
  · exact yields_refuse
  · exact yields_pure (by omega)

theorem yields_base : Yields (base i) fun _ => True := by
  refine yields_get.bind fun s _ => ?_
  split
  · exact yields_pure trivial
  · exact yields_refuse

theorem yields_single : Yields (single i) fun _ => True := by
  unfold single
  split
  · exact yields_pure trivial
  · exact yields_refuse

theorem yields_operands : Yields (operands i) fun o => operands? i.type = some o := by
  unfold operands
  split
  · exact yields_pure (by assumption)
  · exact yields_refuse

end

/-! ## Copies -/

section
variable {i : Instruction} {stack : Cells} {offset : Int} {size : Nat} {source : Sim Cells}

theorem yields_copies {vs : Cells} : Yields (copies i vs) fun ws => ws.length = vs.length := by
  induction vs with
  | nil => exact yields_pure rfl
  | cons v vs ih =>
    refine yields_addReader.bind fun _ _ => yields_get.bind fun s _ => yields_create.bind fun w _ => ?_
    exact ih.bind fun ws hws => yields_pure (by simp [hws])

theorem yields_copyDown {note : Nat → CellType → Writes → Writes} {n : Nat}
    {pairs : List (VarId × VarId)} {writes : Writes} :
    Yields (copyDown i note n pairs writes) fun _ => True := by
  induction pairs generalizing n writes with
  | nil => exact yields_pure trivial
  | cons pair pairs ih =>
    refine yields_get.bind fun _ _ => yields_unify.bind fun _ _ => ?_
    refine yields_get.bind fun _ _ => yields_unify.bind fun _ _ => ?_
    exact yields_addWriter.bind fun _ _ => yields_get.bind fun _ _ => ih

/-- The cells copied lie inside of the stack they are copied from, and as many are on the stack. -/
theorem yields_copySpan {P : Cells → Prop} (hsource : Yields source P) :
    Yields (copySpan i offset size stack source) fun r => r.2.2 = size / 4 ∧ P r.1 ∧
      size / 4 ≤ stack.length ∧ (r.2.1 : Int) = r.1.length + offset / 4 ∧
      r.2.1 + r.2.2 ≤ r.1.length := by
  refine yields_cellsIn.bind fun n hn => ?_
  dsimp only
  split
  · exact yields_refuse
  · refine hsource.bind fun cells hcells => yields_slot.bind fun start hstart => yields_pure ?_
    dsimp only
    exact ⟨by omega, hcells, by omega, hstart.1, by omega⟩

theorem yields_copyTop {P : Cells → Prop} (hsource : Yields source P) :
    Yields (copyTop i offset size stack source) fun r => r.length = stack.length + size / 4 ∧
      size / 4 ≤ stack.length ∧ ∃ cells, P cells ∧ -(offset / 4) ≤ cells.length := by
  refine (yields_copySpan hsource).bind fun ⟨cells, start, count⟩ hspan => ?_
  refine yields_copies.bind fun ws hws => yields_pure ?_
  obtain ⟨hcount, hP, hlen, hstart, hstop⟩ := hspan
  simp only [List.length_take, List.length_drop] at hws hcount hstart hstop
  refine ⟨?_, hlen, cells, hP, by omega⟩
  rw [List.length_append]
  omega

theorem yields_copyDownSP {height : Nat} {writes : Writes} :
    Yields (copyDownSP i offset size height stack writes) fun _ =>
      -(offset / 4) ≤ stack.length := by
  have hsource : Yields (pure stack) (· = stack) := yields_pure rfl
  refine (yields_copySpan hsource).bind fun r hr => yields_copyDown.mono fun _ _ => ?_
  obtain ⟨-, hP, -, hstart, -⟩ := hr
  rw [hP] at hstart
  omega

theorem yields_copyDownBP :
    Yields (copyDownBP i offset size stack) fun _ => size / 4 ≤ stack.length := by
  refine (yields_copySpan yields_base).bind fun r hr => yields_copyDown.bind fun _ _ => ?_
  exact yields_pure hr.2.2.1

end

/-! ## Instructions -/

section
variable {table : Engine.Table} {i : Instruction} {stack : Cells}

theorem yields_popParams {params : List CellType} : Yields (popParams i params stack) fun r =>
    r.length + cellCount params = stack.length := by
  induction params generalizing stack with
  | nil => exact yields_pure rfl
  | cons param params ih =>
    refine yields_popTyped.bind fun r hr => ih.mono fun t ht => ?_
    rw [length_cellsOf] at hr
    simp only [cellCount]
    omega

theorem yields_engineCall {routine argc : Nat} : Yields (engineCall table i routine argc stack)
    fun r => ∃ signature params, table.find? routine = some signature ∧
      signature.passed argc = .ok params ∧
      (DepthChange.swap (cellCount params) signature.returns.cells).after
        stack.length = some r.length := by
  unfold engineCall
  split
  · exact yields_refuse
  · rename_i signature hfind
    split
    · exact yields_refuse
    · rename_i params hpassed
      refine yields_popParams.bind fun r hr => yields_pushAll.mono fun t ht => ?_
      rw [length_cellsOf] at ht
      exact ⟨signature, params, hfind, hpassed, by simp only [DepthChange.after_swap]; omega⟩

theorem yields_binary {o : Operands} {result : List CellType} :
    Yields (binary i o result stack) fun r =>
      (DepthChange.swap (o.left.length + o.right.length) result.length).after stack.length =
        some r.length := by
  refine yields_popTyped.bind fun r hr => yields_popTyped.bind fun t ht => ?_
  exact yields_pushAll.mono fun u hu => by simp only [DepthChange.after_swap]; omega

/-- Operands are replaced by one result. -/
theorem yields_replace {types : List CellType} {type : CellType} :
    Yields (do push i type (← popTyped i types stack)) fun r =>
      (DepthChange.swap types.length 1).after stack.length = some r.length := by
  refine yields_popTyped.bind fun t ht => yields_push.mono fun r hr => ?_
  simp only [DepthChange.after_swap]
  omega

/-- The cells of a region that are kept, or none if the stack is cut. -/
theorem yields_destroy {size start keep : Int} : Yields (destroy i size start keep stack) fun r =>
    (if size < 0 then DepthChange.cut (-(size / 4)).toNat
      else .swap (size / 4).toNat (keptCells (size / 4).toNat (start / 4) (keep / 4))).after
        stack.length = some r.length := by
  refine yields_cellsIn.bind fun count hcount => ?_
  split
  · exact yields_refuse
  · refine yields_cellsIn.bind fun first hfirst => yields_cellsIn.bind fun length hlength => ?_
    refine yields_cut.bind fun r hr => yields_pure ?_
    obtain ⟨rfl, -⟩ := hfirst
    obtain ⟨rfl, -⟩ := hlength
    by_cases hsize : size < 0
    · have hneg : count < 0 := by omega
      simp only [hsize, hneg, if_true, List.append_nil, DepthChange.after_cut] at hr ⊢
      omega
    · have hnonneg : ¬ count < 0 := by omega
      have hregion : (stack.drop (stack.length - count).toNat).toArray.size = (size / 4).toNat := by
        simp only [List.size_toArray, List.length_drop]
        omega
      simp only [hsize, hnonneg, if_false, List.length_append, length_slice, hregion,
        DepthChange.after_swap] at hr ⊢
      omega

theorem yields_adjust {offset : Int} {source : Cells} :
    Yields (adjust i offset source) fun _ => -(offset / 4) ≤ source.length := by
  refine yields_slot.bind fun start hstart => ?_
  split
  · refine yields_unify.bind fun _ _ => yields_addReader.bind fun _ _ => ?_
    exact yields_addWriter.mono fun _ _ => by omega
  · exact yields_throw

theorem yields_saveBase : Yields (saveBase i stack) fun r => r.length = stack.length + 1 := by
  refine yields_get.bind fun s _ => ?_
  have hsave : Yields (do
      modify fun s => { s with bases := stack :: s.bases }
      push i .int stack) fun r => r.length = stack.length + 1 := by
    refine (yields_modify fun _ => ?_).bind fun _ _ => yields_push
    exact ⟨rfl, rfl, rfl⟩
  dsimp only
  split
  · refine Yields.bind (yields_modify fun _ => ?_) fun _ _ => ?_
    · exact ⟨rfl, rfl, rfl⟩
    · exact (yields_forM (fun v => yields_updateVar v _) _).bind fun _ _ => hsave
  · exact hsave

theorem yields_restoreBase : Yields (restoreBase i stack) fun r => r.length + 1 = stack.length := by
  refine yields_base.bind fun _ _ => yields_popTyped.bind fun r hr => ?_
  refine (yields_modify fun _ => ?_).bind fun _ _ => yields_pure hr
  exact ⟨rfl, rfl, rfl⟩

theorem yields_keep {run : Sim Cells} {writes : Writes} {change : Option DepthChange}
    (h : Yields run fun r => change.bind (·.after stack.length) = some r.length) :
    Yields (do return (← run, writes)) fun r =>
      change.bind (·.after stack.length) = some r.1.length :=
  h.bind fun _ hr => yields_pure hr

/-- Instructions do to the stack what their reading says. -/
theorem exec_yields {height : Nat} {writes : Writes} :
    Yields (exec table height i stack writes) fun r =>
      (depthChange? table i).bind (·.after stack.length) = some r.1.length := by
  unfold exec depthChange?
  cases i.opcode with
  | cpdownsp =>
    dsimp only
    cases i.operand with
    | cells start size =>
      refine yields_copyDownSP.bind fun _ hlen => yields_pure ?_
      simp only [Option.bind_some, DepthChange.after_trade]
      omega
    | _ => exact yields_throw
  | cpdownbp =>
    dsimp only
    cases i.operand with
    | cells start size =>
      refine yields_copyDownBP.bind fun _ hlen => yields_pure ?_
      simp only [Option.bind_some, DepthChange.after_trade]
      omega
    | _ => exact yields_throw
  | cptopsp =>
    dsimp only
    cases i.operand with
    | cells start size =>
      have hsource : Yields (pure stack) (· = stack) := yields_pure rfl
      refine yields_keep ((yields_copyTop hsource).mono fun r hr => ?_)
      obtain ⟨hlen, -, cells, rfl, hreach⟩ := hr
      simp only [Option.bind_some, DepthChange.after_trade]
      omega
    | _ => exact yields_throw
  | cptopbp =>
    dsimp only
    cases i.operand with
    | cells start size =>
      refine yields_keep ((yields_copyTop yields_base).mono fun r hr => ?_)
      simp only [Option.bind_some, DepthChange.after_trade]
      omega
    | _ => exact yields_throw
  | rsadd | const =>
    refine yields_keep (yields_single.bind fun type _ => yields_push.mono fun r hr => ?_)
    simp [hr]
  | action =>
    dsimp only
    cases i.operand with
    | call routine argc =>
      refine yields_keep (yields_engineCall.mono fun r hr => ?_)
      obtain ⟨signature, params, hfind, hpassed, hafter⟩ := hr
      simpa [hfind, hpassed, Except.toOption] using hafter
    | _ => exact yields_throw
  | logand | logor | incor | excor | booland | shleft | shright | ushright | mod | comp | noti =>
    exact yields_keep yields_replace
  | eq | neq | geq | gt | lt | leq =>
    dsimp only
    split
    · cases i.operand with
      | width size =>
        refine yields_keep (yields_cellsIn.bind fun count hcount => ?_)
        refine yields_pop.bind fun t ht => yields_push.mono fun r hr => ?_
        simp only [Option.bind_some, DepthChange.after_swap]
        omega
      | _ => exact yields_throw
    · refine yields_keep (yields_operands.bind fun o ho => yields_binary.mono fun r hr => ?_)
      simpa [ho] using hr
  | add | sub | mul | div =>
    refine yields_keep (yields_operands.bind fun o ho => ?_)
    split
    · exact yields_refuse
    · exact yields_binary.mono fun r hr => by simpa [ho] using hr
  | neg => exact yields_keep (yields_single.bind fun type _ => yields_replace)
  | movsp =>
    dsimp only
    cases i.operand with
    | offset value =>
      refine yields_keep ?_
      split
      · exact yields_refuse
      · refine yields_cellsIn.bind fun count hcount => yields_pop.bind fun t ht => yields_pure ?_
        simp only [Option.bind_some, DepthChange.after_swap]
        omega
    | _ => exact yields_throw
  | jz | jnz =>
    refine yields_keep (yields_popTyped.mono fun r hr => ?_)
    simp only [Option.bind_some, DepthChange.after_swap, List.length_singleton] at hr ⊢
    omega
  | destruct =>
    dsimp only
    cases i.operand with
    | region size start keepSize =>
      refine yields_keep (yields_destroy.mono fun r hr => ?_)
      rw [← hr]
      dsimp only
      split <;> rfl
    | _ => exact yields_throw
  | decisp | incisp =>
    dsimp only
    cases i.operand with
    | offset value =>
      refine yields_adjust.bind fun _ hlen => yields_pure ?_
      simp only [Option.bind_some, DepthChange.after_trade]
      omega
    | _ => exact yields_throw
  | decibp | incibp =>
    dsimp only
    cases i.operand with
    | offset value =>
      exact yields_base.bind fun _ _ => yields_adjust.bind fun _ _ => yields_pure (by simp)
    | _ => exact yields_throw
  | savebp => exact yields_keep (yields_saveBase.mono fun r hr => by simp [hr])
  | restorebp =>
    refine yields_keep (yields_restoreBase.mono fun r hr => ?_)
    simp only [Option.bind_some, DepthChange.after_swap]
    omega
  | jmp | jsr | retn | nop | storestate | storestateall => exact yields_pure (by simp)

theorem yields_replayWrites {writes : Writes} :
    Yields (replayWrites i stack writes) fun _ => True := by
  induction writes with
  | nil => exact yields_pure trivial
  | cons w writes ih =>
    unfold replayWrites
    dsimp only
    split
    · exact yields_refuse
    · split
      · exact yields_unify.bind fun _ _ => yields_addWriter.bind fun _ _ => ih
      · exact yields_throw.bind (P := fun _ => True) fun _ _ => ih

/-- Calls add the delta of the callee. -/
theorem replay_yields {effect : Effect} :
    Yields (replay i effect stack) fun r => effect.after stack.length = some r.length := by
  refine yields_replayWrites.bind fun _ _ => ?_
  unfold Effect.after
  cases effect.delta with
  | none => exact yields_pure rfl
  | some delta =>
    dsimp only
    split
    · refine yields_pop.bind fun r hr => yields_pure ?_
      rw [if_pos (by omega), Option.some.injEq]
      omega
    · refine yields_pushAll.mono fun r hr => ?_
      rw [List.length_replicate] at hr
      rw [if_pos (by omega), Option.some.injEq]
      omega

end

end Sim

end ScriptFlow.Stack
