import ScriptFlow.Proofs.Stack.Depth
import Mathlib.Tactic.IntervalCases

/-! # Instructions by the cells they leave in place

The reading of an instruction that tells the depth behind it tells more: which of the lowest cells stay
where they are. What lies above them was on the stack before, or is a variable made by then. So every
instruction trades a fixed number of cells on top for others, whatever lies below and whatever the
cells are. The one exception is a region of negative size, which cuts the stack at a fixed height. -/

namespace ScriptFlow

/-- The instruction drops a region of negative size, which cuts the stack at a height. -/
def Instruction.Cuts (i : Instruction) : Prop :=
  i.opcode = .destruct ∧ ∃ size start keep, i.operand = .region size start keep ∧ size < 0

namespace Stack

/-- The number of the lowest cells that stay in place, of a stack of the given depth. -/
def DepthChange.leaves : DepthChange → Nat → Nat
  | .trade _ takes _, d => d - takes
  | .cut height, _ => height

/-- The lowest `n` cells are those of the stack; all above them was on the stack, or is one of the
first `m` variables. -/
def Rests (stack : Cells) (n m : Nat) (r : Cells) : Prop :=
  ∃ top, r = stack.take n ++ top ∧ ∀ v ∈ top, v ∈ stack ∨ v < m

section
variable {stack r : Cells} {n m : Nat}

theorem Rests.refl (stack : Cells) (m : Nat) : Rests stack stack.length m stack :=
  ⟨[], by simp, by simp⟩

theorem Rests.take (stack : Cells) (n m : Nat) : Rests stack n m (stack.take n) :=
  ⟨[], by simp, by simp⟩

/-- What is put on a stack cut short rests on the stack it was cut from. -/
theorem Rests.of_take (h : Rests (stack.take n) (stack.take n).length m r) : Rests stack n m r := by
  obtain ⟨top, rfl, htop⟩ := h
  refine ⟨top, by rw [List.take_length], fun v hv => ?_⟩
  exact (htop v hv).imp_left List.mem_of_mem_take

theorem Rests.mono {k : Nat} (h : Rests stack n m r) (hmk : m ≤ k) : Rests stack n k r := by
  obtain ⟨top, rfl, htop⟩ := h
  exact ⟨top, rfl, fun v hv => (htop v hv).imp_right fun hlt => Nat.lt_of_lt_of_le hlt hmk⟩

theorem Rests.mem (h : Rests stack n m r) : ∀ v ∈ r, v ∈ stack ∨ v < m := by
  obtain ⟨top, rfl, htop⟩ := h
  intro v hv
  rcases List.mem_append.mp hv with hv | hv
  · exact .inl (List.mem_of_mem_take hv)
  · exact htop v hv

theorem Rests.take_eq (h : Rests stack n m r) (hn : n ≤ stack.length) :
    r.take n = stack.take n := by
  obtain ⟨top, rfl, -⟩ := h
  rw [List.take_append_of_le_length (by simp [hn]), List.take_take, Nat.min_self]

theorem mem_of_mem_slice {α : Type} {xs : Array α} {first stop : Int} {x : α}
    (h : x ∈ Position.slice xs first stop) : x ∈ xs := by
  rw [Position.slice, Array.mem_toList_iff, Array.mem_extract_iff_getElem] at h
  obtain ⟨n, hn, rfl⟩ := h
  exact Array.getElem_mem _

end

namespace Sim

/-! ## Computations and the variables they make -/

section
variable {α β : Type} {x : Sim α} {f : α → Sim β} {P Q : Nat → α → Prop} {R : Nat → β → Prop}
variable {i : Instruction}

/-- Success loses no variable, and tells something of the result and the number of variables then. -/
def Issues (x : Sim α) (Q : Nat → α → Prop) : Prop :=
  ∀ s a t, x s = .ok a t → s.space.size ≤ t.space.size ∧ Q t.space.size a

theorem issues_pure {a : α} (h : ∀ m, Q m a) : Issues (pure a) Q := by
  intro s b t hb
  obtain ⟨rfl, rfl⟩ := pure_eq_ok.mp hb
  exact ⟨Nat.le_refl _, h _⟩

theorem Issues.bind (hx : Issues x P)
    (hf : ∀ m a, P m a → Issues (f a) fun n b => m ≤ n → R n b) : Issues (x >>= f) R := by
  intro s b t hb
  obtain ⟨a, u, ha, hb⟩ := bind_eq_ok.mp hb
  obtain ⟨hsu, hP⟩ := hx s a u ha
  obtain ⟨hut, hR⟩ := hf _ a hP u b t hb
  exact ⟨Nat.le_trans hsu hut, hR hut⟩

theorem Issues.mono (hx : Issues x P) (h : ∀ m a, P m a → Q m a) : Issues x Q := fun s a t ha =>
  ⟨(hx s a t ha).1, h _ a (hx s a t ha).2⟩

/-- What comes first is of no account for what comes next. -/
theorem Issues.then (hx : Issues x P) (hf : ∀ a, Issues (f a) R) : Issues (x >>= f) R :=
  hx.bind fun _ a _ => (hf a).mono fun _ _ h _ => h

theorem issues_throw {h : Halt} : Issues (throw h : Sim α) Q := nofun

theorem issues_refuse {c : Cause} : Issues (refuse i c : Sim α) Q := issues_throw

theorem issues_modify {g : State → State} (h : ∀ s, s.space.size ≤ (g s).space.size) :
    Issues (modify g : Sim Unit) fun _ _ => True := by
  intro s a t ha
  cases ha
  exact ⟨h s, trivial⟩

theorem issues_get : Issues (get : Sim State) fun _ _ => True := by
  intro s a t ha
  cases ha
  exact ⟨Nat.le_refl _, trivial⟩

theorem issues_forM {f : α → Sim Unit} (hf : ∀ a, Issues (f a) fun _ _ => True) (l : List α) :
    Issues (l.forM f) fun _ _ => True := by
  induction l with
  | nil => exact issues_pure fun _ => trivial
  | cons a l ih => exact (hf a).then fun _ => ih

end

section
variable {table : Engine.Table} {i : Instruction} {stack : Cells} {type : CellType}
variable {types : List CellType} {v : VarId} {source : Sim Cells} {offset : Int} {size : Nat}

theorem issues_updateVar (v : VarId) (f : Variable → Variable) :
    Issues (modify fun s => s.updateVar v f) fun _ _ => True :=
  issues_modify fun _ => by simp [State.updateVar]

theorem issues_addReader : Issues (addReader i v) fun _ _ => True := issues_updateVar v _

theorem issues_addWriter : Issues (addWriter i v) fun _ _ => True := issues_updateVar v _

theorem issues_unify : Issues (unify i type v) fun _ _ => True := by
  refine issues_get.then fun s => ?_
  dsimp only
  split
  · exact issues_pure fun _ => trivial
  · split
    · exact issues_updateVar v _
    · exact issues_refuse

theorem issues_create : Issues (create i type) fun m v => v < m := by
  intro s v t hv
  cases hv
  simp

theorem issues_createAll : Issues (createAll i types) fun m vs => ∀ v ∈ vs, v < m := by
  induction types with
  | nil => exact issues_pure fun _ => nofun
  | cons type types ih =>
    refine issues_create.bind fun m v hv => ih.bind fun n vs hvs => issues_pure fun k hnk hmk => ?_
    refine List.forall_mem_cons.mpr ⟨Nat.lt_of_lt_of_le hv hmk, fun w hw => ?_⟩
    exact Nat.lt_of_lt_of_le (hvs w hw) hnk

theorem issues_push : Issues (push i type stack) (Rests stack stack.length) := by
  refine issues_create.bind fun m v hv => issues_pure fun n hmn => ⟨[v], by simp, ?_⟩
  exact List.forall_mem_singleton.mpr (.inr (Nat.lt_of_lt_of_le hv hmn))

theorem issues_pushAll : Issues (pushAll i types stack) (Rests stack stack.length) := by
  refine issues_createAll.bind fun m vs hvs => issues_pure fun n hmn => ⟨vs, by simp, fun v hv => ?_⟩
  exact .inr (Nat.lt_of_lt_of_le (hvs v hv) hmn)

theorem issues_cut {height : Nat} :
    Issues (cut i height stack) fun _ r => r.1 = stack.take height :=
  (issues_forM (fun _ => issues_addReader) _).then fun _ => issues_pure fun _ => rfl

theorem issues_pop {count : Nat} : Issues (pop i count stack) fun _ r =>
    count ≤ stack.length ∧ r.1 = stack.take (stack.length - count) := by
  unfold pop
  split
  · exact issues_refuse
  · rename_i hcount
    exact issues_cut.mono fun _ r hr => ⟨by omega, hr⟩

theorem issues_popTyped : Issues (popTyped i types stack) fun _ r =>
    types.length ≤ stack.length ∧ r = stack.take (stack.length - types.length) := by
  refine issues_pop.bind fun _ r hr => ?_
  refine (issues_forM (fun _ => issues_unify) _).then fun _ => issues_pure fun _ _ => hr

theorem issues_cellsIn {value : Int} : Issues (cellsIn i value) fun _ n => n = value / 4 := by
  unfold cellsIn
  split
  · exact issues_pure fun _ => rfl
  · exact issues_refuse

theorem issues_slot {count : Int} : Issues (slot i offset count stack) fun _ _ => True := by
  refine issues_cellsIn.then fun n => ?_
  dsimp only
  split
  · exact issues_refuse
  · exact issues_pure fun _ => trivial

theorem issues_base : Issues (base i) fun _ _ => True := by
  refine issues_get.then fun s => ?_
  split
  · exact issues_pure fun _ => trivial
  · exact issues_refuse

theorem issues_single : Issues (single i) fun _ _ => True := by
  unfold single
  split
  · exact issues_pure fun _ => trivial
  · exact issues_refuse

theorem issues_operands : Issues (operands i) fun _ o => operands? i.type = some o := by
  unfold operands
  split
  · exact issues_pure fun _ => by assumption
  · exact issues_refuse

/-! ## Copies -/

theorem issues_copies {vs : Cells} : Issues (copies i vs) fun m ws => ∀ w ∈ ws, w < m := by
  induction vs with
  | nil => exact issues_pure fun _ => nofun
  | cons v vs ih =>
    refine issues_addReader.then fun _ => issues_get.then fun s => ?_
    refine issues_create.bind fun m w hw => ih.bind fun n ws hws => issues_pure fun k hnk hmk => ?_
    refine List.forall_mem_cons.mpr ⟨Nat.lt_of_lt_of_le hw hmk, fun w' hw' => ?_⟩
    exact Nat.lt_of_lt_of_le (hws w' hw') hnk

theorem issues_copyDown {note : Nat → CellType → Writes → Writes} {n : Nat}
    {pairs : List (VarId × VarId)} {writes : Writes} :
    Issues (copyDown i note n pairs writes) fun _ _ => True := by
  induction pairs generalizing n writes with
  | nil => exact issues_pure fun _ => trivial
  | cons pair pairs ih =>
    refine issues_get.then fun _ => issues_unify.then fun _ => issues_get.then fun _ => ?_
    exact issues_unify.then fun _ => issues_addWriter.then fun _ => issues_get.then fun _ => ih

theorem issues_copySpan (hsource : Issues source fun _ _ => True) :
    Issues (copySpan i offset size stack source) fun _ _ => True := by
  refine issues_cellsIn.then fun n => ?_
  dsimp only
  split
  · exact issues_refuse
  · exact hsource.then fun _ => issues_slot.then fun _ => issues_pure fun _ => trivial

theorem issues_copyTop (hsource : Issues source fun _ _ => True) :
    Issues (copyTop i offset size stack source) (Rests stack stack.length) := by
  refine (issues_copySpan hsource).then fun span => ?_
  refine issues_copies.bind fun m vs hvs => issues_pure fun n hmn => ⟨vs, by simp, fun v hv => ?_⟩
  exact .inr (Nat.lt_of_lt_of_le (hvs v hv) hmn)

theorem issues_copyDownSP {height : Nat} {writes : Writes} :
    Issues (copyDownSP i offset size height stack writes) fun _ _ => True :=
  (issues_copySpan (issues_pure fun _ => trivial)).then fun _ => issues_copyDown

theorem issues_copyDownBP : Issues (copyDownBP i offset size stack) fun _ _ => True :=
  (issues_copySpan issues_base).then fun _ => issues_copyDown.then fun _ =>
    issues_pure fun _ => trivial

/-! ## Instructions -/

theorem issues_popParams {params : List CellType} : Issues (popParams i params stack) fun _ r =>
    cellCount params ≤ stack.length ∧ r = stack.take (stack.length - cellCount params) := by
  induction params generalizing stack with
  | nil => exact issues_pure fun _ => ⟨Nat.zero_le _, by simp [cellCount]⟩
  | cons param params ih =>
    refine issues_popTyped.bind fun _ r hr => ih.mono fun _ t ht _ => ?_
    obtain ⟨hlen, rfl⟩ := hr
    obtain ⟨hlen', rfl⟩ := ht
    rw [length_cellsOf] at hlen hlen'
    rw [List.length_take] at hlen'
    simp only [cellCount, List.take_take, List.length_take, length_cellsOf]
    exact ⟨by omega, by congr 1; omega⟩

theorem issues_engineCall {routine argc : Nat} : Issues (engineCall table i routine argc stack)
    fun m r => ∃ signature params, table.find? routine = some signature ∧
      signature.passed argc = .ok params ∧
      Rests stack (stack.length - cellCount params) m r := by
  unfold engineCall
  split
  · exact issues_refuse
  · rename_i signature hfind
    split
    · exact issues_refuse
    · rename_i params hpassed
      refine issues_popParams.bind fun _ left hleft => ?_
      obtain ⟨-, rfl⟩ := hleft
      exact issues_pushAll.mono fun m r hr _ => ⟨signature, params, hfind, hpassed, hr.of_take⟩

theorem issues_binary {o : Operands} {result : List CellType} :
    Issues (binary i o result stack)
      (Rests stack (stack.length - (o.left.length + o.right.length))) := by
  refine issues_popTyped.bind fun _ left hleft => issues_popTyped.bind fun _ base hbase => ?_
  obtain ⟨hlen, rfl⟩ := hleft
  obtain ⟨hlen', rfl⟩ := hbase
  refine issues_pushAll.mono fun m r hr _ _ => ?_
  rw [List.take_take] at hr
  have hleft : min ((stack.take (stack.length - o.right.length)).length - o.left.length)
      (stack.length - o.right.length) = stack.length - (o.left.length + o.right.length) := by
    rw [List.length_take]
    omega
  exact hleft ▸ hr.of_take

/-- Operands are replaced by one result. -/
theorem issues_replace : Issues (do push i type (← popTyped i types stack))
    (Rests stack (stack.length - types.length)) := by
  refine issues_popTyped.bind fun _ left hleft => ?_
  obtain ⟨-, rfl⟩ := hleft
  exact issues_push.mono fun m r hr _ => hr.of_take

theorem issues_destroy {size start keep : Int} : Issues (destroy i size start keep stack) (Rests stack
    (if size < 0 then (-(size / 4)).toNat else stack.length - (size / 4).toNat)) := by
  refine issues_cellsIn.bind fun _ count hcount => ?_
  split
  · exact issues_refuse
  · refine issues_cellsIn.then fun first => issues_cellsIn.then fun length => ?_
    refine issues_cut.bind fun _ left hleft => issues_pure fun m _ _ => ?_
    rw [hleft]
    refine ⟨_, congrArg₂ _ (congrArg₂ _ ?_ rfl) rfl, fun v hv => .inl ?_⟩
    · split <;> split <;> omega
    · split at hv
      · cases hv
      · exact List.mem_of_mem_drop (List.mem_toArray.mp (mem_of_mem_slice hv))

theorem issues_adjust {cells : Cells} : Issues (adjust i offset cells) fun _ _ => True := by
  refine issues_slot.then fun start => ?_
  split
  · exact issues_unify.then fun _ => issues_addReader.then fun _ => issues_addWriter
  · exact issues_throw

theorem issues_saveBase : Issues (saveBase i stack) (Rests stack stack.length) := by
  have hsave : Issues (do
      modify fun s => { s with bases := stack :: s.bases }
      push i .int stack) (Rests stack stack.length) := by
    refine (issues_modify fun _ => ?_).then fun _ => issues_push
    exact Nat.le_refl _
  refine issues_get.then fun s => ?_
  dsimp only
  split
  · refine Issues.then (issues_modify fun _ => ?_) fun _ => ?_
    · exact Nat.le_refl _
    · exact (issues_forM (fun v => issues_updateVar v _) _).then fun _ => hsave
  · exact hsave

theorem issues_restoreBase :
    Issues (restoreBase i stack) (Rests stack (stack.length - 1)) := by
  refine issues_base.then fun _ => issues_popTyped.bind fun _ r hr => ?_
  obtain ⟨-, rfl⟩ := hr
  refine (issues_modify fun _ => ?_).bind fun _ _ _ => issues_pure fun m _ _ => Rests.take stack _ m
  exact Nat.le_refl _

/-- The reading of an instruction tells the cells that stay in place. -/
def Kept (change : Option DepthChange) (stack : Cells) (m : Nat) (r : Cells) : Prop :=
  ∃ c, change = some c ∧ Rests stack (c.leaves stack.length) m r

theorem issues_keep {run : Sim Cells} {writes : Writes} {change : Option DepthChange}
    (h : Issues run (Kept change stack)) :
    Issues (do return (← run, writes)) fun m r => Kept change stack m r.1 := by
  refine h.bind fun m r hr => issues_pure fun n hmn => ?_
  obtain ⟨c, hc, hrests⟩ := hr
  exact ⟨c, hc, hrests.mono hmn⟩

/-- An instruction that succeeds leaves the cells in place that its reading tells. -/
theorem exec_issues {height : Nat} {writes : Writes} :
    Issues (exec table height i stack writes) fun m r =>
      Kept (depthChange? table i) stack m r.1 := by
  unfold exec depthChange?
  cases i.opcode with
  | cpdownsp =>
    dsimp only
    cases i.operand with
    | cells start size =>
      exact issues_copyDownSP.then fun _ => issues_pure fun m => ⟨_, rfl, .refl stack m⟩
    | _ => exact issues_throw
  | cpdownbp =>
    dsimp only
    cases i.operand with
    | cells start size =>
      exact issues_copyDownBP.then fun _ => issues_pure fun m => ⟨_, rfl, .refl stack m⟩
    | _ => exact issues_throw
  | cptopsp =>
    dsimp only
    cases i.operand with
    | cells start size =>
      refine issues_keep ((issues_copyTop (issues_pure fun _ => trivial)).mono fun m r hr => ?_)
      exact ⟨_, rfl, hr⟩
    | _ => exact issues_throw
  | cptopbp =>
    dsimp only
    cases i.operand with
    | cells start size =>
      exact issues_keep ((issues_copyTop issues_base).mono fun m r hr => ⟨_, rfl, hr⟩)
    | _ => exact issues_throw
  | rsadd | const =>
    exact issues_keep (issues_single.then fun _ => issues_push.mono fun m r hr => ⟨_, rfl, hr⟩)
  | action =>
    dsimp only
    cases i.operand with
    | call routine argc =>
      refine issues_keep (issues_engineCall.mono fun m r hr => ?_)
      obtain ⟨signature, params, hfind, hpassed, hrests⟩ := hr
      exact ⟨.swap _ _, by simp [hfind, hpassed, Except.toOption]; rfl, hrests⟩
    | _ => exact issues_throw
  | logand | logor | incor | excor | booland | shleft | shright | ushright | mod | comp | noti =>
    exact issues_keep (issues_replace.mono fun m r hr => ⟨_, rfl, hr⟩)
  | eq | neq | geq | gt | lt | leq =>
    dsimp only
    split
    · cases i.operand with
      | width size =>
        refine issues_keep (issues_cellsIn.bind fun _ count hcount => ?_)
        refine issues_pop.bind fun _ left hleft => ?_
        rw [hleft.2]
        refine issues_push.mono fun m r hr _ _ => ⟨_, rfl, ?_⟩
        have hcells : 2 * count.toNat = 2 * (size / 4) := by omega
        rw [hcells] at hr
        exact hr.of_take
      | _ => exact issues_throw
    · refine issues_keep (issues_operands.bind fun _ o ho => ?_)
      exact issues_binary.mono fun m r hr _ => ⟨.swap _ _, by rw [ho]; rfl, hr⟩
  | add | sub | mul | div =>
    refine issues_keep (issues_operands.bind fun _ o ho => ?_)
    split
    · exact issues_refuse
    · exact issues_binary.mono fun m r hr _ => ⟨.swap _ _, by rw [ho]; rfl, hr⟩
  | neg =>
    exact issues_keep (issues_single.then fun _ => issues_replace.mono fun m r hr => ⟨_, rfl, hr⟩)
  | movsp =>
    dsimp only
    cases i.operand with
    | offset value =>
      refine issues_keep ?_
      split
      · exact issues_refuse
      · refine issues_cellsIn.bind fun _ count hcount => issues_pop.bind fun _ left hleft => ?_
        refine issues_pure fun m _ _ => ⟨_, rfl, ?_⟩
        rw [hleft.2, hcount]
        exact .take stack _ m
    | _ => exact issues_throw
  | jz | jnz =>
    refine issues_keep (issues_popTyped.mono fun m r hr => ⟨_, rfl, ?_⟩)
    rw [hr.2]
    exact .take stack _ m
  | destruct =>
    dsimp only
    cases i.operand with
    | region size start keepSize =>
      refine issues_keep (issues_destroy.mono fun m r hr => ?_)
      dsimp only
      split
      · rename_i hneg
        rw [if_pos hneg] at hr
        exact ⟨_, rfl, hr⟩
      · rename_i hnonneg
        rw [if_neg hnonneg] at hr
        exact ⟨_, rfl, hr⟩
    | _ => exact issues_throw
  | decisp | incisp =>
    dsimp only
    cases i.operand with
    | offset value =>
      exact issues_adjust.then fun _ => issues_pure fun m => ⟨_, rfl, .refl stack m⟩
    | _ => exact issues_throw
  | decibp | incibp =>
    dsimp only
    cases i.operand with
    | offset value =>
      exact issues_base.then fun _ => issues_adjust.then fun _ =>
        issues_pure fun m => ⟨_, rfl, .refl stack m⟩
    | _ => exact issues_throw
  | savebp => exact issues_keep (issues_saveBase.mono fun m r hr => ⟨_, rfl, hr⟩)
  | restorebp => exact issues_keep (issues_restoreBase.mono fun m r hr => ⟨_, rfl, hr⟩)
  | jmp | jsr | retn | nop | storestate | storestateall =>
    exact issues_pure fun m => ⟨_, rfl, .refl stack m⟩

theorem issues_replayWrites {writes : Writes} :
    Issues (replayWrites i stack writes) fun _ _ => True := by
  induction writes with
  | nil => exact issues_pure fun _ => trivial
  | cons w writes ih =>
    unfold replayWrites
    dsimp only
    split
    · exact issues_refuse
    · split
      · exact issues_unify.then fun _ => issues_addWriter.then fun _ => ih
      · exact issues_throw.then (P := fun _ _ => True) fun _ => ih

/-- Behind a call the stack of the caller has its own cells, and variables made by then. -/
theorem replay_issues {effect : Effect} : Issues (replay i effect stack) fun m r =>
    ∀ v ∈ r, v ∈ stack ∨ v < m := by
  refine issues_replayWrites.then fun _ => ?_
  split
  · exact issues_pure fun m => (Rests.refl stack m).mem
  · split
    · refine issues_pop.bind fun _ left hleft => issues_pure fun m _ => ?_
      rw [hleft.2]
      exact (Rests.take stack _ m).mem
    · exact issues_pushAll.mono fun m r hr => hr.mem

end

end Sim

/-! ## Trades -/

section
variable {table : Engine.Table} {i : Instruction}

theorem exists_trade_of_swap {c : DepthChange} {takes gives : Nat}
    (h : some (DepthChange.swap takes gives) = some c) :
    ∃ needs takes gives, c = .trade needs takes gives ∧ takes ≤ needs := by
  cases h
  exact ⟨takes, takes, gives, rfl, Nat.le_refl _⟩

/-- All other instructions are read as trades, and what they take has to be there. -/
theorem exists_trade {c : DepthChange} (hcuts : ¬ i.Cuts)
    (h : depthChange? table i = some c) :
    ∃ needs takes gives, c = .trade needs takes gives ∧ takes ≤ needs := by
  unfold depthChange? at h
  cases hop : i.opcode with
  | cpdownsp | cptopsp | cpdownbp | cptopbp | decisp | incisp =>
    simp only [hop] at h
    split at h
    · cases h
      exact ⟨_, _, _, rfl, Nat.zero_le _⟩
    · cases h
  | action =>
    simp only [hop] at h
    split at h
    · obtain ⟨signature, -, h⟩ := Option.bind_eq_some_iff.mp h
      obtain ⟨params, -, h⟩ := Option.bind_eq_some_iff.mp h
      exact exists_trade_of_swap h
    · cases h
  | eq | neq | geq | gt | lt | leq =>
    simp only [hop] at h
    split at h
    · split at h
      · exact exists_trade_of_swap h
      · cases h
    · obtain ⟨o, -, h⟩ := Option.map_eq_some_iff.mp h
      exact exists_trade_of_swap (congrArg some h)
  | add | sub | mul | div =>
    simp only [hop] at h
    obtain ⟨o, -, h⟩ := Option.map_eq_some_iff.mp h
    exact exists_trade_of_swap (congrArg some h)
  | movsp =>
    simp only [hop] at h
    split at h
    · exact exists_trade_of_swap h
    · cases h
  | destruct =>
    simp only [hop] at h
    split at h
    · rename_i size start keep hoperand
      split at h
      · rename_i hneg
        exact absurd ⟨hop, size, start, keep, hoperand, hneg⟩ hcuts
      · exact exists_trade_of_swap h
    · cases h
  | _ =>
    simp only [hop] at h
    exact exists_trade_of_swap h

/-- An instruction that does not cut the stack takes a fixed number of cells off the top and changes
the depth by a fixed number, which it and the signatures of engine routines tell. Whatever the stack
and whatever is known, if it succeeds these cells were there, and all below them stay as they were. -/
theorem exec_trades (table : Engine.Table) (i : Instruction) (hcuts : ¬ i.Cuts) :
    ∃ (d : Int) (p : Nat), ∀ (height : Nat) (stack : Cells) (writes : Writes) (s : State)
      (r : Cells × Writes) (t : State), Sim.exec table height i stack writes s = .ok r t →
      p ≤ stack.length ∧ (r.1.length : Int) = stack.length + d ∧
        r.1.take (stack.length - p) = stack.take (stack.length - p) := by
  cases hchange : depthChange? table i with
  | none =>
    refine ⟨0, 0, fun height stack writes s r t h => ?_⟩
    obtain ⟨-, c, hc, -⟩ := Sim.exec_issues s r t h
    rw [hchange] at hc
    cases hc
  | some c =>
    obtain ⟨needs, takes, gives, rfl, hle⟩ := exists_trade hcuts hchange
    refine ⟨gives - takes, takes, fun height stack writes s r t h => ?_⟩
    have hlen := (Sim.exec_yields s r t h).2
    obtain ⟨-, c, hc, hrests⟩ := Sim.exec_issues s r t h
    rw [hchange] at hlen hc
    cases hc
    simp only [Option.bind_some, DepthChange.after_trade] at hlen
    exact ⟨by omega, by omega, hrests.take_eq (Nat.sub_le _ _)⟩

/-- A region of three cells of which the middle one is kept. -/
def keepMiddle : Instruction := ⟨13, .destruct, 1, 8, .region 12 4 4⟩

/-- Three cells are taken for one, whether there are three or five. -/
theorem keepMiddle_trades : ∃ (d : Int) (p : Nat),
    (∀ (height : Nat) (stack : Cells) (writes : Writes) (s : State) (r : Cells × Writes) (t : State),
      Sim.exec {} height keepMiddle stack writes s = .ok r t →
      p ≤ stack.length ∧ (r.1.length : Int) = stack.length + d ∧
        r.1.take (stack.length - p) = stack.take (stack.length - p)) ∧
    Sim.exec {} 0 keepMiddle [0, 1, 2] [] {} = .ok ([1], []) {} ∧
    Sim.exec {} 0 keepMiddle [0, 1, 2, 3, 4] [] {} = .ok ([0, 1, 3], []) {} ∧ d = -2 ∧ p = 3 := by
  have hcuts : ¬ keepMiddle.Cuts := by
    rintro ⟨-, size, start, keep, hoperand, hneg⟩
    cases hoperand
    omega
  obtain ⟨d, p, htrades⟩ := exec_trades {} keepMiddle hcuts
  have hthree : Sim.exec {} 0 keepMiddle [0, 1, 2] [] {} = .ok ([1], []) {} := rfl
  have hfive : Sim.exec {} 0 keepMiddle [0, 1, 2, 3, 4] [] {} = .ok ([0, 1, 3], []) {} := rfl
  refine ⟨d, p, htrades, hthree, hfive, ?_⟩
  obtain ⟨hmost, hlen, -⟩ := htrades 0 _ [] {} _ {} hthree
  obtain ⟨-, -, hsame⟩ := htrades 0 _ [] {} _ {} hfive
  simp only [List.length_cons, List.length_nil] at hmost hlen hsame
  have hleast : ¬ p < 3 := by
    intro hlt
    interval_cases p <;> cases hsame
  omega

end

end Stack

end ScriptFlow
