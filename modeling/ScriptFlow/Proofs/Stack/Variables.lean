import ScriptFlow.Proofs.Stack.Space
import ScriptFlow.Proofs.Stack.Trades
import ScriptFlow.Proofs.Stack.Writes

/-! # The variables of an analysis

At every moment of an analysis each variable is named by its position in the space, and every stack in
use, every base pointer and the globals are made of such names. The variables marked as global are the
globals, and these are the stack of the first base pointer saved that was not empty. All of this holds
as well when a step fails, whatever it had done by then. -/

namespace ScriptFlow.Stack

/-- All the cells are variables of a space of the given size. -/
def Cells.Within (n : Nat) (cells : Cells) : Prop := ∀ v ∈ cells, v < n

/-- The stacks that a frame carries: the one it goes on with, and those of the blocks in line. -/
def Frame.carried (f : Frame) : List Cells := f.cursor.stack :: f.pending.map Prod.snd

/-- The stacks of a frame are made of variables, and what it has written takes single cells. -/
structure Frame.Accounted (n : Nat) (f : Frame) : Prop where
  carried : ∀ stack ∈ f.carried, stack.Within n
  writes : f.writes.OneCell

/-- Each variable is named by its position, takes one cell, and is marked as global exactly if it is
one of the globals; base pointers and globals are made of variables. -/
structure State.Accounted (s : State) : Prop extends s.OneCell where
  ids : ∀ (v : Nat) x, s.space[v]? = some x → x.id = v
  bases : ∀ cells ∈ s.bases, cells.Within s.space.size
  globals : s.globals.Within s.space.size
  marked : ∀ (v : Nat) x, s.space[v]? = some x → (x.isGlobal = true ↔ v ∈ s.globals)

/-- The same at a point, with the stacks of all its frames made of variables. -/
structure Point.Accounted (x : Point) : Prop where
  state : x.state.Accounted
  frames : ∀ f ∈ x.frames, f.Accounted x.state.space.size

/-- The frame is about to save a base pointer, with the stack it has. -/
def Frame.save? (f : Frame) : Option Cells :=
  match f.cursor with
  | .running _ (i :: _) stack => if i.opcode = .savebp then some stack else none
  | _ => none

/-- The stack that becomes the globals at the point, unless there are globals by then. -/
def Point.saves? (x : Point) : Option Cells :=
  (x.frames.head?.bind Frame.save?).filter fun stack => !stack.isEmpty

namespace Sim

section
variable {p : Program} {f : Frame} {outer : List Frame} {b : BlockId} {stack : Cells}
variable {sub : Subroutine} {site : Int}

/-! ## Steps that widen the space -/

theorem widening_enqueue : Widening (enqueue p b stack f) fun _ => True := by
  refine widening_get.bind fun s _ => ?_
  split
  · split
    · exact widening_pure trivial
    · exact widening_throw
  · refine (widening_modify fun s => ?_).bind fun _ _ => widening_pure trivial
    exact .of_space rfl rfl (fun _ => id) fun _ => .inl

theorem widening_enter : Widening (enter p site sub stack) fun _ => True := by
  refine widening_get.bind fun s _ => ?_
  split
  · exact widening_throw
  · split
    · exact widening_throw
    · refine (widening_modify fun s => ?_).bind fun _ _ => widening_enqueue
      exact .of_space rfl rfl (fun _ => id) fun _ => .inl

/-- A frame is closed with what it has written, which takes single cells. -/
theorem widening_close (hwrites : f.writes.OneCell) : Widening (close f) fun _ => True := by
  refine widening_modify fun s => .of_space rfl rfl (fun _ => id) fun e he => ?_
  rcases List.mem_append.mp he with he | he
  · exact .inl he
  · rw [List.mem_singleton.mp he]
    exact .inr hwrites

theorem widening_noteReturn : Widening (noteReturn stack f) fun _ => True := by
  unfold noteReturn
  dsimp only
  split
  · split
    · exact widening_pure trivial
    · exact widening_throw
  · exact widening_pure trivial

theorem widening_finish : Widening (finish p b stack f) fun _ => True := by
  refine Widening.bind (widening_modify fun s => ?_) fun _ _ => ?_
  · exact .of_space rfl rfl (fun _ => id) fun _ => .inl
  · dsimp only
    split
    · exact widening_throw
    · split
      · exact widening_noteReturn.bind fun _ _ => widening_pure trivial
      · split
        · split
          · refine widening_get.bind fun s _ => ?_
            split
            · exact widening_enqueue.bind fun _ _ => widening_pure trivial
            · exact widening_pure trivial
            · exact widening_throw
          · exact widening_throw
        · exact widening_pure trivial

/-- A step that saves no base pointer widens the space, whether it fails or not. -/
theorem widening_step (hsave : f.save? = none) (hwrites : f.writes.OneCell) :
    Widening (step p f outer) fun _ => True := by
  unfold step
  split
  · split
    · exact (widening_close hwrites).bind fun _ _ => widening_pure trivial
    · exact widening_pure trivial
  · exact widening_finish.bind fun _ _ => widening_pure trivial
  · rename_i b i rest stack hcursor
    have hop : i.opcode ≠ .savebp := by
      intro hop
      simp [Frame.save?, hcursor, hop] at hsave
    split
    · split
      · exact widening_throw
      · refine widening_get.bind fun s hs => ?_
        split
        · rename_i effect heffect
          exact (replay_widening (hs.effectOf? heffect)).bind fun _ _ => widening_pure trivial
        · exact widening_enter.bind fun _ _ => widening_pure trivial
    · exact (exec_widening hop hwrites).bind fun _ _ => widening_pure trivial
  · exact widening_pure trivial
  · dsimp only
    split
    · exact widening_pure trivial
    · split
      · split
        · exact widening_throw
        · refine widening_get.bind fun s _ => ?_
          split
          · exact widening_pure trivial
          · exact widening_enter.bind fun _ _ => widening_pure trivial
      · exact widening_enqueue.bind fun _ _ => widening_pure trivial

end

end Sim

/-! ## Saving a base pointer -/

/-- The state with the variables listed marked as global. -/
def State.mark (s : State) (cells : Cells) : State :=
  { s with space := s.space.mapIdx fun v x => if v ∈ cells then { x with isGlobal := true } else x }

/-- The state once a stack is saved as base pointer, but for the cell that is put on it then. -/
def State.saved (s : State) (stack : Cells) : State :=
  let t := if s.globals = [] then { s.mark stack with globals := stack } else s
  { t with bases := stack :: s.bases }

section
variable {s t : State} {stack cells : Cells}

theorem getElem?_space_mark (s : State) (cells : Cells) (v : Nat) : (s.mark cells).space[v]? =
    s.space[v]?.map fun x => if v ∈ cells then { x with isGlobal := true } else x := by
  simp [State.mark]

theorem size_space_mark : (s.mark cells).space.size = s.space.size := by simp [State.mark]

theorem State.mark_nil (s : State) : s.mark [] = s := by
  have hspace : (s.mark []).space = s.space := by
    refine Array.ext_getElem? fun v => ?_
    simp [getElem?_space_mark]
  exact congrArg (fun space => { s with space }) hspace

theorem State.mark_cons (s : State) (v : VarId) (cells : Cells) :
    s.mark (v :: cells) = (s.updateVar v fun x => { x with isGlobal := true }).mark cells := by
  have hspace : (s.mark (v :: cells)).space =
      ((s.updateVar v fun x => { x with isGlobal := true }).mark cells).space := by
    refine Array.ext_getElem? fun w => ?_
    rw [getElem?_space_mark, getElem?_space_mark, State.updateVar, Array.getElem?_modify]
    by_cases hv : v = w
    · subst hv
      cases s.space[v]? <;> simp
    · have hw : w ≠ v := fun h => hv h.symm
      simp [hv, hw]
  exact congrArg (fun space => { s with space }) hspace

theorem Sim.forM_mark (cells : Cells) (s : State) : (cells.forM fun v =>
    (modify fun s => s.updateVar v fun x => { x with isGlobal := true } : Sim Unit)) s =
      .ok () (s.mark cells) := by
  induction cells generalizing s with
  | nil =>
    rw [State.mark_nil]
    rfl
  | cons v cells ih =>
    rw [State.mark_cons]
    exact ih _

/-- A base pointer is saved whatever the stack, and an integer is put on it. -/
theorem Sim.saveBase_eq_push (i : Instruction) (stack : Cells) (s : State) :
    saveBase i stack s = push i .int stack (s.saved stack) := by
  obtain ⟨r, t, hpush⟩ : ∃ r t, push i .int stack (s.saved stack) = .ok r t := ⟨_, _, rfl⟩
  rw [hpush]
  simp only [saveBase, get_bind_eq_ok]
  by_cases hglobals : s.globals = []
  · simp only [State.saved, hglobals, if_true] at hpush
    rw [if_pos (by simp [hglobals])]
    exact bind_eq_ok.mpr ⟨(), _, rfl, bind_eq_ok.mpr ⟨(), _, forM_mark _ _, hpush⟩⟩
  · simp only [State.saved, hglobals, if_false] at hpush
    rw [if_neg (by simp [hglobals])]
    exact hpush

theorem getElem?_space_saved (s : State) (stack : Cells) (v : Nat) : (s.saved stack).space[v]? =
    s.space[v]?.map fun x =>
      if s.globals = [] ∧ v ∈ stack then { x with isGlobal := true } else x := by
  by_cases hglobals : s.globals = []
  · simp only [State.saved, hglobals, if_true, true_and]
    exact getElem?_space_mark s stack v
  · simp [State.saved, hglobals]

theorem size_space_saved : (s.saved stack).space.size = s.space.size := by
  unfold State.saved
  split
  · exact size_space_mark
  · rfl

theorem globals_saved :
    (s.saved stack).globals = if s.globals = [] then stack else s.globals := by
  unfold State.saved
  split <;> rfl

theorem bases_saved : (s.saved stack).bases = stack :: s.bases := rfl

theorem effects_saved : (s.saved stack).effects = s.effects := by
  unfold State.saved
  split <;> rfl

theorem grows_saved (s : State) (stack : Cells) : Grows s (s.saved stack) := by
  intro v x hx
  rw [getElem?_space_saved, hx]
  refine ⟨_, rfl, ?_⟩
  split
  · exact ⟨rfl, rfl, .inr rfl⟩
  · exact .refl x

theorem State.OneCell.saved (h : s.OneCell) (stack : Cells) : (s.saved stack).OneCell := by
  refine ⟨fun v y hy => ?_, by rw [effects_saved]; exact h.effects⟩
  rw [getElem?_space_saved] at hy
  obtain ⟨x, hx, rfl⟩ := Option.map_eq_some_iff.mp hy
  split <;> exact h.space v x hx

/-! ## States -/

theorem Cells.Within.mono {n m : Nat} (h : cells.Within n) (hnm : n ≤ m) : cells.Within m :=
  fun v hv => Nat.lt_of_lt_of_le (h v hv) hnm

theorem State.Accounted.widens (hs : s.Accounted) (h : Widens s t) : t.Accounted := by
  refine ⟨h.oneCell hs.toOneCell, fun v y hy => ?_, fun cells hcells => ?_, ?_, fun v y hy => ?_⟩
  · rcases h.origin hy with ⟨x, hx, hxy, -⟩ | ⟨-, hid, -⟩
    · rw [hxy.id, hs.ids v x hx]
    · exact hid
  · exact (hs.bases cells (h.bases cells hcells)).mono h.size
  · rw [h.globals]
    exact hs.globals.mono h.size
  · rw [h.globals]
    rcases h.origin hy with ⟨x, hx, -, hglobal⟩ | ⟨hv, -, hglobal⟩
    · rw [hglobal]
      exact hs.marked v x hx
    · rw [hglobal]
      exact ⟨nofun, fun hmem => absurd (hs.globals v hmem) (Nat.not_lt.mpr hv)⟩

theorem State.Accounted.saved (hs : s.Accounted) (hstack : stack.Within s.space.size) :
    (s.saved stack).Accounted := by
  refine ⟨hs.toOneCell.saved stack, fun v y hy => ?_, ?_, ?_, fun v y hy => ?_⟩
  · rw [getElem?_space_saved] at hy
    obtain ⟨x, hx, rfl⟩ := Option.map_eq_some_iff.mp hy
    split <;> exact hs.ids v x hx
  · rw [bases_saved, size_space_saved]
    exact List.forall_mem_cons.mpr ⟨hstack, hs.bases⟩
  · rw [globals_saved, size_space_saved]
    split
    · exact hstack
    · exact hs.globals
  · rw [getElem?_space_saved] at hy
    obtain ⟨x, hx, rfl⟩ := Option.map_eq_some_iff.mp hy
    have hmarked := hs.marked v x hx
    rw [globals_saved]
    by_cases hglobals : s.globals = []
    · rw [hglobals] at hmarked
      by_cases hv : v ∈ stack <;> simp [hglobals, hv] at hmarked ⊢
      exact hmarked
    · simp [hglobals, hmarked]

end

/-! ## Frames -/

section
variable {p : Program} {f g inner : Frame} {fs outer frames : List Frame} {s t : State}
variable {b : BlockId} {stack : Cells} {sub : Subroutine} {x y : Point} {n m : Nat}

namespace Frame.Accounted

theorem mono (hf : f.Accounted n) (hnm : n ≤ m) : f.Accounted m :=
  ⟨fun stack hstack => (hf.carried stack hstack).mono hnm, hf.writes⟩

theorem cursor (hf : f.Accounted n) : f.cursor.stack.Within n :=
  hf.carried _ List.mem_cons_self

theorem turn (hf : f.Accounted n) (cursor : Cursor) (h : cursor.stack.Within n) :
    { f with cursor }.Accounted n := by
  refine ⟨List.forall_mem_cons.mpr ⟨h, ?_⟩, hf.writes⟩
  exact (List.forall_mem_cons.mp hf.carried).2

theorem reached (hf : f.Accounted n) (hstack : stack.Within n) (h : Reached b stack f s g t) :
    g.Accounted n := by
  cases h with
  | known _ => exact hf
  | first _ =>
    refine ⟨fun cells hcells => ?_, hf.writes⟩
    simp only [Frame.carried, List.map_append, List.map_cons, List.map_nil, List.mem_cons,
      List.mem_append, List.not_mem_nil, or_false] at hcells
    rcases hcells with rfl | hcells | rfl
    · exact hf.cursor
    · exact hf.carried cells (List.mem_cons_of_mem _ hcells)
    · exact hstack

theorem entered (hstack : stack.Within n) (h : Entered sub stack s inner t) :
    inner.Accounted n := by
  obtain ⟨-, entry, -, hreached⟩ := h
  refine Frame.Accounted.reached ⟨?_, Writes.oneCell_nil⟩ hstack hreached
  exact List.forall_mem_singleton.mpr nofun

end Frame.Accounted

/-- What an instruction notes of its writes takes single cells, also if it saves a base pointer. -/
theorem Sim.exec_writes_oneCell {table : Engine.Table} {height : Nat} {i : Instruction}
    {writes : Writes} {r : Cells × Writes} (hs : s.OneCell) (hwrites : writes.OneCell)
    (h : exec table height i stack writes s = .ok r t) : r.2.OneCell := by
  by_cases hop : i.opcode = .savebp
  · rw [exec_writes_eq (by simp [hop]) s r t h]
    exact hwrites
  · exact ((exec_widening hop hwrites).ok hs h).2

/-- The frames that take the place of one carry its stacks, and variables made by then. -/
theorem Moves.accounted (h : Moves p f s fs t) (hs : s.OneCell) (hf : f.Accounted t.space.size) :
    ∀ g ∈ fs, g.Accounted t.space.size := by
  have hstack := hf.cursor
  have hmem : ∀ {cells after : Cells}, cells.Within t.space.size →
      (∀ v ∈ after, v ∈ cells ∨ v < t.space.size) → after.Within t.space.size :=
    fun hcells hafter v hv => (hafter v hv).elim (hcells v) id
  cases h with
  | close _ _ => exact nofun
  | pick _ hpending =>
    have hfirst := hf.carried _ (List.mem_cons_of_mem _ (by rw [hpending]; exact List.mem_cons_self))
    refine List.forall_mem_singleton.mpr ⟨List.forall_mem_cons.mpr ⟨hfirst, fun cells hcells => ?_⟩,
      hf.writes⟩
    refine hf.carried cells (List.mem_cons_of_mem _ ?_)
    rw [hpending]
    exact List.mem_cons_of_mem _ hcells
  | @exec b i rest stack after writes t hcursor _ hexec =>
    rw [hcursor] at hstack
    obtain ⟨-, c, -, hrests⟩ := Sim.exec_issues _ _ _ hexec
    have hafter : (Cursor.running b rest after).stack.Within t.space.size := hmem hstack hrests.mem
    refine List.forall_mem_singleton.mpr ⟨(hf.turn _ hafter).carried, ?_⟩
    exact Sim.exec_writes_oneCell hs hf.writes hexec
  | replay hcursor _ _ _ hreplay =>
    rw [hcursor] at hstack
    exact List.forall_mem_singleton.mpr (hf.turn _ (hmem hstack (Sim.replay_issues _ _ _ hreplay).2))
  | call hcursor _ _ _ henter | store hcursor _ _ _ henter =>
    rw [hcursor] at hstack
    exact List.forall_mem_cons.mpr ⟨.entered hstack henter, List.forall_mem_singleton.mpr hf⟩
  | back _ _ _ _ _ =>
    exact List.forall_mem_singleton.mpr ⟨(hf.turn .idle nofun).carried, hf.writes⟩
  | lost _ _ _ _ _ _ | left _ => exact List.forall_mem_singleton.mpr (hf.turn _ nofun)
  | resume hcursor _ _ _ _ _ hreached =>
    rw [hcursor] at hstack
    exact List.forall_mem_singleton.mpr ((hf.reached hstack hreached).turn _ nofun)
  | leave hcursor _ _ _ | skip hcursor _ =>
    rw [hcursor] at hstack
    exact List.forall_mem_singleton.mpr (hf.turn _ hstack)
  | follow hcursor _ _ _ hreached =>
    rw [hcursor] at hstack
    refine List.forall_mem_singleton.mpr (Frame.Accounted.reached ?_ hstack hreached)
    exact hf.turn _ hstack

/-! ## Steps -/

theorem Frame.save?_eq_some (h : f.save? = some stack) :
    ∃ b i rest, f.cursor = .running b (i :: rest) stack ∧ i.opcode = .savebp := by
  unfold Frame.save? at h
  split at h
  · rename_i b i rest stack hcursor
    split at h
    · cases h
      exact ⟨b, i, rest, hcursor, by assumption⟩
    · cases h
  · cases h

/-- A step that saves a base pointer never fails. -/
theorem Sim.step_save (p : Program) (outer : List Frame) (hs : s.OneCell)
    (h : f.save? = some stack) :
    ∃ frames t, step p f outer s = .ok frames t ∧ Widens (s.saved stack) t := by
  obtain ⟨b, i, rest, hcursor, hop⟩ := Frame.save?_eq_some h
  obtain ⟨r, t, hpush⟩ : ∃ r t, push i.toInstruction .int stack (s.saved stack) = .ok r t :=
    ⟨_, _, rfl⟩
  have hsave := (saveBase_eq_push i.toInstruction stack s).trans hpush
  refine ⟨{ f with cursor := .running b rest r } :: outer, t, ?_,
    ((widening_push rfl).ok (hs.saved stack) hpush).1⟩
  simp only [step, hcursor]
  rw [if_neg (by simp [hop]), exec_savebp hop]
  exact bind_eq_ok.mpr ⟨_, _, bind_eq_ok.mpr ⟨_, _, hsave, rfl⟩, rfl⟩

/-- A step widens the space, once it has saved the base pointer that it saves. -/
theorem Sim.step_widens (hs : s.OneCell) (hwrites : f.writes.OneCell)
    (h : step p f outer s = .ok frames t) : Widens (f.save?.elim s s.saved) t := by
  cases hsave : f.save? with
  | none => exact ((widening_step hsave hwrites).ok hs h).1
  | some stack =>
    obtain ⟨frames', t', hstep, hwidens⟩ := step_save p outer hs hsave
    rw [h] at hstep
    cases hstep
    exact hwidens

theorem Sim.step_error_widens {halt : Halt} (hs : s.OneCell) (hwrites : f.writes.OneCell)
    (h : step p f outer s = .error halt t) : f.save? = none ∧ Widens s t := by
  cases hsave : f.save? with
  | none => exact ⟨rfl, (widening_step hsave hwrites).error hs h⟩
  | some stack =>
    obtain ⟨frames', t', hstep, -⟩ := step_save p outer hs hsave
    rw [h] at hstep
    cases hstep

/-- What a point hands on: to the next one, or to where the step behind it fails. Globals are there to
stay; where there are none yet, the stack saved there makes them. -/
structure Point.HandsOn (x y : Point) : Prop where
  accounted : y.Accounted
  grows : Grows x.state y.state
  globals : y.state.globals = if x.state.globals = [] then x.saves?.getD [] else x.state.globals

theorem Point.getD_saves? (s : State) :
    (Point.saves? ⟨f :: outer, s⟩).getD [] = f.save?.getD [] := by
  cases hsave : f.save? with
  | none => simp [Point.saves?, hsave]
  | some stack => cases stack <;> simp [Point.saves?, hsave, Option.filter]

theorem Point.Accounted.next (hx : x.Accounted) (h : Next p x y) : x.HandsOn y := by
  obtain ⟨frames, t⟩ := y
  obtain ⟨f, outer, hframes, hstep⟩ := h
  obtain ⟨frames', s⟩ := x
  cases hframes
  obtain ⟨hstate, hall⟩ := hx
  obtain ⟨hf, houter⟩ := List.forall_mem_cons.mp hall
  obtain ⟨fs, rfl, hmoves⟩ := Sim.step_moves hstep
  -- the state in front of what the step does once a base pointer is saved
  have hsaved : (f.save?.elim s s.saved).Accounted ∧ Grows s (f.save?.elim s s.saved) ∧
      (f.save?.elim s s.saved).space.size = s.space.size ∧
      (f.save?.elim s s.saved).globals = if s.globals = [] then f.save?.getD [] else s.globals := by
    cases hsave : f.save? with
    | none => exact ⟨hstate, .refl s, rfl, by simp⟩
    | some stack =>
      obtain ⟨b, i, rest, hcursor, -⟩ := Frame.save?_eq_some hsave
      have hstack := hf.cursor
      rw [hcursor] at hstack
      exact ⟨hstate.saved hstack, grows_saved s stack, size_space_saved, globals_saved⟩
  obtain ⟨haccounted, hgrows, hsize, hglobals⟩ := hsaved
  have hwidens := Sim.step_widens hstate.toOneCell hf.writes hstep
  have hle : s.space.size ≤ t.space.size := hsize ▸ hwidens.size
  refine ⟨⟨haccounted.widens hwidens, fun g hg => ?_⟩, hgrows.trans hwidens.grows, ?_⟩
  · rcases List.mem_append.mp hg with hg | hg
    · exact hmoves.accounted hstate.toOneCell (hf.mono hle) g hg
    · exact (houter g hg).mono hle
  · rw [Point.getD_saves?]
    exact hwidens.globals.trans hglobals

theorem Point.Accounted.fails {halt : Halt} (hx : Point.Accounted ⟨f :: outer, s⟩)
    (h : Sim.step p f outer s = .error halt t) : Point.HandsOn ⟨f :: outer, s⟩ ⟨f :: outer, t⟩ := by
  obtain ⟨hstate, hframes⟩ := hx
  obtain ⟨hsave, hwidens⟩ := Sim.step_error_widens hstate.toOneCell
    (hframes f List.mem_cons_self).writes h
  refine ⟨⟨hstate.widens hwidens, fun g hg => (hframes g hg).mono hwidens.size⟩, hwidens.grows, ?_⟩
  rw [Point.getD_saves?, hsave, hwidens.globals]
  split
  · assumption
  · rfl

/-! ## Moments -/

/-- A moment of an analysis, and the points that it has been at before: with nothing done, between two
steps, or where a step fails. -/
inductive Moment (p : Program) (start : Option Subroutine) : List Point → Point → Prop
  | blank : Moment p start [] ⟨[], p.blank⟩
  | point {sub : Subroutine} {past : List Point} {x : Point} : start = some sub →
      Trace p sub (past ++ [x]) → Moment p start past x
  | failure {sub : Subroutine} {past : List Point} {f : Frame} {outer : List Frame} {s t : State}
      {halt : Halt} : start = some sub → Trace p sub (past ++ [⟨f :: outer, s⟩]) →
      Sim.step p f outer s = .error halt t →
      Moment p start (past ++ [⟨f :: outer, s⟩]) ⟨f :: outer, t⟩

/-- What holds at a moment, with what it has from the points before it. -/
structure Recalls (past : List Point) (x : Point) : Prop where
  accounted : x.Accounted
  grows : ∀ y ∈ past, Grows y.state x.state
  globals : x.state.globals = (past.findSome? Point.saves?).getD []

theorem Point.saves?_ne_nil (h : x.saves? = some stack) : stack ≠ [] := by
  have hkept := (Option.filter_eq_some_iff.mp h).2
  rintro rfl
  cases hkept

theorem Recalls.handsOn {past : List Point} (h : Recalls past x) (hxy : x.HandsOn y) :
    Recalls (past ++ [x]) y where
  accounted := hxy.accounted
  grows z hz := by
    rcases List.mem_append.mp hz with hz | hz
    · exact (h.grows z hz).trans hxy.grows
    · cases List.mem_singleton.mp hz
      exact hxy.grows
  globals := by
    have hglobals := h.globals
    rw [hxy.globals, List.findSome?_append]
    cases hfirst : past.findSome? Point.saves? with
    | none =>
      rw [hfirst] at hglobals
      simp [hglobals]
    | some stack =>
      rw [hfirst] at hglobals
      obtain ⟨z, -, hz⟩ := List.exists_of_findSome?_eq_some hfirst
      rw [if_neg (hglobals ▸ Point.saves?_ne_nil hz), hglobals]
      rfl

theorem Program.blank_accounted (p : Program) : p.blank.Accounted where
  space := by simp [Program.blank]
  effects := nofun
  ids := by simp [Program.blank]
  bases := nofun
  globals := nofun
  marked := by simp [Program.blank]

theorem Begins.recalls (h : Begins p sub x) : Recalls [] x := by
  obtain ⟨frames, s⟩ := x
  obtain ⟨f, hframes, henter⟩ := h
  cases hframes
  have hblank := p.blank_accounted
  have hwidens := (Sim.widening_enter.ok hblank.toOneCell henter).1
  refine ⟨⟨hblank.widens hwidens, List.forall_mem_singleton.mpr ?_⟩, nofun, hwidens.globals⟩
  exact .entered (fun v hv => absurd hv List.not_mem_nil) (Sim.enter_ok henter)

theorem Trace.recalls {past : List Point} (h : Trace p sub (past ++ [x])) : Recalls past x := by
  induction past using List.reverseRecOn generalizing x with
  | nil => exact (h.begins x rfl).recalls
  | append_singleton past y ih =>
    obtain ⟨hsteps, -, hnext⟩ := List.isChain_append.mp h.steps
    have hy : Recalls past y := by
      refine ih ⟨fun z hz => h.begins z ?_, hsteps⟩
      rw [List.head?_append, hz]
      rfl
    exact hy.handsOn (hy.accounted.next (hnext y (by simp) x (by simp)))

/-- Whatever was done to variables by then, and however it ended. -/
theorem Moment.recalls {start : Option Subroutine} {past : List Point} (h : Moment p start past x) :
    Recalls past x := by
  cases h with
  | blank => exact ⟨⟨p.blank_accounted, nofun⟩, nofun, rfl⟩
  | point _ htrace => exact htrace.recalls
  | failure _ htrace hstep =>
    have hpoint := htrace.recalls
    exact hpoint.handsOn (hpoint.accounted.fails hstep)

theorem Visited.exists_trace (h : Visited p sub x) : ∃ past, Trace p sub (past ++ [x]) := by
  obtain ⟨first, hfirst, hsteps⟩ := h
  induction hsteps with
  | refl =>
    refine ⟨[], fun y hy => ?_, List.isChain_singleton _⟩
    cases hy
    exact hfirst
  | @tail y z hsteps hnext ih =>
    obtain ⟨past, htrace⟩ := ih
    refine ⟨past ++ [y], fun w hw => htrace.begins w ?_, List.isChain_append.mpr ⟨htrace.steps,
      List.isChain_singleton z, ?_⟩⟩
    · rw [List.head?_append_of_ne_nil _ (by simp)] at hw
      exact hw
    · intro u hu w hw
      rw [List.getLast?_concat] at hu
      cases hu
      cases hw
      exact hnext

/-- What an analysis of whole code answers with is what it knew at one of these moments. -/
theorem exists_moment_of_analyze {start : Option Subroutine} {a : Analysis} {events : List Event}
    (hp : p.Whole) (hstart : ∀ sub, start = some sub → sub ∈ p.subroutines)
    (h : analyze p start = .ok (a, events)) : ∃ past x, Moment p start past x ∧ x.state = a.state := by
  cases start with
  | none =>
    cases h
    exact ⟨[], _, .blank, rfl⟩
  | some sub =>
    have hanswers := analyze_answers hp (hstart sub rfl)
    rw [h] at hanswers
    cases hanswers with
    | @success x _ hvisited _ =>
      obtain ⟨past, htrace⟩ := hvisited.exists_trace
      exact ⟨past, x, .point rfl htrace, rfl⟩
    | fault hvisited hstep =>
      obtain ⟨past, htrace⟩ := hvisited.exists_trace
      exact ⟨_, _, .failure rfl htrace hstep, rfl⟩

end

end ScriptFlow.Stack
