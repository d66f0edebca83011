import ScriptFlow.Stack.Machine
import ScriptFlow.Proofs.Stack.Depth

/-! # The steps of a stack analysis

A step replaces the innermost frame by none, one or two frames and leaves the outer ones alone. All
that a step can do is told here once, so that what every step keeps holds when the analysis ends. -/

namespace ScriptFlow.Stack

section
variable {p : Program} {f g inner : Frame} {outer frames fs : List Frame} {s t : State}
variable {b : BlockId} {stack : Cells} {sub : Subroutine} {site : Int}

/-- A block is reached with a stack: it is known with the same depth, or put in line. -/
inductive Reached (b : BlockId) (stack : Cells) (f : Frame) (s : State) : Frame → State → Prop
  | known : (s.progressOf b).depth? = some stack.length → Reached b stack f s f s
  | first : (s.progressOf b).depth? = none → Reached b stack f s
      { f with pending := f.pending ++ [(b, stack)] } (s.setProgress b (.inProgress stack.length))

/-- A subroutine is entered with a stack: its entry is reached in a frame of its own. -/
def Entered (sub : Subroutine) (stack : Cells) (s : State) (f : Frame) (t : State) : Prop :=
  sub.address ∉ s.active ∧ ∃ entry, sub.entry = some entry ∧
    Reached entry stack { subroutine := sub, height := stack.length }
      { s with active := sub.address :: s.active } f t

@[simp] theorem effectOf?_setProgress {q : Progress} {a : Int} :
    (s.setProgress b q).effectOf? a = s.effectOf? a := rfl

/-- The state once a block has been walked. -/
def State.walked (s : State) (b : BlockId) : State := s.setProgress b (s.progressOf b).finish

/-- The state once a frame has been closed. -/
def State.closed (s : State) (f : Frame) : State :=
  { s with
    active := s.active.erase f.subroutine.address
    effects := s.effects ++ [(f.subroutine.address, ⟨f.delta, f.writes⟩)] }

/-- What a step may do to a frame: the frames that take its place, and the state then. -/
inductive Moves (p : Program) (f : Frame) (s : State) : List Frame → State → Prop
  | close : f.cursor = .idle → f.pending = [] → Moves p f s [] (s.closed f)
  | pick {b : BlockId} {stack : Cells} {pending : List (BlockId × Cells)} :
      f.cursor = .idle → f.pending = (b, stack) :: pending →
      Moves p f s [{ f with pending, cursor := .running b (p.graph.block b).instructions stack }] s
  | exec {b : BlockId} {i : LinkedInstruction} {rest : List LinkedInstruction} {stack after : Cells}
      {writes : Writes} {t : State} : f.cursor = .running b (i :: rest) stack → i.opcode ≠ .jsr →
      Sim.exec p.table f.height i.toInstruction stack f.writes s = .ok (after, writes) t →
      Moves p f s [{ f with writes, cursor := .running b rest after }] t
  | replay {b : BlockId} {i : LinkedInstruction} {rest : List LinkedInstruction}
      {stack after : Cells} {callee : Subroutine} {effect : Effect} {t : State} :
      f.cursor = .running b (i :: rest) stack → i.opcode = .jsr → p.callee? i = some callee →
      s.effectOf? callee.address = some effect →
      Sim.replay i.toInstruction effect stack s = .ok after t →
      Moves p f s [{ f with cursor := .running b rest after }] t
  | call {b : BlockId} {i : LinkedInstruction} {rest : List LinkedInstruction} {stack : Cells}
      {callee : Subroutine} {inner : Frame} {t : State} :
      f.cursor = .running b (i :: rest) stack → i.opcode = .jsr → p.callee? i = some callee →
      s.effectOf? callee.address = none → Entered callee stack s inner t →
      Moves p f s [inner, f] t
  | back {b : BlockId} {stack : Cells} {last : LinkedInstruction} {delta : Int} :
      f.cursor = .running b [] stack → (p.graph.block b).last? = some last → last.opcode = .retn →
      delta = stack.length - f.height → f.delta = none ∨ f.delta = some delta →
      Moves p f s [{ f with delta := some delta, cursor := .idle }] (s.walked b)
  | resume {b next : BlockId} {stack : Cells} {last : LinkedInstruction} {callee : Subroutine}
      {delta : Int} {g : Frame} {t : State} :
      f.cursor = .running b [] stack → (p.graph.block b).last? = some last → last.opcode = .jsr →
      p.callee? last = some callee → p.holder? last.follower = some next →
      (s.effectOf? callee.address).bind Effect.delta = some delta →
      Reached next stack f (s.walked b) g t → Moves p f s [{ g with cursor := .idle }] t
  | lost {b next : BlockId} {stack : Cells} {last : LinkedInstruction} {callee : Subroutine} :
      f.cursor = .running b [] stack → (p.graph.block b).last? = some last → last.opcode = .jsr →
      p.callee? last = some callee → p.holder? last.follower = some next →
      (s.effectOf? callee.address).bind Effect.delta = none →
      Moves p f s [{ f with cursor := .idle }] (s.walked b)
  | leave {b : BlockId} {stack : Cells} {last : LinkedInstruction} :
      f.cursor = .running b [] stack → (p.graph.block b).last? = some last →
      last.opcode ≠ .retn → last.opcode ≠ .jsr →
      Moves p f s [{ f with cursor := .leaving (p.graph.edges b) stack }] (s.walked b)
  | left {stack : Cells} : f.cursor = .leaving [] stack →
      Moves p f s [{ f with cursor := .idle }] s
  | skip {e : Edge} {edges : List Edge} {stack : Cells} : f.cursor = .leaving (e :: edges) stack →
      e.kind = .dead ∨ e.kind = .back ∨ e.kind = .state ∧ (∃ sub effect,
        p.ownerOf? e.child = some sub ∧ s.effectOf? sub.address = some effect) →
      Moves p f s [{ f with cursor := .leaving edges stack }] s
  | store {e : Edge} {edges : List Edge} {stack : Cells} {sub : Subroutine} {inner : Frame}
      {t : State} : f.cursor = .leaving (e :: edges) stack → e.kind = .state →
      p.ownerOf? e.child = some sub → s.effectOf? sub.address = none →
      Entered sub stack s inner t → Moves p f s [inner, f] t
  | follow {e : Edge} {edges : List Edge} {stack : Cells} {g : Frame} {t : State} :
      f.cursor = .leaving (e :: edges) stack → e.kind ≠ .dead → e.kind ≠ .back →
      e.kind ≠ .state →
      Reached e.child stack { f with cursor := .leaving edges stack } s g t → Moves p f s [g] t

namespace Sim

theorem get_bind_eq_ok {β : Type} {k : State → Sim β} {r : β} :
    ((get : Sim State) >>= k) s = .ok r t ↔ k s s = .ok r t := by
  rw [bind_eq_ok]
  constructor
  · rintro ⟨a, u, ha, hk⟩
    cases ha
    exact hk
  · exact fun hk => ⟨s, s, rfl, hk⟩

theorem modify_bind_eq_ok {β : Type} {k : Unit → Sim β} {h : State → State} {r : β} :
    ((modify h : Sim Unit) >>= k) s = .ok r t ↔ k () (h s) = .ok r t := by
  rw [bind_eq_ok]
  constructor
  · rintro ⟨a, u, ha, hk⟩
    cases ha
    exact hk
  · exact fun hk => ⟨(), h s, rfl, hk⟩

theorem enqueue_ok (h : enqueue p b stack f s = .ok g t) : Reached b stack f s g t := by
  rw [enqueue, get_bind_eq_ok] at h
  cases hdepth : (s.progressOf b).depth? with
  | some known =>
    simp only [hdepth] at h
    by_cases heq : known = stack.length
    · rw [if_pos heq] at h
      obtain ⟨rfl, rfl⟩ := pure_eq_ok.mp h
      exact .known (by rw [hdepth, heq])
    · rw [if_neg heq] at h
      cases h
  | none =>
    simp only [hdepth] at h
    rw [modify_bind_eq_ok] at h
    obtain ⟨rfl, rfl⟩ := pure_eq_ok.mp h
    exact .first hdepth

theorem enter_ok (h : enter p site sub stack s = .ok f t) : Entered sub stack s f t := by
  rw [enter, get_bind_eq_ok] at h
  by_cases hactive : s.active.contains sub.address = true
  · rw [if_pos hactive] at h
    cases h
  · rw [if_neg hactive] at h
    cases hentry : sub.entry with
    | none =>
      simp only [hentry] at h
      cases h
    | some entry =>
      simp only [hentry] at h
      rw [modify_bind_eq_ok] at h
      exact ⟨by simpa using hactive, entry, hentry, enqueue_ok h⟩

theorem noteReturn_ok (h : noteReturn stack f s = .ok g t) : t = s ∧ ∃ delta : Int,
    delta = stack.length - f.height ∧ (f.delta = none ∨ f.delta = some delta) ∧
      g = { f with delta := some delta } := by
  unfold noteReturn at h
  cases hdelta : f.delta with
  | some known =>
    simp only [hdelta] at h
    by_cases heq : known = (stack.length : Int) - f.height
    · rw [if_pos heq] at h
      obtain ⟨rfl, rfl⟩ := pure_eq_ok.mp h
      exact ⟨rfl, known, heq, .inr rfl, by rw [← hdelta]⟩
    · rw [if_neg heq] at h
      cases h
  | none =>
    simp only [hdelta] at h
    obtain ⟨rfl, rfl⟩ := pure_eq_ok.mp h
    exact ⟨rfl, _, rfl, .inl rfl, rfl⟩

theorem finish_moves (hf : f.cursor = .running b [] stack) (h : finish p b stack f s = .ok g t) :
    Moves p f s [g] t := by
  rw [finish, modify_bind_eq_ok] at h
  cases hlast : (p.graph.block b).last? with
  | none =>
    simp only [hlast] at h
    cases h
  | some last =>
    simp only [hlast] at h
    by_cases hretn : last.opcode = .retn
    · rw [if_pos hretn] at h
      obtain ⟨f', u, hnote, h⟩ := bind_eq_ok.mp h
      obtain ⟨rfl, delta, hdelta, hknown, rfl⟩ := noteReturn_ok hnote
      obtain ⟨rfl, rfl⟩ := pure_eq_ok.mp h
      exact .back hf hlast hretn hdelta hknown
    · rw [if_neg hretn] at h
      by_cases hjsr : last.opcode = .jsr
      · rw [if_pos hjsr] at h
        cases hcallee : p.callee? last with
        | none =>
          simp only [hcallee] at h
          cases h
        | some callee =>
          cases hnext : p.holder? last.follower with
          | none =>
            simp only [hcallee, hnext] at h
            cases h
          | some next =>
            simp only [hcallee, hnext, get_bind_eq_ok] at h
            cases heffect : s.effectOf? callee.address with
            | none =>
              simp only [effectOf?_setProgress, heffect] at h
              cases h
            | some effect =>
              have hbind := congrArg (·.bind Effect.delta) heffect
              obtain ⟨delta, writes⟩ := effect
              cases delta with
              | some delta =>
                simp only [effectOf?_setProgress, heffect] at h
                obtain ⟨f', u, hreach, h⟩ := bind_eq_ok.mp h
                obtain ⟨rfl, rfl⟩ := pure_eq_ok.mp h
                exact .resume hf hlast hjsr hcallee hnext hbind (enqueue_ok hreach)
              | none =>
                simp only [effectOf?_setProgress, heffect] at h
                obtain ⟨rfl, rfl⟩ := pure_eq_ok.mp h
                exact .lost hf hlast hjsr hcallee hnext hbind
      · rw [if_neg hjsr] at h
        obtain ⟨rfl, rfl⟩ := pure_eq_ok.mp h
        exact .leave hf hlast hretn hjsr

/-- The step in front of an instruction. -/
theorem step_running {i : LinkedInstruction} {rest : List LinkedInstruction}
    (hf : f.cursor = .running b (i :: rest) stack) (h : step p f outer s = .ok frames t) :
    ∃ fs, frames = fs ++ outer ∧ Moves p f s fs t := by
  simp only [step, hf] at h
  by_cases hop : i.opcode = .jsr
  · rw [if_pos hop] at h
    cases hcallee : p.callee? i with
    | none =>
      simp only [hcallee] at h
      cases h
    | some callee =>
      simp only [hcallee, get_bind_eq_ok] at h
      cases heffect : s.effectOf? callee.address with
      | some effect =>
        simp only [heffect] at h
        obtain ⟨after, u, hreplay, h⟩ := bind_eq_ok.mp h
        obtain ⟨rfl, rfl⟩ := pure_eq_ok.mp h
        exact ⟨[_], rfl, .replay hf hop hcallee heffect hreplay⟩
      | none =>
        simp only [heffect] at h
        obtain ⟨inner, u, henter, h⟩ := bind_eq_ok.mp h
        obtain ⟨rfl, rfl⟩ := pure_eq_ok.mp h
        exact ⟨[inner, f], rfl, .call hf hop hcallee heffect (enter_ok henter)⟩
  · rw [if_neg hop] at h
    obtain ⟨⟨after, writes⟩, u, hexec, h⟩ := bind_eq_ok.mp h
    obtain ⟨rfl, rfl⟩ := pure_eq_ok.mp h
    exact ⟨[_], rfl, .exec hf hop hexec⟩

/-- The step in front of an edge. -/
theorem step_leaving {e : Edge} {edges : List Edge} (hf : f.cursor = .leaving (e :: edges) stack)
    (h : step p f outer s = .ok frames t) : ∃ fs, frames = fs ++ outer ∧ Moves p f s fs t := by
  simp only [step, hf] at h
  by_cases hkind : e.kind = .dead ∨ e.kind = .back
  · rw [if_pos hkind] at h
    obtain ⟨rfl, rfl⟩ := pure_eq_ok.mp h
    exact ⟨[_], rfl, .skip hf (hkind.imp_right .inl)⟩
  · rw [if_neg hkind] at h
    obtain ⟨hdead, hback⟩ := not_or.mp hkind
    by_cases hstate : e.kind = .state
    · rw [if_pos hstate] at h
      cases howner : p.ownerOf? e.child with
      | none =>
        simp only [howner] at h
        cases h
      | some sub =>
        simp only [howner, get_bind_eq_ok] at h
        cases heffect : s.effectOf? sub.address with
        | some effect =>
          simp only [heffect] at h
          obtain ⟨rfl, rfl⟩ := pure_eq_ok.mp h
          exact ⟨[_], rfl, .skip hf (.inr (.inr ⟨hstate, sub, effect, howner, heffect⟩))⟩
        | none =>
          simp only [heffect] at h
          obtain ⟨inner, u, henter, h⟩ := bind_eq_ok.mp h
          obtain ⟨rfl, rfl⟩ := pure_eq_ok.mp h
          exact ⟨[inner, f], rfl, .store hf hstate howner heffect (enter_ok henter)⟩
    · rw [if_neg hstate] at h
      obtain ⟨g, u, hreach, h⟩ := bind_eq_ok.mp h
      obtain ⟨rfl, rfl⟩ := pure_eq_ok.mp h
      exact ⟨[g], rfl, .follow hf hdead hback hstate (enqueue_ok hreach)⟩

/-- A step does one of the things told. -/
theorem step_moves (h : step p f outer s = .ok frames t) :
    ∃ fs, frames = fs ++ outer ∧ Moves p f s fs t := by
  cases hf : f.cursor with
  | idle =>
    cases hpending : f.pending with
    | nil =>
      simp only [step, hf, hpending] at h
      obtain ⟨_, u, hclose, h⟩ := bind_eq_ok.mp h
      cases hclose
      obtain ⟨rfl, rfl⟩ := pure_eq_ok.mp h
      exact ⟨[], rfl, .close hf hpending⟩
    | cons first pending =>
      simp only [step, hf, hpending] at h
      obtain ⟨rfl, rfl⟩ := pure_eq_ok.mp h
      exact ⟨[_], rfl, .pick hf hpending⟩
  | running b is stack =>
    cases is with
    | nil =>
      simp only [step, hf] at h
      obtain ⟨g, u, hfinish, h⟩ := bind_eq_ok.mp h
      obtain ⟨rfl, rfl⟩ := pure_eq_ok.mp h
      exact ⟨[g], rfl, finish_moves hf hfinish⟩
    | cons i rest => exact step_running hf h
  | leaving edges stack =>
    cases edges with
    | nil =>
      simp only [step, hf] at h
      obtain ⟨rfl, rfl⟩ := pure_eq_ok.mp h
      exact ⟨[_], rfl, .left hf⟩
    | cons e edges => exact step_leaving hf h

/-- What every step keeps holds when no frame is left. -/
theorem run_induction {P : List Frame → State → Prop}
    (step : ∀ f outer s fs t, P (f :: outer) s → Moves p f s fs t → P (fs ++ outer) t) {fuel : Nat}
    (h : run p fuel frames s = .ok () t) (hs : P frames s) : P [] t := by
  induction fuel generalizing frames s with
  | zero =>
    cases frames with
    | nil =>
      cases h
      exact hs
    | cons f outer => cases h
  | succ fuel ih =>
    cases frames with
    | nil =>
      cases h
      exact hs
    | cons f outer =>
      obtain ⟨frames, u, hstep, h⟩ := bind_eq_ok.mp h
      obtain ⟨fs, rfl, hmoves⟩ := step_moves hstep
      exact ih h (step f outer s fs u hs hmoves)

end Sim

/-- The state an analysis starts with. -/
def Program.blank (p : Program) : State := { progress := Array.replicate p.graph.size .untouched }

/-- An analysis that succeeds enters the start with an empty stack and steps until no frame is left. -/
theorem analyze_success {start : Option Subroutine} {a : Analysis} {events : List Event}
    (h : analyze p start = .ok (a, events)) (hok : a.success = true) :
    ∃ sub f s, start = some sub ∧ Entered sub [] p.blank f s ∧
      Sim.run p p.steps [f] s = .ok () a.state := by
  unfold analyze at h
  dsimp only at h
  split at h
  · cases h
    cases hok
  · rename_i sub hstart
    split at h
    · rename_i u s hrun
      cases h
      obtain ⟨f, s, henter, hrun⟩ := Sim.bind_eq_ok.mp hrun
      exact ⟨sub, f, s, (Option.filter_eq_some_iff.mp hstart).1, Sim.enter_ok henter, hrun⟩
    · cases h
      cases hok
    · cases h

end

end ScriptFlow.Stack
