import ScriptFlow.Proofs.Stack.Points

/-! # Steps that fail

In decoded and linked code a step can only fail with a fault of the script, or in front of an ordering
of structures. The lookups behind a step, of callees, followers, continuations and effects, never come
up empty. -/

namespace ScriptFlow.Stack

/-- The frame is about to execute the instruction. -/
def Frame.Faces (f : Frame) (i : LinkedInstruction) : Prop :=
  ∃ b rest stack, f.cursor = .running b (i :: rest) stack

/-- The fault is one of control flow, not of an instruction. -/
def Fault.OfFlow : Fault → Prop
  | .site _ _ => False
  | .recursion _ | .depth _ _ _ | .delta _ _ _ => True

/-- How far blocks have come when a step of the frame fails: as far as before, but for the block whose
last instruction was behind the frame. -/
def Frame.Halted (f : Frame) (s t : State) : Prop :=
  t.progress = s.progress ∨
    ∃ b stack, f.cursor = .running b [] stack ∧ t.progress = (s.walked b).progress

/-- How a step of a frame fails, and the state it leaves. -/
inductive Failure (f : Frame) (s : State) : Halt → State → Prop
  | instruction {i : LinkedInstruction} {cause : Cause} {t : State} : f.Faces i → SameBooks s t →
      (i.opcode = .restorebp → cause = .noBase → s.bases = []) →
      Failure f s (.fault (.site i.toInstruction cause)) t
  | width {i : LinkedInstruction} : f.Faces i → i.toInstruction.Widthless →
      Failure f s (.missingOperand i.address) s
  | flow {fault : Fault} {t : State} : fault.OfFlow → f.Halted s t → t.effects = s.effects →
      Failure f s (.fault fault) t

section
variable {p : Program} {f g : Frame} {outer frames : List Frame} {s t : State} {b : BlockId}
variable {stack : Cells} {sub : Subroutine} {site : Int} {halt : Halt}

namespace Sim

theorem get_bind_eq_error {β : Type} {k : State → Sim β} :
    ((get : Sim State) >>= k) s = .error halt t ↔ k s s = .error halt t := by
  rw [bind_eq_error]
  constructor
  · intro h
    rcases h with h | ⟨a, u, ha, hk⟩
    · cases h
    · cases ha
      exact hk
  · intro hk
    exact .inr ⟨s, s, rfl, hk⟩

theorem modify_bind_eq_error {β : Type} {k : Unit → Sim β} {h : State → State} :
    ((modify h : Sim Unit) >>= k) s = .error halt t ↔ k () (h s) = .error halt t := by
  rw [bind_eq_error]
  constructor
  · intro h
    rcases h with hm | ⟨a, u, ha, hk⟩
    · cases hm
    · cases ha
      exact hk
  · intro hk
    exact .inr ⟨(), h s, rfl, hk⟩

theorem bind_pure_eq_error {α β : Type} {x : Sim α} {k : α → β} :
    (x >>= fun a => pure (k a)) s = .error halt t ↔ x s = .error halt t := by
  rw [bind_eq_error]
  constructor
  · intro h
    rcases h with h | ⟨a, u, -, h⟩
    · exact h
    · cases h
  · exact .inl

theorem enqueue_eq_error (h : enqueue p b stack f s = .error halt t) :
    t = s ∧ ∃ known, halt = .fault (.depth (p.graph.addressOf b) stack.length known) := by
  rw [enqueue, get_bind_eq_error] at h
  cases hdepth : (s.progressOf b).depth? with
  | some known =>
    simp only [hdepth] at h
    by_cases heq : known = stack.length
    · rw [if_pos heq] at h
      cases h
    · rw [if_neg heq] at h
      cases h
      exact ⟨rfl, known, rfl⟩
  | none =>
    simp only [hdepth] at h
    rw [modify_bind_eq_error] at h
    cases h

theorem enter_eq_error {entry : BlockId} (hentry : sub.entry = some entry)
    (h : enter p site sub stack s = .error halt t) : t.progress = s.progress ∧
      t.effects = s.effects ∧ ∃ fault, halt = .fault fault ∧ fault.OfFlow := by
  rw [enter, get_bind_eq_error] at h
  by_cases hactive : s.active.contains sub.address = true
  · rw [if_pos hactive] at h
    cases h
    exact ⟨rfl, rfl, _, rfl, trivial⟩
  · rw [if_neg hactive] at h
    simp only [hentry] at h
    rw [modify_bind_eq_error] at h
    obtain ⟨rfl, known, rfl⟩ := enqueue_eq_error h
    exact ⟨rfl, rfl, _, rfl, trivial⟩

theorem noteReturn_eq_error (h : noteReturn stack f s = .error halt t) :
    t = s ∧ ∃ known delta, halt = .fault (.delta f.subroutine.name known delta) := by
  unfold noteReturn at h
  cases hdelta : f.delta with
  | some known =>
    simp only [hdelta] at h
    by_cases heq : known = (stack.length : Int) - f.height
    · rw [if_pos heq] at h
      cases h
    · rw [if_neg heq] at h
      cases h
      exact ⟨rfl, _, _, rfl⟩
  | none =>
    simp only [hdelta] at h
    cases h

/-- The end of a block in whole code: what comes behind its last instruction is known. -/
theorem finish_eq_error {last : LinkedInstruction} (hlast : (p.graph.block b).last? = some last)
    (hjsr : last.opcode = .jsr → ∃ callee next effect, p.callee? last = some callee ∧
      p.holder? last.follower = some next ∧ s.effectOf? callee.address = some effect)
    (h : finish p b stack f s = .error halt t) : t.progress = (s.walked b).progress ∧
      t.effects = s.effects ∧ ∃ fault, halt = .fault fault ∧ fault.OfFlow := by
  rw [finish, modify_bind_eq_error] at h
  simp only [hlast] at h
  by_cases hretn : last.opcode = .retn
  · rw [if_pos hretn, bind_pure_eq_error] at h
    obtain ⟨rfl, known, delta, rfl⟩ := noteReturn_eq_error h
    exact ⟨rfl, rfl, _, rfl, trivial⟩
  · rw [if_neg hretn] at h
    by_cases hop : last.opcode = .jsr
    · obtain ⟨callee, next, ⟨delta, writes⟩, hcallee, hnext, heffect⟩ := hjsr hop
      rw [if_pos hop] at h
      simp only [hcallee, hnext, get_bind_eq_error, effectOf?_setProgress, heffect] at h
      cases delta with
      | some delta =>
        dsimp only at h
        rw [bind_pure_eq_error] at h
        obtain ⟨rfl, known, rfl⟩ := enqueue_eq_error h
        exact ⟨rfl, rfl, _, rfl, trivial⟩
      | none => cases h
    · rw [if_neg hop] at h
      cases h

end Sim

theorem below_of_effectOf? {a : Int} {e : Effect} (hs : ∀ e ∈ s.effects, e.2.writes.Below)
    (h : s.effectOf? a = some e) : e.writes.Below := by
  obtain ⟨x, hx, rfl⟩ := Option.map_eq_some_iff.mp h
  exact hs x (List.mem_of_find?_eq_some hx)

/-- A block with a depth is one of the graph. -/
theorem lt_of_depth {d : Nat} (hsize : s.progress.size = p.graph.size)
    (h : (s.progressOf b).depth? = some d) : b < p.graph.size := by
  by_contra hb
  rw [State.progressOf, Array.getD_eq_getD_getElem?,
    Array.getElem?_eq_none (by rw [hsize]; exact Nat.not_lt.mp hb)] at h
  cases h

theorem Frame.Sound.mem_block {i : LinkedInstruction} {rest : List LinkedInstruction}
    (hf : f.Sound p s) (hcursor : f.cursor = .running b (i :: rest) stack) :
    i ∈ (p.graph.block b).instructions := by
  obtain ⟨d, done, -, his, -⟩ := hf.running _ _ _ hcursor
  simp [his]

/-- At the end of a block the depth behind it is known. -/
theorem Frame.Sound.depthBehind (hf : f.Sound p s) (hcursor : f.cursor = .running b [] stack) :
    ∃ d, (s.progressOf b).depth? = some d ∧ p.depthBehind s b d = some stack.length := by
  obtain ⟨d, done, hd, his, hdone⟩ := hf.running b [] stack hcursor
  rw [List.append_nil] at his
  exact ⟨d, hd, by rw [Program.depthBehind, his]; exact hdone⟩

/-- In front of an instruction a step fails by the instruction, or by the call that it is. -/
theorem Orderly.failure_running {i : LinkedInstruction} {rest : List LinkedInstruction}
    (hp : p.Whole) (hi : Orderly p ⟨f :: outer, s⟩) (hf : f.cursor = .running b (i :: rest) stack)
    (h : Sim.step p f outer s = .error halt t) : Failure f s halt t := by
  have hfaces : f.Faces i := ⟨b, rest, stack, hf⟩
  have hmem := (hi.consistent.sound f List.mem_cons_self).mem_block hf
  simp only [Sim.step, hf] at h
  by_cases hop : i.opcode = .jsr
  · obtain ⟨callee, hcallee⟩ := hp.callees b i hmem hop
    rw [if_pos hop] at h
    simp only [hcallee, Sim.get_bind_eq_error] at h
    cases heffect : s.effectOf? callee.address with
    | some effect =>
      simp only [heffect] at h
      rw [Sim.bind_pure_eq_error] at h
      have hbelow := below_of_effectOf? hi.effects heffect
      obtain ⟨hbooks, cause, rfl⟩ := (Sim.tame_replay hbelow).error h
      refine .instruction hfaces hbooks fun hrestore => ?_
      rw [hop] at hrestore
      cases hrestore
    | none =>
      simp only [heffect] at h
      rw [Sim.bind_pure_eq_error] at h
      obtain ⟨entry, hentry⟩ := hp.entries callee (mem_of_callee? hcallee)
      obtain ⟨hprogress, heffects, fault, rfl, hfault⟩ := Sim.enter_eq_error hentry h
      exact .flow hfault (.inl hprogress) heffects
  · rw [if_neg hop, Sim.bind_pure_eq_error] at h
    have hdecoded := hp.decoded b i hmem
    by_cases hwide : i.toInstruction.Widthless
    · rw [Sim.exec_widthless hdecoded hwide] at h
      cases h
      exact .width hfaces hwide
    · obtain ⟨hbooks, cause, rfl, hbase⟩ := Sim.exec_eq_error hdecoded hwide h
      exact .instruction hfaces hbooks hbase

/-- Behind a block a step fails by the depth of the block an edge leads to. -/
theorem Orderly.failure_leaving {e : Edge} {edges : List Edge} (hp : p.Whole)
    (hi : Orderly p ⟨f :: outer, s⟩) (hf : f.cursor = .leaving (e :: edges) stack)
    (h : Sim.step p f outer s = .error halt t) : Failure f s halt t := by
  obtain ⟨entry, htraced⟩ := hi.traced f List.mem_cons_self
  obtain ⟨b, done, -, hedges, -⟩ := htraced.leaving _ _ hf
  have he : e ∈ p.graph.edges b := by simp [hedges]
  simp only [Sim.step, hf] at h
  by_cases hkind : e.kind = .dead ∨ e.kind = .back
  · rw [if_pos hkind] at h
    cases h
  · rw [if_neg hkind] at h
    by_cases hstate : e.kind = .state
    · obtain ⟨sub, howner⟩ := hp.continuations b e he hstate
      rw [if_pos hstate] at h
      simp only [howner, Sim.get_bind_eq_error] at h
      cases heffect : s.effectOf? sub.address with
      | some effect =>
        simp only [heffect] at h
        cases h
      | none =>
        simp only [heffect] at h
        rw [Sim.bind_pure_eq_error] at h
        obtain ⟨entry, hentry⟩ := hp.entries sub (mem_of_ownerOf? howner)
        obtain ⟨hprogress, heffects, fault, rfl, hfault⟩ := Sim.enter_eq_error hentry h
        exact .flow hfault (.inl hprogress) heffects
    · rw [if_neg hstate, Sim.bind_pure_eq_error] at h
      obtain ⟨rfl, known, rfl⟩ := Sim.enqueue_eq_error h
      exact .flow trivial (.inl rfl) rfl

/-- At the end of a block a step fails by the depth it returns with or goes on with. -/
theorem Orderly.failure_finish (hp : p.Whole) (hi : Orderly p ⟨f :: outer, s⟩)
    (hf : f.cursor = .running b [] stack) (h : Sim.step p f outer s = .error halt t) :
    Failure f s halt t := by
  obtain ⟨d, hd, hbehind⟩ := (hi.consistent.sound f List.mem_cons_self).depthBehind hf
  have hnonempty := hp.nonempty b (lt_of_depth hi.consistent.size hd)
  have hlast : (p.graph.block b).last? = some ((p.graph.block b).instructions.getLast hnonempty) :=
    List.getLast?_eq_some_getLast hnonempty
  have hmem := List.getLast_mem hnonempty
  simp only [Sim.step, hf] at h
  rw [Sim.bind_pure_eq_error] at h
  -- the callee was entered in front of the call, so its effect is known behind it
  obtain ⟨hprogress, heffects, fault, rfl, hfault⟩ := Sim.finish_eq_error hlast (fun hop => by
    obtain ⟨next, hnext⟩ := hp.followers b _ hlast hop
    obtain ⟨callee, effect, hcallee, heffect⟩ := effect_of_depthThrough hbehind hmem hop
    exact ⟨callee, next, effect, hcallee, hnext, heffect⟩) h
  exact .flow hfault (.inr ⟨b, stack, hf, hprogress⟩) heffects

/-- In whole code a step that fails does so in one of the ways told. -/
theorem Orderly.failure (hp : p.Whole) (hi : Orderly p ⟨f :: outer, s⟩)
    (h : Sim.step p f outer s = .error halt t) : Failure f s halt t := by
  cases hf : f.cursor with
  | idle =>
    cases hpending : f.pending with
    | nil =>
      simp only [Sim.step, hf, hpending] at h
      rw [Sim.bind_pure_eq_error] at h
      cases h
    | cons first pending =>
      simp only [Sim.step, hf, hpending] at h
      cases h
  | running b is stack =>
    cases is with
    | nil => exact hi.failure_finish hp hf h
    | cons i rest => exact hi.failure_running hp hf h
  | leaving edges stack =>
    cases edges with
    | nil =>
      simp only [Sim.step, hf] at h
      cases h
    | cons e edges => exact hi.failure_leaving hp hf h

/-- A step that fails records no effect. -/
theorem Failure.effects (h : Failure f s halt t) : t.effects = s.effects := by
  cases h with
  | instruction _ hbooks _ => exact hbooks.effects
  | width _ _ => rfl
  | flow _ _ heffects => exact heffects

/-- In front of an ordering of structures a step does fail. -/
theorem Orderly.step_widthless {i : LinkedInstruction} (hp : p.Whole)
    (hi : Orderly p ⟨f :: outer, s⟩) (hf : f.Faces i) (hwide : i.toInstruction.Widthless) :
    Sim.step p f outer s = .error (.missingOperand i.address) s := by
  obtain ⟨b, rest, stack, hf⟩ := hf
  have hmem := (hi.consistent.sound f List.mem_cons_self).mem_block hf
  have hop : i.opcode ≠ .jsr := by
    intro hop
    have hmem := hwide.1
    simp [hop] at hmem
  simp only [Sim.step, hf]
  rw [if_neg hop, Sim.bind_pure_eq_error]
  exact Sim.exec_widthless (hp.decoded b i hmem) hwide

end

end ScriptFlow.Stack
