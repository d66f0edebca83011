import ScriptFlow.Proofs.Stack.Termination

/-! # Every block is walked once

Blocks only ever advance: a block is reached, later it is finished, and the depth it was reached with
stays. So no block is taken up a second time, and a subroutine whose effect is known is not entered
again. -/

namespace ScriptFlow.Stack

/-- How a block comes on from one point to the next. -/
inductive Advances : Progress → Progress → Prop
  | stay {q : Progress} : Advances q q
  | reach {d : Nat} : Advances .untouched (.inProgress d)
  | finish {d : Nat} : Advances (.inProgress d) (.finished d)

/-- The walk of the block begins at the point. -/
def TakesUp (b : BlockId) (x : Point) : Prop :=
  ∃ f outer stack pending, x.frames = f :: outer ∧ f.cursor = .idle ∧ f.pending = (b, stack) :: pending

/-- The effect of the subroutine at the address is found at the point. -/
def Closes (a : Int) (x : Point) : Prop :=
  ∃ f outer, x.frames = f :: outer ∧ f.cursor = .idle ∧ f.pending = [] ∧ f.subroutine.address = a

section
variable {p : Program} {f g : Frame} {fs outer : List Frame} {s t : State} {b c : BlockId}
variable {stack : Cells} {sub : Subroutine} {x y : Point}

/-! ## Blocks advance -/

theorem Custody.advances {hands : List BlockId} (hi : Custody hands s) (hb : b ∈ hands)
    (c : BlockId) : Advances (s.progressOf c) ((s.walked b).progressOf c) := by
  rw [progressOf_walked]
  split
  · rename_i hbc
    obtain ⟨d, hd⟩ := hi.held b hb
    rw [← hbc, hd]
    exact .finish
  · exact .stay

theorem Reached.advances (h : Reached c stack f s g t) (b : BlockId) :
    Advances (s.progressOf b) (t.progressOf b) := by
  cases h with
  | known _ => exact .stay
  | first hnone =>
    rw [progressOf_setProgress]
    split
    · rename_i hbc
      rw [hbc.1] at hnone
      cases hq : s.progressOf b with
      | untouched => exact .reach
      | inProgress d | finished d =>
        rw [hq] at hnone
        cases hnone
    · exact .stay

theorem Shift.advances (h : Shift p f s fs t) (hi : Custody ((f :: outer).flatMap Frame.hand) s)
    (c : BlockId) : Advances (s.progressOf c) (t.progressOf c) := by
  rw [List.flatMap_cons] at hi
  cases h with
  | close _ => exact .stay
  | keep hsame _ _ _ =>
    rw [hsame.progressOf]
    exact .stay
  | finish _ hhand _ => exact hi.advances (by simp [hhand]) c
  | @pass b _ _ _ _ _ _ hhand _ _ _ hreached =>
    have hwalked := hi.advances (b := b) (by simp [hhand]) c
    by_cases hbc : b = c
    · -- the block just finished has a depth, so it is not the one reached next
      subst hbc
      obtain ⟨d, hd⟩ := hi.held b (by simp [hhand])
      have hfinished : (s.walked b).progressOf b = .finished d := by
        rw [progressOf_walked, if_pos rfl, hd]
        rfl
      rw [hreached.keeps.finished hfinished, hd]
      exact .finish
    · have hsame : (s.walked b).progressOf c = s.progressOf c := by
        rw [progressOf_walked, if_neg hbc]
      rw [← hsame]
      exact hreached.advances c
  | follow _ _ _ _ _ _ _ hreached => exact hreached.advances c
  | enter _ _ henter =>
    obtain ⟨-, _, -, hreached⟩ := henter
    exact hreached.advances c

theorem Orderly.advances (hi : Orderly p x) (h : Next p x y) (b : BlockId) :
    Advances (x.state.progressOf b) (y.state.progressOf b) := by
  obtain ⟨f, outer, s, fs, t, rfl, rfl, hmoves⟩ := h.moves
  exact hmoves.shift.advances hi.custody b

/-- Blocks advance also when a step fails. -/
theorem Orderly.advances_failing {halt : Halt} (hp : p.Whole) (hi : Orderly p ⟨f :: outer, s⟩)
    (h : Sim.step p f outer s = .error halt t) (b : BlockId) :
    Advances (s.progressOf b) (t.progressOf b) := by
  have same : t.progress = s.progress → Advances (s.progressOf b) (t.progressOf b) := by
    intro hprogress
    rw [State.progressOf, State.progressOf, hprogress]
    exact .stay
  cases hi.failure hp h with
  | instruction _ hbooks _ => exact same hbooks.progress
  | width _ _ => exact .stay
  | flow _ hhalted _ =>
    rcases hhalted with hprogress | ⟨c, stack, hcursor, hprogress⟩
    · exact same hprogress
    · have hc : c ∈ (f :: outer).flatMap Frame.hand := by
        simp [Frame.hand, hcursor, Cursor.block?]
      have hadvances : Advances (s.progressOf b) ((s.walked c).progressOf b) :=
        hi.custody.advances hc b
      rw [State.progressOf.eq_def t, hprogress]
      exact hadvances

/-! ## Nothing is done twice -/

theorem pairwise_of_isChain {α : Type} {R : α → α → Prop} {P Q : α → Prop}
    (begins : ∀ a b, R a b → P a → Q b) (keeps : ∀ a b, R a b → Q a → Q b) (ends : ∀ a, Q a → ¬ P a)
    {l : List α} (h : l.IsChain R) : l.Pairwise fun a b => P a → ¬ P b := by
  have hkept : ∀ {l : List α} {a : α}, (a :: l).IsChain R → (∀ b, R a b → Q b) → ∀ b ∈ l, Q b := by
    intro l
    induction l with
    | nil => exact fun _ _ _ => nofun
    | cons c l ih =>
      intro a hchain hfirst
      obtain ⟨hac, hrest⟩ := List.isChain_cons_cons.mp hchain
      have hc := hfirst c hac
      exact List.forall_mem_cons.mpr ⟨hc, ih hrest fun d hd => keeps c d hd hc⟩
  induction l with
  | nil => exact .nil
  | cons a l ih =>
    refine .cons (fun b hb ha => ends b ?_) (ih h.tail)
    exact hkept h (fun c hc => begins a c hc ha) b hb

theorem Orderly.chain {rest : List Point} (hp : p.Whole) (hi : Orderly p x)
    (h : (x :: rest).IsChain (Next p)) :
    (x :: rest).IsChain fun x y => Orderly p x ∧ Next p x y := by
  induction rest generalizing x with
  | nil => exact List.isChain_singleton x
  | cons y rest ih =>
    obtain ⟨hnext, hrest⟩ := List.isChain_cons_cons.mp h
    exact List.isChain_cons_cons.mpr ⟨⟨hi, hnext⟩, ih (hi.next hp hnext) hrest⟩

theorem Trace.orderly {trace : List Point} (hp : p.Whole) (hsub : sub ∈ p.subroutines)
    (h : Trace p sub trace) : trace.IsChain fun x y => Orderly p x ∧ Next p x y := by
  cases trace with
  | nil => exact List.isChain_nil
  | cons x rest => exact ((h.begins x rfl).orderly hp hsub).chain hp h.steps

/-- The block was taken up before the point. -/
def TakenUp (b : BlockId) (x : Point) : Prop :=
  (∃ d, x.state.progressOf b = .finished d) ∨ ∃ f ∈ x.frames, f.cursor.block? = some b

theorem TakesUp.next (h : TakesUp b x) (hnext : Next p x y) : TakenUp b y := by
  obtain ⟨f, outer, stack, pending, hx, hcursor, hpending⟩ := h
  obtain ⟨f', outer', hx', hstep⟩ := hnext
  rw [hx] at hx'
  cases hx'
  simp only [Sim.step, hcursor, hpending] at hstep
  obtain ⟨hy, -⟩ := Sim.pure_eq_ok.mp hstep
  exact .inr ⟨_, by rw [← hy]; exact List.mem_cons_self, rfl⟩

theorem Moves.takenUp (h : Moves p f s fs t) (hf : f.cursor.block? = some b) {d : Nat}
    (hd : s.progressOf b = .inProgress d) :
    (∃ g ∈ fs, g.cursor.block? = some b) ∨ t.progressOf b = .finished d := by
  have hfinished : (s.walked b).progressOf b = .finished d := by
    rw [progressOf_walked, if_pos rfl, hd]
    rfl
  cases h with
  | close hcursor _ | pick hcursor _ | left hcursor | skip hcursor _ | follow hcursor _ _ _ _ =>
    rw [hcursor] at hf
    cases hf
  | exec hcursor _ _ | replay hcursor _ _ _ _ =>
    rw [hcursor] at hf
    exact .inl ⟨_, List.mem_singleton.mpr rfl, hf⟩
  | call _ _ _ _ _ | store _ _ _ _ _ => exact .inl ⟨f, by simp, hf⟩
  | back hcursor _ _ _ _ | lost hcursor _ _ _ _ _ | leave hcursor _ _ _ =>
    rw [hcursor] at hf
    cases hf
    exact .inr hfinished
  | resume hcursor _ _ _ _ _ hreached =>
    rw [hcursor] at hf
    cases hf
    exact .inr (hreached.keeps.finished hfinished)

theorem TakenUp.next (hp : p.Whole) (hi : Orderly p x) (h : TakenUp b x) (hnext : Next p x y) :
    TakenUp b y := by
  obtain ⟨f, outer, s, fs, t, rfl, rfl, hmoves⟩ := hnext.moves
  rcases h with ⟨d, hd⟩ | ⟨g, hg, hrunning⟩
  · exact .inl ⟨d, (hmoves.takeover hp.toWellFormed hi.consistent).records.finished hd⟩
  · rcases List.mem_cons.mp hg with rfl | hg
    · obtain ⟨d, hd⟩ := hi.custody.held b (by simp [Frame.hand, hrunning])
      rcases hmoves.takenUp hrunning hd with ⟨g', hg', hrunning'⟩ | hfinished
      · exact .inr ⟨g', List.mem_append_left _ hg', hrunning'⟩
      · exact .inl ⟨d, hfinished⟩
    · exact .inr ⟨g, List.mem_append_right _ hg, hrunning⟩

theorem Orderly.not_takesUp (hi : Orderly p x) (h : TakenUp b x) : ¬ TakesUp b x := by
  intro htakes
  obtain ⟨f, outer, stack, pending, hx, hcursor, hpending⟩ := htakes
  have hhand : f.hand = b :: pending.map Prod.fst := by
    simp [Frame.hand, hcursor, hpending, Cursor.block?]
  have hcustody := hi.custody
  rw [hx, List.flatMap_cons, hhand] at hcustody
  rcases h with ⟨d, hd⟩ | ⟨g, hg, hrunning⟩
  · obtain ⟨d', hd'⟩ := hcustody.held b (by simp)
    rw [hd] at hd'
    cases hd'
  · rw [hx] at hg
    rcases List.mem_cons.mp hg with rfl | hg
    · rw [hcursor] at hrunning
      cases hrunning
    · have hnot := (List.nodup_cons.mp hcustody.nodup).1
      refine hnot (List.mem_append_right _ (List.mem_flatMap.mpr ⟨g, hg, ?_⟩))
      simp [Frame.hand, hrunning]

/-- No block is walked twice. -/
theorem Trace.takesUp_once {trace : List Point} (hp : p.Whole) (hsub : sub ∈ p.subroutines)
    (h : Trace p sub trace) (b : BlockId) :
    trace.Pairwise fun x y => TakesUp b x → ¬ TakesUp b y := by
  refine pairwise_of_isChain (Q := fun x => Orderly p x ∧ TakenUp b x) (fun x y hxy hx => ?_)
    (fun x y hxy hx => ?_) (fun x hx => hx.1.not_takesUp hx.2) (h.orderly hp hsub)
  · exact ⟨hxy.1.next hp hxy.2, hx.next hxy.2⟩
  · exact ⟨hxy.1.next hp hxy.2, hx.2.next hp hxy.1 hxy.2⟩

theorem Shift.effects_subset (h : Shift p f s fs t) {a : Int} (ha : a ∈ s.effects.map Prod.fst) :
    a ∈ t.effects.map Prod.fst := by
  cases h with
  | close _ =>
    rw [State.closed, List.map_append]
    exact List.mem_append_left _ ha
  | keep hsame _ _ _ => rwa [hsame.effects]
  | finish _ _ _ => exact ha
  | pass _ _ _ _ _ hreached => rwa [hreached.effects]
  | follow _ _ _ _ _ _ _ hreached => rwa [hreached.effects]
  | enter _ _ henter => rwa [henter.effects]

theorem Closes.next {a : Int} (h : Closes a x) (hnext : Next p x y) :
    a ∈ y.state.effects.map Prod.fst := by
  obtain ⟨f, outer, hx, hcursor, hpending, rfl⟩ := h
  obtain ⟨f', outer', hx', hstep⟩ := hnext
  rw [hx] at hx'
  cases hx'
  simp only [Sim.step, hcursor, hpending] at hstep
  obtain ⟨_, u, hclose, hrest⟩ := Sim.bind_eq_ok.mp hstep
  cases hclose
  obtain ⟨-, hy⟩ := Sim.pure_eq_ok.mp hrest
  rw [← hy]
  simp

theorem Orderly.not_closes {a : Int} (hi : Orderly p x) (ha : a ∈ x.state.effects.map Prod.fst) :
    ¬ Closes a x := by
  intro hcloses
  obtain ⟨f, outer, hx, -, -, rfl⟩ := hcloses
  have hactive : f.subroutine.address ∈ x.state.active := by
    rw [hi.enrolled.active, hx]
    simp
  exact (List.nodup_append.mp hi.enrolled.once).2.2 _ hactive _ ha rfl

/-- No effect is found twice. -/
theorem Trace.closes_once {trace : List Point} (hp : p.Whole) (hsub : sub ∈ p.subroutines)
    (h : Trace p sub trace) (a : Int) : trace.Pairwise fun x y => Closes a x → ¬ Closes a y := by
  refine pairwise_of_isChain (Q := fun x => Orderly p x ∧ a ∈ x.state.effects.map Prod.fst)
    (fun x y hxy hx => ?_) (fun x y hxy hx => ?_) (fun x hx => hx.1.not_closes hx.2)
    (h.orderly hp hsub)
  · exact ⟨hxy.1.next hp hxy.2, hx.next hxy.2⟩
  · obtain ⟨f, outer, s, fs, t, rfl, rfl, hmoves⟩ := hxy.2.moves
    exact ⟨hxy.1.next hp hxy.2, hmoves.shift.effects_subset hx.2⟩

/-! ## The end -/

/-- What was met stays met behind a point. -/
theorem met_of_steps (h : Relation.ReflTransGen (Next p) x y) {a : Int}
    (ha : x.state.met a = true) : y.state.met a = true := by
  induction h with
  | refl => exact ha
  | tail _ hnext ih =>
    obtain ⟨f, outer, s, fs, t, rfl, rfl, hmoves⟩ := hnext.moves
    exact hmoves.shift.met a ih

theorem Orderly.keeps_of_steps (hp : p.Whole) (hi : Orderly p x)
    (h : Relation.ReflTransGen (Next p) x y) : Orderly p y ∧ Keeps x.state y.state := by
  induction h with
  | refl => exact ⟨hi, .refl _⟩
  | tail _ hnext ih =>
    obtain ⟨f, outer, s, fs, t, rfl, rfl, hmoves⟩ := hnext.moves
    have htake := hmoves.takeover hp.toWellFormed ih.1.consistent
    exact ⟨ih.1.next hp hnext, ih.2.trans htake.records⟩

/-- When no frame is left, no block is under way, and all that was met has an effect. -/
theorem Orderly.ended (hi : Orderly p x) (hx : x.frames = []) :
    (∀ b d, x.state.progressOf b ≠ .inProgress d) ∧
      (∀ b d, (x.state.progressOf b).depth? = some d → x.state.progressOf b = .finished d) ∧
      ∀ a, x.state.met a = true → (x.state.effectOf? a).isSome := by
  have hcons : Consistent p [] x.state := hx ▸ hi.consistent
  refine ⟨fun b d hb => ?_, fun b d hb => (hcons.arrived hb).1, fun a ha => ?_⟩
  · obtain ⟨f, hf, -⟩ := hcons.held b d hb
    cases hf
  · have hactive : x.state.active = [] := by rw [hi.enrolled.active, hx, List.map_nil]
    simpa [State.met, hactive] using ha

/-- What an analysis answers, and the point it answers at. -/
inductive Answers (p : Program) (sub : Subroutine) : Except Halt (Analysis × List Event) → Prop
  | success {x : Point} {events : List Event} : Visited p sub x → x.frames = [] →
      Answers p sub (.ok (⟨none, x.state⟩, events))
  | fault {f : Frame} {outer : List Frame} {s t : State} {fault : Fault} {events : List Event} :
      Visited p sub ⟨f :: outer, s⟩ → Sim.step p f outer s = .error (.fault fault) t →
      Answers p sub (.ok (⟨some fault.message, t⟩, events))
  | width {f : Frame} {outer : List Frame} {s : State} {i : LinkedInstruction} :
      Visited p sub ⟨f :: outer, s⟩ → f.Faces i → i.toInstruction.Widthless →
      Answers p sub (.error (.missingOperand i.address))

/-- An analysis of whole code has an answer of one of these kinds. -/
theorem analyze_answers (hp : p.Whole) (hsub : sub ∈ p.subroutines) :
    Answers p sub (analyze p (some sub)) := by
  obtain ⟨entry, hentry⟩ := hp.entries sub hsub
  obtain ⟨f, s, henter⟩ := Sim.enter_blank (p := p) hentry
  have hfirst : Begins p sub ⟨[f], s⟩ := ⟨f, rfl, henter⟩
  have hvisited : Visited p sub ⟨[f], s⟩ := ⟨_, hfirst, .refl⟩
  obtain ⟨r, hr, hanalyze⟩ := hvisited.concludes hp hsub
  rw [hanalyze]
  cases hr with
  | done hsteps hframes => exact .success ⟨_, hfirst, hsteps⟩ hframes
  | failed hsteps hstep =>
    have hfailing : Visited p sub _ := ⟨_, hfirst, hsteps⟩
    have hfailure := (hfailing.orderly hp hsub).failure hp hstep
    cases hfailure with
    | instruction _ _ _ => exact .fault hfailing hstep
    | width hfaces hwide => exact .width hfailing hfaces hwide
    | flow _ _ _ => exact .fault hfailing hstep

/-- An analysis that comes to a step that fails answers with that failure. -/
theorem Visited.analyze_of_error {halt : Halt} (hp : p.Whole) (hsub : sub ∈ p.subroutines)
    (h : Visited p sub ⟨f :: outer, s⟩) (hstep : Sim.step p f outer s = .error halt t) :
    analyze p (some sub) = Analysis.ofRun (.error halt t) := by
  have stuck : ∀ {y : Point}, Relation.ReflTransGen (Next p) ⟨f :: outer, s⟩ y →
      y = ⟨f :: outer, s⟩ := by
    intro y hsteps
    rcases Relation.ReflTransGen.cases_head hsteps with heq | ⟨z, ⟨f', outer', hx, hnext⟩, -⟩
    · exact heq.symm
    · cases hx
      rw [hstep] at hnext
      cases hnext
  obtain ⟨r, hr, hanalyze⟩ := h.concludes hp hsub
  rw [hanalyze]
  cases hr with
  | done hsteps hframes =>
    rw [stuck hsteps] at hframes
    cases hframes
  | failed hsteps hstep' =>
    cases stuck hsteps
    rw [hstep] at hstep'
    cases hstep'
    rfl

/-- A successful analysis ends behind every point it came to. -/
theorem Visited.keeps_end {a : Analysis} {events : List Event} (hp : p.Whole)
    (hsub : sub ∈ p.subroutines) (h : Visited p sub x)
    (hanalyze : analyze p (some sub) = .ok (a, events)) (hok : a.success = true) :
    ∃ y, Relation.ReflTransGen (Next p) x y ∧ y.frames = [] ∧ y.state = a.state := by
  obtain ⟨r, hr, hrun⟩ := h.concludes hp hsub
  rw [hanalyze] at hrun
  cases hr with
  | done hsteps hframes =>
    cases hrun
    exact ⟨_, hsteps, hframes, rfl⟩
  | @failed f outer s t halt _ _ =>
    cases halt with
    | fault fault =>
      cases hrun
      cases hok
    | missingOperand _ | ownerless _ | exhausted => cases hrun

end

end ScriptFlow.Stack
