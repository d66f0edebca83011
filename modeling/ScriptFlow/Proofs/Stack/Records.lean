import ScriptFlow.Proofs.Stack.Once

/-! # What comes to be recorded of a subroutine

The effect of a subroutine is what its frame has gathered when it is closed, and it never changes from
then on. So what every step of a frame keeps of all that it gathers can be said of every effect, and
what a frame has once gathered is found in the effect. -/

namespace ScriptFlow.Stack

/-- The effect that a frame would be closed with. -/
def Frame.effect (f : Frame) : Effect := ⟨f.delta, f.writes⟩

section
variable {p : Program} {f g inner : Frame} {fs outer : List Frame} {s t : State}
variable {c : BlockId} {stack : Cells} {sub start : Subroutine} {x y : Point} {n : Int} {e : Effect}

theorem Reached.effect (h : Reached c stack f s g t) : g.effect = f.effect := by
  cases h <;> rfl

theorem Entered.effect (h : Entered sub stack s inner t) : inner.effect = ⟨none, []⟩ := by
  obtain ⟨-, _, -, hreached⟩ := h
  exact hreached.effect

/-- The steps of a frame by whether it goes on. -/
inductive Turns (f : Frame) (s : State) : List Frame → State → Prop
  | close : Turns f s [] (s.closed f)
  | on {g : Frame} {t : State} : f.Heir g → t.effects = s.effects → Turns f s [g] t
  | enter {inner : Frame} {t : State} : inner.effect = ⟨none, []⟩ → t.effects = s.effects →
      Turns f s [inner, f] t

theorem Moves.turns (h : Moves p f s fs t) : Turns f s fs t := by
  cases h.shift with
  | close _ => exact .close
  | keep hsame hheir _ _ => exact .on hheir hsame.effects
  | finish hheir _ _ => exact .on hheir rfl
  | pass hheir _ _ _ _ hreached => exact .on (hheir.trans hreached.heir) hreached.effects
  | follow hheir _ _ _ _ _ _ hreached => exact .on (hheir.trans hreached.heir) hreached.effects
  | enter _ _ henter => exact .enter henter.effect henter.effects

/-! ## Of every effect -/

/-- All that frames have gathered and all effects have a property. -/
structure Vouched (R : Int → Effect → Prop) (x : Point) : Prop where
  frames : ∀ f ∈ x.frames, R f.subroutine.address f.effect
  effects : ∀ e ∈ x.state.effects, R e.1 e.2

/-- What holds when a frame is entered, and is kept as it goes on, holds of every effect. -/
theorem Visited.vouched {R : Int → Effect → Prop} (hp : p.Whole) (hstart : start ∈ p.subroutines)
    (enter : ∀ n, R n ⟨none, []⟩)
    (next : ∀ {f g outer s t}, Visited p start ⟨f :: outer, s⟩ →
      Next p ⟨f :: outer, s⟩ ⟨g :: outer, t⟩ → Moves p f s [g] t →
      R f.subroutine.address f.effect → R f.subroutine.address g.effect)
    (h : Visited p start x) : Vouched R x := by
  refine (h.induction (P := Vouched R) hp hstart (fun x hbegins => ?_)
    fun x y hx _ hvouched hnext => ?_).2
  · obtain ⟨f, hframes, henter⟩ := hbegins
    have hentered := Sim.enter_ok henter
    refine ⟨?_, ?_⟩
    · rw [hframes, List.forall_mem_singleton, hentered.effect]
      exact enter _
    · rw [hentered.effects]
      nofun
  · obtain ⟨f, outer, s, fs, t, rfl, rfl, hmoves⟩ := hnext.moves
    obtain ⟨hf, houter⟩ := List.forall_mem_cons.mp hvouched.frames
    have kept : t.effects = s.effects → ∀ e ∈ t.effects, R e.1 e.2 := by
      intro heffects
      rw [heffects]
      exact hvouched.effects
    cases hmoves.turns with
    | close =>
      refine ⟨houter, fun e he => ?_⟩
      rcases List.mem_append.mp he with he | he
      · exact hvouched.effects e he
      · rw [List.mem_singleton.mp he]
        exact hf
    | on hheir heffects =>
      refine ⟨List.forall_mem_cons.mpr ⟨?_, houter⟩, kept heffects⟩
      rw [hheir.subroutine]
      exact next hx hnext hmoves hf
    | enter hinner heffects =>
      refine ⟨List.forall_mem_cons.mpr ⟨?_, hvouched.frames⟩, kept heffects⟩
      rw [hinner]
      exact enter _

theorem Vouched.effectOf? {R : Int → Effect → Prop} (h : Vouched R x)
    (he : x.state.effectOf? n = some e) : R n e := by
  obtain ⟨r, hr, rfl⟩ := Option.map_eq_some_iff.mp he
  have hn : r.1 = n := by simpa using List.find?_some hr
  rw [← hn]
  exact h.effects r (List.mem_of_find?_eq_some hr)

/-! ## In the effect -/

/-- The subroutine has a property, in its frame or in its effect. -/
def Known (n : Int) (Q : Effect → Prop) (x : Point) : Prop :=
  (∃ f ∈ x.frames, f.subroutine.address = n ∧ Q f.effect) ∨
    ∃ e, x.state.effectOf? n = some e ∧ Q e

theorem effectOf?_closed_self (h : s.effectOf? f.subroutine.address = none) :
    (s.closed f).effectOf? f.subroutine.address = some f.effect := by
  rw [State.effectOf?, Option.map_eq_none_iff] at h
  simp [State.effectOf?, State.closed, List.find?_append, h, Frame.effect]

/-- A subroutine under way has no effect yet. -/
theorem Orderly.effectOf?_eq_none (hi : Orderly p x) (hf : f ∈ x.frames) :
    x.state.effectOf? f.subroutine.address = none := by
  rw [Stack.effectOf?_eq_none]
  intro heffect
  have hactive : f.subroutine.address ∈ x.state.active := by
    rw [hi.enrolled.active]
    exact List.mem_map_of_mem hf
  exact (List.nodup_append.mp hi.enrolled.once).2.2 _ hactive _ heffect rfl

section
variable {Q : Effect → Prop} (keep : ∀ {f g s t}, Moves p f s [g] t → Q f.effect → Q g.effect)
include keep

theorem Known.next (hp : p.Whole) (hi : Orderly p x) (h : Known n Q x) (hnext : Next p x y) :
    Known n Q y := by
  obtain ⟨f, outer, s, fs, t, rfl, rfl, hmoves⟩ := hnext.moves
  rcases h with ⟨g, hg, hn, hQ⟩ | ⟨e, he, hQ⟩
  · rcases List.mem_cons.mp hg with rfl | hg
    · cases hmoves.turns with
      | close =>
        have hnone : s.effectOf? g.subroutine.address = none :=
          hi.effectOf?_eq_none List.mem_cons_self
        exact .inr ⟨_, hn ▸ effectOf?_closed_self hnone, hQ⟩
      | on hheir _ =>
        exact .inl ⟨_, List.mem_cons_self, by rw [hheir.subroutine, hn], keep hmoves hQ⟩
      | enter _ _ => exact .inl ⟨g, by simp, hn, hQ⟩
    · exact .inl ⟨g, List.mem_append_right _ hg, hn, hQ⟩
  · have htake := Moves.takeover hp.toWellFormed hi.consistent hmoves
    exact .inr ⟨e, htake.records.effect he, hQ⟩

theorem Known.steps (hp : p.Whole) (hi : Orderly p x) (h : Known n Q x)
    (hsteps : Relation.ReflTransGen (Next p) x y) : Known n Q y := by
  induction hsteps with
  | refl => exact h
  | tail hsteps hnext ih => exact ih.next keep hp (hi.keeps_of_steps hp hsteps).1 hnext

/-- What the frame has behind a step is found in the effect, wherever that is recorded. -/
theorem Visited.effect_of_known (hp : p.Whole) (hstart : start ∈ p.subroutines)
    (hz : Visited p start ⟨f :: outer, s⟩) (hnext : Next p ⟨f :: outer, s⟩ y)
    (hknown : Known f.subroutine.address Q y) (hx : Visited p start x)
    (he : x.state.effectOf? f.subroutine.address = some e) : Q e := by
  have hi := hx.orderly hp hstart
  -- the effect is recorded once the frame is gone, so the step comes first
  have hlate : ¬ Relation.ReflTransGen (Next p) x ⟨f :: outer, s⟩ := by
    intro hsteps
    have hkept := (hi.keeps_of_steps hp hsteps).2.effect he
    rw [(hz.orderly hp hstart).effectOf?_eq_none List.mem_cons_self] at hkept
    cases hkept
  have hsteps := (hx.total hz).resolve_left hlate
  rcases Relation.ReflTransGen.cases_head hsteps with heq | ⟨y', hnext', hrest⟩
  · exact absurd (heq ▸ .refl) hlate
  · cases hnext.unique hnext'
    rcases hknown.steps keep hp ((hz.next hnext).orderly hp hstart) hrest with h | h
    · obtain ⟨g, hg, hgn, -⟩ := h
      rw [← hgn, hi.effectOf?_eq_none hg] at he
      cases he
    · obtain ⟨e', he', hQ⟩ := h
      rw [he] at he'
      cases he'
      exact hQ

end

end

end ScriptFlow.Stack
