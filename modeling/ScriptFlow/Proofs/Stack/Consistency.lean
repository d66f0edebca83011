import ScriptFlow.Proofs.Stack.Steps

/-! # Depths agree on all paths

A block is walked once, from one of the ways into it, and the depth it is entered with is recorded
before that. What is recorded stays. A block that was walked leads on with the depth behind its
instructions: where it leads, that depth is recorded, or its frame has yet to follow the edge. When no
frame is left, so is no such edge, and no block is under way. -/

namespace ScriptFlow.Stack

/-! ## Depths by instructions -/

section
variable (p : Program) (s : State)

/-- The depth behind an instruction; a call adds what is recorded of its callee. -/
def Program.depthAfter (i : LinkedInstruction) (d : Nat) : Option Nat :=
  if i.opcode = .jsr then do
    let callee ← p.callee? i
    let effect ← s.effectOf? callee.address
    effect.after d
  else do
    let change ← depthChange? p.table i.toInstruction
    change.after d

/-- The depth behind instructions executed one after the other. -/
def Program.depthThrough (is : List LinkedInstruction) (d : Nat) : Option Nat :=
  is.foldlM (fun d i => p.depthAfter s i d) d

/-- The depth behind a block entered with a depth. -/
def Program.depthBehind (b : BlockId) (d : Nat) : Option Nat :=
  p.depthThrough s (p.graph.block b).instructions d

/-- Where a subroutine goes on behind a block: along its live edges inside of the subroutine, and
over a call whose callee is known to return. -/
inductive Onward (b : BlockId) : BlockId → Prop
  | edge {e : Edge} : e ∈ p.graph.edges b → e.kind ≠ .dead → e.kind.crosses = false →
      Onward b e.child
  | behind {last : LinkedInstruction} {callee : Subroutine} {delta : Int} {c : BlockId} :
      (p.graph.block b).last? = some last → last.opcode = .jsr → p.callee? last = some callee →
      (s.effectOf? callee.address).bind Effect.delta = some delta →
      p.holder? last.follower = some c → Onward b c

theorem onward_iff {b c : BlockId} : Onward p s b c ↔
    (∃ e ∈ p.graph.edges b, e.kind ≠ .dead ∧ e.kind.crosses = false ∧ e.child = c) ∨
      ∃ last ∈ (p.graph.block b).last?, last.opcode = .jsr ∧ (∃ callee ∈ p.callee? last,
        ((s.effectOf? callee.address).bind Effect.delta).isSome) ∧
          p.holder? last.follower = some c := by
  constructor
  · intro h
    cases h with
    | edge he hlive hlocal => exact .inl ⟨_, he, hlive, hlocal, rfl⟩
    | behind hlast hop hcallee hdelta hnext =>
      exact .inr ⟨_, hlast, hop, ⟨_, hcallee, by rw [hdelta]; rfl⟩, hnext⟩
  · rintro (⟨e, he, hlive, hlocal, rfl⟩ | ⟨last, hlast, hop, ⟨callee, hcallee, hdelta⟩, hnext⟩)
    · exact .edge he hlive hlocal
    · obtain ⟨delta, hdelta⟩ := Option.isSome_iff_exists.mp hdelta
      exact .behind hlast hop hcallee hdelta hnext

instance {b c : BlockId} : Decidable (Onward p s b c) := decidable_of_iff _ (onward_iff p s).symm

/-- What the analysis relies on: edges and subroutines lead to blocks, and a block that calls or
returns has no edge inside of its subroutine. -/
structure Program.WellFormed : Prop where
  child_lt : ∀ b, ∀ e ∈ p.graph.edges b, e.child < p.graph.size
  entry_lt : ∀ sub ∈ p.subroutines, ∀ b, sub.entry = some b → b < p.graph.size
  entry_unique : ∀ sub ∈ p.subroutines, ∀ sub' ∈ p.subroutines, sub.address = sub'.address →
    sub.entry = sub'.entry
  crosses : ∀ b last, (p.graph.block b).last? = some last →
    last.opcode = .retn ∨ last.opcode = .jsr →
    ∀ e ∈ p.graph.edges b, e.kind ≠ .dead → e.kind.crosses = true

end

/-! ## Records -/

section
variable {p : Program} {s t u : State} {b c : BlockId} {q : Progress} {d : Nat}

theorem progressOf_setProgress : (s.setProgress b q).progressOf c =
    if b = c ∧ c < s.progress.size then q else s.progressOf c := by
  unfold State.setProgress State.progressOf
  simp only [Array.getD_eq_getD_getElem?, Array.getElem?_setIfInBounds]
  by_cases hbc : b = c
  · subst hbc
    by_cases hb : b < s.progress.size <;> simp [hb]
  · simp [hbc]

@[simp] theorem size_setProgress : (s.setProgress b q).progress.size = s.progress.size := by
  simp [State.setProgress]

/-- What the first state has recorded, the second one has recorded too. -/
structure Keeps (s t : State) : Prop where
  size : t.progress.size = s.progress.size
  finished : ∀ {b d}, s.progressOf b = .finished d → t.progressOf b = .finished d
  depth : ∀ {b d}, (s.progressOf b).depth? = some d → (t.progressOf b).depth? = some d
  effect : ∀ {a e}, s.effectOf? a = some e → t.effectOf? a = some e

theorem Keeps.refl (s : State) : Keeps s s := ⟨rfl, id, id, id⟩

theorem Keeps.trans (hst : Keeps s t) (htu : Keeps t u) : Keeps s u where
  size := htu.size.trans hst.size
  finished h := htu.finished (hst.finished h)
  depth h := htu.depth (hst.depth h)
  effect h := htu.effect (hst.effect h)

theorem SameRecords.progressOf (h : SameRecords s t) (b : BlockId) :
    t.progressOf b = s.progressOf b := by
  unfold State.progressOf
  rw [h.progress]

theorem SameRecords.effectOf? (h : SameRecords s t) (a : Int) : t.effectOf? a = s.effectOf? a := by
  unfold State.effectOf?
  rw [h.effects]

theorem SameRecords.keeps (h : SameRecords s t) : Keeps s t where
  size := by rw [h.progress]
  finished hb := by rwa [h.progressOf]
  depth hb := by rwa [h.progressOf]
  effect ha := by rwa [h.effectOf?]

@[simp] theorem depth?_finish : q.finish.depth? = q.depth? := by
  cases q <;> rfl

theorem progressOf_walked : (s.walked b).progressOf c =
    if b = c then (s.progressOf c).finish else s.progressOf c := by
  unfold State.walked
  rw [progressOf_setProgress]
  by_cases hbc : b = c
  · subst hbc
    by_cases hb : b < s.progress.size
    · simp [hb]
    · simp [hb, State.progressOf, Progress.finish]
  · simp [hbc]

theorem keeps_walked (s : State) (b : BlockId) : Keeps s (s.walked b) where
  size := size_setProgress
  finished {c d} h := by
    rw [progressOf_walked, h]
    split <;> rfl
  depth {c d} h := by
    rw [progressOf_walked]
    split
    · rwa [depth?_finish]
    · exact h
  effect h := h

theorem keeps_closed (s : State) (f : Frame) : Keeps s (s.closed f) where
  size := rfl
  finished h := h
  depth h := h
  effect {a e} h := by
    obtain ⟨x, hx, rfl⟩ := Option.map_eq_some_iff.mp h
    simp [State.effectOf?, State.closed, hx]

/-! ## Depths stay as they are -/

section
variable {i : LinkedInstruction} {is js : List LinkedInstruction} {n : Nat}

theorem depthAfter_mono (hst : Keeps s t) (h : p.depthAfter s i d = some n) :
    p.depthAfter t i d = some n := by
  unfold Program.depthAfter at h ⊢
  split at h
  · rename_i hop
    obtain ⟨callee, hcallee, h⟩ := Option.bind_eq_some_iff.mp h
    obtain ⟨effect, heffect, h⟩ := Option.bind_eq_some_iff.mp h
    rw [if_pos hop]
    refine Option.bind_eq_some_iff.mpr ⟨callee, hcallee, ?_⟩
    exact Option.bind_eq_some_iff.mpr ⟨effect, hst.effect heffect, h⟩
  · rename_i hop
    rwa [if_neg hop]

theorem depthThrough_append : p.depthThrough s (is ++ js) d =
    (p.depthThrough s is d).bind (p.depthThrough s js) := by
  unfold Program.depthThrough
  rw [List.foldlM_append]
  rfl

theorem depthThrough_cons :
    p.depthThrough s (i :: is) d = (p.depthAfter s i d).bind (p.depthThrough s is) := rfl

theorem depthThrough_mono (hst : Keeps s t) (h : p.depthThrough s is d = some n) :
    p.depthThrough t is d = some n := by
  induction is generalizing d with
  | nil => exact h
  | cons i is ih =>
    rw [depthThrough_cons] at h ⊢
    obtain ⟨m, hm, h⟩ := Option.bind_eq_some_iff.mp h
    exact Option.bind_eq_some_iff.mpr ⟨m, depthAfter_mono hst hm, ih h⟩

/-- Where a depth is known behind a call, the effect of its callee is. -/
theorem effect_of_depthThrough (h : p.depthThrough s is d = some n) (hi : i ∈ is)
    (hop : i.opcode = .jsr) :
    ∃ callee effect, p.callee? i = some callee ∧ s.effectOf? callee.address = some effect := by
  induction is generalizing d with
  | nil => cases hi
  | cons j is ih =>
    rw [depthThrough_cons] at h
    obtain ⟨m, hm, h⟩ := Option.bind_eq_some_iff.mp h
    rcases List.mem_cons.mp hi with rfl | hi
    · rw [Program.depthAfter, if_pos hop] at hm
      obtain ⟨callee, hcallee, hm⟩ := Option.bind_eq_some_iff.mp hm
      obtain ⟨effect, heffect, -⟩ := Option.bind_eq_some_iff.mp hm
      exact ⟨callee, effect, hcallee, heffect⟩
    · exact ih h hi

/-- Behind a block whose depth is known nothing new opens up. -/
theorem Onward.of_keeps (h : Onward p t b c) (hst : Keeps s t)
    (hd : p.depthBehind s b d = some n) : Onward p s b c := by
  cases h with
  | edge he hlive hlocal => exact .edge he hlive hlocal
  | @behind last callee delta _ hlast hop hcallee hdelta hnext =>
    obtain ⟨callee', effect, hcallee', heffect⟩ :=
      effect_of_depthThrough hd (List.mem_of_getLast? hlast) hop
    rw [hcallee] at hcallee'
    cases hcallee'
    rw [hst.effect heffect] at hdelta
    exact .behind hlast hop hcallee (by rw [heffect]; exact hdelta) hnext

end

end

/-! ## What every step keeps -/

section
variable {p : Program} {f g : Frame} {fs outer frames : List Frame} {s t : State} {b c : BlockId}
variable {d n : Nat} {stack : Cells} {sub : Subroutine}

/-- The block waits for the frame to walk it, or is being walked. -/
def Frame.Holds (f : Frame) (b : BlockId) : Prop :=
  (∃ stack, (b, stack) ∈ f.pending) ∨ ∃ rest stack, f.cursor = .running b rest stack

/-- The frame has yet to follow an edge to the block, with a stack of the given depth. -/
def Frame.Awaits (f : Frame) (c : BlockId) (d : Nat) : Prop :=
  ∃ edges stack, f.cursor = .leaving edges stack ∧ stack.length = d ∧
    ∃ e ∈ edges, e.kind ≠ .dead ∧ e.kind.crosses = false ∧ e.child = c

/-- The subroutine belongs to the program, and the depth of its entry is recorded. -/
def Begun (p : Program) (s : State) (sub : Subroutine) : Prop :=
  sub ∈ p.subroutines ∧ ∃ entry d, sub.entry = some entry ∧ (s.progressOf entry).depth? = some d

/-- The stacks of a frame have the depths recorded. -/
structure Frame.Sound (p : Program) (s : State) (f : Frame) : Prop where
  begun : Begun p s f.subroutine
  pending : ∀ b stack, (b, stack) ∈ f.pending → (s.progressOf b).depth? = some stack.length
  running : ∀ b rest stack, f.cursor = .running b rest stack → ∃ d done,
    (s.progressOf b).depth? = some d ∧ (p.graph.block b).instructions = done ++ rest ∧
      p.depthThrough s done d = some stack.length
  leaving : ∀ edges stack, f.cursor = .leaving edges stack → ∀ e ∈ edges, e.child < p.graph.size

/-- The depth behind the block is known, and recorded wherever the block leads, unless a frame has
yet to go there. -/
def Settled (p : Program) (frames : List Frame) (s : State) (b : BlockId) (d : Nat) : Prop :=
  ∃ n, p.depthBehind s b d = some n ∧ ∀ c, Onward p s b c →
    (s.progressOf c).depth? = some n ∨ ∃ f ∈ frames, f.Awaits c n

structure Consistent (p : Program) (frames : List Frame) (s : State) : Prop where
  size : s.progress.size = p.graph.size
  settled : ∀ b d, s.progressOf b = .finished d → Settled p frames s b d
  held : ∀ b d, s.progressOf b = .inProgress d → ∃ f ∈ frames, f.Holds b
  sound : ∀ f ∈ frames, f.Sound p s
  effects : ∀ a e, s.effectOf? a = some e → ∃ sub, sub.address = a ∧ Begun p s sub

theorem Begun.mono (h : Begun p s sub) (hst : Keeps s t) : Begun p t sub := by
  obtain ⟨hsub, entry, d, hentry, hd⟩ := h
  exact ⟨hsub, entry, d, hentry, hst.depth hd⟩

theorem Frame.Sound.mono (h : f.Sound p s) (hst : Keeps s t) : f.Sound p t where
  begun := h.begun.mono hst
  pending b stack hb := hst.depth (h.pending b stack hb)
  running b rest stack hf := by
    obtain ⟨d, done, hd, his, hdone⟩ := h.running b rest stack hf
    exact ⟨d, done, hst.depth hd, his, depthThrough_mono hst hdone⟩
  leaving := h.leaving

/-- What has to be shown of the frames that take the place of the innermost one. -/
structure Takeover (p : Program) (f : Frame) (outer : List Frame) (s : State) (fs : List Frame)
    (t : State) : Prop where
  records : Keeps s t
  settled : ∀ b d, t.progressOf b = .finished d → s.progressOf b ≠ .finished d →
    Settled p (fs ++ outer) t b d
  awaits : ∀ c n, f.Awaits c n → (t.progressOf c).depth? = some n ∨ ∃ g ∈ fs, g.Awaits c n
  held : ∀ b d, t.progressOf b = .inProgress d →
    s.progressOf b = .inProgress d ∧ (f.Holds b → ∃ g ∈ fs, g.Holds b) ∨ ∃ g ∈ fs, g.Holds b
  sound : ∀ g ∈ fs, g.Sound p t
  effects : ∀ a e, t.effectOf? a = some e →
    s.effectOf? a = some e ∨ ∃ sub, sub.address = a ∧ Begun p t sub

theorem Consistent.step (hi : Consistent p (f :: outer) s) (h : Takeover p f outer s fs t) :
    Consistent p (fs ++ outer) t where
  size := h.records.size.trans hi.size
  settled b d hb := by
    by_cases hold : s.progressOf b = .finished d
    · obtain ⟨n, hn, honward⟩ := hi.settled b d hold
      refine ⟨n, depthThrough_mono h.records hn, fun c hc => ?_⟩
      -- effects recorded since open no new way behind a block whose depth was known before
      rcases honward c (hc.of_keeps h.records hn) with hc | ⟨g, hg, hc⟩
      · exact .inl (h.records.depth hc)
      · rcases List.mem_cons.mp hg with rfl | hg
        · refine (h.awaits c n hc).imp_right fun ⟨g, hg, hc⟩ => ?_
          exact ⟨g, List.mem_append_left _ hg, hc⟩
        · exact .inr ⟨g, List.mem_append_right _ hg, hc⟩
    · exact h.settled b d hb hold
  held b d hb := by
    have new : (∃ g ∈ fs, g.Holds b) → ∃ g ∈ fs ++ outer, g.Holds b := fun ⟨g, hg, hgb⟩ =>
      ⟨g, List.mem_append_left _ hg, hgb⟩
    rcases h.held b d hb with ⟨hold, htake⟩ | hnew
    · obtain ⟨g, hg, hgb⟩ := hi.held b d hold
      rcases List.mem_cons.mp hg with rfl | hg
      · exact new (htake hgb)
      · exact ⟨g, List.mem_append_right _ hg, hgb⟩
    · exact new hnew
  sound g hg := by
    rcases List.mem_append.mp hg with hg | hg
    · exact h.sound g hg
    · exact (hi.sound g (List.mem_cons_of_mem _ hg)).mono h.records
  effects a e ha := by
    rcases h.effects a e ha with hold | hnew
    · obtain ⟨sub, hsub, hbegun⟩ := hi.effects a e hold
      exact ⟨sub, hsub, hbegun.mono h.records⟩
    · exact hnew

/-! ## Reaching blocks -/

namespace Reached

theorem keeps (h : Reached c stack f s g t) : Keeps s t := by
  cases h with
  | known _ => exact .refl s
  | first hnone =>
    have kept : ∀ {b d}, (s.progressOf b).depth? = some d →
        (s.setProgress c (.inProgress stack.length)).progressOf b = s.progressOf b := by
      intro b d hb
      rw [progressOf_setProgress, if_neg]
      rintro ⟨rfl, -⟩
      rw [hnone] at hb
      cases hb
    refine ⟨size_setProgress, fun {b d} hb => ?_, fun {b d} hb => ?_, id⟩
    · rwa [kept (d := d) (by rw [hb]; rfl)]
    · rwa [kept hb]

theorem depth (h : Reached c stack f s g t) (hc : c < s.progress.size) :
    (t.progressOf c).depth? = some stack.length := by
  cases h with
  | known hknown => exact hknown
  | first _ => rw [progressOf_setProgress, if_pos ⟨rfl, hc⟩]; rfl

theorem finished (h : Reached c stack f s g t) (hb : t.progressOf b = .finished d) :
    s.progressOf b = .finished d := by
  cases h with
  | known _ => exact hb
  | first _ =>
    rw [progressOf_setProgress] at hb
    split at hb
    · cases hb
    · exact hb

theorem inProgress (h : Reached c stack f s g t) (hb : t.progressOf b = .inProgress d) :
    s.progressOf b = .inProgress d ∨ (b, stack) ∈ g.pending := by
  cases h with
  | known _ => exact .inl hb
  | first _ =>
    rw [progressOf_setProgress] at hb
    split at hb
    · rename_i hcb
      exact .inr (by simp [hcb.1])
    · exact .inl hb

theorem effectOf? (h : Reached c stack f s g t) (a : Int) : t.effectOf? a = s.effectOf? a := by
  cases h <;> rfl

theorem cursor (h : Reached c stack f s g t) : g.cursor = f.cursor := by cases h <;> rfl

theorem subroutine (h : Reached c stack f s g t) : g.subroutine = f.subroutine := by
  cases h <;> rfl

theorem pending (h : Reached c stack f s g t) : ∀ x ∈ f.pending, x ∈ g.pending := by
  cases h with
  | known _ => exact fun _ => id
  | first _ => exact fun _ => List.mem_append_left _

theorem mem_pending (h : Reached c stack f s g t) {x : BlockId × Cells} (hx : x ∈ g.pending) :
    x ∈ f.pending ∨ x = (c, stack) := by
  cases h with
  | known _ => exact .inl hx
  | first _ => simpa using hx

theorem sound (h : Reached c stack f s g t) (hf : f.Sound p s) (hc : c < s.progress.size) :
    g.Sound p t where
  begun := by
    rw [h.subroutine]
    exact hf.begun.mono h.keeps
  pending b st hb := by
    rcases h.mem_pending hb with hb | hb
    · exact h.keeps.depth (hf.pending b st hb)
    · cases hb
      exact h.depth hc
  running b rest st hg := (hf.mono h.keeps).running b rest st (by rw [← h.cursor, hg])
  leaving edges st hg := hf.leaving edges st (by rw [← h.cursor, hg])

end Reached

/-! ## The frames that take over -/

/-- A step that records nothing. -/
theorem Takeover.quiet (h : SameRecords s t) (hg : g.Sound p t)
    (hawaits : ∀ c n, f.Awaits c n → g.Awaits c n) (hholds : ∀ b, f.Holds b → g.Holds b) :
    Takeover p f outer s [g] t where
  records := h.keeps
  settled b d hb hold := absurd (by rwa [← h.progressOf]) hold
  awaits c n hc := .inr ⟨g, by simp, hawaits c n hc⟩
  held b d hb := .inl ⟨by rwa [← h.progressOf], fun hf => ⟨g, by simp, hholds b hf⟩⟩
  sound g' hg' := by rwa [List.mem_singleton.mp hg']
  effects a e ha := .inl (by rwa [← h.effectOf?])

/-- A step that comes to the end of a block. -/
theorem Takeover.finish (hf : f.Sound p s) (hcursor : f.cursor = .running b [] stack)
    (hu : Keeps (s.walked b) t)
    (hfinished : ∀ c d, t.progressOf c = .finished d → (s.walked b).progressOf c = .finished d)
    (hheld : ∀ c d, t.progressOf c = .inProgress d →
      (s.walked b).progressOf c = .inProgress d ∨ g.Holds c)
    (heffects : ∀ a, t.effectOf? a = s.effectOf? a) (hpending : ∀ x ∈ f.pending, x ∈ g.pending)
    (hg : g.Sound p t)
    (honward : ∀ c, Onward p t b c →
      (t.progressOf c).depth? = some stack.length ∨ g.Awaits c stack.length) :
    Takeover p f outer s [g] t where
  records := (keeps_walked s b).trans hu
  settled c d hc hold := by
    have hwalked := hfinished c d hc
    rw [progressOf_walked] at hwalked
    split at hwalked
    · -- the block just walked is the only new one, and its frame has run all its instructions
      rename_i hbc
      subst hbc
      obtain ⟨d', done, hd', his, hdone⟩ := hf.running b [] stack hcursor
      rw [List.append_nil] at his
      have hd : d' = d := by
        have := (keeps_walked s b).depth hd'
        rw [progressOf_walked, if_pos rfl, hwalked] at this
        exact (Option.some.inj this).symm
      subst hd
      refine ⟨stack.length, ?_, fun c hc => ?_⟩
      · rw [Program.depthBehind, his]
        exact depthThrough_mono ((keeps_walked s b).trans hu) hdone
      · refine (honward c hc).imp_right fun hawaits => ⟨g, by simp, hawaits⟩
    · exact absurd hwalked hold
  awaits c n hc := by
    obtain ⟨edges, st, hleaving, -⟩ := hc
    rw [hcursor] at hleaving
    cases hleaving
  held c d hc := by
    rcases hheld c d hc with hwalked | hnew
    · rw [progressOf_walked] at hwalked
      split at hwalked
      · rename_i hbc
        subst hbc
        cases hq : s.progressOf b <;> rw [hq] at hwalked <;> cases hwalked
      · rename_i hbc
        refine .inl ⟨hwalked, fun hholds => ⟨g, by simp, ?_⟩⟩
        rcases hholds with ⟨st, hst⟩ | ⟨rest, st, hrun⟩
        · exact .inl ⟨st, hpending _ hst⟩
        · rw [hcursor] at hrun
          cases hrun
          exact absurd rfl hbc
    · exact .inr ⟨g, by simp, hnew⟩
  sound g' hg' := by rwa [List.mem_singleton.mp hg']
  effects a e ha := .inl (by rwa [← heffects])

namespace Entered

theorem keeps (h : Entered sub stack s g t) : Keeps s t := by
  obtain ⟨-, entry, -, hreached⟩ := h
  exact Keeps.trans (t := { s with active := sub.address :: s.active }) ⟨rfl, id, id, id⟩
    hreached.keeps

theorem depth (hwf : p.WellFormed) (hsize : s.progress.size = p.graph.size)
    (hsub : sub ∈ p.subroutines) (h : Entered sub stack s g t) :
    ∃ entry, sub.entry = some entry ∧ (t.progressOf entry).depth? = some stack.length := by
  obtain ⟨-, entry, hentry, hreached⟩ := h
  refine ⟨entry, hentry, hreached.depth ?_⟩
  exact hsize ▸ hwf.entry_lt sub hsub entry hentry

theorem sound (hwf : p.WellFormed) (hsize : s.progress.size = p.graph.size)
    (hsub : sub ∈ p.subroutines) (h : Entered sub stack s g t) : g.Sound p t := by
  obtain ⟨entry, hentry, hdepth⟩ := h.depth hwf hsize hsub
  obtain ⟨-, entry', hentry', hreached⟩ := h
  rw [hentry] at hentry'
  cases hentry'
  refine ⟨?_, fun b st hb => ?_, fun b rest st hrun => ?_, fun edges st hleaving => ?_⟩
  · rw [hreached.subroutine]
    exact ⟨hsub, entry, _, hentry, hdepth⟩
  · obtain ⟨rfl, rfl⟩ : b = entry ∧ st = stack := by
      simpa using (hreached.mem_pending hb).resolve_left List.not_mem_nil
    exact hdepth
  · rw [hreached.cursor] at hrun
    cases hrun
  · rw [hreached.cursor] at hleaving
    cases hleaving

theorem finished (h : Entered sub stack s g t) (hb : t.progressOf b = .finished d) :
    s.progressOf b = .finished d := by
  obtain ⟨-, entry, -, hreached⟩ := h
  exact hreached.finished hb

theorem inProgress (h : Entered sub stack s g t) (hb : t.progressOf b = .inProgress d) :
    s.progressOf b = .inProgress d ∨ g.Holds b := by
  obtain ⟨-, entry, -, hreached⟩ := h
  exact (hreached.inProgress hb).imp_right fun hnew => .inl ⟨stack, hnew⟩

theorem effectOf? (h : Entered sub stack s g t) (a : Int) : t.effectOf? a = s.effectOf? a := by
  obtain ⟨-, entry, -, hreached⟩ := h
  exact hreached.effectOf? a

end Entered

/-- A step into a subroutine. -/
theorem Takeover.enter (hwf : p.WellFormed) (hsize : s.progress.size = p.graph.size)
    (hf : f.Sound p s) (hsub : sub ∈ p.subroutines) (h : Entered sub stack s g t) :
    Takeover p f outer s [g, f] t where
  records := h.keeps
  settled b d hb hold := absurd (h.finished hb) hold
  awaits c n hc := .inr ⟨f, by simp, hc⟩
  held b d hb := (h.inProgress hb).imp (fun hold => ⟨hold, fun hf => ⟨f, by simp, hf⟩⟩)
    fun hnew => ⟨g, by simp, hnew⟩
  sound := by simpa using ⟨h.sound hwf hsize hsub, hf.mono h.keeps⟩
  effects a e ha := .inl (by rwa [← h.effectOf?])

theorem mem_of_ownerOf? (h : p.ownerOf? b = some sub) : sub ∈ p.subroutines := by
  obtain ⟨a, -, ha⟩ := Option.bind_eq_some_iff.mp h
  exact List.mem_of_find?_eq_some ha

theorem mem_of_callee? {i : LinkedInstruction} (h : p.callee? i = some sub) :
    sub ∈ p.subroutines := by
  obtain ⟨b, -, hb⟩ := Option.bind_eq_some_iff.mp h
  exact mem_of_ownerOf? hb

theorem lt_of_holder? {a : Option Int} (h : p.holder? a = some b) : b < p.graph.size := by
  obtain ⟨a, -, ha⟩ := Option.bind_eq_some_iff.mp h
  exact (Array.findIdx?_eq_some_iff_getElem.mp ha).1

theorem Frame.not_awaits (h : ∀ edges stack, f.cursor ≠ .leaving edges stack) : ¬ f.Awaits c n :=
  fun ⟨edges, stack, hcursor, _⟩ => h edges stack hcursor

theorem leaving_holds {edges : List Edge} (hcursor : f.cursor = .leaving edges stack)
    (hpending : g.pending = f.pending) (h : f.Holds c) : g.Holds c := by
  rcases h with ⟨st, hst⟩ | ⟨rest, st, hrun⟩
  · exact .inl ⟨st, hpending ▸ hst⟩
  · rw [hcursor] at hrun
    cases hrun

/-- A frame between blocks, or behind one, is sound by its blocks in line. -/
theorem Frame.Sound.resting (hf : f.Sound p s) (hsub : g.subroutine = f.subroutine)
    (hpending : g.pending = f.pending) (hcursor : ∀ b rest stack, g.cursor ≠ .running b rest stack)
    (hleaving : ∀ edges stack, g.cursor = .leaving edges stack →
      ∀ e ∈ edges, e.child < p.graph.size) : g.Sound p s where
  begun := hsub ▸ hf.begun
  pending := hpending ▸ hf.pending
  running b rest stack hrun := absurd hrun (hcursor b rest stack)
  leaving := hleaving

theorem Frame.Sound.onward {e : Edge} {edges : List Edge} (hf : f.Sound p s)
    (hcursor : f.cursor = .leaving (e :: edges) stack) :
    Frame.Sound p s { f with cursor := .leaving edges stack } := by
  refine hf.resting rfl rfl nofun fun edges' st hleaving => ?_
  cases hleaving
  exact fun e' he' => hf.leaving _ stack hcursor e' (List.mem_cons_of_mem _ he')

theorem effectOf?_closed {a : Int} {e : Effect} (h : (s.closed f).effectOf? a = some e) :
    s.effectOf? a = some e ∨ f.subroutine.address = a := by
  obtain ⟨x, hx, rfl⟩ := Option.map_eq_some_iff.mp h
  simp only [State.closed, List.find?_append, Option.or_eq_some_iff] at hx
  rcases hx with hx | ⟨-, hx⟩
  · exact .inl (by rw [State.effectOf?, hx]; rfl)
  · have hmem := List.mem_singleton.mp (List.mem_of_find?_eq_some hx)
    have hax := List.find?_some hx
    rw [hmem] at hax
    exact .inr (by simpa using hax)

theorem Onward.of_jsr {last : LinkedInstruction} (hwf : p.WellFormed) (h : Onward p s b c)
    (hlast : (p.graph.block b).last? = some last)
    (hop : last.opcode = .retn ∨ last.opcode = .jsr) :
    last.opcode = .jsr ∧ p.holder? last.follower = some c ∧ ∃ callee delta,
      p.callee? last = some callee ∧ (s.effectOf? callee.address).bind Effect.delta = some delta := by
  cases h with
  | edge he hlive hlocal =>
    rw [hwf.crosses b last hlast hop _ he hlive] at hlocal
    cases hlocal
  | behind hlast' hop' hcallee hdelta hnext =>
    rw [hlast] at hlast'
    cases hlast'
    exact ⟨hop', hnext, _, _, hcallee, hdelta⟩

namespace Takeover

theorem close (hf : f.Sound p s) (hcursor : f.cursor = .idle) (hpending : f.pending = []) :
    Takeover p f outer s [] (s.closed f) where
  records := keeps_closed s f
  settled b d hb hold := absurd hb hold
  awaits c n hc := absurd hc (Frame.not_awaits (by simp [hcursor]))
  held b d hb := .inl ⟨hb, fun hholds => by simp [Frame.Holds, hcursor, hpending] at hholds⟩
  sound := by simp
  effects a e ha := (effectOf?_closed ha).imp_right fun haddress =>
    ⟨f.subroutine, haddress, hf.begun.mono (keeps_closed s f)⟩

theorem pick {pending : List (BlockId × Cells)} (hf : f.Sound p s) (hcursor : f.cursor = .idle)
    (hpending : f.pending = (b, stack) :: pending) :
    Takeover p f outer s
      [{ f with pending, cursor := .running b (p.graph.block b).instructions stack }] s := by
  have hline : ∀ x ∈ pending, x ∈ f.pending := by simp +contextual [hpending]
  have hdepth := hf.pending b stack (by simp [hpending])
  refine quiet (.refl s) ⟨hf.begun, fun c st hc => hf.pending c st (hline _ hc), ?_, nofun⟩ ?_ ?_
  · intro c rest st hrun
    cases hrun
    exact ⟨_, [], hdepth, rfl, rfl⟩
  · exact fun c n hc => absurd hc (Frame.not_awaits (by simp [hcursor]))
  · rintro c (⟨st, hst⟩ | ⟨rest, st, hrun⟩)
    · rw [hpending] at hst
      rcases List.mem_cons.mp hst with heq | hst
      · cases heq
        exact .inr ⟨_, _, rfl⟩
      · exact .inl ⟨st, hst⟩
    · rw [hcursor] at hrun
      cases hrun

/-- The depth behind one more instruction. -/
theorem advance {i : LinkedInstruction} {rest : List LinkedInstruction} {after : Cells}
    {writes : Writes} (hf : f.Sound p s) (hcursor : f.cursor = .running b (i :: rest) stack)
    (hsame : SameRecords s t) (hi : p.depthAfter t i stack.length = some after.length) :
    Takeover p f outer s [{ f with writes, cursor := .running b rest after }] t := by
  have hft := hf.mono hsame.keeps
  refine quiet hsame ⟨hft.begun, hft.pending, fun c rest' st hrun => ?_, nofun⟩ ?_ fun c hc => ?_
  · cases hrun
    obtain ⟨d, done, hd, his, hdone⟩ := hft.running b (i :: rest) stack hcursor
    refine ⟨d, done ++ [i], hd, by rw [his, List.append_assoc]; rfl, ?_⟩
    rw [depthThrough_append, hdone, Option.bind_some, depthThrough_cons, hi]
    rfl
  · exact fun c n hc => absurd hc (Frame.not_awaits (by simp [hcursor]))
  · rcases hc with hc | ⟨rest', st, hrun⟩
    · exact .inl hc
    · rw [hcursor] at hrun
      cases hrun
      exact .inr ⟨_, _, rfl⟩

/-- Behind a block that leads nowhere the frame turns to the next one. -/
theorem stop {delta : Option Int} (hf : f.Sound p s) (hcursor : f.cursor = .running b [] stack)
    (h : ∀ c, ¬ Onward p s b c) :
    Takeover p f outer s [{ f with delta, cursor := .idle }] (s.walked b) := by
  have hg := (hf.mono (keeps_walked s b)).resting (g := { f with delta, cursor := .idle }) rfl rfl
    nofun nofun
  refine finish hf hcursor (.refl _) (fun _ _ => id) (fun _ _ => .inl) (fun _ => rfl) (fun _ => id)
    hg fun c hc => ?_
  -- walking the block records no effect, so it leads nowhere still
  obtain ⟨d, done, -, his, hdone⟩ := hf.running b [] stack hcursor
  rw [List.append_nil] at his
  exact absurd (hc.of_keeps (keeps_walked s b) (by rwa [Program.depthBehind, his])) (h c)

theorem leave {last : LinkedInstruction} (hwf : p.WellFormed) (hf : f.Sound p s)
    (hcursor : f.cursor = .running b [] stack) (hlast : (p.graph.block b).last? = some last)
    (hjsr : last.opcode ≠ .jsr) : Takeover p f outer s
      [{ f with cursor := .leaving (p.graph.edges b) stack }] (s.walked b) := by
  have hg := (hf.mono (keeps_walked s b)).resting
    (g := { f with cursor := .leaving (p.graph.edges b) stack }) rfl rfl nofun
    fun edges st hleaving => by cases hleaving; exact hwf.child_lt b
  refine finish hf hcursor (.refl _) (fun _ _ => id) (fun _ _ => .inl) (fun _ => rfl) (fun _ => id)
    hg fun c hc => ?_
  cases hc with
  | @edge e he hlive hlocal => exact .inr ⟨_, stack, rfl, rfl, e, he, hlive, hlocal, rfl⟩
  | behind hlast' hop' _ _ _ =>
    rw [hlast] at hlast'
    cases hlast'
    exact absurd hop' hjsr

/-- Over a call that returns the block behind it is reached. -/
theorem resume {last : LinkedInstruction} {next : BlockId} (hwf : p.WellFormed)
    (hsize : s.progress.size = p.graph.size) (hf : f.Sound p s)
    (hcursor : f.cursor = .running b [] stack) (hlast : (p.graph.block b).last? = some last)
    (hop : last.opcode = .jsr) (hnext : p.holder? last.follower = some next)
    (hreached : Reached next stack f (s.walked b) g t) :
    Takeover p f outer s [{ g with cursor := .idle }] t := by
  have hlt : next < (s.walked b).progress.size := by
    rw [(keeps_walked s b).size, hsize]
    exact lt_of_holder? hnext
  have hg := hreached.sound (hf.mono (keeps_walked s b)) hlt
  refine finish hf hcursor hreached.keeps (fun _ _ => hreached.finished)
    (fun _ _ hc => (hreached.inProgress hc).imp_right fun hc => .inl ⟨stack, hc⟩)
    hreached.effectOf? hreached.pending (hg.resting rfl rfl nofun nofun) fun c hc => ?_
  obtain ⟨-, hc, -⟩ := hc.of_jsr hwf hlast (.inr hop)
  rw [hnext] at hc
  cases hc
  exact .inl (hreached.depth hlt)

theorem skip {e : Edge} {edges : List Edge} (hf : f.Sound p s)
    (hcursor : f.cursor = .leaving (e :: edges) stack)
    (hkind : e.kind = .dead ∨ e.kind = .back ∨ e.kind = .state) :
    Takeover p f outer s [{ f with cursor := .leaving edges stack }] s := by
  refine quiet (.refl s) (hf.onward hcursor) (fun c n hc => ?_) fun c => leaving_holds hcursor rfl
  obtain ⟨edges', st, hleaving, hlen, e', he', hlive, hlocal, hchild⟩ := hc
  rw [hcursor] at hleaving
  cases hleaving
  rcases List.mem_cons.mp he' with rfl | he'
  · rcases hkind with hkind | hkind | hkind <;> simp [hkind, EdgeKind.crosses] at hlive hlocal
  · exact ⟨edges, stack, rfl, hlen, e', he', hlive, hlocal, hchild⟩

theorem follow {e : Edge} {edges : List Edge} (hsize : s.progress.size = p.graph.size)
    (hf : f.Sound p s) (hcursor : f.cursor = .leaving (e :: edges) stack)
    (hreached : Reached e.child stack { f with cursor := .leaving edges stack } s g t) :
    Takeover p f outer s [g] t := by
  have hlt : e.child < s.progress.size :=
    hsize ▸ hf.leaving _ stack hcursor e List.mem_cons_self
  refine ⟨hreached.keeps, fun b d hb hold => absurd (hreached.finished hb) hold, fun c n hc => ?_,
    fun b d hb => ?_, by simpa using hreached.sound (hf.onward hcursor) hlt, fun a x ha => ?_⟩
  · obtain ⟨edges', st, hleaving, rfl, e', he', hlive, hlocal, rfl⟩ := hc
    rw [hcursor] at hleaving
    cases hleaving
    rcases List.mem_cons.mp he' with rfl | he'
    · exact .inl (hreached.depth hlt)
    · exact .inr ⟨g, by simp, edges, stack, hreached.cursor, rfl, e', he', hlive, hlocal, rfl⟩
  · refine (hreached.inProgress hb).imp (fun hold => ⟨hold, fun hholds => ⟨g, by simp, ?_⟩⟩)
      fun hnew => ⟨g, by simp, .inl ⟨stack, hnew⟩⟩
    rcases hholds with ⟨st, hst⟩ | ⟨_, _, hrun⟩
    · exact .inl ⟨st, hreached.pending _ hst⟩
    · rw [hcursor] at hrun
      cases hrun
  · exact .inl (by rwa [← hreached.effectOf?])

end Takeover

/-- Every step keeps the records and the frames consistent. -/
theorem Moves.takeover (hwf : p.WellFormed) (hi : Consistent p (f :: outer) s)
    (h : Moves p f s fs t) : Takeover p f outer s fs t := by
  have hf : f.Sound p s := hi.sound f List.mem_cons_self
  cases h with
  | close hcursor hpending => exact .close hf hcursor hpending
  | pick hcursor hpending => exact .pick hf hcursor hpending
  | exec hcursor hop hexec =>
    obtain ⟨hsame, hafter⟩ := Sim.exec_yields _ _ _ hexec
    exact .advance hf hcursor hsame (by rw [Program.depthAfter, if_neg hop]; exact hafter)
  | replay hcursor hop hcallee heffect hreplay =>
    obtain ⟨hsame, hafter⟩ := Sim.replay_yields _ _ _ hreplay
    refine .advance hf hcursor hsame ?_
    rw [Program.depthAfter, if_pos hop]
    refine Option.bind_eq_some_iff.mpr ⟨_, hcallee, ?_⟩
    exact Option.bind_eq_some_iff.mpr ⟨_, hsame.keeps.effect heffect, hafter⟩
  | call hcursor hop hcallee _ henter =>
    exact .enter hwf hi.size hf (mem_of_callee? hcallee) henter
  | back hcursor hlast hop _ _ =>
    refine .stop hf hcursor fun c hc => ?_
    obtain ⟨hjsr, -⟩ := hc.of_jsr hwf hlast (.inl hop)
    rw [hop] at hjsr
    cases hjsr
  | resume hcursor hlast hop _ hnext _ hreached =>
    exact .resume hwf hi.size hf hcursor hlast hop hnext hreached
  | lost hcursor hlast hop hcallee _ hdelta =>
    refine .stop hf hcursor fun c hc => ?_
    obtain ⟨-, -, callee', delta, hcallee', hdelta'⟩ := hc.of_jsr hwf hlast (.inr hop)
    rw [hcallee] at hcallee'
    cases hcallee'
    rw [hdelta] at hdelta'
    cases hdelta'
  | leave hcursor hlast _ hjsr => exact .leave hwf hf hcursor hlast hjsr
  | left hcursor =>
    refine .quiet (.refl s) (hf.resting rfl rfl nofun nofun) (fun c n hc => ?_)
      fun c => leaving_holds hcursor rfl
    obtain ⟨edges, st, hleaving, -, e, he, -⟩ := hc
    rw [hcursor] at hleaving
    cases hleaving
    cases he
  | skip hcursor hkind =>
    exact .skip hf hcursor (hkind.imp_right fun hkind => hkind.imp_right And.left)
  | store hcursor _ howner _ henter => exact .enter hwf hi.size hf (mem_of_ownerOf? howner) henter
  | follow hcursor _ _ _ hreached => exact .follow hi.size hf hcursor hreached

/-! ## The end of an analysis -/

theorem progressOf_blank (p : Program) (b : BlockId) : p.blank.progressOf b = .untouched := by
  by_cases hb : b < p.graph.size <;> simp [State.progressOf, Program.blank, Array.getD, hb]

theorem Entered.consistent (hwf : p.WellFormed) (hsub : sub ∈ p.subroutines)
    (h : Entered sub stack p.blank f s) : Consistent p [f] s := by
  have hsize : p.blank.progress.size = p.graph.size := by simp [Program.blank]
  have huntouched := progressOf_blank p
  refine ⟨h.keeps.size.trans hsize, fun b d hb => ?_, fun b d hb => ?_, ?_, fun a e ha => ?_⟩
  · have := h.finished hb
    rw [huntouched] at this
    cases this
  · refine ⟨f, by simp, (h.inProgress hb).resolve_left fun hold => ?_⟩
    rw [huntouched] at hold
    cases hold
  · simpa using h.sound hwf hsize hsub
  · rw [h.effectOf?] at ha
    cases ha

theorem analyze_consistent {start : Option Subroutine} {a : Analysis} {events : List Event}
    (hwf : p.WellFormed) (hstart : ∀ sub, start = some sub → sub ∈ p.subroutines)
    (h : analyze p start = .ok (a, events)) (hok : a.success = true) :
    Consistent p [] a.state ∧ ∃ sub entry, start = some sub ∧ sub.entry = some entry ∧
      a.depthAt entry = some 0 := by
  obtain ⟨sub, f, s, rfl, henter, hrun⟩ := analyze_success h hok
  have hsub := hstart sub rfl
  obtain ⟨entry, hentry, hdepth⟩ := henter.depth hwf (by simp [Program.blank]) hsub
  have hend : Consistent p [] a.state ∧ Keeps s a.state := by
    refine Sim.run_induction (P := fun frames t => Consistent p frames t ∧ Keeps s t) ?_ hrun
      ⟨henter.consistent hwf hsub, .refl s⟩
    rintro f outer u fs v ⟨hi, hkeeps⟩ hmoves
    have htake := hmoves.takeover hwf hi
    exact ⟨hi.step htake, hkeeps.trans htake.records⟩
  exact ⟨hend.1, sub, entry, rfl, hentry, hend.2.depth hdepth⟩

/-- In the end a block with a depth has been walked, and depths are recorded wherever it leads. -/
theorem Consistent.arrived (h : Consistent p [] s) (hb : (s.progressOf b).depth? = some d) :
    s.progressOf b = .finished d ∧ ∃ n, p.depthBehind s b d = some n ∧
      ∀ c, Onward p s b c → (s.progressOf c).depth? = some n := by
  have hfinished : s.progressOf b = .finished d := by
    cases hq : s.progressOf b with
    | untouched =>
      rw [hq] at hb
      cases hb
    | inProgress m =>
      obtain ⟨f, hf, -⟩ := h.held b m hq
      cases hf
    | finished m =>
      rw [hq] at hb
      cases hb
      rfl
  obtain ⟨n, hn, honward⟩ := h.settled b d hfinished
  refine ⟨hfinished, n, hn, fun c hc => (honward c hc).resolve_right ?_⟩
  rintro ⟨f, hf, -⟩
  cases hf

/-- The depth a path arrives with, told by the instructions of the blocks it leaves. -/
def Program.depthAlong (p : Program) (s : State) (path : List BlockId) (d : Nat) : Option Nat :=
  path.foldlM (fun d b => p.depthBehind s b d) d

/-- All blocks of the path have been walked, each has the depth recorded that the one before it
leaves behind, and so the path arrives with the depth recorded of its last block. -/
structure Agrees (p : Program) (a : Analysis) (entry : BlockId) (rest : List BlockId) : Prop where
  finished : ∀ b ∈ entry :: rest, ∃ d, a.state.progressOf b = .finished d
  steps : ∀ n b c, (entry :: rest)[n]? = some b → (entry :: rest)[n + 1]? = some c → ∃ d m,
    a.depthAt b = some d ∧ p.depthBehind a.state b d = some m ∧ a.depthAt c = some m
  arrives : ∀ d, a.depthAt entry = some d →
    p.depthAlong a.state (entry :: rest).dropLast d = a.depthAt (rest.getLastD entry)

theorem Consistent.agrees {a : Analysis} {entry : BlockId} {rest : List BlockId}
    (h : Consistent p [] a.state) (hentry : a.depthAt entry = some d)
    (hchain : (entry :: rest).IsChain (Onward p a.state)) : Agrees p a entry rest := by
  obtain ⟨hfinished, m, hm, honward⟩ := h.arrived hentry
  induction rest generalizing entry d m with
  | nil =>
    refine ⟨by simpa using ⟨d, hfinished⟩, fun n b c hb hc => by simp at hc, fun d' hd' => ?_⟩
    exact hd'.symm
  | cons c rest ih =>
    obtain ⟨hstep, hchain⟩ := List.isChain_cons_cons.mp hchain
    have hc := honward c hstep
    obtain ⟨hfinished', m', hm', honward'⟩ := h.arrived hc
    have hrest := ih hc hchain hfinished' m' hm' honward'
    refine ⟨List.forall_mem_cons.mpr ⟨⟨d, hfinished⟩, hrest.finished⟩, ?_, fun d' hd' => ?_⟩
    · intro n b c' hb hc'
      cases n with
      | zero =>
        cases hb
        cases hc'
        exact ⟨d, m, hentry, hm, hc⟩
      | succ n => exact hrest.steps n b c' hb hc'
    · rw [hentry] at hd'
      cases hd'
      have harrives := hrest.arrives m hc
      rw [List.getLastD_cons, ← harrives]
      show (p.depthBehind a.state entry d).bind _ = _
      rw [hm]
      rfl

end

end ScriptFlow.Stack
