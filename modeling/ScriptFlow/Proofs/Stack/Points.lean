import ScriptFlow.Proofs.Stack.Consistency
import ScriptFlow.Proofs.Stack.Outcome
import Mathlib.Data.List.Nodup
import Mathlib.Logic.Relation

/-! # The points an analysis comes to

A point is what an analysis has between two steps: its frames and all that it knows. Steps lead from
point to point. At every point the subroutines under way are those of the frames, none of them has an
effect yet, each block under way is in the hands of one frame, and a frame only ever takes up blocks
that its subroutine leads to. -/

namespace ScriptFlow.Stack

/-- The frames of an analysis, the innermost first, and what is known. -/
structure Point where
  frames : List Frame
  state : State

section
variable (p : Program)

/-- A step of the innermost frame leads from one point to the next. -/
def Next (x y : Point) : Prop :=
  ∃ f outer, x.frames = f :: outer ∧ Sim.step p f outer x.state = .ok y.frames y.state

/-- The point an analysis begins at: the subroutine is entered with an empty stack. -/
def Begins (sub : Subroutine) (x : Point) : Prop :=
  ∃ f, x.frames = [f] ∧ Sim.enter p sub.address sub [] p.blank = .ok f x.state

/-- The analysis that begins with the subroutine comes to the point. -/
def Visited (sub : Subroutine) (x : Point) : Prop :=
  ∃ first, Begins p sub first ∧ Relation.ReflTransGen (Next p) first x

/-- What the analysis of decoded and linked code relies on, beyond what depths need: blocks are made
of decoded instructions, and whatever control leads to belongs to a subroutine that can be entered. -/
structure Program.Whole : Prop extends p.WellFormed where
  nonempty : ∀ b < p.graph.size, (p.graph.block b).instructions ≠ []
  decoded : ∀ b, ∀ i ∈ (p.graph.block b).instructions, i.toInstruction.WellFormed
  entries : ∀ sub ∈ p.subroutines, ∃ entry, sub.entry = some entry
  callees : ∀ b, ∀ i ∈ (p.graph.block b).instructions, i.opcode = .jsr →
    ∃ callee, p.callee? i = some callee
  followers : ∀ b, ∀ last, (p.graph.block b).last? = some last → last.opcode = .jsr →
    ∃ next, p.holder? last.follower = some next
  continuations : ∀ b, ∀ e ∈ p.graph.edges b, e.kind = .state → ∃ sub, p.ownerOf? e.child = some sub
  calls : ∀ b, ∀ last, (p.graph.block b).last? = some last → last.opcode ≠ .jsr →
    ∀ e ∈ p.graph.edges b, e.kind ≠ .call

end

/-- The block being walked. -/
def Cursor.block? : Cursor → Option BlockId
  | .running b _ _ => some b
  | _ => none

/-- The blocks a frame has in hand: the one being walked, and those in line. -/
def Frame.hand (f : Frame) : List BlockId := f.cursor.block?.toList ++ f.pending.map Prod.fst

/-- What a frame keeps as it goes on. -/
structure Frame.Heir (f g : Frame) : Prop where
  subroutine : g.subroutine = f.subroutine
  height : g.height = f.height
  writes : f.writes.Below → g.writes.Below

/-- The block is left by its edges. -/
def LeftByEdges (p : Program) (b : BlockId) : Prop :=
  ∃ last, (p.graph.block b).last? = some last ∧ last.opcode ≠ .retn ∧ last.opcode ≠ .jsr

/-- The steps of a frame by the blocks that change hands. -/
inductive Shift (p : Program) (f : Frame) (s : State) : List Frame → State → Prop
  | close : f.hand = [] → Shift p f s [] (s.closed f)
  | keep {g : Frame} {t : State} : SameRecords s t → f.Heir g → g.hand = f.hand →
      (∀ edges stack, g.cursor = .leaving edges stack →
        ∃ e, f.cursor = .leaving (e :: edges) stack) → Shift p f s [g] t
  | finish {b : BlockId} {g : Frame} : f.Heir g → f.hand = b :: g.hand →
      (∀ edges stack, g.cursor = .leaving edges stack →
        edges = p.graph.edges b ∧ LeftByEdges p b) → Shift p f s [g] (s.walked b)
  | pass {b next : BlockId} {stack : Cells} {g h : Frame} {t : State} : f.Heir g →
      f.hand = b :: g.hand → g.cursor = .idle → Onward p s b next → next < p.graph.size →
      Reached next stack g (s.walked b) h t → Shift p f s [h] t
  | follow {e : Edge} {edges : List Edge} {stack : Cells} {g h : Frame} {t : State} : f.Heir g →
      g.hand = f.hand → f.cursor = .leaving (e :: edges) stack → g.cursor = .leaving edges stack →
      e.kind ≠ .dead → e.kind ≠ .back → e.kind ≠ .state → Reached e.child stack g s h t →
      Shift p f s [h] t
  | enter {sub : Subroutine} {stack : Cells} {inner : Frame} {t : State} : sub ∈ p.subroutines →
      s.effectOf? sub.address = none → Entered sub stack s inner t → Shift p f s [inner, f] t

section
variable {p : Program} {f g h inner : Frame} {fs outer frames : List Frame} {s t : State}
variable {b c : BlockId} {stack : Cells} {sub : Subroutine} {x y : Point}

theorem Reached.withCursor (h : Reached c stack f s g t) (k : Cursor) :
    Reached c stack { f with cursor := k } s { g with cursor := k } t := by
  cases h with
  | known hknown => exact .known hknown
  | first hnone => exact .first hnone

/-- Every step is of one of these sorts. -/
theorem Moves.shift (h : Moves p f s fs t) : Shift p f s fs t := by
  cases h with
  | close hcursor hpending => exact .close (by simp [Frame.hand, hcursor, hpending, Cursor.block?])
  | pick hcursor hpending =>
    exact .keep (.refl s) ⟨rfl, rfl, id⟩ (by simp [Frame.hand, hcursor, hpending, Cursor.block?]) nofun
  | exec hcursor _ hexec =>
    exact .keep (Sim.exec_yields _ _ _ hexec).1 ⟨rfl, rfl, fun h => Sim.exec_writes h _ _ _ hexec⟩
      (by simp [Frame.hand, hcursor, Cursor.block?]) nofun
  | replay hcursor _ _ _ hreplay =>
    exact .keep (Sim.replay_yields _ _ _ hreplay).1 ⟨rfl, rfl, id⟩
      (by simp [Frame.hand, hcursor, Cursor.block?]) nofun
  | call _ _ hcallee heffect henter => exact .enter (mem_of_callee? hcallee) heffect henter
  | back hcursor _ _ _ _ | lost hcursor _ _ _ _ _ =>
    exact .finish ⟨rfl, rfl, id⟩ (by simp [Frame.hand, hcursor, Cursor.block?]) nofun
  | resume hcursor hlast hop hcallee hnext hdelta hreached =>
    exact .pass (g := { f with cursor := .idle }) ⟨rfl, rfl, id⟩
      (by simp [Frame.hand, hcursor, Cursor.block?]) rfl (.behind hlast hop hcallee hdelta hnext)
      (lt_of_holder? hnext) (hreached.withCursor .idle)
  | leave hcursor hlast hretn hjsr =>
    refine .finish ⟨rfl, rfl, id⟩ (by simp [Frame.hand, hcursor, Cursor.block?]) ?_
    intro edges stack hleaving
    cases hleaving
    exact ⟨rfl, _, hlast, hretn, hjsr⟩
  | left hcursor =>
    exact .keep (.refl s) ⟨rfl, rfl, id⟩ (by simp [Frame.hand, hcursor, Cursor.block?]) nofun
  | skip hcursor _ =>
    refine .keep (.refl s) ⟨rfl, rfl, id⟩ (by simp [Frame.hand, hcursor, Cursor.block?]) ?_
    intro edges stack hleaving
    cases hleaving
    exact ⟨_, hcursor⟩
  | store _ _ howner heffect henter => exact .enter (mem_of_ownerOf? howner) heffect henter
  | @follow e edges stack _ _ hcursor hdead hback hstate hreached =>
    exact .follow (g := { f with cursor := .leaving edges stack }) ⟨rfl, rfl, id⟩
      (by simp [Frame.hand, hcursor, Cursor.block?]) hcursor rfl hdead hback hstate hreached

/-! ## What is known of subroutines -/

/-- The subroutines under way are those of the frames, and none is entered twice. -/
structure Enrolled (frames : List Frame) (s : State) : Prop where
  active : s.active = frames.map fun f => f.subroutine.address
  once : (s.active ++ s.effects.map Prod.fst).Nodup

theorem effectOf?_eq_none {a : Int} : s.effectOf? a = none ↔ a ∉ s.effects.map Prod.fst := by
  rw [State.effectOf?, Option.map_eq_none_iff, List.find?_eq_none, List.mem_map]
  constructor
  · intro h hmem
    obtain ⟨e, he, ha⟩ := hmem
    exact h e he (by simp [ha])
  · intro h e he ha
    exact h ⟨e, he, by simpa using ha⟩

theorem Reached.active (h : Reached c stack f s g t) : t.active = s.active := by
  cases h <;> rfl

theorem Reached.effects (h : Reached c stack f s g t) : t.effects = s.effects := by
  cases h <;> rfl

theorem Reached.heir (h : Reached c stack f s g t) : f.Heir g := by
  cases h <;> exact ⟨rfl, rfl, id⟩

theorem Frame.Heir.trans (hfg : f.Heir g) (hgh : g.Heir h) : f.Heir h :=
  ⟨hgh.subroutine.trans hfg.subroutine, hgh.height.trans hfg.height, hgh.writes ∘ hfg.writes⟩

theorem Enrolled.heir (hi : Enrolled (f :: outer) s) (hg : f.Heir g) (ha : t.active = s.active)
    (he : t.effects = s.effects) : Enrolled (g :: outer) t := by
  refine ⟨?_, ?_⟩
  · rw [ha, hi.active, List.map_cons, List.map_cons, hg.subroutine]
  · rw [ha, he]
    exact hi.once

theorem Entered.subroutine (h : Entered sub stack s inner t) : inner.subroutine = sub := by
  obtain ⟨-, _, -, hreached⟩ := h
  exact hreached.subroutine

theorem Entered.height (h : Entered sub stack s inner t) : inner.height = stack.length := by
  obtain ⟨-, _, -, hreached⟩ := h
  exact hreached.heir.height

theorem Entered.active (h : Entered sub stack s inner t) : t.active = sub.address :: s.active := by
  obtain ⟨-, _, -, hreached⟩ := h
  exact hreached.active

theorem Entered.effects (h : Entered sub stack s inner t) : t.effects = s.effects := by
  obtain ⟨-, _, -, hreached⟩ := h
  exact hreached.effects

theorem Enrolled.enter (hi : Enrolled frames s) (heffect : s.effectOf? sub.address = none)
    (h : Entered sub stack s inner t) : Enrolled (inner :: frames) t := by
  refine ⟨by rw [h.active, hi.active, List.map_cons, h.subroutine], ?_⟩
  rw [h.active, h.effects, List.cons_append, List.nodup_cons, List.mem_append]
  exact ⟨not_or.mpr ⟨h.1, effectOf?_eq_none.mp heffect⟩, hi.once⟩

theorem Enrolled.close (hi : Enrolled (f :: outer) s) : Enrolled outer (s.closed f) := by
  have hactive : (s.closed f).active = outer.map fun f => f.subroutine.address := by
    simp [State.closed, hi.active]
  refine ⟨hactive, ?_⟩
  have honce := hi.once
  rw [hi.active] at honce
  rw [hactive]
  refine (List.Perm.nodup_iff ?_).mp honce
  simp only [State.closed, List.map_append, List.map_cons, List.map_nil, List.cons_append]
  rw [← List.append_assoc]
  exact (List.perm_append_singleton _ _).symm

theorem Shift.enrolled (h : Shift p f s fs t) (hi : Enrolled (f :: outer) s) :
    Enrolled (fs ++ outer) t := by
  cases h with
  | close _ => exact hi.close
  | keep hsame hheir _ _ => exact hi.heir hheir hsame.active hsame.effects
  | finish hheir _ _ => exact hi.heir hheir rfl rfl
  | pass hheir _ _ _ _ hreached =>
    exact hi.heir (hheir.trans hreached.heir) hreached.active hreached.effects
  | follow hheir _ _ _ _ _ _ hreached =>
    exact hi.heir (hheir.trans hreached.heir) hreached.active hreached.effects
  | enter _ heffect henter => exact hi.enter heffect henter

/-! ## What is known of blocks -/

/-- The blocks listed are under way, and each is listed once. -/
structure Custody (hands : List BlockId) (s : State) : Prop where
  nodup : hands.Nodup
  held : ∀ b ∈ hands, ∃ d, s.progressOf b = .inProgress d

theorem Custody.same {hands : List BlockId} (hi : Custody hands s) (h : SameRecords s t) :
    Custody hands t := by
  refine ⟨hi.nodup, fun b hb => ?_⟩
  rw [h.progressOf]
  exact hi.held b hb

/-- A block that was walked is let go of. -/
theorem Custody.walked {hands : List BlockId} (hi : Custody (b :: hands) s) :
    Custody hands (s.walked b) := by
  obtain ⟨hb, hnodup⟩ := List.nodup_cons.mp hi.nodup
  refine ⟨hnodup, fun c hc => ?_⟩
  rw [progressOf_walked, if_neg]
  · exact hi.held c (List.mem_cons_of_mem _ hc)
  · rintro rfl
    exact hb hc

/-- A block that is reached for the first time is taken into the hands of the frame. -/
theorem Reached.custody {hands : List BlockId} (h : Reached c stack f s g t)
    (hc : c < s.progress.size) (hi : Custody (f.hand ++ hands) s) : Custody (g.hand ++ hands) t := by
  cases h with
  | known _ => exact hi
  | first hnone =>
    have hnew : c ∉ f.hand ++ hands := by
      intro hmem
      obtain ⟨d, hd⟩ := hi.held c hmem
      rw [hd] at hnone
      cases hnone
    have hhand : { f with pending := f.pending ++ [(c, stack)] }.hand = f.hand ++ [c] := by
      simp [Frame.hand]
    rw [hhand, List.append_assoc]
    refine ⟨?_, fun b hb => ?_⟩
    · rw [List.singleton_append, List.nodup_middle, List.nodup_cons]
      exact ⟨hnew, hi.nodup⟩
    · rw [progressOf_setProgress]
      split
      · exact ⟨_, rfl⟩
      · rename_i hne
        refine hi.held b ?_
        simp only [List.singleton_append, List.mem_append, List.mem_cons] at hb ⊢
        rcases hb with hb | rfl | hb
        · exact .inl hb
        · exact absurd ⟨rfl, hc⟩ hne
        · exact .inr hb

theorem Entered.custody {hands : List BlockId} (hwf : p.WellFormed) (hsub : sub ∈ p.subroutines)
    (hsize : s.progress.size = p.graph.size) (h : Entered sub stack s inner t)
    (hi : Custody hands s) : Custody (inner.hand ++ hands) t := by
  obtain ⟨-, entry, hentry, hreached⟩ := h
  refine hreached.custody (hsize ▸ hwf.entry_lt sub hsub entry hentry) ?_
  exact ⟨hi.nodup, hi.held⟩

theorem Shift.custody (hwf : p.WellFormed) (hsize : s.progress.size = p.graph.size)
    (hchild : ∀ edges stack, f.cursor = .leaving edges stack → ∀ e ∈ edges, e.child < p.graph.size)
    (h : Shift p f s fs t) (hi : Custody ((f :: outer).flatMap Frame.hand) s) :
    Custody ((fs ++ outer).flatMap Frame.hand) t := by
  rw [List.flatMap_cons] at hi
  cases h with
  | close hhand =>
    rw [hhand] at hi
    exact ⟨hi.nodup, hi.held⟩
  | keep hsame _ hhand _ =>
    rw [List.singleton_append, List.flatMap_cons, hhand]
    exact hi.same hsame
  | finish _ hhand _ =>
    rw [hhand] at hi
    exact hi.walked
  | pass _ hhand _ _ hnext hreached =>
    rw [hhand] at hi
    refine hreached.custody ?_ hi.walked
    rw [(keeps_walked s _).size, hsize]
    exact hnext
  | follow _ hhand hcursor _ _ _ _ hreached =>
    rw [← hhand] at hi
    refine hreached.custody ?_ hi
    rw [hsize]
    exact hchild _ _ hcursor _ List.mem_cons_self
  | enter hsub _ henter => exact henter.custody hwf hsub hsize hi

/-! ## Where frames come from -/

theorem Onward.mono (h : Onward p s b c) (hst : Keeps s t) : Onward p t b c := by
  cases h with
  | edge he hlive hlocal => exact .edge he hlive hlocal
  | behind hlast hop hcallee hdelta hnext =>
    obtain ⟨effect, heffect, hdelta⟩ := Option.bind_eq_some_iff.mp hdelta
    have hkept := Option.bind_eq_some_iff.mpr ⟨effect, hst.effect heffect, hdelta⟩
    exact .behind hlast hop hcallee hkept hnext

/-- The subroutine leads from one block to the other, over as many blocks as it takes. -/
def LeadsOn (p : Program) (s : State) : BlockId → BlockId → Prop :=
  Relation.ReflTransGen (Onward p s)

theorem LeadsOn.mono (h : LeadsOn p s b c) (hst : Keeps s t) : LeadsOn p t b c :=
  Relation.ReflTransGen.mono (fun _ _ (hbc : Onward p s _ _) => hbc.mono hst) _ _ h

/-- The frame was entered with the depth recorded, and the subroutine leads from its entry to all that
the frame has in hand. -/
structure Frame.Traced (p : Program) (s : State) (f : Frame) (entry : BlockId) : Prop where
  starts : f.subroutine.entry = some entry
  height : (s.progressOf entry).depth? = some f.height
  hand : ∀ b ∈ f.hand, LeadsOn p s entry b
  leaving : ∀ edges stack, f.cursor = .leaving edges stack → ∃ b done, LeadsOn p s entry b ∧
    p.graph.edges b = done ++ edges ∧ LeftByEdges p b

namespace Frame.Traced

variable {entry : BlockId}

theorem mono (hf : f.Traced p s entry) (hst : Keeps s t) : f.Traced p t entry where
  starts := hf.starts
  height := hst.depth hf.height
  hand b hb := (hf.hand b hb).mono hst
  leaving edges stack hcursor := by
    obtain ⟨b, done, hb, hedges, hleft⟩ := hf.leaving edges stack hcursor
    exact ⟨b, done, hb.mono hst, hedges, hleft⟩

/-- A frame that goes on is traced by its hand. -/
theorem heir (hf : f.Traced p s entry) (hst : Keeps s t) (hg : f.Heir g)
    (hhand : ∀ b ∈ g.hand, b ∈ f.hand)
    (hleaving : ∀ edges stack, g.cursor = .leaving edges stack → ∃ b done, LeadsOn p s entry b ∧
      p.graph.edges b = done ++ edges ∧ LeftByEdges p b) : g.Traced p t entry where
  starts := hg.subroutine ▸ hf.starts
  height := hg.height ▸ hst.depth hf.height
  hand b hb := (hf.hand b (hhand b hb)).mono hst
  leaving edges stack hcursor := by
    obtain ⟨b, done, hb, hedges, hleft⟩ := hleaving edges stack hcursor
    exact ⟨b, done, hb.mono hst, hedges, hleft⟩

theorem reached (hf : f.Traced p s entry) (h : Reached c stack f s g t)
    (hc : LeadsOn p s entry c) : g.Traced p t entry := by
  have hft := hf.mono h.keeps
  refine ⟨?_, ?_, fun b hb => ?_, fun edges st hcursor => ?_⟩
  · rw [h.heir.subroutine]
    exact hft.starts
  · rw [h.heir.height]
    exact hft.height
  · have hb' : b ∈ f.hand ∨ b = c := by
      cases h with
      | known _ => exact .inl hb
      | first _ => simpa [Frame.hand, or_assoc] using hb
    rcases hb' with hb' | rfl
    · exact hft.hand b hb'
    · exact hc.mono h.keeps
  · rw [h.cursor] at hcursor
    exact hft.leaving edges st hcursor

theorem entered (hwf : p.WellFormed) (hsub : sub ∈ p.subroutines)
    (hsize : s.progress.size = p.graph.size) (h : Entered sub stack s inner t) :
    ∃ entry, inner.Traced p t entry := by
  obtain ⟨entry, hentry, hdepth⟩ := h.depth hwf hsize hsub
  have hheight := h.height
  obtain ⟨-, entry', hentry', hreached⟩ := h
  rw [hentry] at hentry'
  cases hentry'
  refine ⟨entry, ?_, ?_, fun b hb => ?_, fun edges st hcursor => ?_⟩
  · rw [hreached.subroutine]
    exact hentry
  · rw [hheight]
    exact hdepth
  · have hb' : b = entry := by
      cases hreached with
      | known _ => simp [Frame.hand, Cursor.block?] at hb
      | first _ => simpa [Frame.hand, Cursor.block?] using hb
    rw [hb']
    exact .refl
  · rw [hreached.cursor] at hcursor
    cases hcursor

end Frame.Traced

/-- An edge that is followed leads on inside of the subroutine. -/
theorem Onward.of_follow {e : Edge} (hp : p.Whole) (he : e ∈ p.graph.edges b)
    (hleft : LeftByEdges p b) (hdead : e.kind ≠ .dead) (hback : e.kind ≠ .back)
    (hstate : e.kind ≠ .state) : Onward p s b e.child := by
  obtain ⟨last, hlast, -, hjsr⟩ := hleft
  refine .edge he hdead ?_
  have hcall := hp.calls b last hlast hjsr e he
  cases hkind : e.kind <;> simp_all [EdgeKind.crosses]

theorem Shift.traced (hp : p.Whole) (hsize : s.progress.size = p.graph.size) (hst : Keeps s t)
    (h : Shift p f s fs t) (hi : ∃ entry, f.Traced p s entry) :
    ∀ g ∈ fs, ∃ entry, g.Traced p t entry := by
  obtain ⟨entry, hf⟩ := hi
  cases h with
  | close _ => simp
  | keep hsame hheir hhand hleaving =>
    refine List.forall_mem_singleton.mpr ⟨entry, hf.heir hst hheir (fun b hb => hhand ▸ hb) ?_⟩
    intro edges stack hcursor
    obtain ⟨e, he⟩ := hleaving edges stack hcursor
    obtain ⟨b, done, hb, hedges, hleft⟩ := hf.leaving _ _ he
    exact ⟨b, done ++ [e], hb, by rw [hedges, List.append_assoc]; rfl, hleft⟩
  | @finish b g hheir hhand hleaving =>
    refine List.forall_mem_singleton.mpr ⟨entry, hf.heir hst hheir (fun c hc => ?_) ?_⟩
    · rw [hhand]
      exact List.mem_cons_of_mem _ hc
    · intro edges stack hcursor
      obtain ⟨rfl, hleft⟩ := hleaving edges stack hcursor
      exact ⟨b, [], hf.hand b (by rw [hhand]; exact List.mem_cons_self), rfl, hleft⟩
  | @pass b next stack g h t hheir hhand hidle honward _ hreached =>
    have hb : LeadsOn p s entry b := hf.hand b (by rw [hhand]; exact List.mem_cons_self)
    have hwalked := keeps_walked s b
    have hg : g.Traced p (s.walked b) entry := by
      refine hf.heir hwalked hheir (fun c hc => ?_) fun edges st hcursor => ?_
      · rw [hhand]
        exact List.mem_cons_of_mem _ hc
      · rw [hidle] at hcursor
        cases hcursor
    refine List.forall_mem_singleton.mpr ⟨entry, hg.reached hreached ?_⟩
    exact LeadsOn.mono (hb.tail honward) hwalked
  | @follow e edges stack g h t hheir hhand hcursor hgcursor hdead hback hstate hreached =>
    obtain ⟨b, done, hb, hedges, hleft⟩ := hf.leaving _ _ hcursor
    have he : e ∈ p.graph.edges b := by simp [hedges]
    have hg : g.Traced p s entry := by
      refine hf.heir (.refl s) hheir (fun c hc => hhand ▸ hc) fun edges' st hleaving => ?_
      rw [hgcursor] at hleaving
      cases hleaving
      exact ⟨b, done ++ [e], hb, by rw [hedges, List.append_assoc]; rfl, hleft⟩
    refine List.forall_mem_singleton.mpr ⟨entry, hg.reached hreached ?_⟩
    exact hb.tail (.of_follow hp he hleft hdead hback hstate)
  | enter hsub _ henter =>
    refine List.forall_mem_cons.mpr ⟨?_, List.forall_mem_singleton.mpr ⟨entry, hf.mono hst⟩⟩
    exact Frame.Traced.entered hp.toWellFormed hsub hsize henter

/-! ## Writes -/

theorem Shift.below (h : Shift p f s fs t) (hframes : ∀ g ∈ f :: outer, g.writes.Below)
    (heffects : ∀ e ∈ s.effects, e.2.writes.Below) :
    (∀ g ∈ fs ++ outer, g.writes.Below) ∧ ∀ e ∈ t.effects, e.2.writes.Below := by
  obtain ⟨hf, houter⟩ := List.forall_mem_cons.mp hframes
  have stay : ∀ {g : Frame} {t : State}, f.Heir g → t.effects = s.effects →
      (∀ g' ∈ [g] ++ outer, g'.writes.Below) ∧ ∀ e ∈ t.effects, e.2.writes.Below := by
    intro g t hheir he
    refine ⟨List.forall_mem_cons.mpr ⟨hheir.writes hf, houter⟩, ?_⟩
    rw [he]
    exact heffects
  cases h with
  | close _ =>
    refine ⟨houter, fun e he => ?_⟩
    rcases List.mem_append.mp he with he | he
    · exact heffects e he
    · rw [List.mem_singleton.mp he]
      exact hf
  | keep hsame hheir _ _ => exact stay hheir hsame.effects
  | finish hheir _ _ => exact stay hheir rfl
  | pass hheir _ _ _ _ hreached => exact stay (hheir.trans hreached.heir) hreached.effects
  | follow hheir _ _ _ _ _ _ hreached => exact stay (hheir.trans hreached.heir) hreached.effects
  | @enter sub stack inner t _ _ henter =>
    have hinner : inner.writes.Below := by
      obtain ⟨-, _, -, hreached⟩ := henter
      exact hreached.heir.writes Writes.below_nil
    refine ⟨List.forall_mem_cons.mpr ⟨hinner, List.forall_mem_cons.mpr ⟨hf, houter⟩⟩, ?_⟩
    rw [henter.effects]
    exact heffects

/-! ## Every point -/

/-- What holds at every point. -/
structure Orderly (p : Program) (x : Point) : Prop where
  consistent : Consistent p x.frames x.state
  enrolled : Enrolled x.frames x.state
  custody : Custody (x.frames.flatMap Frame.hand) x.state
  traced : ∀ f ∈ x.frames, ∃ entry, f.Traced p x.state entry
  writes : ∀ f ∈ x.frames, f.writes.Below
  effects : ∀ e ∈ x.state.effects, e.2.writes.Below

theorem Orderly.moves (hp : p.Whole) (hi : Orderly p ⟨f :: outer, s⟩) (h : Moves p f s fs t) :
    Orderly p ⟨fs ++ outer, t⟩ := by
  have htake := h.takeover hp.toWellFormed hi.consistent
  have hf := hi.consistent.sound f List.mem_cons_self
  have hbelow := h.shift.below hi.writes hi.effects
  refine ⟨hi.consistent.step htake, h.shift.enrolled hi.enrolled,
    h.shift.custody hp.toWellFormed hi.consistent.size hf.leaving hi.custody, fun g hg => ?_,
    hbelow.1, hbelow.2⟩
  obtain ⟨hfirst, houter⟩ := List.forall_mem_cons.mp hi.traced
  rcases List.mem_append.mp hg with hg | hg
  · exact h.shift.traced hp hi.consistent.size htake.records hfirst g hg
  · obtain ⟨entry, hentry⟩ := houter g hg
    exact ⟨entry, hentry.mono htake.records⟩

theorem Next.moves (h : Next p x y) : ∃ f outer s fs t, x = ⟨f :: outer, s⟩ ∧
    y = ⟨fs ++ outer, t⟩ ∧ Moves p f s fs t := by
  obtain ⟨frames, s⟩ := x
  obtain ⟨frames', t⟩ := y
  obtain ⟨f, outer, hx, hstep⟩ := h
  obtain ⟨fs, hy, hmoves⟩ := Sim.step_moves hstep
  cases hx
  cases hy
  exact ⟨f, outer, s, fs, t, rfl, rfl, hmoves⟩

theorem Orderly.next (hp : p.Whole) (hi : Orderly p x) (h : Next p x y) : Orderly p y := by
  obtain ⟨f, outer, s, fs, t, rfl, rfl, hmoves⟩ := h.moves
  exact hi.moves hp hmoves

theorem Begins.orderly (hp : p.Whole) (hsub : sub ∈ p.subroutines) (h : Begins p sub x) :
    Orderly p x := by
  obtain ⟨f, hframes, henter⟩ := h
  obtain ⟨frames, s⟩ := x
  cases hframes
  have hentered := Sim.enter_ok henter
  have hsize : p.blank.progress.size = p.graph.size := by simp [Program.blank]
  have hempty : Custody [] p.blank := ⟨List.nodup_nil, fun b hb => absurd hb List.not_mem_nil⟩
  refine ⟨hentered.consistent hp.toWellFormed hsub, ?_, ?_, ?_, ?_, ?_⟩
  · have hblank : Enrolled [] p.blank := ⟨rfl, List.nodup_nil⟩
    exact hblank.enter rfl hentered
  · simpa using hentered.custody hp.toWellFormed hsub hsize hempty
  · simpa using Frame.Traced.entered hp.toWellFormed hsub hsize hentered
  · obtain ⟨-, _, -, hreached⟩ := hentered
    exact List.forall_mem_singleton.mpr (hreached.heir.writes Writes.below_nil)
  · rw [hentered.effects]
    exact fun e he => absurd he List.not_mem_nil

/-- What every step keeps holds at every point. -/
theorem Visited.induction {P : Point → Prop} (hp : p.Whole) (hsub : sub ∈ p.subroutines)
    (begins : ∀ x, Begins p sub x → P x)
    (next : ∀ x y, Visited p sub x → Orderly p x → P x → Next p x y → P y) (h : Visited p sub x) :
    Orderly p x ∧ P x := by
  obtain ⟨first, hfirst, hsteps⟩ := h
  induction hsteps with
  | refl => exact ⟨hfirst.orderly hp hsub, begins _ hfirst⟩
  | tail hsteps hnext ih =>
    exact ⟨ih.1.next hp hnext, next _ _ ⟨first, hfirst, hsteps⟩ ih.1 ih.2 hnext⟩

theorem Visited.orderly (hp : p.Whole) (hsub : sub ∈ p.subroutines) (h : Visited p sub x) :
    Orderly p x :=
  (h.induction (P := fun _ => True) hp hsub (fun _ _ => trivial) fun _ _ _ _ _ _ => trivial).1

theorem Visited.next (h : Visited p sub x) (hnext : Next p x y) : Visited p sub y := by
  obtain ⟨first, hfirst, hsteps⟩ := h
  exact ⟨first, hfirst, hsteps.tail hnext⟩

end

end ScriptFlow.Stack
