import ScriptFlow.Proofs.Stack.Saves

/-! # Base pointers follow control flow

An analysis has one list of base pointers for all of its frames, and blocks are walked in the order
they were reached. Where saves and restores are nested on every path, and a save stays open over calls
only, in a subroutine that is one line of blocks, the list mirrors the saves open in the frames: each
base pointer is the stack that its save found. -/

namespace ScriptFlow.Stack

/-- Where a frame stands on the paths from its entry, with the saves open there. In a subroutine where
saves stay open, at most one block waits in line. -/
inductive Frame.Stands (p : Program) (entry : BlockId) (f : Frame) : List Int → Prop
  | spent : f.cursor = .idle → f.pending = [] → f.Stands p entry []
  | next {b : BlockId} {stack : Cells} {pending : List (BlockId × Cells)} {opens : List Int} :
      f.cursor = .idle → f.pending = (b, stack) :: pending → Arrives p entry b opens →
      (StaysOpen p entry → pending = []) → f.Stands p entry opens
  | inside {b : BlockId} {done rest : List LinkedInstruction} {stack : Cells}
      {before opens : List Int} : f.cursor = .running b rest stack →
      (p.graph.block b).instructions = done ++ rest → Arrives p entry b before →
      openThrough done before = some opens → (StaysOpen p entry → f.pending = []) →
      f.Stands p entry opens
  | behind {b : BlockId} {done edges : List Edge} {stack : Cells} :
      f.cursor = .leaving edges stack → p.graph.edges b = done ++ edges → LeftByEdges p b →
      Leaves p entry b [] →
      (StaysOpen p entry → f.pending.length ≤ 1 ∧ ∀ x ∈ f.pending, Proceeds p b x.1) →
      f.Stands p entry []

/-- In the analysis from the start, the save at the address finds the stack. -/
def Snapshot (p : Program) (start : Subroutine) (site : Int) (cells : Cells) : Prop :=
  ∃ f outer s b i rest, Visited p start ⟨f :: outer, s⟩ ∧
    f.cursor = .running b (i :: rest) cells ∧ i.opcode = .savebp ∧ i.address = site

/-- The frame stands where the saves are open. -/
def Frame.Opens (p : Program) (f : Frame) (opens : List Int) : Prop :=
  ∃ entry, f.subroutine.entry = some entry ∧ f.Stands p entry opens

/-- The base pointers are the stacks found by the saves open in the frames, from the innermost frame
outwards. -/
structure Mirrors (p : Program) (start : Subroutine) (x : Point) (opens : List (List Int)) : Prop where
  frames : List.Forall₂ (Frame.Opens p) x.frames opens
  bases : List.Forall₂ (Snapshot p start) opens.flatten x.state.bases

/-- No call that a save stays open over has a callee known never to return. -/
def Resumes (p : Program) (s : State) : Prop :=
  ∀ sub ∈ p.subroutines, ∀ entry, sub.entry = some entry → ∀ b opens, Leaves p entry b opens →
    opens ≠ [] → ∀ last callee, (p.graph.block b).last? = some last → p.callee? last = some callee →
      ∀ effect, s.effectOf? callee.address = some effect → effect.delta ≠ none

section
variable {p : Program} {f g inner : Frame} {fs outer : List Frame} {s t : State}
variable {b c entry : BlockId} {stack : Cells} {sub start : Subroutine} {x y : Point}
variable {opens opens' : List Int} {i : LinkedInstruction}

theorem Resumes.of_keeps (h : Resumes p t) (hst : Keeps s t) : Resumes p s := by
  intro sub hsub entry hentry b opens hleaves hopens last callee hlast hcallee effect heffect
  exact h sub hsub entry hentry b opens hleaves hopens last callee hlast hcallee effect
    (hst.effect heffect)

/-! ## How blocks are reached -/

/-- A block that was reached is an entry, or control came to it from the end of a block. -/
def Grounded (p : Program) (s : State) : Prop :=
  ∀ c, s.progressOf c ≠ .untouched → (∃ sub ∈ p.subroutines, sub.entry = some c) ∨
    ∃ b, Proceeds p b c ∧ (LeftByEdges p b ∨ ∃ d, s.progressOf b = .finished d)

/-- Whatever is reached anew must be accounted for. -/
theorem Grounded.grow (h : Grounded p s) (hst : Keeps s t)
    (hnew : ∀ c, t.progressOf c ≠ .untouched → s.progressOf c ≠ .untouched ∨
      (∃ sub ∈ p.subroutines, sub.entry = some c) ∨
        ∃ b, Proceeds p b c ∧ (LeftByEdges p b ∨ ∃ d, t.progressOf b = .finished d)) :
    Grounded p t := by
  intro c hc
  rcases hnew c hc with hold | hnew
  · refine (h c hold).imp_right fun hfrom => ?_
    obtain ⟨b, hbc, hb⟩ := hfrom
    refine ⟨b, hbc, hb.imp_right fun hfinished => ?_⟩
    obtain ⟨d, hd⟩ := hfinished
    exact ⟨d, hst.finished hd⟩
  · exact hnew

theorem Reached.touched (h : Reached b stack f s g t) (hc : t.progressOf c ≠ .untouched) :
    s.progressOf c ≠ .untouched ∨ c = b := by
  cases h with
  | known _ => exact .inl hc
  | first _ =>
    rw [progressOf_setProgress] at hc
    split at hc
    · rename_i hbc
      exact .inr hbc.1.symm
    · exact .inl hc

theorem untouched_walked : (s.walked b).progressOf c = .untouched ↔ s.progressOf c = .untouched := by
  rw [progressOf_walked]
  split
  · cases s.progressOf c <;> simp [Progress.finish]
  · rfl

theorem Shift.grounded (hp : p.Whole) (hi : Orderly p ⟨f :: outer, s⟩) (hst : Keeps s t)
    (h : Shift p f s fs t) (hg : Grounded p s) : Grounded p t := by
  refine hg.grow hst fun c hc => ?_
  cases h with
  | close _ => exact .inl hc
  | keep hsame _ _ _ => exact .inl (by rwa [← hsame.progressOf])
  | finish _ _ _ => exact .inl (mt untouched_walked.mpr hc)
  | @pass b next stack g h t _ hhand _ honward _ hreached =>
    rcases hreached.touched hc with hc | rfl
    · exact .inl (mt untouched_walked.mpr hc)
    · obtain ⟨d, hd⟩ := hi.custody.held b (by simp [hhand])
      refine .inr (.inr ⟨b, honward.proceeds, .inr ⟨d, hreached.keeps.finished ?_⟩⟩)
      rw [progressOf_walked, if_pos rfl]
      exact congrArg Progress.finish hd
  | @follow e edges stack g h t _ _ hcursor _ hdead hback hstate hreached =>
    rcases hreached.touched hc with hc | rfl
    · exact .inl hc
    · obtain ⟨entry, hf⟩ := hi.traced f List.mem_cons_self
      obtain ⟨b, done, -, hedges, hleft⟩ := hf.leaving _ _ hcursor
      have he : e ∈ p.graph.edges b := by simp [hedges]
      have honward : Onward p s b e.child := .of_follow hp he hleft hdead hback hstate
      exact .inr (.inr ⟨b, honward.proceeds, .inl hleft⟩)
  | enter hsub _ henter =>
    obtain ⟨-, entry, hentry, hreached⟩ := henter
    rcases hreached.touched hc with hc | rfl
    · exact .inl hc
    · exact .inr (.inl ⟨_, hsub, hentry⟩)

theorem Begins.grounded (hsub : sub ∈ p.subroutines) (h : Begins p sub x) : Grounded p x.state := by
  obtain ⟨f, -, henter⟩ := h
  obtain ⟨-, entry, hentry, hreached⟩ := Sim.enter_ok henter
  intro c hc
  rcases hreached.touched hc with hc | rfl
  · exact absurd (progressOf_blank p c) hc
  · exact .inl ⟨sub, hsub, hentry⟩

/-- The block behind a call that a save stays open over is not reached before the call. -/
theorem Tidy.untouched (ht : Tidy p entry) (hg : Grounded p s) (hleaves : Leaves p entry b opens)
    (hopens : opens ≠ []) (hc : Proceeds p b c) (hb : ∀ d, s.progressOf b ≠ .finished d) :
    s.progressOf c = .untouched := by
  by_contra htouched
  obtain ⟨hentry, honly⟩ := ht.alone b opens hleaves hopens c hc
  rcases hg c htouched with ⟨sub, hsub, hsc⟩ | ⟨b', hb'c, hb'⟩
  · exact hentry sub hsub hsc
  · rw [honly b' hb'c] at hb'
    rcases hb' with hleft | ⟨d, hd⟩
    · obtain ⟨last, hlast, hjsr⟩ := ht.calls b opens hleaves hopens
      obtain ⟨last', hlast', -, hnot⟩ := hleft
      rw [hlast] at hlast'
      cases hlast'
      exact hnot hjsr
    · exact hb d hd

/-! ## What a step does to a frame -/

theorem Reached.bases (h : Reached c stack f s g t) : t.bases = s.bases := by
  cases h <;> rfl

theorem Entered.bases (h : Entered sub stack s inner t) : t.bases = s.bases := by
  obtain ⟨-, _, -, hreached⟩ := h
  exact hreached.bases

namespace Frame.Stands

/-- A frame with nothing open turns to what is in line. -/
theorem turn (hn : Nested p entry) (hf : f.Traced p s entry) (hcursor : f.cursor = .idle)
    (hline : StaysOpen p entry → f.pending = []) : f.Stands p entry [] := by
  cases hpending : f.pending with
  | nil => exact .spent hcursor hpending
  | cons first pending =>
    have hclosed : ¬ StaysOpen p entry := by
      intro hopen
      rw [hline hopen] at hpending
      cases hpending
    obtain ⟨b, stack⟩ := first
    have hb : b ∈ f.hand := by simp [Frame.hand, hpending]
    obtain ⟨opens, harrives⟩ := hn.arrives (hf.hand b hb)
    cases harrives.eq_nil hclosed
    exact .next hcursor hpending harrives fun hopen => absurd hopen hclosed

theorem entered (hentry : sub.entry = some entry) (h : Entered sub stack s inner t) :
    inner.Stands p entry [] := by
  obtain ⟨-, entry', hentry', hreached⟩ := h
  rw [hentry] at hentry'
  cases hentry'
  cases hreached with
  | known _ => exact .spent rfl rfl
  | first _ => exact .next rfl rfl .entry fun _ => rfl

theorem waiting (h : f.Stands p entry opens) (hcursor : f.cursor = .idle) :
    f.pending = [] ∧ opens = [] ∨ ∃ b stack pending, f.pending = (b, stack) :: pending ∧
      Arrives p entry b opens ∧ (StaysOpen p entry → pending = []) := by
  cases h with
  | spent _ hpending => exact .inl ⟨hpending, rfl⟩
  | next _ hpending hb hline => exact .inr ⟨_, _, _, hpending, hb, hline⟩
  | inside hbusy _ _ _ _ | behind hbusy _ _ _ _ =>
    rw [hcursor] at hbusy
    cases hbusy

theorem running {rest : List LinkedInstruction} (h : f.Stands p entry opens)
    (hcursor : f.cursor = .running b rest stack) : ∃ done before,
      (p.graph.block b).instructions = done ++ rest ∧ Arrives p entry b before ∧
        openThrough done before = some opens ∧ (StaysOpen p entry → f.pending = []) := by
  cases h with
  | spent hidle _ | next hidle _ _ _ =>
    rw [hcursor] at hidle
    cases hidle
  | behind hleaving _ _ _ _ =>
    rw [hcursor] at hleaving
    cases hleaving
  | inside hrunning his hb hdone hline =>
    rw [hcursor] at hrunning
    cases hrunning
    exact ⟨_, _, his, hb, hdone, hline⟩

theorem leaving {edges : List Edge} (h : f.Stands p entry opens)
    (hcursor : f.cursor = .leaving edges stack) : opens = [] ∧ ∃ b done,
      p.graph.edges b = done ++ edges ∧ LeftByEdges p b ∧ Leaves p entry b [] ∧
        (StaysOpen p entry → f.pending.length ≤ 1 ∧ ∀ x ∈ f.pending, Proceeds p b x.1) := by
  cases h with
  | spent hidle _ | next hidle _ _ _ =>
    rw [hcursor] at hidle
    cases hidle
  | inside hrunning _ _ _ _ =>
    rw [hcursor] at hrunning
    cases hrunning
  | behind hleaving hedges hleft hleaves hline =>
    rw [hcursor] at hleaving
    cases hleaving
    exact ⟨rfl, _, _, hedges, hleft, hleaves, hline⟩

/-- At the end of a block. -/
theorem ended (h : f.Stands p entry opens) (hcursor : f.cursor = .running b [] stack) :
    Leaves p entry b opens ∧ (StaysOpen p entry → f.pending = []) := by
  obtain ⟨done, before, his, hb, hdone, hline⟩ := h.running hcursor
  rw [List.append_nil] at his
  exact ⟨⟨before, hb, by rw [his]; exact hdone⟩, hline⟩

/-- In front of an instruction there is a save for it to restore, if it restores one. -/
theorem advance {rest : List LinkedInstruction} (hn : Nested p entry) (h : f.Stands p entry opens)
    (hcursor : f.cursor = .running b (i :: rest) stack) : ∃ opens', openAfter i opens = some opens' ∧
      ∀ writes after, { f with writes, cursor := .running b rest after }.Stands p entry opens' := by
  obtain ⟨done, before, his, hb, hdone, hline⟩ := h.running hcursor
  obtain ⟨last, hlast⟩ := hn.matched b before hb
  rw [his, openThrough_append, hdone, Option.bind_some, openThrough_cons] at hlast
  obtain ⟨opens', hopens', -⟩ := Option.bind_eq_some_iff.mp hlast
  have his' : (p.graph.block b).instructions = (done ++ [i]) ++ rest := by
    rw [his, List.append_assoc]
    rfl
  refine ⟨opens', hopens', fun writes after => .inside rfl his' hb ?_ hline⟩
  rw [openThrough_append, hdone, Option.bind_some, openThrough_cons, hopens']
  rfl

/-- Over a call the frame goes on with the same saves open. -/
theorem resume (hn : Nested p entry) (ht : Tidy p entry) (hground : Grounded p s)
    (hleaves : Leaves p entry b opens) (hline : StaysOpen p entry → f.pending = [])
    (hc : Proceeds p b c) (hb : ∃ d, s.progressOf b = .inProgress d)
    (hreached : Reached c stack f (s.walked b) g t)
    (hg : { g with cursor := .idle }.Traced p t entry) :
    { g with cursor := .idle }.Stands p entry opens := by
  cases hreached with
  | known hknown =>
    -- a block that a save stays open to would be new
    have hopens : opens = [] := by
      by_contra hopens
      obtain ⟨d, hd⟩ := hb
      have huntouched := ht.untouched hground hleaves hopens hc (by simp [hd])
      rw [untouched_walked.mpr huntouched] at hknown
      cases hknown
    subst hopens
    exact .turn hn hg rfl hline
  | first _ =>
    by_cases hopen : StaysOpen p entry
    · exact .next rfl (by rw [hline hopen]; rfl) (.on_of_leaves hleaves hc) fun _ => rfl
    · have hopens : opens = [] := by
        by_contra hopens
        exact hopen ⟨b, opens, hleaves, hopens⟩
      subst hopens
      exact .turn hn hg rfl fun h => absurd h hopen

/-- Along an edge at most one block is put in line. -/
theorem follow {e : Edge} {edges : List Edge} (hp : p.Whole) (ht : Tidy p entry)
    (hcustody : Custody f.hand s) (h : f.Stands p entry opens)
    (hcursor : f.cursor = .leaving (e :: edges) stack) (hdead : e.kind ≠ .dead)
    (hback : e.kind ≠ .back) (hstate : e.kind ≠ .state)
    (hreached : Reached e.child stack { f with cursor := .leaving edges stack } s g t) :
    opens = [] ∧ g.Stands p entry [] := by
  obtain ⟨hopens, b, done, hedges, hleft, hleaves, hline⟩ := h.leaving hcursor
  have he : e ∈ p.graph.edges b := by simp [hedges]
  have hedges' : p.graph.edges b = (done ++ [e]) ++ edges := by
    rw [hedges, List.append_assoc]
    rfl
  have hon : Proceeds p b e.child :=
    Onward.proceeds (s := s) (.of_follow hp he hleft hdead hback hstate)
  refine ⟨hopens, ?_⟩
  cases hreached with
  | known _ => exact .behind rfl hedges' hleft hleaves hline
  | first hnone =>
    refine .behind rfl hedges' hleft hleaves fun hopen => ?_
    obtain ⟨hlength, hways⟩ := hline hopen
    obtain ⟨before, hb, -⟩ := hleaves
    -- another block in line would be this one, and known
    have hpending : f.pending = [] := by
      cases hfirst : f.pending with
      | nil => rfl
      | cons x pending =>
        have hx : x ∈ f.pending := by simp [hfirst]
        have hchild := ht.line hopen b before hb _ _ hon (hways x hx)
        obtain ⟨d, hd⟩ := hcustody.held x.1 (by simp [Frame.hand, hfirst])
        rw [hchild, hd] at hnone
        cases hnone
    simp [hpending, hon]

/-- Behind its edges the frame turns to what is in line. -/
theorem left (hn : Nested p entry) (h : f.Stands p entry opens)
    (hcursor : f.cursor = .leaving [] stack) (hg : { f with cursor := .idle }.Traced p s entry) :
    { f with cursor := .idle }.Stands p entry opens := by
  obtain ⟨rfl, b, done, -, -, hleaves, hline⟩ := h.leaving hcursor
  by_cases hopen : StaysOpen p entry
  · obtain ⟨hlength, hways⟩ := hline hopen
    cases hpending : f.pending with
    | nil => exact .spent rfl rfl
    | cons x pending =>
      have hx : x ∈ f.pending := by simp [hpending]
      refine .next rfl rfl (.on_of_leaves hleaves (hways x hx)) fun _ => ?_
      simpa [hpending] using hlength
  · exact .turn hn hg rfl fun h => absurd h hopen

end Frame.Stands

/-! ## What a step does to the base pointers -/

/-- Saves and base pointers change together. -/
theorem openAfter_bases {R : Int → Cells → Prop} {below : List Int} {bases : List Cells}
    (h : openAfter i opens = some opens') (hsave : i.opcode = .savebp → R i.address stack)
    (hbases : List.Forall₂ R (opens ++ below) bases) :
    List.Forall₂ R (opens' ++ below) (Sim.basesAfter i.opcode stack bases) := by
  by_cases hop : i.opcode = .savebp
  · simp only [openAfter, hop, Option.some.injEq] at h
    subst h
    rw [hop]
    exact .cons (hsave hop) hbases
  · by_cases hop' : i.opcode = .restorebp
    · simp only [openAfter, hop'] at h
      cases opens with
      | nil => cases h
      | cons site opens =>
        cases h
        rw [hop']
        cases hbases with
        | cons _ hbelow => exact hbelow
    · rw [openAfter_eq hop hop'] at h
      cases h
      rw [Sim.basesAfter_eq hop hop']
      exact hbases

/-- The frames that take the place of the innermost one stand where saves are open, and the base
pointers change from the saves open before to the saves open then. -/
def Passes (p : Program) (start : Subroutine) (opens : List Int) (s : State) (fs : List Frame)
    (t : State) : Prop :=
  ∃ os, List.Forall₂ (Frame.Opens p) fs os ∧ ∀ below,
    List.Forall₂ (Snapshot p start) (opens ++ below) s.bases →
      List.Forall₂ (Snapshot p start) (os.flatten ++ below) t.bases

theorem Passes.keep (hentry : g.subroutine.entry = some entry) (h : g.Stands p entry opens)
    (hbases : t.bases = s.bases) : Passes p start opens s [g] t := by
  refine ⟨[opens], .cons ⟨entry, hentry, h⟩ .nil, fun below hbelow => ?_⟩
  rw [hbases, List.flatten_cons, List.flatten_nil, List.append_nil]
  exact hbelow

theorem Passes.enter (hp : p.Whole) (hsub : sub ∈ p.subroutines) (henter : Entered sub stack s inner t)
    (hf : f.Opens p opens) : Passes p start opens s [inner, f] t := by
  obtain ⟨first, hfirst⟩ := hp.entries sub hsub
  have hinner : inner.Opens p [] :=
    ⟨first, by rw [henter.subroutine, hfirst], .entered hfirst henter⟩
  refine ⟨[[], opens], .cons hinner (.cons hf .nil), fun below hbelow => ?_⟩
  rw [henter.bases, List.flatten_cons, List.flatten_cons, List.flatten_nil, List.append_nil,
    List.nil_append]
  exact hbelow

theorem Passes.exec {rest : List LinkedInstruction} {after : Cells} {writes : Writes} (hp : p.Whole)
    (hn : Nested p entry) (hvisited : Visited p start ⟨f :: outer, s⟩)
    (hi : Orderly p ⟨f :: outer, s⟩) (hentry : f.subroutine.entry = some entry)
    (h : f.Stands p entry opens) (hcursor : f.cursor = .running b (i :: rest) stack)
    (hexec : Sim.exec p.table f.height i.toInstruction stack f.writes s = .ok (after, writes) t) :
    Passes p start opens s [{ f with writes, cursor := .running b rest after }] t := by
  have hmem := (hi.consistent.sound f List.mem_cons_self).mem_block hcursor
  obtain ⟨opens', hopens', hstands⟩ := h.advance hn hcursor
  obtain ⟨hbases, -⟩ := Sim.exec_bases (hp.decoded b i hmem) hexec
  refine ⟨[opens'], .cons ⟨entry, hentry, hstands writes after⟩ .nil, fun below hbelow => ?_⟩
  rw [hbases, List.flatten_cons, List.flatten_nil, List.append_nil]
  refine openAfter_bases hopens' (fun hsave => ?_) hbelow
  exact ⟨f, outer, s, b, i, rest, hvisited, hcursor, hsave, rfl⟩

/-- Every step keeps base pointers and saves together. -/
theorem Moves.passes (hp : p.Whole) (hn : Nested p entry) (ht : Tidy p entry)
    (hvisited : Visited p start ⟨f :: outer, s⟩) (hi : Orderly p ⟨f :: outer, s⟩)
    (hground : Grounded p s) (hresumes : Resumes p s) (hentry : f.subroutine.entry = some entry)
    (h : f.Stands p entry opens) (hmoves : Moves p f s fs t) : Passes p start opens s fs t := by
  have hsound := hi.consistent.sound f List.mem_cons_self
  have hcustody : Custody f.hand s := by
    have hall := hi.custody
    rw [List.flatMap_cons] at hall
    exact ⟨(List.nodup_append.mp hall.nodup).1, fun b hb => hall.held b (List.mem_append_left _ hb)⟩
  have htraced : ∀ g ∈ fs, g.subroutine = f.subroutine → g.Traced p t entry := by
    intro g hg hsub
    obtain ⟨entry', hgt⟩ := (hi.moves hp hmoves).traced g (List.mem_append_left _ hg)
    have hstarts := hgt.starts
    rw [hsub, hentry] at hstarts
    cases hstarts
    exact hgt
  cases hmoves with
  | close hcursor hpending =>
    rcases h.waiting hcursor with ⟨-, rfl⟩ | ⟨b, stack, pending, hnext, -⟩
    · exact ⟨[], .nil, fun below hbelow => hbelow⟩
    · rw [hpending] at hnext
      cases hnext
  | pick hcursor hpending =>
    rcases h.waiting hcursor with ⟨hnone, -⟩ | ⟨b, stack, pending, hnext, hb, hline⟩
    · rw [hpending] at hnone
      cases hnone
    · rw [hpending] at hnext
      cases hnext
      exact .keep hentry (.inside rfl (List.nil_append _).symm hb rfl hline) rfl
  | exec hcursor _ hexec => exact .exec hp hn hvisited hi hentry h hcursor hexec
  | replay hcursor hop _ heffect hreplay =>
    obtain ⟨opens', hopens', hstands⟩ := h.advance hn hcursor
    rw [openAfter_eq (by simp [hop]) (by simp [hop])] at hopens'
    cases hopens'
    have hbelow := below_of_effectOf? hi.effects heffect
    exact .keep hentry (hstands _ _) ((Sim.tame_replay hbelow).ok hreplay).bases
  | call _ _ hcallee _ henter => exact .enter hp (mem_of_callee? hcallee) henter ⟨entry, hentry, h⟩
  | store _ _ howner _ henter => exact .enter hp (mem_of_ownerOf? howner) henter ⟨entry, hentry, h⟩
  | back hcursor hlast hop _ _ =>
    obtain ⟨hleaves, hline⟩ := h.ended hcursor
    cases hn.returned _ opens hleaves ⟨_, hlast, hop⟩
    exact .keep hentry (.turn hn (htraced _ List.mem_cons_self rfl) rfl hline) rfl
  | @resume b next stack last callee delta g t hcursor hlast hop _ hnext _ hreached =>
    obtain ⟨hleaves, hline⟩ := h.ended hcursor
    have hb : b ∈ f.hand := by simp [Frame.hand, hcursor, Cursor.block?]
    have hsub : g.subroutine = f.subroutine := hreached.heir.subroutine
    refine .keep (by rw [← hentry, ← hsub]) (.resume hn ht hground hleaves hline
      (.behind hlast hop hnext) (hcustody.held b hb) hreached (htraced _ List.mem_cons_self hsub)) ?_
    exact hreached.bases
  | @lost b next stack last callee hcursor hlast hop hcallee _ hdelta =>
    obtain ⟨hleaves, hline⟩ := h.ended hcursor
    obtain ⟨d, -, hbehind⟩ := hsound.depthBehind hcursor
    obtain ⟨callee', effect, hcallee', heffect⟩ :=
      effect_of_depthThrough hbehind (List.mem_of_getLast? hlast) hop
    rw [hcallee] at hcallee'
    cases hcallee'
    rw [heffect] at hdelta
    have hopens : opens = [] := by
      by_contra hopens
      exact hresumes f.subroutine hsound.begun.1 entry hentry b opens hleaves hopens last callee hlast
        hcallee effect heffect hdelta
    subst hopens
    exact .keep hentry (.turn hn (htraced _ List.mem_cons_self rfl) rfl hline) rfl
  | @leave b stack last hcursor hlast hretn hjsr =>
    obtain ⟨hleaves, hline⟩ := h.ended hcursor
    have hopens : opens = [] := by
      by_contra hopens
      obtain ⟨last', hlast', hop⟩ := ht.calls b opens hleaves hopens
      rw [hlast] at hlast'
      cases hlast'
      exact hjsr hop
    subst hopens
    refine .keep hentry (.behind rfl (List.nil_append _).symm ⟨last, hlast, hretn, hjsr⟩ hleaves
      fun hopen => ?_) rfl
    simp [hline hopen]
  | left hcursor => exact .keep hentry (h.left hn hcursor (htraced _ List.mem_cons_self rfl)) rfl
  | @skip e edges stack hcursor _ =>
    obtain ⟨rfl, b, done, hedges, hleft, hleaves, hline⟩ := h.leaving hcursor
    have hedges' : p.graph.edges b = (done ++ [e]) ++ edges := by
      rw [hedges, List.append_assoc]
      rfl
    exact .keep hentry (.behind rfl hedges' hleft hleaves hline) rfl
  | follow hcursor hdead hback hstate hreached =>
    obtain ⟨rfl, hstands⟩ := h.follow hp ht hcustody hcursor hdead hback hstate hreached
    refine .keep ?_ hstands hreached.bases
    rw [hreached.heir.subroutine]
    exact hentry

end

/-! ## Every point -/

/-- Saves and restores are nested on every path through every subroutine. -/
def Program.Nested (p : Program) : Prop :=
  ∀ sub ∈ p.subroutines, ∀ entry, sub.entry = some entry → Stack.Nested p entry

def Program.Tidy (p : Program) : Prop :=
  ∀ sub ∈ p.subroutines, ∀ entry, sub.entry = some entry → Stack.Tidy p entry

section
variable {p : Program} {f : Frame} {outer : List Frame} {s : State} {b : BlockId} {stack : Cells}
variable {start : Subroutine} {x y : Point} {i : LinkedInstruction} {rest : List LinkedInstruction}

theorem Mirrors.next {opens : List (List Int)} (hp : p.Whole) (hn : p.Nested) (ht : p.Tidy)
    (hvisited : Visited p start x) (hi : Orderly p x) (hground : Grounded p x.state)
    (hresumes : Resumes p x.state) (h : Mirrors p start x opens) (hnext : Next p x y) :
    ∃ opens', Mirrors p start y opens' := by
  obtain ⟨f, outer, s, fs, t, rfl, rfl, hmoves⟩ := hnext.moves
  obtain ⟨hframes, hbases⟩ := h
  cases hframes with
  | @cons _ o _ os hf houter =>
    obtain ⟨entry, hentry, hstands⟩ := hf
    have hsub := (hi.consistent.sound f List.mem_cons_self).begun.1
    obtain ⟨os', hos', hpass⟩ := Moves.passes hp (hn _ hsub entry hentry) (ht _ hsub entry hentry)
      hvisited hi hground hresumes hentry hstands hmoves
    refine ⟨os' ++ os, List.rel_append hos' houter, ?_⟩
    rw [List.flatten_append]
    exact hpass os.flatten hbases

theorem Begins.mirrors (hp : p.Whole) (hstart : start ∈ p.subroutines) (h : Begins p start x) :
    Mirrors p start x [[]] := by
  obtain ⟨f, hframes, henter⟩ := h
  obtain ⟨entry, hentry⟩ := hp.entries start hstart
  have hentered := Sim.enter_ok henter
  refine ⟨?_, ?_⟩
  · rw [hframes]
    exact .cons ⟨entry, by rw [hentered.subroutine, hentry], .entered hentry hentered⟩ .nil
  · rw [hentered.bases]
    exact .nil

/-- The base pointers mirror the saves open in the frames. -/
theorem Visited.mirrors (hp : p.Whole) (hstart : start ∈ p.subroutines) (hn : p.Nested)
    (ht : p.Tidy) (h : Visited p start x) (hresumes : Resumes p x.state) :
    ∃ opens, Mirrors p start x opens := by
  refine (h.induction (P := fun x => Grounded p x.state ∧ (Resumes p x.state →
    ∃ opens, Mirrors p start x opens)) hp hstart (fun x hbegins => ?_)
    fun x y hx hi ih hnext => ?_).2.2 hresumes
  · exact ⟨hbegins.grounded hstart, fun _ => ⟨_, hbegins.mirrors hp hstart⟩⟩
  · obtain ⟨f, outer, s, fs, t, rfl, rfl, hmoves⟩ := hnext.moves
    have hkeeps := (hmoves.takeover hp.toWellFormed hi.consistent).records
    refine ⟨hmoves.shift.grounded hp hi hkeeps ih.1, fun hresumes' => ?_⟩
    have hresumes := hresumes'.of_keeps hkeeps
    obtain ⟨opens, hmirrors⟩ := ih.2 hresumes
    exact hmirrors.next hp hn ht hx hi ih.1 hresumes hnext

/-- A restore finds the stack that its save found, on top, and takes it off. -/
theorem Visited.restores (hp : p.Whole) (hstart : start ∈ p.subroutines) (hn : p.Nested)
    (ht : p.Tidy) (h : Visited p start ⟨f :: outer, s⟩) (hresumes : Resumes p s)
    (hcursor : f.cursor = .running b (i :: rest) stack) (hop : i.opcode = .restorebp) :
    ∃ site sites cells below, f.Opens p (site :: sites) ∧ Snapshot p start site cells ∧
      s.bases = cells :: below ∧ ∀ y, Next p ⟨f :: outer, s⟩ y → y.state.bases = below := by
  have hi := h.orderly hp hstart
  have hsound := hi.consistent.sound f List.mem_cons_self
  obtain ⟨opens, hframes, hbases⟩ := h.mirrors hp hstart hn ht hresumes
  cases hframes with
  | @cons _ o _ os hf houter =>
    obtain ⟨entry, hentry, hstands⟩ := hf
    obtain ⟨o', ho', -⟩ := hstands.advance (hn _ hsound.begun.1 entry hentry) hcursor
    simp only [openAfter, hop] at ho'
    cases o with
    | nil => cases ho'
    | cons site sites =>
      have hbases' : List.Forall₂ (Snapshot p start) (site :: (sites ++ os.flatten)) s.bases := hbases
      obtain ⟨cells, below, hsite, -, heq⟩ := List.forall₂_cons_left_iff.mp hbases'
      refine ⟨site, sites, cells, below, ⟨entry, hentry, hstands⟩, hsite, heq, fun y hnext => ?_⟩
      obtain ⟨f', outer', hx, hstep⟩ := hnext
      cases hx
      simp only [Sim.step, hcursor] at hstep
      rw [if_neg (by simp [hop])] at hstep
      obtain ⟨r, u, hexec, hrest⟩ := Sim.bind_eq_ok.mp hstep
      obtain ⟨-, hu⟩ := Sim.pure_eq_ok.mp hrest
      obtain ⟨cells', hcells'⟩ := (Sim.exec_bases (hp.decoded b i (hsound.mem_block hcursor)) hexec).2 hop
      rw [← hu]
      rw [heq] at hcells'
      cases hcells'
      rfl

/-- The base pointers of the analysis from the start follow control flow, as long as no call that a
save stays open over is known never to return. -/
structure BasesFollow (p : Program) (start : Subroutine) : Prop where
  mirrored : ∀ x, Visited p start x → Resumes p x.state → ∃ opens, Mirrors p start x opens
  /-- The saves open in a frame inside of a block are those of every path that leads there. -/
  paths : ∀ (f : Frame) opens b rest stack, f.subroutine ∈ p.subroutines → f.Opens p opens →
    f.cursor = .running b rest stack → ∃ entry done, f.subroutine.entry = some entry ∧
      (p.graph.block b).instructions = done ++ rest ∧ (∃ before, Arrives p entry b before) ∧
        ∀ before, Arrives p entry b before → openThrough done before = some opens
  /-- Whoever asks for the base pointer gets the stack that the innermost save open found. -/
  resolved : ∀ x opens site sites, Mirrors p start x opens → opens.flatten = site :: sites →
    ∃ cells, Snapshot p start site cells ∧ ∀ i, Sim.base i x.state = .ok cells x.state
  restored : ∀ f outer s b i rest stack, Visited p start ⟨f :: outer, s⟩ → Resumes p s →
    f.cursor = .running b (i :: rest) stack → i.opcode = .restorebp →
      ∃ site sites cells below, f.Opens p (site :: sites) ∧ Snapshot p start site cells ∧
        s.bases = cells :: below ∧ ∀ y, Next p ⟨f :: outer, s⟩ y → y.state.bases = below
  never : ∀ f outer s t i, Visited p start ⟨f :: outer, s⟩ → Resumes p s → i.opcode = .restorebp →
    Sim.step p f outer s ≠ .error (.fault (.site i .noBase)) t
  /-- What an analysis answers with, if not success, is the fault of such a step. -/
  answered : ∀ a events, analyze p (some start) = .ok (a, events) → a.success = true ∨
    ∃ f outer s t fault, Visited p start ⟨f :: outer, s⟩ ∧
      Sim.step p f outer s = .error (.fault fault) t ∧ a.error = some fault.message

theorem basesFollow (hp : p.Whole) (hstart : start ∈ p.subroutines) (hn : p.Nested) (ht : p.Tidy) :
    BasesFollow p start where
  mirrored x h hresumes := h.mirrors hp hstart hn ht hresumes
  paths f opens b rest stack hsub h hcursor := by
    obtain ⟨entry, hentry, hstands⟩ := h
    obtain ⟨done, before, his, hb, hdone, -⟩ := hstands.running hcursor
    refine ⟨entry, done, hentry, his, ⟨before, hb⟩, fun before' hb' => ?_⟩
    rw [hb'.unique (ht _ hsub entry hentry) hsub hentry hb]
    exact hdone
  resolved x opens site sites h hopens := by
    have hbases := h.bases
    rw [hopens] at hbases
    obtain ⟨cells, below, hsite, -, heq⟩ := List.forall₂_cons_left_iff.mp hbases
    exact ⟨cells, hsite, fun i => Sim.base_of_cons heq⟩
  restored f outer s b i rest stack h hresumes hcursor hop :=
    h.restores hp hstart hn ht hresumes hcursor hop
  never f outer s t i h hresumes hop hstep := by
    have hfailure := (h.orderly hp hstart).failure hp hstep
    generalize hhalt : Halt.fault (.site i .noBase) = halt at hfailure
    cases hfailure with
    | instruction hfaces _ hbase =>
      cases hhalt
      obtain ⟨b, rest, stack, hcursor⟩ := hfaces
      obtain ⟨_, _, cells, below, -, -, heq, -⟩ :=
        h.restores hp hstart hn ht hresumes hcursor hop
      rw [hbase hop rfl] at heq
      cases heq
    | width _ _ => cases hhalt
    | flow hflow _ _ =>
      cases hhalt
      exact hflow
  answered a events hanalyze := by
    have hanswers := analyze_answers hp hstart
    rw [hanalyze] at hanswers
    cases hanswers with
    | success _ _ => exact .inl rfl
    | fault hvisited hstep => exact .inr ⟨_, _, _, _, _, hvisited, hstep, rfl⟩

end

end ScriptFlow.Stack
