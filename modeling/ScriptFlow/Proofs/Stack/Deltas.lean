import ScriptFlow.Proofs.Stack.Records

/-! # The deltas recorded of subroutines

A block is walked by one frame only, and its return counts for that frame. So the delta recorded of a
subroutine is that of the returns its own frame walked. It is right exactly if these speak for all the
returns the subroutine leads to, as they do for a subroutine that shares no return with another. -/

namespace ScriptFlow.Stack

section
variable (p : Program)

/-- The block ends with a return. -/
def Program.Returns (b : BlockId) : Prop :=
  ∃ last ∈ (p.graph.block b).last?, last.opcode = .retn

instance {b : BlockId} : Decidable (p.Returns b) :=
  inferInstanceAs (Decidable (∃ last ∈ (p.graph.block b).last?, last.opcode = .retn))

/-- The depth behind a block that was walked. -/
def Analysis.depthBehind (a : Analysis) (b : BlockId) : Option Nat :=
  (a.depthAt b).bind (p.depthBehind a.state b)

/-- In the analysis from the start, a frame of the subroutine with the address walks the block, and
comes to its end `k` cells above the height the frame was entered with. -/
def Walks (start : Subroutine) (address : Int) (b : BlockId) (k : Int) : Prop :=
  ∃ f outer s stack, Visited p start ⟨f :: outer, s⟩ ∧ f.subroutine.address = address ∧
    f.cursor = .running b [] stack ∧ (stack.length : Int) = f.height + k

/-- There is no delta if no path from the entry comes to a return, and else every path that does so
ends with the depth of the entry plus the delta. -/
structure DeltaRight (a : Analysis) (entry : BlockId) (d : Nat) (delta : Option Int) : Prop where
  none_iff : delta = none ↔ ∀ rest, (entry :: rest).IsChain (Onward p a.state) →
    ¬ p.Returns (rest.getLastD entry)
  depth : ∀ k, delta = some k → ∀ rest, (entry :: rest).IsChain (Onward p a.state) →
    p.Returns (rest.getLastD entry) →
      ∃ n : Nat, p.depthAlong a.state (entry :: rest) d = some n ∧ (n : Int) = d + k

end

section
variable {p : Program} {f g inner : Frame} {fs outer frames : List Frame} {s t : State}
variable {b c : BlockId} {stack : Cells} {sub start : Subroutine} {x y : Point} {n : Int} {k : Int}

/-! ## Every delta has a return -/

theorem Reached.delta (h : Reached c stack f s g t) : g.delta = f.delta := by
  cases h <;> rfl

/-- A frame that goes on keeps its delta, unless it is behind a return. -/
theorem Moves.delta (h : Moves p f s [g] t) : g.delta = f.delta ∨
    ∃ b stack k, f.cursor = .running b [] stack ∧ p.Returns b ∧ k = (stack.length : Int) - f.height ∧
      (f.delta = none ∨ f.delta = some k) ∧ g.delta = some k := by
  cases h with
  | back hcursor hlast hop hdelta hknown =>
    exact .inr ⟨_, _, _, hcursor, ⟨_, hlast, hop⟩, hdelta, hknown, rfl⟩
  | resume _ _ _ _ _ _ hreached | follow _ _ _ _ hreached => exact .inl hreached.delta
  | pick _ _ | exec _ _ _ | replay _ _ _ _ _ | lost _ _ _ _ _ _ | leave _ _ _ _ | left _ | skip _ _ =>
    exact .inl rfl

/-- The delta comes from a return that the subroutine walked. -/
def Accounted (p : Program) (start : Subroutine) (n : Int) (e : Effect) : Prop :=
  ∀ k, e.delta = some k → ∃ b, Walks p start n b k ∧ p.Returns b

theorem Visited.accounted (hp : p.Whole) (hstart : start ∈ p.subroutines) (h : Visited p start x) :
    Vouched (Accounted p start) x := by
  refine h.vouched hp hstart (fun _ => nofun) fun {f g outer s t} hx _ hmoves hf k hk => ?_
  obtain hsame | ⟨b, stack, k', hcursor, hreturns, hk', -, hg⟩ := hmoves.delta
  · exact hf k (hsame.symm.trans hk)
  · obtain rfl : k' = k := Option.some.inj (hg.symm.trans hk)
    exact ⟨b, ⟨f, outer, s, stack, hx, rfl, hcursor, by omega⟩, hreturns⟩

/-! ## Every return has a delta -/

theorem Moves.delta_eq_some (h : Moves p f s [g] t) (hk : f.effect.delta = some k) :
    g.effect.delta = some k := by
  obtain hsame | ⟨b, stack, k', -, -, -, hknown, hg⟩ := h.delta
  · exact hsame.trans hk
  · rcases hknown with hknown | hknown
    · exact absurd (hk.symm.trans hknown) (by simp)
    · exact hg.trans (hknown.symm.trans hk)

/-- Behind a return the frame has its delta. -/
theorem known_of_return (hcursor : f.cursor = .running b [] stack) (hreturns : p.Returns b)
    (hk : (stack.length : Int) = f.height + k) (hnext : Next p ⟨f :: outer, s⟩ y) :
    Known f.subroutine.address (fun e => e.delta = some k) y := by
  obtain ⟨f', outer', s', fs, t, hx, rfl, hmoves⟩ := hnext.moves
  cases hx
  obtain ⟨last, hlast, hop⟩ := hreturns
  have hlast' : ∀ {last'}, (p.graph.block b).last? = some last' → last'.opcode = .retn := by
    intro last' h
    rw [hlast] at h
    cases h
    exact hop
  cases hmoves with
  | @back b' stack' _ delta hrun _ _ hdelta _ =>
    rw [hcursor] at hrun
    cases hrun
    have hdelta' : delta = k := by omega
    exact .inl ⟨_, List.mem_cons_self, rfl, congrArg some hdelta'⟩
  | resume hrun hlast hjsr _ _ _ _ | lost hrun hlast hjsr _ _ _ =>
    rw [hcursor] at hrun
    cases hrun
    rw [hlast' hlast] at hjsr
    cases hjsr
  | leave hrun hlast hretn _ =>
    rw [hcursor] at hrun
    cases hrun
    exact absurd (hlast' hlast) hretn
  | close hrun _ | pick hrun _ | exec hrun _ _ | replay hrun _ _ _ _ | call hrun _ _ _ _ | left hrun
  | skip hrun _ | store hrun _ _ _ _ | follow hrun _ _ _ _ =>
    rw [hcursor] at hrun
    cases hrun

end

/-! ## Successful analyses -/

section
variable {p : Program} {s t : State} {b c entry : BlockId} {sub start : Subroutine} {x : Point}
variable {n k : Int} {d m : Nat} {a : Analysis} {events : List Event} {effect : Effect}

theorem exists_end_of_success (hp : p.Whole) (hstart : start ∈ p.subroutines)
    (hanalyze : analyze p (some start) = .ok (a, events)) (hok : a.success = true) :
    ∃ y, Visited p start y ∧ y.frames = [] ∧ y.state = a.state := by
  have hanswers := analyze_answers hp hstart
  rw [hanalyze] at hanswers
  cases hanswers with
  | success hy hframes => exact ⟨_, hy, hframes, rfl⟩
  | fault _ _ => cases hok

/-- The delta recorded of a subroutine is that of the returns it walked. -/
theorem delta_eq_some_iff (hp : p.Whole) (hstart : start ∈ p.subroutines)
    (hanalyze : analyze p (some start) = .ok (a, events)) (hok : a.success = true)
    (heffect : a.state.effectOf? n = some effect) :
    effect.delta = some k ↔ ∃ b, Walks p start n b k ∧ p.Returns b := by
  constructor
  · intro hk
    obtain ⟨y, hy, -, hstate⟩ := exists_end_of_success hp hstart hanalyze hok
    rw [← hstate] at heffect
    exact (hy.accounted hp hstart).effectOf? heffect k hk
  · intro hwalked
    obtain ⟨b, ⟨f, outer, s, stack, hvisited, rfl, hcursor, hk⟩, hreturns⟩ := hwalked
    obtain ⟨y, hsteps, hframes, hstate⟩ := hvisited.keeps_end hp hstart hanalyze hok
    rcases Relation.ReflTransGen.cases_head hsteps with heq | ⟨z, hnext, hrest⟩
    · rw [← heq] at hframes
      cases hframes
    · have hz := (hvisited.next hnext).orderly hp hstart
      rcases (known_of_return hcursor hreturns hk hnext).steps Moves.delta_eq_some hp hz hrest
        with h | h
      · obtain ⟨g, hg, -⟩ := h
        rw [hframes] at hg
        cases hg
      · obtain ⟨e, he, hdelta⟩ := h
        rw [hstate, heffect] at he
        cases he
        exact hdelta

/-- Where the end of an analysis has a block that a subroutine walked. -/
theorem Walks.placed (hp : p.Whole) (hstart : start ∈ p.subroutines)
    (hanalyze : analyze p (some start) = .ok (a, events)) (hok : a.success = true)
    (h : Walks p start n b k) : ∃ sub ∈ p.subroutines, sub.address = n ∧
      (a.state.effectOf? n).isSome ∧ ∃ entry d m, sub.entry = some entry ∧
        a.depthAt entry = some d ∧ LeadsOn p a.state entry b ∧
          a.depthBehind p b = some m ∧ (m : Int) = d + k := by
  obtain ⟨f, outer, s, stack, hvisited, rfl, hcursor, hk⟩ := h
  have hi := hvisited.orderly hp hstart
  obtain ⟨y, hsteps, hframes, hstate⟩ := hvisited.keeps_end hp hstart hanalyze hok
  obtain ⟨hy, hkeeps⟩ := hi.keeps_of_steps hp hsteps
  rw [hstate] at hkeeps
  have hsound := hi.consistent.sound f List.mem_cons_self
  obtain ⟨entry, hf⟩ := hi.traced f List.mem_cons_self
  have hft := hf.mono hkeeps
  refine ⟨f.subroutine, hsound.begun.1, rfl, ?_, entry, f.height, stack.length, hft.starts,
    hft.height, hft.hand b (by simp [Frame.hand, hcursor, Cursor.block?]), ?_, hk⟩
  · rw [← hstate]
    refine (hy.ended hframes).2.2 _ (met_of_steps hsteps ?_)
    rw [State.met, hi.enrolled.active]
    simp
  · obtain ⟨d, hd, hbehind⟩ := hsound.depthBehind hcursor
    exact Option.bind_eq_some_iff.mpr ⟨d, hkeeps.depth hd, depthThrough_mono hkeeps hbehind⟩

/-- A block is finished by the frame that walks it. -/
theorem Moves.finished {f : Frame} {fs : List Frame} (h : Moves p f s fs t)
    (hb : t.progressOf b = .finished d) :
    s.progressOf b = .finished d ∨ ∃ stack, f.cursor = .running b [] stack := by
  have behind : ∀ {c stack}, f.cursor = .running c [] stack →
      (s.walked c).progressOf b = .finished d →
        s.progressOf b = .finished d ∨ ∃ stack, f.cursor = .running b [] stack := by
    intro c stack hcursor h
    rw [progressOf_walked] at h
    split at h
    · rename_i hcb
      exact .inr ⟨stack, hcb ▸ hcursor⟩
    · exact .inl h
  cases h with
  | close _ _ | pick _ _ | left _ | skip _ _ => exact .inl hb
  | exec _ _ hexec => exact .inl (by rwa [← (Sim.exec_yields _ _ _ hexec).1.progressOf])
  | replay _ _ _ _ hreplay => exact .inl (by rwa [← (Sim.replay_yields _ _ _ hreplay).1.progressOf])
  | call _ _ _ _ henter | store _ _ _ _ henter => exact .inl (henter.finished hb)
  | back hcursor _ _ _ _ | lost hcursor _ _ _ _ _ | leave hcursor _ _ _ => exact behind hcursor hb
  | resume hcursor _ _ _ _ _ hreached => exact behind hcursor (hreached.finished hb)
  | follow _ _ _ _ hreached => exact .inl (hreached.finished hb)

theorem Visited.walks_of_finished (hp : p.Whole) (hstart : start ∈ p.subroutines)
    (h : Visited p start x) (hb : x.state.progressOf b = .finished d) :
    ∃ n k, Walks p start n b k := by
  refine (h.induction (P := fun x => ∀ d, x.state.progressOf b = .finished d →
    ∃ n k, Walks p start n b k) hp hstart (fun x hbegins d hd => ?_)
    fun x y hx _ ih hnext d hd => ?_).2 d hb
  · obtain ⟨f, -, henter⟩ := hbegins
    have huntouched := (Sim.enter_ok henter).finished hd
    rw [progressOf_blank] at huntouched
    cases huntouched
  · obtain ⟨f, outer, s, fs, t, rfl, rfl, hmoves⟩ := hnext.moves
    rcases hmoves.finished hd with hold | ⟨stack, hcursor⟩
    · exact ih d hold
    · exact ⟨_, stack.length - f.height, f, outer, s, stack, hx, rfl, hcursor, by omega⟩

/-! ## Paths to returns -/

theorem leadsOn_iff : LeadsOn p s entry b ↔
    ∃ rest, (entry :: rest).IsChain (Onward p s) ∧ rest.getLastD entry = b := by
  constructor
  · intro h
    obtain ⟨rest, hchain, hlast⟩ := List.exists_isChain_cons_of_relationReflTransGen h
    rw [List.getLast_eq_getLastD] at hlast
    exact ⟨rest, hchain, hlast⟩
  · intro hpath
    obtain ⟨rest, hchain, rfl⟩ := hpath
    rw [← List.getLast_eq_getLastD (h := List.cons_ne_nil _ _)]
    exact List.relationReflTransGen_of_exists_isChain_cons rest hchain rfl

/-- In the end a path is left with the depth behind its last block. -/
theorem Consistent.depthAlong_eq {rest : List BlockId} (h : Consistent p [] a.state)
    (hentry : a.depthAt entry = some d) (hchain : (entry :: rest).IsChain (Onward p a.state)) :
    p.depthAlong a.state (entry :: rest) d = a.depthBehind p (rest.getLastD entry) := by
  have harrives := (h.agrees hentry hchain).arrives d hentry
  have hsplit : entry :: rest = (entry :: rest).dropLast ++ [rest.getLastD entry] := by
    rw [← List.getLast_eq_getLastD (h := List.cons_ne_nil _ _), List.dropLast_append_getLast]
  rw [hsplit, Program.depthAlong, List.foldlM_append, Analysis.depthBehind, ← harrives,
    Program.depthAlong]
  congr 1
  funext d
  simp

theorem deltaRight_iff {delta : Option Int} (h : Consistent p [] a.state)
    (hentry : a.depthAt entry = some d) : DeltaRight p a entry d delta ↔
      (delta = none ↔ ∀ b, LeadsOn p a.state entry b → ¬ p.Returns b) ∧
      ∀ k, delta = some k → ∀ b, LeadsOn p a.state entry b → p.Returns b →
        ∃ m : Nat, a.depthBehind p b = some m ∧ (m : Int) = d + k := by
  have hnone : (∀ rest, (entry :: rest).IsChain (Onward p a.state) →
      ¬ p.Returns (rest.getLastD entry)) ↔ ∀ b, LeadsOn p a.state entry b → ¬ p.Returns b := by
    constructor
    · intro hpaths b hb
      obtain ⟨rest, hchain, rfl⟩ := leadsOn_iff.mp hb
      exact hpaths rest hchain
    · intro hblocks rest hchain
      exact hblocks _ (leadsOn_iff.mpr ⟨rest, hchain, rfl⟩)
  constructor
  · intro hright
    refine ⟨hright.none_iff.trans hnone, fun k hk b hb hreturns => ?_⟩
    obtain ⟨rest, hchain, rfl⟩ := leadsOn_iff.mp hb
    rw [← h.depthAlong_eq hentry hchain]
    exact hright.depth k hk rest hchain hreturns
  · intro hblocks
    obtain ⟨hfound, hdepth⟩ := hblocks
    refine ⟨hfound.trans hnone.symm, fun k hk rest hchain hreturns => ?_⟩
    rw [h.depthAlong_eq hentry hchain]
    exact hdepth k hk _ (leadsOn_iff.mpr ⟨rest, hchain, rfl⟩) hreturns

/-! ## What a delta tells -/

/-- What the delta tells that a successful analysis from the start records of a subroutine. -/
structure DeltaTells (p : Program) (a : Analysis) (start sub : Subroutine) (entry : BlockId) (d : Nat)
    (delta : Option Int) : Prop where
  walked : ∀ k, delta = some k ↔ ∃ b, Walks p start sub.address b k ∧ p.Returns b
  found : ∀ k, delta = some k → ∃ rest, (entry :: rest).IsChain (Onward p a.state) ∧
    p.Returns (rest.getLastD entry) ∧
      ∃ m : Nat, p.depthAlong a.state (entry :: rest) d = some m ∧ (m : Int) = d + k
  /-- The delta is right exactly if the returns walked speak for all that the entry leads to, -/
  right_iff : DeltaRight p a entry d delta ↔ ∀ b, LeadsOn p a.state entry b → p.Returns b →
    ∃ c k, Walks p start sub.address c k ∧ p.Returns c ∧ a.depthBehind p b = a.depthBehind p c
  /-- and so if no other subroutine leads to one of these. -/
  right_of_own : (∀ b, LeadsOn p a.state entry b → p.Returns b → ∀ other ∈ p.subroutines,
    (a.state.effectOf? other.address).isSome → ∀ first, other.entry = some first →
      LeadsOn p a.state first b → other.address = sub.address) → DeltaRight p a entry d delta

/-- The subroutine leads to what it walked, with the depth it was walked with. -/
theorem Walks.own (hp : p.Whole) (hstart : start ∈ p.subroutines) (hsub : sub ∈ p.subroutines)
    (hanalyze : analyze p (some start) = .ok (a, events)) (hok : a.success = true)
    (hentry : sub.entry = some entry) (hd : a.depthAt entry = some d)
    (h : Walks p start sub.address b k) : LeadsOn p a.state entry b ∧
      ∃ m : Nat, a.depthBehind p b = some m ∧ (m : Int) = d + k := by
  obtain ⟨sub', hsub', haddress, -, entry', d', m, hentry', hd', hb, hm, hk⟩ :=
    h.placed hp hstart hanalyze hok
  rw [hp.entry_unique sub' hsub' sub hsub haddress, hentry] at hentry'
  cases hentry'
  rw [hd] at hd'
  cases hd'
  exact ⟨hb, m, hm, hk⟩

theorem deltaRight_iff_walked (hp : p.Whole) (hstart : start ∈ p.subroutines)
    (hsub : sub ∈ p.subroutines) (hanalyze : analyze p (some start) = .ok (a, events))
    (hok : a.success = true) (hend : Consistent p [] a.state) (hentry : sub.entry = some entry)
    (hd : a.depthAt entry = some d) (heffect : a.state.effectOf? sub.address = some effect) :
    DeltaRight p a entry d effect.delta ↔ ∀ b, LeadsOn p a.state entry b → p.Returns b →
      ∃ c k, Walks p start sub.address c k ∧ p.Returns c ∧
        a.depthBehind p b = a.depthBehind p c := by
  rw [deltaRight_iff hend hd]
  constructor
  · intro hright b hb hreturns
    obtain ⟨hnone, hdepth⟩ := hright
    cases hdelta : effect.delta with
    | none => exact absurd hreturns (hnone.mp hdelta b hb)
    | some k =>
      obtain ⟨c, hc, hc'⟩ := (delta_eq_some_iff hp hstart hanalyze hok heffect).mp hdelta
      obtain ⟨-, m, hm, hmk⟩ := hc.own hp hstart hsub hanalyze hok hentry hd
      obtain ⟨m', hm', hmk'⟩ := hdepth k hdelta b hb hreturns
      have heq : m' = m := by omega
      exact ⟨c, k, hc, hc', by rw [hm, hm', heq]⟩
  · intro hspeak
    refine ⟨⟨fun hdelta b hb hreturns => ?_, fun hnone => ?_⟩, fun k hk b hb hreturns => ?_⟩
    · obtain ⟨c, k, hc, hc', -⟩ := hspeak b hb hreturns
      have hk := (delta_eq_some_iff hp hstart hanalyze hok heffect).mpr ⟨c, hc, hc'⟩
      rw [hdelta] at hk
      cases hk
    · cases hdelta : effect.delta with
      | none => rfl
      | some k =>
        obtain ⟨c, hc, hc'⟩ := (delta_eq_some_iff hp hstart hanalyze hok heffect).mp hdelta
        exact absurd hc' (hnone c (hc.own hp hstart hsub hanalyze hok hentry hd).1)
    · obtain ⟨c, k', hc, hc', hbc⟩ := hspeak b hb hreturns
      have hk' := (delta_eq_some_iff hp hstart hanalyze hok heffect).mpr ⟨c, hc, hc'⟩
      rw [hk] at hk'
      cases hk'
      rw [hbc]
      exact (hc.own hp hstart hsub hanalyze hok hentry hd).2

theorem analyze_deltaTells (hp : p.Whole) (hstart : start ∈ p.subroutines)
    (hanalyze : analyze p (some start) = .ok (a, events)) (hok : a.success = true)
    (hsub : sub ∈ p.subroutines) (heffect : a.state.effectOf? sub.address = some effect) :
    ∃ entry d, sub.entry = some entry ∧ a.depthAt entry = some d ∧
      DeltaTells p a start sub entry d effect.delta := by
  obtain ⟨z, hz, hframes, hstate⟩ := exists_end_of_success hp hstart hanalyze hok
  have hend : Consistent p [] a.state := by
    rw [← hstate, ← hframes]
    exact (hz.orderly hp hstart).consistent
  obtain ⟨sub', haddress, hsub', entry, d, hentry, hd⟩ := hend.effects _ _ heffect
  rw [hp.entry_unique sub' hsub' sub hsub haddress] at hentry
  have hiff := deltaRight_iff_walked hp hstart hsub hanalyze hok hend hentry hd heffect
  refine ⟨entry, d, hentry, hd, fun k => delta_eq_some_iff hp hstart hanalyze hok heffect,
    fun k hk => ?_, hiff, fun hown => hiff.mpr fun b hb hreturns => ?_⟩
  · obtain ⟨b, hwalks, hreturns⟩ := (delta_eq_some_iff hp hstart hanalyze hok heffect).mp hk
    obtain ⟨hb, m, hm, hmk⟩ := hwalks.own hp hstart hsub hanalyze hok hentry hd
    obtain ⟨rest, hchain, rfl⟩ := leadsOn_iff.mp hb
    exact ⟨rest, hchain, hreturns, m, by rw [hend.depthAlong_eq hd hchain, hm], hmk⟩
  · -- what the entry leads to was walked, by a subroutine that leads there as well
    obtain ⟨rest, hchain, hlast⟩ := leadsOn_iff.mp hb
    have hmem : b ∈ entry :: rest := by
      rw [← hlast, ← List.getLast_eq_getLastD (h := List.cons_ne_nil _ _)]
      exact List.getLast_mem _
    obtain ⟨d', hfinished⟩ := (hend.agrees hd hchain).finished b hmem
    rw [← hstate] at hfinished
    obtain ⟨n, k, hwalks⟩ := hz.walks_of_finished hp hstart hfinished
    obtain ⟨other, hother, rfl, hsome, first, -, -, hfirst, -, hleads, -⟩ :=
      hwalks.placed hp hstart hanalyze hok
    rw [hown b hb hreturns other hother hsome first hfirst hleads] at hwalks
    exact ⟨b, k, hwalks, hreturns, rfl⟩

end

end ScriptFlow.Stack
