import ScriptFlow.Proofs.Stack.Failures
import ScriptFlow.Proofs.Graph.Links
import Mathlib.Algebra.BigOperators.Intervals
import Mathlib.Algebra.BigOperators.Ring.Finset
import Mathlib.Algebra.Order.BigOperators.Group.List

/-! # Every analysis ends

Each point has a cost, which bounds the steps that are still to come. A block that nothing has reached
yet pays for all that walking it can take; a block in hand pays for what is left of it. A call, and a
stored continuation, pays for entering its subroutine as long as nothing else has entered it. Every step
lowers the cost, and at the beginning it is no more than the steps an analysis is given. -/

namespace ScriptFlow.Stack

/-! ## Costs -/

/-- The subroutine is under way, or its effect is known. -/
def State.met (s : State) (a : Int) : Bool := s.active.contains a || (s.effectOf? a).isSome

/-- The steps it takes to pass a way into a subroutine; a subroutine not met before is entered, and its
frame closed. -/
def State.entryCost (s : State) : Option Subroutine → Nat
  | some sub => if s.met sub.address then 1 else 3
  | none => 1

section
variable (p : Program) (s : State)

def Program.instructionCost (i : LinkedInstruction) : Nat :=
  if i.opcode = .jsr then s.entryCost (p.callee? i) else 1

def Program.edgeCost (e : Edge) : Nat :=
  if e.kind = .state then s.entryCost (p.ownerOf? e.child) else 1

/-- The steps it takes to leave a block by the edges. -/
def Program.leavingCost (edges : List Edge) : Nat := (edges.map (p.edgeCost s)).sum + 1

/-- The steps it takes to walk the rest of a block. -/
def Program.runningCost (b : BlockId) (rest : List LinkedInstruction) : Nat :=
  (rest.map (p.instructionCost s)).sum + p.leavingCost s (p.graph.edges b) + 1

/-- The steps it takes to walk a block that is in line. -/
def Program.blockCost (b : BlockId) : Nat :=
  p.runningCost s b (p.graph.block b).instructions + 1

def Cursor.cost : Cursor → Nat
  | .idle => 0
  | .running b rest _ => p.runningCost s b rest
  | .leaving edges _ => p.leavingCost s edges

def Frame.cost (f : Frame) : Nat :=
  f.cursor.cost p s + (f.pending.map fun x => p.blockCost s x.1).sum + 1

/-- The most that a block can cost. -/
def Program.share (b : BlockId) : Nat :=
  3 * (1 + (p.graph.block b).instructions.length + (p.graph.edges b).length)

/-- What is set aside for a block: all that it can cost, until it is reached. -/
def Program.reserve (b : BlockId) : Nat := if s.progressOf b = .untouched then p.share b else 0

def Program.untouchedCost : Nat := ∑ b ∈ Finset.range p.graph.size, p.reserve s b

end

/-- The steps that can still come behind a point. -/
def Point.cost (p : Program) (x : Point) : Nat :=
  p.untouchedCost x.state + (x.frames.map (Frame.cost p x.state)).sum

section
variable {p : Program} {f g inner : Frame} {fs outer : List Frame} {s t : State}
variable {b c : BlockId} {stack : Cells} {sub : Subroutine} {x y : Point}

theorem met_congr (ha : t.active = s.active) (he : t.effects = s.effects) (a : Int) :
    t.met a = s.met a := by
  simp only [State.met, State.effectOf?, ha, he]

theorem entryCost_le (s : State) (o : Option Subroutine) : s.entryCost o ≤ 3 := by
  unfold State.entryCost
  split
  · split <;> decide
  · decide

theorem entryCost_pos (s : State) (o : Option Subroutine) : 0 < s.entryCost o := by
  unfold State.entryCost
  split
  · split <;> decide
  · decide

section
variable (hmet : ∀ a, s.met a = true → t.met a = true)
include hmet

theorem entryCost_anti (o : Option Subroutine) : t.entryCost o ≤ s.entryCost o := by
  cases o with
  | none => exact Nat.le_refl _
  | some sub =>
    simp only [State.entryCost]
    by_cases hs : s.met sub.address = true
    · rw [if_pos hs, if_pos (hmet _ hs)]
    · rw [if_neg hs]
      split <;> decide

theorem instructionCost_anti (i : LinkedInstruction) :
    p.instructionCost t i ≤ p.instructionCost s i := by
  unfold Program.instructionCost
  split
  · exact entryCost_anti hmet _
  · exact Nat.le_refl _

theorem edgeCost_anti (e : Edge) : p.edgeCost t e ≤ p.edgeCost s e := by
  unfold Program.edgeCost
  split
  · exact entryCost_anti hmet _
  · exact Nat.le_refl _

theorem leavingCost_anti (edges : List Edge) : p.leavingCost t edges ≤ p.leavingCost s edges :=
  Nat.add_le_add_right (List.sum_le_sum fun e _ => edgeCost_anti hmet e) 1

theorem instructionsCost_anti (is : List LinkedInstruction) :
    (is.map (p.instructionCost t)).sum ≤ (is.map (p.instructionCost s)).sum :=
  List.sum_le_sum fun i _ => instructionCost_anti hmet i

theorem runningCost_anti (b : BlockId) (rest : List LinkedInstruction) :
    p.runningCost t b rest ≤ p.runningCost s b rest :=
  Nat.add_le_add_right
    (Nat.add_le_add (instructionsCost_anti hmet rest) (leavingCost_anti hmet _)) 1

theorem pendingCost_anti (pending : List (BlockId × Cells)) :
    (pending.map fun x => p.blockCost t x.1).sum ≤ (pending.map fun x => p.blockCost s x.1).sum :=
  List.sum_le_sum fun _ _ => Nat.add_le_add_right (runningCost_anti hmet _ _) 1

theorem frameCost_anti (f : Frame) : f.cost p t ≤ f.cost p s := by
  refine Nat.add_le_add_right (Nat.add_le_add ?_ (pendingCost_anti hmet _)) 1
  cases f.cursor with
  | idle => exact Nat.le_refl _
  | running b rest stack => exact runningCost_anti hmet b rest
  | leaving edges stack => exact leavingCost_anti hmet edges

end

theorem frameCost_congr (ha : t.active = s.active) (he : t.effects = s.effects) (f : Frame) :
    f.cost p t = f.cost p s := by
  refine Nat.le_antisymm (frameCost_anti (fun a h => ?_) f) (frameCost_anti (fun a h => ?_) f)
  · rwa [met_congr ha he]
  · rwa [← met_congr ha he]

theorem blockCost_le_share (s : State) (b : BlockId) : p.blockCost s b ≤ p.share b := by
  have hinstructions : ((p.graph.block b).instructions.map (p.instructionCost s)).sum ≤
      (p.graph.block b).instructions.length * 3 := by
    refine (List.sum_le_card_nsmul _ 3 fun n hn => ?_).trans (by rw [List.length_map]; rfl)
    obtain ⟨i, -, rfl⟩ := List.mem_map.mp hn
    unfold Program.instructionCost
    split
    · exact entryCost_le s _
    · decide
  have hedges : ((p.graph.edges b).map (p.edgeCost s)).sum ≤ (p.graph.edges b).length * 3 := by
    refine (List.sum_le_card_nsmul _ 3 fun n hn => ?_).trans (by rw [List.length_map]; rfl)
    obtain ⟨e, -, rfl⟩ := List.mem_map.mp hn
    unfold Program.edgeCost
    split
    · exact entryCost_le s _
    · decide
  unfold Program.blockCost Program.runningCost Program.leavingCost Program.share
  omega

/-! ## Steps lower the cost -/

theorem untouchedCost_congr (h : ∀ b, t.progressOf b = .untouched ↔ s.progressOf b = .untouched) :
    p.untouchedCost t = p.untouchedCost s := by
  simp only [Program.untouchedCost, Program.reserve, h]

theorem untouchedCost_walked : p.untouchedCost (s.walked b) = p.untouchedCost s := by
  refine untouchedCost_congr fun c => ?_
  rw [progressOf_walked]
  split
  · cases s.progressOf c <;> simp [Progress.finish]
  · rfl

/-- A block that is reached no longer counts as untouched. -/
theorem untouchedCost_reached {n : Nat} (hsize : s.progress.size = p.graph.size)
    (hc : c < p.graph.size) (hnone : (s.progressOf c).depth? = none) :
    p.untouchedCost (s.setProgress c (.inProgress n)) + p.share c = p.untouchedCost s := by
  have huntouched : s.progressOf c = .untouched := by
    cases hq : s.progressOf c with
    | untouched => rfl
    | inProgress d | finished d =>
      rw [hq] at hnone
      cases hnone
  have hmem : c ∈ Finset.range p.graph.size := Finset.mem_range.mpr hc
  have hrest : ∀ b ∈ (Finset.range p.graph.size).erase c,
      p.reserve (s.setProgress c (.inProgress n)) b = p.reserve s b := by
    intro b hb
    have hne : ¬ (c = b ∧ b < s.progress.size) := fun h => Finset.ne_of_mem_erase hb h.1.symm
    rw [Program.reserve, progressOf_setProgress, if_neg hne, Program.reserve]
  have hspent : p.reserve (s.setProgress c (.inProgress n)) c = 0 := by
    have hin : c = c ∧ c < s.progress.size := ⟨rfl, hsize ▸ hc⟩
    rw [Program.reserve, progressOf_setProgress, if_pos hin]
    exact if_neg nofun
  have hheld : p.reserve s c = p.share c := if_pos huntouched
  unfold Program.untouchedCost
  rw [← Finset.add_sum_erase _ (p.reserve (s.setProgress c _)) hmem,
    ← Finset.add_sum_erase _ (p.reserve s) hmem, Finset.sum_congr rfl hrest, hspent, hheld,
    Nat.zero_add, Nat.add_comm]

theorem Reached.cost_le (h : Reached c stack f s g t) (hsize : s.progress.size = p.graph.size)
    (hc : c < p.graph.size) : p.untouchedCost t + g.cost p t ≤ p.untouchedCost s + f.cost p s := by
  cases h with
  | known _ => exact Nat.le_refl _
  | first hnone =>
    rw [← untouchedCost_reached (n := stack.length) hsize hc hnone,
      frameCost_congr (s := s) (t := s.setProgress c _) rfl rfl]
    have hshare := blockCost_le_share (p := p) s c
    simp only [Frame.cost, List.map_append, List.map_cons, List.map_nil, List.sum_append,
      List.sum_cons, List.sum_nil]
    omega

/-- A subroutine is entered at no more than the cost of its frame. -/
theorem Entered.cost_le (hwf : p.WellFormed) (hsub : sub ∈ p.subroutines)
    (hsize : s.progress.size = p.graph.size) (h : Entered sub stack s inner t) :
    p.untouchedCost t + inner.cost p t ≤ p.untouchedCost s + 1 := by
  obtain ⟨-, entry, hentry, hreached⟩ := h
  exact hreached.cost_le hsize (hwf.entry_lt sub hsub entry hentry)

theorem Entered.unmet (h : Entered sub stack s inner t) (heffect : s.effectOf? sub.address = none) :
    s.met sub.address = false ∧ t.met sub.address = true := by
  refine ⟨?_, ?_⟩
  · simp [State.met, heffect, h.1]
  · simp [State.met, h.active]

theorem Shift.met (h : Shift p f s fs t) (a : Int) (ha : s.met a = true) : t.met a = true := by
  cases h with
  | close _ =>
    simp only [State.met, Bool.or_eq_true, List.contains_iff_mem] at ha ⊢
    by_cases hf : f.subroutine.address = a
    · refine .inr ?_
      rw [← Option.not_isNone, Bool.not_eq_true', Bool.eq_false_iff, Ne, Option.isNone_iff_eq_none,
        effectOf?_eq_none]
      simp [State.closed, hf]
    · refine ha.imp (fun ha => (List.mem_erase_of_ne (Ne.symm hf)).mpr ha) fun ha => ?_
      obtain ⟨e, he⟩ := Option.isSome_iff_exists.mp ha
      rw [(keeps_closed s f).effect he]
      rfl
  | keep hsame _ _ _ => rwa [met_congr hsame.active hsame.effects]
  | finish _ _ _ => exact ha
  | pass _ _ _ _ _ hreached => rwa [met_congr hreached.active hreached.effects]
  | follow _ _ _ _ _ _ _ hreached => rwa [met_congr hreached.active hreached.effects]
  | enter _ _ henter =>
    simp only [State.met, Bool.or_eq_true, List.contains_iff_mem, henter.effectOf?] at ha ⊢
    refine ha.imp_left fun ha => ?_
    rw [henter.active]
    exact List.mem_cons_of_mem _ ha

/-- Entering a subroutine is paid for by the instruction or the edge that leads into it. -/
theorem Moves.enter_cost (h : Moves p f s [inner, f] t) (hshift : Entered sub stack s inner t)
    (heffect : s.effectOf? sub.address = none)
    (hway : (∃ b i rest, f.cursor = .running b (i :: rest) stack ∧ i.opcode = .jsr ∧
        p.callee? i = some sub) ∨
      ∃ e edges, f.cursor = .leaving (e :: edges) stack ∧ e.kind = .state ∧
        p.ownerOf? e.child = some sub) : f.cost p t + 2 ≤ f.cost p s := by
  obtain ⟨hs, ht⟩ := hshift.unmet heffect
  have hmet := h.shift.met
  have hpending := pendingCost_anti (p := p) hmet f.pending
  rcases hway with ⟨b, i, rest, hcursor, hop, hcallee⟩ | ⟨e, edges, hcursor, hkind, howner⟩
  · have hrest := runningCost_anti (p := p) hmet b rest
    simp only [Frame.cost, hcursor, Cursor.cost, Program.runningCost, List.map_cons, List.sum_cons,
      Program.instructionCost, if_pos hop, hcallee, State.entryCost, hs, ht] at hrest ⊢
    simp only [if_true, Bool.false_eq_true, if_false]
    omega
  · have hrest := leavingCost_anti (p := p) hmet edges
    simp only [Frame.cost, hcursor, Cursor.cost, Program.leavingCost, List.map_cons, List.sum_cons,
      Program.edgeCost, if_pos hkind, howner, State.entryCost, hs, ht] at hrest ⊢
    simp only [if_true, Bool.false_eq_true, if_false]
    omega

theorem Moves.cost_lt (hwf : p.WellFormed) (hi : Consistent p (f :: outer) s)
    (h : Moves p f s fs t) :
    p.untouchedCost t + (fs.map (Frame.cost p t)).sum < p.untouchedCost s + f.cost p s := by
  have hsize := hi.size
  have hwalked : ∀ b, (s.walked b).progress.size = p.graph.size := by
    intro b
    rw [(keeps_walked s b).size, hsize]
  -- the steps that record nothing are paid for by the cursor alone
  have quiet : ∀ {g : Frame} {t : State}, SameRecords s t → g.cost p s < f.cost p s →
      p.untouchedCost t + ([g].map (Frame.cost p t)).sum < p.untouchedCost s + f.cost p s := by
    intro g t hsame hlt
    have hsum : p.untouchedCost t = p.untouchedCost s :=
      untouchedCost_congr fun b => by rw [hsame.progressOf]
    rw [hsum, List.map_singleton, List.sum_singleton, frameCost_congr hsame.active hsame.effects]
    omega
  have stop : ∀ {b : BlockId} {g : Frame}, g.cost p s < f.cost p s →
      p.untouchedCost (s.walked b) + ([g].map (Frame.cost p (s.walked b))).sum <
        p.untouchedCost s + f.cost p s := by
    intro b g hlt
    rw [untouchedCost_walked, List.map_singleton, List.sum_singleton,
      frameCost_congr (s := s) (t := s.walked b) rfl rfl]
    omega
  have henters : ∀ {sub : Subroutine} {stack : Cells} {inner : Frame}, sub ∈ p.subroutines →
      Entered sub stack s inner t → f.cost p t + 2 ≤ f.cost p s →
      p.untouchedCost t + ([inner, f].map (Frame.cost p t)).sum < p.untouchedCost s + f.cost p s := by
    intro sub stack inner hsub henter hcost
    have hinner := henter.cost_le hwf hsub hsize
    simp only [List.map_cons, List.map_nil, List.sum_cons, List.sum_nil]
    omega
  have hmoves := h
  cases h with
  | close _ _ =>
    have hsame : p.untouchedCost (s.closed f) = p.untouchedCost s := untouchedCost_congr fun _ => Iff.rfl
    simp only [hsame, List.map_nil, List.sum_nil, Frame.cost]
    omega
  | pick hcursor hpending =>
    refine quiet (.refl s) ?_
    simp only [Frame.cost, hcursor, hpending, Cursor.cost, List.map_cons, List.sum_cons,
      Program.blockCost]
    omega
  | exec hcursor hop hexec =>
    refine quiet (Sim.exec_yields _ _ _ hexec).1 ?_
    simp only [Frame.cost, hcursor, Cursor.cost, Program.runningCost, List.map_cons, List.sum_cons,
      Program.instructionCost, if_neg hop]
    omega
  | @replay b i rest stack after callee effect t hcursor hop hcallee heffect hreplay =>
    refine quiet (Sim.replay_yields _ _ _ hreplay).1 ?_
    have hpos := entryCost_pos s (p.callee? i)
    simp only [Frame.cost, hcursor, Cursor.cost, Program.runningCost, List.map_cons, List.sum_cons,
      Program.instructionCost, if_pos hop]
    omega
  | call hcursor hop hcallee heffect henter =>
    exact henters (mem_of_callee? hcallee) henter
      (hmoves.enter_cost henter heffect (.inl ⟨_, _, _, hcursor, hop, hcallee⟩))
  | back hcursor _ _ _ _ | lost hcursor _ _ _ _ _ =>
    refine stop ?_
    simp only [Frame.cost, hcursor, Cursor.cost, Program.runningCost]
    omega
  | @resume b next stack last callee delta g t hcursor _ _ _ hnext _ hreached =>
    have hcost := (hreached.withCursor .idle).cost_le (hwalked b) (lt_of_holder? hnext)
    rw [untouchedCost_walked, frameCost_congr (s := s) (t := s.walked b) rfl rfl] at hcost
    rw [List.map_singleton, List.sum_singleton]
    refine Nat.lt_of_le_of_lt hcost ?_
    simp only [Frame.cost, hcursor, Cursor.cost, Program.runningCost]
    omega
  | leave hcursor _ _ _ =>
    refine stop ?_
    simp only [Frame.cost, hcursor, Cursor.cost, Program.runningCost]
    omega
  | left hcursor =>
    refine quiet (.refl s) ?_
    simp only [Frame.cost, hcursor, Cursor.cost, Program.leavingCost]
    omega
  | @skip e edges stack hcursor _ =>
    refine quiet (.refl s) ?_
    have hpos : 0 < p.edgeCost s e := by
      unfold Program.edgeCost
      split
      · exact entryCost_pos s _
      · decide
    simp only [Frame.cost, hcursor, Cursor.cost, Program.leavingCost, List.map_cons, List.sum_cons]
    omega
  | store hcursor hkind howner heffect henter =>
    exact henters (mem_of_ownerOf? howner) henter
      (hmoves.enter_cost henter heffect (.inr ⟨_, _, hcursor, hkind, howner⟩))
  | @follow e edges stack g t hcursor _ _ hstate hreached =>
    have hchild := (hi.sound f List.mem_cons_self).leaving _ _ hcursor e List.mem_cons_self
    have hcost := hreached.cost_le hsize hchild
    rw [List.map_singleton, List.sum_singleton]
    refine Nat.lt_of_le_of_lt hcost ?_
    simp only [Frame.cost, hcursor, Cursor.cost, Program.leavingCost, List.map_cons, List.sum_cons,
      Program.edgeCost, if_neg hstate]
    omega

theorem Orderly.cost_lt (hp : p.Whole) (hi : Orderly p x) (h : Next p x y) :
    y.cost p < x.cost p := by
  obtain ⟨f, outer, s, fs, t, rfl, rfl, hmoves⟩ := h.moves
  have hlt : p.untouchedCost t + (fs.map (Frame.cost p t)).sum < p.untouchedCost s + f.cost p s :=
    hmoves.cost_lt hp.toWellFormed hi.consistent
  have houter : (outer.map (Frame.cost p t)).sum ≤ (outer.map (Frame.cost p s)).sum :=
    List.sum_le_sum fun g _ => frameCost_anti hmoves.shift.met g
  simp only [Point.cost, List.map_append, List.sum_append, List.map_cons, List.sum_cons]
  omega

/-! ## The cost at the beginning -/

theorem Graph.total_eq_sum (g : Graph) (count : Block → Nat) :
    g.total count = ∑ b ∈ Finset.range g.size, count (g.block b) := by
  have hblocks : g.blocks.toList = (List.range g.size).map g.block := by
    refine List.ext_getElem (by simp [Graph.size]) fun b hb _ => ?_
    simp only [List.getElem_map, List.getElem_range, Array.getElem_toList]
    exact Graph.getElem_blocks hb
  have hsum : ∀ bs : List Block, bs.foldr (fun b n => count b + n) 0 = (bs.map count).sum := by
    intro bs
    induction bs with
    | nil => rfl
    | cons b bs ih => simp [ih]
  rw [Graph.total, hsum, hblocks, List.map_map]
  rfl

theorem untouchedCost_blank : p.untouchedCost p.blank + 5 = p.steps := by
  have hreserve : ∀ b, p.reserve p.blank b = p.share b := fun b => if_pos (progressOf_blank p b)
  simp only [Program.untouchedCost, hreserve, Program.share, Program.steps, Graph.edgeCount,
    Graph.instructionCount, Graph.total_eq_sum, ← Finset.mul_sum, Finset.sum_add_distrib,
    Finset.sum_const, Finset.card_range]
  simp [Graph.edges]

theorem Begins.cost_le (hwf : p.WellFormed) (hsub : sub ∈ p.subroutines) (h : Begins p sub x) :
    x.cost p + 4 ≤ p.steps := by
  obtain ⟨f, hframes, henter⟩ := h
  have hcost := (Sim.enter_ok henter).cost_le hwf hsub (by simp [Program.blank])
  have hblank := untouchedCost_blank (p := p)
  simp only [Point.cost, hframes, List.map_singleton, List.sum_singleton]
  omega

/-! ## Runs by their points -/

namespace Sim

theorem bind_of_ok {α β : Type} {m : Sim α} {k : α → Sim β} {a : α} (h : m s = .ok a t) :
    (m >>= k) s = k a t := by
  show EStateM.bind m k s = _
  rw [EStateM.bind, h]

theorem bind_of_error {α β : Type} {m : Sim α} {k : α → Sim β} {halt : Halt}
    (h : m s = .error halt t) : (m >>= k) s = .error halt t := by
  show EStateM.bind m k s = _
  rw [EStateM.bind, h]

theorem run_next {fuel : Nat} (h : Next p x y) :
    run p (fuel + 1) x.frames x.state = run p fuel y.frames y.state := by
  obtain ⟨f, outer, hx, hstep⟩ := h
  rw [hx]
  exact bind_of_ok hstep

theorem run_of_error {fuel : Nat} {halt : Halt} (h : step p f outer s = .error halt t) :
    run p (fuel + 1) (f :: outer) s = .error halt t :=
  bind_of_error h

/-- Entering a subroutine is the first thing an analysis does, and it succeeds. -/
theorem enter_blank {entry : BlockId} (hentry : sub.entry = some entry) :
    ∃ f s, enter p sub.address sub [] p.blank = .ok f s := by
  have hdepth : ∀ s : State, s.progress = p.blank.progress → (s.progressOf entry).depth? = none := by
    intro s hs
    rw [State.progressOf, hs]
    exact congrArg Progress.depth? (progressOf_blank p entry)
  refine ⟨{ subroutine := sub, height := 0, pending := [(entry, [])] },
    ({ p.blank with active := [sub.address] } : State).setProgress entry (.inProgress 0), ?_⟩
  have hactive : p.blank.active.contains sub.address = false := rfl
  rw [enter, get_bind_eq_ok, if_neg (by rw [hactive]; exact Bool.false_ne_true)]
  simp only [hentry]
  rw [modify_bind_eq_ok, enqueue, get_bind_eq_ok, hdepth]
  · rfl
  · rfl

end Sim

/-- How the steps behind a point end: no frame is left, or a step fails. -/
inductive Concludes (p : Program) (x : Point) : EStateM.Result Halt State Unit → Prop
  | done {y : Point} : Relation.ReflTransGen (Next p) x y → y.frames = [] →
      Concludes p x (.ok () y.state)
  | failed {f : Frame} {outer : List Frame} {s t : State} {halt : Halt} :
      Relation.ReflTransGen (Next p) x ⟨f :: outer, s⟩ → Sim.step p f outer s = .error halt t →
      Concludes p x (.error halt t)

theorem Concludes.head {r : EStateM.Result Halt State Unit} (hnext : Next p x y)
    (h : Concludes p y r) : Concludes p x r := by
  cases h with
  | done hsteps hframes => exact .done (.head hnext hsteps) hframes
  | failed hsteps hstep => exact .failed (.head hnext hsteps) hstep

/-- With as many steps as the point costs a run comes to its end. -/
theorem Orderly.run_concludes {fuel : Nat} (hp : p.Whole) (hi : Orderly p x)
    (hfuel : x.cost p ≤ fuel) : Concludes p x (Sim.run p fuel x.frames x.state) := by
  induction fuel generalizing x with
  | zero =>
    obtain ⟨frames, s⟩ := x
    cases frames with
    | nil => exact .done .refl rfl
    | cons f outer =>
      simp only [Point.cost, Frame.cost, List.map_cons, List.sum_cons] at hfuel
      omega
  | succ fuel ih =>
    obtain ⟨frames, s⟩ := x
    cases frames with
    | nil => exact .done .refl rfl
    | cons f outer =>
      cases hstep : Sim.step p f outer s with
      | ok frames t =>
        have hnext : Next p ⟨f :: outer, s⟩ ⟨frames, t⟩ := ⟨f, outer, rfl, hstep⟩
        have hlt := hi.cost_lt hp hnext
        rw [Sim.run_next hnext]
        exact (ih (hi.next hp hnext) (by omega)).head hnext
      | error halt t =>
        rw [Sim.run_of_error hstep]
        exact .failed .refl hstep

/-- A run goes through every point behind its beginning. -/
theorem Orderly.run_visits {fuel : Nat} (hp : p.Whole) (hi : Orderly p x)
    (hsteps : Relation.ReflTransGen (Next p) x y) (hfuel : x.cost p ≤ fuel) :
    ∃ left, y.cost p ≤ left ∧
      Sim.run p fuel x.frames x.state = Sim.run p left y.frames y.state := by
  induction hsteps using Relation.ReflTransGen.head_induction_on generalizing fuel with
  | refl => exact ⟨fuel, hfuel, rfl⟩
  | head hnext _ ih =>
    have hlt := hi.cost_lt hp hnext
    obtain ⟨fuel, rfl⟩ : ∃ n, fuel = n + 1 := ⟨fuel - 1, by omega⟩
    rw [Sim.run_next hnext]
    exact ih (hi.next hp hnext) (by omega)

/-- The answer an analysis makes of its run. -/
def Analysis.ofRun : EStateM.Result Halt State Unit → Except Halt (Analysis × List Event)
  | .ok _ s => .ok (⟨none, s⟩, [.stackAnalyzed s.space.size s.globals.length])
  | .error (.fault f) s => .ok (⟨some f.message, s⟩, [.stackFailed f.message])
  | .error halt _ => .error halt

/-- An analysis is a run from where it begins. -/
theorem analyze_eq_ofRun {entry : BlockId} (hentry : sub.entry = some entry) :
    ∃ first, Begins p sub first ∧ analyze p (some sub) =
      Analysis.ofRun (Sim.run p p.steps first.frames first.state) := by
  obtain ⟨f, s, henter⟩ := Sim.enter_blank (p := p) hentry
  refine ⟨⟨[f], s⟩, ⟨f, rfl, henter⟩, ?_⟩
  have hstart : (some sub).filter (fun s => s.entry.isSome) = some sub := by
    simp [Option.filter, hentry]
  have hrun : (Sim.enter p sub.address sub [] >>= fun f => Sim.run p p.steps [f]) p.blank =
      Sim.run p p.steps [f] s := Sim.bind_of_ok henter
  simp only [analyze, hstart]
  show (match (Sim.enter p sub.address sub [] >>= fun f => Sim.run p p.steps [f]) p.blank with
    | .ok _ s => _
    | .error (.fault f) s => _
    | .error halt _ => _) = _
  rw [hrun]
  rfl

theorem Begins.unique (hx : Begins p sub x) (hy : Begins p sub y) : x = y := by
  obtain ⟨f, hxf, hxs⟩ := hx
  obtain ⟨g, hyg, hys⟩ := hy
  obtain ⟨frames, s⟩ := x
  obtain ⟨frames', t⟩ := y
  rw [hxs] at hys
  cases hxf
  cases hyg
  cases hys
  rfl

/-- Behind every point it comes to, an analysis ends with its answer. -/
theorem Visited.concludes (hp : p.Whole) (hsub : sub ∈ p.subroutines) (h : Visited p sub x) :
    ∃ r, Concludes p x r ∧ analyze p (some sub) = Analysis.ofRun r := by
  obtain ⟨entry, hentry⟩ := hp.entries sub hsub
  obtain ⟨first, hfirst, hanalyze⟩ := analyze_eq_ofRun (p := p) hentry
  have hi := h.orderly hp hsub
  obtain ⟨first', hfirst', hsteps⟩ := h
  cases hfirst.unique hfirst'
  have hcost := hfirst.cost_le hp.toWellFormed hsub
  obtain ⟨left, hleft, hrun⟩ :=
    (hfirst.orderly hp hsub).run_visits hp hsteps (Nat.le_of_add_right_le hcost)
  exact ⟨_, hi.run_concludes hp hleft, by rw [hanalyze, hrun]⟩

/-! ## Traces -/

/-- The points that an analysis comes to one after the other, from the first on. -/
structure Trace (p : Program) (sub : Subroutine) (trace : List Point) : Prop where
  begins : ∀ x, trace.head? = some x → Begins p sub x
  steps : trace.IsChain (Next p)

theorem Orderly.chain_length_le {rest : List Point} (hp : p.Whole) (hi : Orderly p x)
    (h : (x :: rest).IsChain (Next p)) : rest.length ≤ x.cost p := by
  induction rest generalizing x with
  | nil => exact Nat.zero_le _
  | cons y rest ih =>
    obtain ⟨hnext, hrest⟩ := List.isChain_cons_cons.mp h
    have hlt := hi.cost_lt hp hnext
    have hle := ih (hi.next hp hnext) hrest
    rw [List.length_cons]
    omega

/-- No analysis takes more steps than it is given. -/
theorem Trace.length_le {trace : List Point} (hp : p.Whole) (hsub : sub ∈ p.subroutines)
    (h : Trace p sub trace) : trace.length ≤ p.steps := by
  cases trace with
  | nil => exact Nat.zero_le _
  | cons x rest =>
    have hbegins := h.begins x rfl
    have hle := (hbegins.orderly hp hsub).chain_length_le hp h.steps
    have hcost := hbegins.cost_le hp.toWellFormed hsub
    rw [List.length_cons]
    omega

/-! ## The points in a row -/

theorem Next.unique (hy : Next p x y) (hz : Next p x z) : y = z := by
  obtain ⟨f, outer, hx, hstep⟩ := hy
  obtain ⟨f', outer', hx', hstep'⟩ := hz
  obtain ⟨frames, s⟩ := y
  obtain ⟨frames', s'⟩ := z
  rw [hx] at hx'
  cases hx'
  rw [hstep] at hstep'
  cases hstep'
  rfl

/-- Of two points that an analysis comes to, it comes to one from the other. -/
theorem Visited.total (hx : Visited p start x) (hy : Visited p start y) :
    Relation.ReflTransGen (Next p) x y ∨ Relation.ReflTransGen (Next p) y x := by
  obtain ⟨first, hfirst, hsteps⟩ := hx
  obtain ⟨first', hfirst', hsteps'⟩ := hy
  cases hfirst.unique hfirst'
  exact Relation.ReflTransGen.total_of_right_unique (fun _ _ _ => Next.unique) hsteps hsteps'

/-- The point behind a point, if the step does not fail. -/
def Point.next? (p : Program) (x : Point) : Option Point :=
  match x.frames with
  | [] => none
  | f :: outer =>
    match Sim.step p f outer x.state with
    | .ok frames s => some ⟨frames, s⟩
    | .error _ _ => none

theorem Point.next?_eq_some : x.next? p = some y ↔ Next p x y := by
  unfold Point.next? Next
  obtain ⟨frames, s⟩ := x
  obtain ⟨frames', t⟩ := y
  cases frames with
  | nil => simp
  | cons f outer =>
    dsimp only
    constructor
    · intro h
      split at h
      · cases h
        exact ⟨f, outer, rfl, by assumption⟩
      · cases h
    · intro h
      obtain ⟨f', outer', hx, hstep⟩ := h
      cases hx
      rw [hstep]

def Program.pointsFrom (p : Program) : Nat → Point → List Point
  | 0, _ => []
  | n + 1, x => x :: match x.next? p with
    | some y => p.pointsFrom n y
    | none => []

/-- The points of the analysis from a subroutine, one after the other. -/
def Program.trail (p : Program) (sub : Subroutine) : List Point :=
  match Sim.enter p sub.address sub [] p.blank with
  | .ok f s => p.pointsFrom p.steps ⟨[f], s⟩
  | .error _ _ => []

theorem steps_of_mem_pointsFrom {n : Nat} (h : y ∈ p.pointsFrom n x) :
    Relation.ReflTransGen (Next p) x y := by
  induction n generalizing x with
  | zero => cases h
  | succ n ih =>
    rcases List.mem_cons.mp h with rfl | h
    · exact .refl
    · split at h
      · rename_i z hz
        exact .head (Point.next?_eq_some.mp hz) (ih h)
      · cases h

theorem Orderly.mem_pointsFrom {n : Nat} (hp : p.Whole) (hi : Orderly p x) (hn : x.cost p < n)
    (h : Relation.ReflTransGen (Next p) x y) : y ∈ p.pointsFrom n x := by
  induction n generalizing x with
  | zero => omega
  | succ n ih =>
    rcases Relation.ReflTransGen.cases_head h with rfl | ⟨z, hnext, hrest⟩
    · exact List.mem_cons_self
    · refine List.mem_cons_of_mem _ ?_
      have hlt := hi.cost_lt hp hnext
      rw [Point.next?_eq_some.mpr hnext]
      exact ih (hi.next hp hnext) (by omega) hrest

theorem mem_trail (hp : p.Whole) (hsub : sub ∈ p.subroutines) :
    x ∈ p.trail sub ↔ Visited p sub x := by
  unfold Program.trail
  constructor
  · intro h
    split at h
    · rename_i f s henter
      exact ⟨_, ⟨f, rfl, henter⟩, steps_of_mem_pointsFrom h⟩
    · cases h
  · intro h
    obtain ⟨⟨frames, s⟩, hbegins, hsteps⟩ := h
    have hcost := hbegins.cost_le hp.toWellFormed hsub
    have hi := hbegins.orderly hp hsub
    obtain ⟨f, hframes, henter⟩ := hbegins
    cases hframes
    rw [henter]
    refine hi.mem_pointsFrom hp ?_ hsteps
    show Point.cost p ⟨[f], s⟩ < p.steps
    omega

end

end ScriptFlow.Stack
