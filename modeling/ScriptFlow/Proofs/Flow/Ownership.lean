import ScriptFlow.Proofs.Flow.Edges
import ScriptFlow.Proofs.Flow.Stages

/-! # Who owns code

A start is given its owner when it is found, and keeps it. So what a subroutine owns was come to from
its root through code it owned already, however the walks of several subroutines alternate and
whatever splits the code later. Code without an owner is found only after every walk from a root is
over, and by then what has an owner leads to nothing else. -/

namespace ScriptFlow

/-- Static flow between blocks: the last instruction of one leads to the start of the other. -/
def Graph.Flows (g : Graph) (next : LinkedInstruction → List Int) (b c : BlockId) : Prop :=
  ∃ i, (g.block b).last? = some i ∧ c < g.size ∧ g.addressOf c ∈ next i

/-- Static flow that stays in what one subroutine owns. -/
def Graph.FlowsWithin (g : Graph) (a : Int) (b c : BlockId) : Prop :=
  g.Flows LinkedInstruction.inside b c ∧ (g.block b).owner = some a ∧ (g.block c).owner = some a

namespace Flow

/-- Calls and stored continuations lead to roots. -/
def Layout.CrossesToRoots (l : Layout) : Prop :=
  ∀ i ∈ l.code, i.opcode = .jsr ∨ i.opcode = .storestate → ∀ a, i.target = some a → a ∈ l.roots

section
variable {l : Layout} {p q : Nat} {a : Int}

theorem Layout.root?_eq_some : l.root? p = some a ↔ ∃ i, l.code[p]? = some i ∧ i.address = a ∧
    a ∈ l.roots := by
  unfold Layout.root?
  cases l.code[p]? with
  | none => simp
  | some i =>
    simp only [Option.map_some, Option.filter, List.contains_iff_mem]
    split
    · simp only [Option.some.injEq, exists_eq_left']
      constructor
      · intro ha
        exact ⟨ha, ha ▸ by assumption⟩
      · exact fun h => h.1
    · simp only [reduceCtorEq, Option.some.injEq, exists_eq_left', false_iff, not_and]
      intro ha
      exact ha ▸ by assumption

theorem Layout.root?_position (hl : Linked l.code) (h : l.root? p = some a) :
    a ∈ l.roots ∧ l.position? a = some p := by
  obtain ⟨i, hi, rfl, ha⟩ := Layout.root?_eq_some.mp h
  exact ⟨ha, Layout.position?_eq hl hi⟩

/-- Control leaves a subroutine through its roots only. -/
theorem Layout.Flows.inside (hc : l.CrossesToRoots) (h : l.Flows LinkedInstruction.onward p q)
    (hroot : l.root? q = none) : l.Flows LinkedInstruction.inside p q := by
  obtain ⟨i, j, hi, hj, hmem⟩ := h
  refine ⟨i, j, hi, hj, ?_⟩
  rcases List.mem_append.mp hmem with hmem | hmem
  · split at hmem
    · rename_i hb
      by_cases hop : i.opcode = .jsr ∨ i.opcode = .storestate
      · have hr := hc i (List.mem_of_getElem? hi) hop _ (Option.mem_toList.mp hmem)
        have := Layout.root?_eq_some.mpr ⟨j, hj, rfl, hr⟩
        rw [hroot] at this
        cases this
      · refine List.mem_append_left _ ?_
        rw [if_pos]
        · exact hmem
        · revert hb hop
          cases i.opcode <;> simp [Opcode.branches]
    · cases hmem
  · exact List.mem_append_right _ hmem

end

/-! ## Code comes from its root -/

/-- Control stays in a subroutine: it goes on from walked code that the subroutine owns. -/
def Stays (l : Layout) (d : Discovery) (a : Int) (p q : Nat) : Prop :=
  l.Flows LinkedInstruction.inside p q ∧ p ∈ d.walked ∧ d.ownerOf p = some a

/-- A position is come to from a root without leaving what the root owns. -/
def ComesFrom (l : Layout) (d : Discovery) (a : Int) (q : Nat) : Prop :=
  a ∈ l.roots ∧ ∃ p, l.position? a = some p ∧ Relation.ReflTransGen (Stays l d a) p q

/-- Every start is come to from the root that owns it. -/
def Rooted (l : Layout) (d : Discovery) : Prop :=
  ∀ s ∈ d.starts, ∀ a, s.owner = some a → ComesFrom l d a s.position

section
variable {l : Layout} {st st' : Stage} {busy : Option Nat} {d : Discovery} {p q r w : Nat} {a : Int}
variable {owner : Option Int} {s : Start}

theorem Extends.comesFrom (he : Extends st st') (h : ComesFrom l st.found a q) :
    ComesFrom l st'.found a q := by
  obtain ⟨ha, p, hp, hpath⟩ := h
  refine ⟨ha, p, hp, Relation.ReflTransGen.mono (fun x y hxy => ?_) _ _ hpath⟩
  obtain ⟨hflow, hx, hown⟩ := hxy
  exact ⟨hflow, he.walked.subset hx, (he.owner (.inl hx)).trans hown⟩

theorem Inv.startOf?_between (h : Inv l busy d) (hs : startOf? d.starts w = some s)
    (hr : s.position ≤ r) (hrw : r ≤ w) : startOf? d.starts r = some s := by
  obtain ⟨hmem, -, hmax⟩ := startOf?_spec hs
  exact startOf?_eq h.heads_nodup hmem hr (fun t ht htr => hmax t ht (by omega))

/-- Between the start of a block and a walked position of it control falls through. -/
theorem Inv.stays (hl : Linked l.code) (h : Inv l busy d) (hw : w ∈ d.walked)
    (hs : startOf? d.starts w = some s) (ha : s.owner = some a) :
    Relation.ReflTransGen (Stays l d a) s.position w := by
  obtain ⟨hmem, hle, hmax⟩ := startOf?_spec hs
  have hfree : ∀ x, s.position < x → x ≤ w → x ∉ d.heads := by
    intro x hx hxw hm
    obtain ⟨t, ht, rfl⟩ := List.mem_map.mp hm
    have := hmax t ht hxw
    omega
  obtain ⟨-, hback⟩ := h.walked_back hw hle hfree
  have hlt := h.walked_lt hw
  have upTo : ∀ n, s.position + n ≤ w →
      Relation.ReflTransGen (Stays l d a) s.position (s.position + n) := by
    intro n
    induction n with
    | zero => exact fun _ => .refl
    | succ n ih =>
      intro hn
      obtain ⟨hx, hends⟩ := hback (s.position + n) (by omega) (by omega)
      refine (ih (by omega)).tail ⟨Layout.flows_succ hl hends (by omega), hx, ?_⟩
      rw [Discovery.ownerOf, h.startOf?_between hs (by omega) (by omega)]
      exact ha
  have := upTo (w - s.position) (by omega)
  rwa [show s.position + (w - s.position) = w by omega] at this

theorem Rooted.walked (hl : Linked l.code) (hi : Inv l busy d) (h : Rooted l d) (hw : w ∈ d.walked)
    (ha : d.ownerOf w = some a) : ComesFrom l d a w := by
  obtain ⟨s, hs, hws⟩ := hi.exists_startOf? hw
  rw [Discovery.ownerOf, hws] at ha
  obtain ⟨hroot, p, hp, hpath⟩ := h s hs a ha
  exact ⟨hroot, p, hp, hpath.trans (hi.stays hl hw hws ha)⟩

/-- A new start is come to from its owner if a start in unwalked code is. -/
theorem Rooted.request (hl : Linked l.code) (hs : Sane l ⟨busy, d⟩) (h : Rooted l d)
    (hnew : ∀ a, owner = some a → l.root? p = none → ComesFrom l d a p)
    (he : Extends ⟨busy, d⟩ ⟨busy, d.request l p owner⟩) : Rooted l (d.request l p owner) := by
  intro s hmem a ha
  refine he.comesFrom ?_
  obtain ⟨-, hreq⟩ | ⟨-, hw, hreq⟩ | ⟨-, -, hreq⟩ := request_cases l p owner d <;>
    rw [hreq] at hmem
  · exact h s hmem a ha
  · rcases List.mem_append.mp hmem with hmem | hmem
    · exact h s hmem a ha
    · cases List.mem_singleton.mp hmem
      exact h.walked hl hs.inv hw ha
  · rcases List.mem_append.mp hmem with hmem | hmem
    · exact h s hmem a ha
    · cases List.mem_singleton.mp hmem
      cases hroot : l.root? p with
      | none =>
        simp only [hroot, Option.none_or] at ha
        exact hnew a ha hroot
      | some b =>
        simp only [hroot, Option.some_or, Option.some.injEq] at ha
        subst ha
        obtain ⟨hb, hpos⟩ := Layout.root?_position hl hroot
        exact ⟨hb, p, hpos, .refl⟩

theorem Acts.rooted (hl : Linked l.code) (hc : l.CrossesToRoots) (hs : Sane l st)
    (h : Rooted l st.found) (hact : Acts l st st') : Rooted l st'.found := by
  have he := hact.extends hs
  cases hact with
  | @root d a p ha hp _ =>
    refine h.request hl hs (fun b _ hroot => ?_) he
    obtain ⟨i, hi, rfl⟩ := Layout.position?_some hp
    rw [Layout.root?_eq_some.mpr ⟨i, hi, rfl, ha⟩] at hroot
    cases hroot
  | orphan => exact h.request hl hs nofun he
  | @follow d q t hf =>
    refine h.request hl hs (fun a ha hroot => ?_) he
    have hq := hs.busy_walked rfl
    obtain ⟨hmem, p, hp, hpath⟩ := h.walked hl hs.inv hq ha
    exact ⟨hmem, p, hp, hpath.tail ⟨hf.inside hc hroot, hq, ha⟩⟩
  | claim | jump | call | report | done =>
    exact fun s hs' a ha => he.comesFrom (h s hs' a ha)

/-! ## Code without an owner -/

/-- From the first start without an owner on, roots are known, nothing with an owner is left to do,
and what has one leads only to more of it. -/
structure Sealed (l : Layout) (st : Stage) : Prop where
  roots : ∀ a ∈ l.roots, ∃ p, l.position? a = some p ∧ p ∈ st.found.heads
  pending : ∀ p ∈ st.found.pending, st.found.ownerOf p = none
  busy : ∀ q, st.busy = some q → st.found.ownerOf q = none
  closed : ∀ {p q}, p ∈ st.found.walked → st.found.ownerOf p ≠ none →
    l.Flows LinkedInstruction.onward p q → q ∈ st.found.walked ∧ st.found.ownerOf q ≠ none

/-- Every start has an owner, or what has one is sealed. -/
def Claimed (l : Layout) (st : Stage) : Prop :=
  (∀ s ∈ st.found.starts, s.owner ≠ none) ∨ Sealed l st

theorem Inv.ownerOf_ne_none (h : Inv l busy d) (hall : ∀ s ∈ d.starts, s.owner ≠ none)
    (hw : w ∈ d.walked) : d.ownerOf w ≠ none := by
  obtain ⟨s, hs, hws⟩ := h.exists_startOf? hw
  rw [Discovery.ownerOf, hws]
  exact hall s hs

/-- When the walks from roots are over, what has an owner is sealed. -/
theorem Sane.sealed (h : Sane l ⟨none, d⟩) (hidle : d.pending = [])
    (hall : ∀ s ∈ d.starts, s.owner ≠ none)
    (hroots : ∀ a ∈ l.roots, ∃ p, l.position? a = some p ∧ p ∈ d.heads) : Sealed l ⟨none, d⟩ where
  roots := hroots
  pending p hp := by
    rw [show (Stage.mk none d).found.pending = [] from hidle] at hp
    cases hp
  busy := nofun
  closed {p q} hp _ hf := by
    have hq : q ∈ d.walked := by
      rcases h.followed hp (by simp) hf with hq | hq
      · rcases h.inv.covered hq with hq | hq
        · rw [show (Stage.mk none d).found.pending = [] from hidle] at hq
          cases hq
        · exact hq
      · exact hq
    exact ⟨hq, h.inv.ownerOf_ne_none hall hq⟩

/-- Letting a block start for code without an owner gives none to anything. -/
theorem Sealed.request (hl : Linked l.code) (hs : Sane l ⟨busy, d⟩) (h : Sealed l ⟨busy, d⟩)
    (he : Extends ⟨busy, d⟩ ⟨busy, d.request l p none⟩) :
    Sealed l ⟨busy, d.request l p none⟩ where
  roots a ha := by
    obtain ⟨r, hr, hhead⟩ := h.roots a ha
    exact ⟨r, hr, he.heads hhead⟩
  pending r hr := by
    by_cases hold : r ∈ d.pending
    · exact (he.owner (.inr (hs.inv.pending_head hold).1)).trans (h.pending r hold)
    · obtain ⟨-, hreq⟩ | ⟨-, -, hreq⟩ | ⟨hh, -, hreq⟩ := request_cases l p none d <;>
        simp only [hreq] at hr ⊢
      · exact absurd hr hold
      · exact absurd hr hold
      · obtain rfl : r = p := by simpa [hold] using hr
        have hroot : l.root? r = none := by
          by_contra hn
          obtain ⟨a, ha⟩ := Option.ne_none_iff_exists'.mp hn
          obtain ⟨hmem, hpos⟩ := Layout.root?_position hl ha
          obtain ⟨r', hr', hhead⟩ := h.roots a hmem
          rw [hpos] at hr'
          exact hh (Option.some.inj hr' ▸ hhead)
        have hnd : (d.heads ++ [r]).Nodup := by
          rw [List.nodup_append]
          refine ⟨hs.inv.heads_nodup, List.nodup_singleton _, fun x hx y hy hxy => ?_⟩
          exact hh (List.mem_singleton.mp hy ▸ hxy ▸ hx)
        refine (ownerOf_head (s := ⟨r, (l.root? r).or none⟩) ?_ (by simp)).trans (by rw [hroot]; rfl)
        rwa [Discovery.heads, heads_append]
  busy q hq := (he.owner (.inl (hs.busy_walked hq))).trans (h.busy q hq)
  closed {r q} hr hown hf := by
    have hr' : r ∈ d.walked := by rwa [request_walked] at hr
    rw [he.owner (.inl hr')] at hown
    obtain ⟨hq, hown'⟩ := h.closed hr' hown hf
    refine ⟨he.walked.subset hq, ?_⟩
    rw [he.owner (.inl hq)]
    exact hown'

/-- A request for code with an owner leaves no start without one. -/
theorem Inv.request_owned (h : Inv l busy d) (hall : ∀ s ∈ d.starts, s.owner ≠ none)
    (howner : owner ≠ none) : ∀ s ∈ (d.request l p owner).starts, s.owner ≠ none := by
  intro s hs
  obtain ⟨-, hreq⟩ | ⟨-, hw, hreq⟩ | ⟨-, -, hreq⟩ := request_cases l p owner d <;> rw [hreq] at hs
  · exact hall s hs
  · rcases List.mem_append.mp hs with hs | hs
    · exact hall s hs
    · cases List.mem_singleton.mp hs
      exact h.ownerOf_ne_none hall hw
  · rcases List.mem_append.mp hs with hs | hs
    · exact hall s hs
    · cases List.mem_singleton.mp hs
      cases hroot : l.root? p with
      | none => simpa [hroot] using howner
      | some b => simp

theorem Sealed.claim {rest : List Nat} (hs : Sane l ⟨none, d⟩) (h : Sealed l ⟨none, d⟩)
    (hpend : d.pending = p :: rest) (hpq : p ≤ q) (hfree : ∀ r, p ≤ r → r < q → r + 1 ∉ d.heads) :
    Sealed l ⟨some q, Flow.claim d rest p q⟩ := by
  -- what is claimed has no owner, as its start has none
  have hnone : ∀ r, p ≤ r → r ≤ q → d.ownerOf r = none := by
    intro r hpr hrq
    exact (claim_ownerOf rest hs.inv hpr (fun x h1 h2 => hfree x h1 (by omega))).trans
      (h.pending p (by rw [hpend]; simp))
  refine ⟨h.roots, fun r hr => h.pending r (by rw [hpend]; exact List.mem_cons_of_mem _ hr), ?_, ?_⟩
  · intro r hr
    cases hr
    exact hnone q hpq (Nat.le_refl _)
  · intro r t hr hown hf
    rcases (mem_claim hpq).mp hr with hr | ⟨h1, h2⟩
    · obtain ⟨ht, hown'⟩ := h.closed hr hown hf
      exact ⟨(mem_claim hpq).mpr (.inl ht), hown'⟩
    · exact absurd (hnone r h1 h2) hown

theorem Acts.claimed (hl : Linked l.code) (hs : Sane l st) (h : Claimed l st)
    (hact : Acts l st st') : Claimed l st' := by
  have he := hact.extends hs
  cases hact with
  | @root d a p ha hp _ =>
    rcases h with hall | h
    · exact .inl (hs.inv.request_owned hall (by simp))
    · -- all roots are starts by now
      obtain ⟨r, hr, hhead⟩ := h.roots a ha
      rw [hp] at hr
      cases hr
      obtain ⟨-, hreq⟩ | ⟨hn, -⟩ | ⟨hn, -⟩ := request_cases l p (some a) d
      · exact .inr (by rwa [hreq])
      · exact absurd hhead hn
      · exact absurd hhead hn
  | orphan hroots hidle _ _ _ _ =>
    rcases h with hall | h
    · exact .inr ((hs.sealed hidle hall hroots).request hl hs he)
    · exact .inr (h.request hl hs he)
  | claim hpend hpq _ hfree _ =>
    rcases h with hall | h
    · exact .inl hall
    · exact .inr (h.claim hs hpend hpq (fun r h1 h2 => (hfree r h1 h2).2.1))
  | @follow d q t _ =>
    rcases h with hall | h
    · exact .inl (hs.inv.request_owned hall (hs.inv.ownerOf_ne_none hall (hs.busy_walked rfl)))
    · rw [h.busy q rfl] at he ⊢
      exact .inr (h.request hl hs he)
  | jump | call | report =>
    exact h.imp id (fun h => ⟨h.roots, h.pending, h.busy, h.closed⟩)
  | done => exact h.imp id (fun h => ⟨h.roots, h.pending, nofun, h.closed⟩)

theorem Stage.Reached.owned (hl : Linked l.code) (hc : l.CrossesToRoots) (h : st.Reached l) :
    Rooted l st.found ∧ Claimed l st := by
  induction h with
  | refl => exact ⟨nofun, .inl nofun⟩
  | tail hreached hact ih =>
    have hs := Stage.Reached.sane hl hreached
    exact ⟨hact.rooted hl hc hs ih.1, hact.claimed hl hs ih.2⟩

end

/-! ## From positions to blocks -/

namespace Complete
variable {l : Layout} {d : Discovery} {next : LinkedInstruction → List Int} {p q w : Nat} {a : Int}
variable {b c : BlockId} {s t : Start}

theorem owner_blockOf (hc : Complete l d) (hp : p < l.code.length) :
    ((assemble l.code d).block (blockOf d.starts p)).owner = d.ownerOf p := by
  obtain ⟨s, hb, hle, hlt⟩ := hc.blockOf_spec hp
  have hs := List.mem_of_getElem? hb
  rw [assemble_owner hb, Discovery.ownerOf, startOf?_eq hc.inv.heads_nodup hs hle]
  · rfl
  · intro t ht htp
    by_contra hn
    have := (lt_nextStart_iff.mp hlt).2 t ht (by omega)
    omega

/-- Control goes on in the same block or from the end of one to the start of another. -/
theorem flows_blocks (hs : l.Sound) (hc : Complete l d) (hon : l.Flows LinkedInstruction.onward p q)
    (h : l.Flows next p q) : blockOf d.starts p = blockOf d.starts q ∨
      (assemble l.code d).Flows next (blockOf d.starts p) (blockOf d.starts q) := by
  have hq := h.lt
  obtain ⟨i, j, hi, hj, hmem⟩ := h
  have hp := (List.getElem?_eq_some_iff.mp hi).1
  have across : l.ends p = true ∨ p + 1 ∈ d.heads → q ∈ d.heads →
      (assemble l.code d).Flows next (blockOf d.starts p) (blockOf d.starts q) := by
    intro hexit hhead
    obtain ⟨s, hb, -, -⟩ := hc.blockOf_spec hp
    refine ⟨i, ?_, hc.blockOf_lt hq, ?_⟩
    · rw [hc.last?_eq hb, ← hc.eq_lastOf hb hp hexit, hi]
    · rwa [hc.addressOf_blockOf hhead hj]
  by_cases hends : l.ends p = true
  · exact .inr (across (.inl hends) (hc.head_iff.mpr (hon.leaderAt hs.linked hends)))
  · obtain rfl := hon.eq_succ hs.linked (by simpa using hends)
    by_cases hhead : p + 1 ∈ d.heads
    · exact .inr (across (.inr hhead) hhead)
    · left
      unfold blockOf
      rw [startOf?_congr hc.inv.heads_nodup (Nat.le_succ p)]
      intro r h1 h2
      rwa [show r = p + 1 by omega]

/-- A path that stays in a subroutine goes through blocks of it. -/
theorem flowsWithin (hs : l.Sound) (hc : Complete l d) (hw : w < l.code.length)
    (hown : d.ownerOf w = some a) (h : Relation.ReflTransGen (Stays l d a) p w) :
    Relation.ReflTransGen ((assemble l.code d).FlowsWithin a) (blockOf d.starts p)
      (blockOf d.starts w) := by
  induction h with
  | refl => exact .refl
  | @tail x y _ hxy ih =>
    obtain ⟨hflow, hx, hownx⟩ := hxy
    have hlt := hc.inv.walked_lt hx
    have hpath := ih hlt hownx
    rcases hc.flows_blocks hs hflow.onward hflow with heq | hblocks
    · exact heq ▸ hpath
    · exact hpath.tail ⟨hblocks, (hc.owner_blockOf hlt).trans hownx, (hc.owner_blockOf hw).trans hown⟩

/-- The owner of a block is a root, and control comes to the block from it without leaving what it
owns. -/
theorem comes_from_owner (hs : l.Sound) (hc : Complete l d) (hr : Rooted l d)
    (hb : d.starts[b]? = some s) (ha : s.owner = some a) : a ∈ l.roots ∧
      ∃ p, l.position? a = some p ∧
        Relation.ReflTransGen ((assemble l.code d).FlowsWithin a) (blockOf d.starts p) b := by
  have hmem := List.mem_of_getElem? hb
  obtain ⟨hroot, p, hp, hpath⟩ := hr s hmem a ha
  have hown : d.ownerOf s.position = some a := (ownerOf_head hc.inv.heads_nodup hmem).trans ha
  have hblocks := hc.flowsWithin hs (hc.start_leaderAt hb).lt hown hpath
  rw [hc.blockOf_start hb] at hblocks
  exact ⟨hroot, p, hp, hblocks⟩

/-- What has an owner leads only to what has one. -/
theorem owned_onward (hc : Complete l d) (hcl : Claimed l ⟨none, d⟩)
    (h : (assemble l.code d).Flows LinkedInstruction.onward b c)
    (hown : ((assemble l.code d).block b).owner ≠ none) :
    ((assemble l.code d).block c).owner ≠ none := by
  obtain ⟨i, hlast, hlt, hmem⟩ := h
  obtain ⟨t, ht⟩ := exists_start hlt
  rw [assemble_owner ht]
  rcases hcl with hall | hsealed
  · exact hall t (List.mem_of_getElem? ht)
  · have hb : b < (assemble l.code d).size := by
      by_contra hn
      simp only [Graph.size] at hn
      simp [Graph.block, Array.getD, hn, Block.last?] at hlast
    obtain ⟨s, hs'⟩ := exists_start hb
    obtain ⟨-, -, hend⟩ := hc.position_le_lastOf hs'
    obtain ⟨j, hj, -⟩ := hc.start_leaderAt ht
    have hflow : l.Flows LinkedInstruction.onward (lastOf l d s) t.position := by
      refine ⟨i, j, by rw [← hc.last?_eq hs', hlast], hj, ?_⟩
      rwa [assemble_addressOf ht hj] at hmem
    have hown' : d.ownerOf (lastOf l d s) ≠ none := by
      rwa [← hc.owner_blockOf hend, hc.blockOf_lastOf hs']
    have htown := (hsealed.closed (hc.walked hend) hown' hflow).2
    rwa [show (Stage.mk none d).found = d from rfl,
      ownerOf_head hc.inv.heads_nodup (List.mem_of_getElem? ht)] at htown

end Complete

end Flow

end ScriptFlow
