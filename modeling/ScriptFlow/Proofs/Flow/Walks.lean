import ScriptFlow.Proofs.Flow.Leaders
import Mathlib.Data.List.Nodup

/-! # Walks find exactly the leaders

`Inv` is what holds of a discovery between any two of its steps. While a walk follows the branches of
its last instruction, the exits of that one position are still incomplete, so the invariant is stated
with that position left out: `busy` is `none` between walks. Each operation of a discovery has one
lemma here, a walk is put together from them, and the loops repeat walks. -/

namespace ScriptFlow.Flow

namespace Discovery

/-- The positions blocks start at. -/
def heads (d : Discovery) : List Nat := d.starts.map Start.position

/-- The edges noted for a position. -/
def jumpsFrom (d : Discovery) (q : Nat) : List Jump := d.jumps.filter fun j => j.source == q

theorem starts?_iff {d : Discovery} {p : Nat} : d.starts? p = true ↔ p ∈ d.heads := by
  simp [starts?, heads]

end Discovery

/-- The edges a walked position has: those of an instruction that ends a block, or the one into the
block that starts next. -/
def Layout.outgoing (l : Layout) (heads : List Nat) (q : Nat) : List Jump :=
  if l.ends q then (l.ways q).map fun w => ⟨q, w.1, w.2⟩
  else if q + 1 ∈ heads then [⟨q, q + 1, .unconditional⟩]
  else []

/-- What holds of a discovery at any time. The exits of the position that is `busy` are not complete
yet. -/
structure Inv (l : Layout) (busy : Option Nat) (d : Discovery) : Prop where
  heads_nodup : d.heads.Nodup
  leader : ∀ {p}, p ∈ d.heads → l.LeaderAt p
  walked_nodup : d.walked.Nodup
  walked_lt : ∀ {p}, p ∈ d.walked → p < l.code.length
  pending_nodup : d.pending.Nodup
  pending_head : ∀ {p}, p ∈ d.pending → p ∈ d.heads ∧ p ∉ d.walked
  covered : ∀ {p}, p ∈ d.heads → p ∈ d.pending ∨ p ∈ d.walked
  entered : ∀ {p}, p ∈ d.walked → p ∉ d.heads → ∃ q, p = q + 1 ∧ q ∈ d.walked ∧ l.ends q = false
  root_head : ∀ {p}, p ∈ d.walked → (l.root? p).isSome = true → p ∈ d.heads
  onward : ∀ {q}, q ∈ d.walked → busy ≠ some q → l.ends q = false → q + 1 < l.code.length →
    q + 1 ∈ d.walked ∨ q + 1 ∈ d.heads
  busy_head : ∀ {q}, busy = some q → q + 1 ∈ d.walked → q + 1 ∈ d.heads
  jump_head : ∀ {j}, j ∈ d.jumps → j.target ∈ d.heads
  jumps : ∀ {q}, busy ≠ some q → q ∈ d.walked → d.jumpsFrom q = l.outgoing d.heads q
  no_jumps : ∀ {q}, q ∉ d.walked → d.jumpsFrom q = []

/-- What later steps keep of an earlier discovery. -/
structure Grows (d e : Discovery) : Prop where
  heads : d.heads ⊆ e.heads
  walked : d.walked ⊆ e.walked

theorem Grows.refl (d : Discovery) : Grows d d := ⟨List.Subset.refl _, List.Subset.refl _⟩

theorem Grows.trans {d e f : Discovery} (h : Grows d e) (h' : Grows e f) : Grows d f :=
  ⟨fun _ hp => h'.heads (h.heads hp), fun _ hp => h'.walked (h.walked hp)⟩

section
variable {l : Layout} {busy : Option Nat} {d : Discovery} {p q : Nat} {owner : Option Int}

theorem inv_empty (l : Layout) : Inv l none {} := by
  constructor <;> simp [Discovery.heads, Discovery.jumpsFrom]

/-! ## Letting a block start -/

theorem outgoing_congr {heads heads' : List Nat} (h : q + 1 ∈ heads ↔ q + 1 ∈ heads') :
    l.outgoing heads q = l.outgoing heads' q := by
  unfold Layout.outgoing
  simp only [h]

/-- What `request` does, case by case. -/
theorem request_cases (l : Layout) (p : Nat) (owner : Option Int) (d : Discovery) :
    (p ∈ d.heads ∧ d.request l p owner = d) ∨
    (p ∉ d.heads ∧ p ∈ d.walked ∧ d.request l p owner =
      { d with
        starts := d.starts ++ [⟨p, d.ownerOf p⟩]
        jumps := d.jumps ++ [⟨p - 1, p, .unconditional⟩] }) ∨
    (p ∉ d.heads ∧ p ∉ d.walked ∧ d.request l p owner =
      { d with
        starts := d.starts ++ [⟨p, (l.root? p).or owner⟩]
        pending := d.pending ++ [p] }) := by
  unfold Discovery.request
  by_cases hh : p ∈ d.heads
  · rw [if_pos (Discovery.starts?_iff.mpr hh)]
    exact .inl ⟨hh, rfl⟩
  · rw [if_neg (fun h => hh (Discovery.starts?_iff.mp h))]
    by_cases hw : p ∈ d.walked
    · rw [if_pos (by simpa using hw)]
      exact .inr (.inl ⟨hh, hw, rfl⟩)
    · rw [if_neg (by simpa using hw)]
      exact .inr (.inr ⟨hh, hw, rfl⟩)

theorem request_walked : (d.request l p owner).walked = d.walked := by
  obtain ⟨-, h⟩ | ⟨-, -, h⟩ | ⟨-, -, h⟩ := request_cases l p owner d <;> rw [h]

theorem request_calls : (d.request l p owner).calls = d.calls := by
  obtain ⟨-, h⟩ | ⟨-, -, h⟩ | ⟨-, -, h⟩ := request_cases l p owner d <;> rw [h]

theorem request_grows : Grows d (d.request l p owner) := by
  refine ⟨?_, by rw [request_walked]; exact List.Subset.refl _⟩
  obtain ⟨-, h⟩ | ⟨-, -, h⟩ | ⟨-, -, h⟩ := request_cases l p owner d <;>
    rw [h] <;> simp [Discovery.heads]

theorem request_head : p ∈ (d.request l p owner).heads := by
  obtain ⟨hp, h⟩ | ⟨-, -, h⟩ | ⟨-, -, h⟩ := request_cases l p owner d
  · rwa [h]
  · rw [h]; simp [Discovery.heads]
  · rw [h]; simp [Discovery.heads]

theorem jumpsFrom_append (d : Discovery) (j : Jump) (starts : List Start) :
    { d with starts := starts, jumps := d.jumps ++ [j] }.jumpsFrom q =
      d.jumpsFrom q ++ if j.source = q then [j] else [] := by
  by_cases h : j.source = q <;> simp [Discovery.jumpsFrom, List.filter_append, h]

theorem heads_append (d : Discovery) (p : Nat) (o : Option Int) :
    (d.starts ++ [Start.mk p o]).map Start.position = d.heads ++ [p] := by
  simp [Discovery.heads]

/-- One more start, whether walked already or not. What is said of edges is left to the caller. -/
theorem Inv.addHead {e : Discovery} (h : Inv l busy d) (hl : l.LeaderAt p) (hh : p ∉ d.heads)
    (heads : e.heads = d.heads ++ [p]) (walked : e.walked = d.walked)
    (pending : p ∈ d.walked ∧ e.pending = d.pending ∨ p ∉ d.walked ∧ e.pending = d.pending ++ [p])
    (jump_head : ∀ {j}, j ∈ e.jumps → j.target ∈ e.heads)
    (jumps : ∀ {q}, busy ≠ some q → q ∈ d.walked → e.jumpsFrom q = l.outgoing e.heads q)
    (no_jumps : ∀ {q}, q ∉ d.walked → e.jumpsFrom q = []) : Inv l busy e := by
  have old : ∀ {a}, a ∈ d.heads → a ∈ e.heads := fun ha => heads ▸ List.mem_append_left _ ha
  have mem : ∀ {a}, a ∈ e.heads → a ∈ d.heads ∨ a = p := by
    intro a ha
    rwa [heads, List.mem_append, List.mem_singleton] at ha
  have hp : p ∈ e.heads := by rw [heads]; simp
  have fresh : p ∉ d.pending := fun hp => hh (h.pending_head hp).1
  have appended : ∀ {xs : List Nat}, xs.Nodup → p ∉ xs → (xs ++ [p]).Nodup := by
    intro xs hxs hn
    rw [List.nodup_append]
    refine ⟨hxs, List.nodup_singleton _, ?_⟩
    intro a ha b hb hab
    rw [List.mem_singleton.mp hb] at hab
    exact hn (hab ▸ ha)
  constructor <;> try rw [walked]
  case heads_nodup => rw [heads]; exact appended h.heads_nodup hh
  case leader =>
    intro a ha
    rcases mem ha with ha | rfl
    · exact h.leader ha
    · exact hl
  case walked_nodup => exact h.walked_nodup
  case walked_lt => exact h.walked_lt
  case pending_nodup =>
    rcases pending with ⟨-, hpend⟩ | ⟨-, hpend⟩ <;> rw [hpend]
    · exact h.pending_nodup
    · exact appended h.pending_nodup fresh
  case pending_head =>
    intro a ha
    rcases pending with ⟨-, hpend⟩ | ⟨hw, hpend⟩ <;> rw [hpend] at ha
    · exact ⟨old (h.pending_head ha).1, (h.pending_head ha).2⟩
    · rcases List.mem_append.mp ha with ha | ha
      · exact ⟨old (h.pending_head ha).1, (h.pending_head ha).2⟩
      · rw [List.mem_singleton.mp ha]; exact ⟨hp, hw⟩
  case covered =>
    intro a ha
    rcases pending with ⟨hw, hpend⟩ | ⟨-, hpend⟩ <;> rw [hpend] <;> rcases mem ha with ha | rfl
    · exact h.covered ha
    · exact .inr hw
    · exact (h.covered ha).imp (fun ha => List.mem_append_left _ ha) id
    · exact .inl (by simp)
  case entered => intro a ha hna; exact h.entered ha (fun ha => hna (old ha))
  case root_head => intro a ha hroot; exact old (h.root_head ha hroot)
  case onward => intro a ha hb he hlt; exact (h.onward ha hb he hlt).imp id old
  case busy_head => intro a ha hwa; exact old (h.busy_head ha hwa)
  case jump_head => exact jump_head
  case jumps => exact jumps
  case no_jumps => exact no_jumps

/-- A start in the middle of walked code. The position in front of it was walked as well and fell
through, so it had no edge before and gets the one into the new block. -/
theorem Inv.split (h : Inv l busy d) (hl : l.LeaderAt p) (hh : p ∉ d.heads) (hw : p ∈ d.walked)
    (o : Option Int) :
    Inv l busy { d with
      starts := d.starts ++ [⟨p, o⟩]
      jumps := d.jumps ++ [⟨p - 1, p, .unconditional⟩] } := by
  obtain ⟨r, rfl, hr, hends⟩ := h.entered hw hh
  have hheads := heads_append d (r + 1) o
  refine h.addHead hl hh hheads rfl (.inl ⟨hw, rfl⟩) ?_ ?_ ?_
  · intro j hj
    show j.target ∈ List.map Start.position _
    rw [hheads]
    rcases List.mem_append.mp hj with hj | hj
    · exact List.mem_append_left _ (h.jump_head hj)
    · rw [List.mem_singleton.mp hj]; simp
  · intro a hb ha
    rw [jumpsFrom_append, Discovery.heads, hheads, h.jumps hb ha]
    by_cases har : a = r
    · subst har
      simp [Layout.outgoing, hends, hh]
    · have hcongr : a + 1 ∈ d.heads ↔ a + 1 ∈ d.heads ++ [r + 1] := by simp [har]
      rw [outgoing_congr hcongr, if_neg (by simp only [Nat.add_sub_cancel]; omega), List.append_nil]
  · intro a ha
    rw [jumpsFrom_append, h.no_jumps ha, if_neg, List.append_nil]
    rintro rfl
    exact ha hr

/-- A start that has still to be walked. No walked position in front of it can be waiting for it,
the busy one apart. -/
theorem Inv.openHead (h : Inv l busy d) (hl : l.LeaderAt p) (hh : p ∉ d.heads) (hw : p ∉ d.walked)
    (o : Option Int) :
    Inv l busy { d with starts := d.starts ++ [⟨p, o⟩], pending := d.pending ++ [p] } := by
  have hheads := heads_append d p o
  refine h.addHead hl hh hheads rfl (.inr ⟨hw, rfl⟩) ?_ ?_ h.no_jumps
  · intro j hj
    show j.target ∈ List.map Start.position _
    rw [hheads]
    exact List.mem_append_left _ (h.jump_head hj)
  · intro a hb ha
    refine (h.jumps hb ha).trans ?_
    show l.outgoing d.heads a = l.outgoing (List.map Start.position _) a
    rw [hheads]
    by_cases hends : l.ends a = true
    · simp [Layout.outgoing, hends]
    · have hne : a + 1 ≠ p := by
        rintro rfl
        rcases h.onward ha hb (by simpa using hends) hl.lt with h' | h'
        · exact hw h'
        · exact hh h'
      exact outgoing_congr (by simp [hne])

theorem Inv.request (h : Inv l busy d) (hl : l.LeaderAt p) : Inv l busy (d.request l p owner) := by
  obtain ⟨-, he⟩ | ⟨hh, hw, he⟩ | ⟨hh, hw, he⟩ := request_cases l p owner d
  · rwa [he]
  · rw [he]; exact h.split hl hh hw _
  · rw [he]; exact h.openHead hl hh hw _

/-- Letting a block start adds no edge to the busy position. -/
theorem Inv.request_jumpsFrom (h : Inv l (some q) d) :
    (d.request l p owner).jumpsFrom q = d.jumpsFrom q := by
  obtain ⟨-, he⟩ | ⟨hh, hw, he⟩ | ⟨-, -, he⟩ := request_cases l p owner d
  · rw [he]
  · rw [he, jumpsFrom_append, if_neg, List.append_nil]
    rintro rfl
    obtain ⟨r, rfl, -⟩ := h.entered hw hh
    exact hh (h.busy_head rfl hw)
  · rw [he]; rfl

theorem requestAt_ok {a : Int} (hp : l.position? a = some p) :
    d.requestAt l a owner = .ok (p, d.request l p owner) := by
  unfold Discovery.requestAt
  rw [hp]

/-! ## Noting an edge -/

theorem Inv.jump {t : Nat} {k : EdgeKind} (h : Inv l (some q) d) (hq : q ∈ d.walked)
    (ht : t ∈ d.heads) : Inv l (some q) (d.jump q t k) := by
  have other : ∀ {a : Nat}, a ≠ q → (d.jump q t k).jumpsFrom a = d.jumpsFrom a := by
    intro a ha
    simp [Discovery.jump, Discovery.jumpsFrom, List.filter_append, Ne.symm ha]
  refine { h with jump_head := ?_, jumps := ?_, no_jumps := ?_ }
  · intro j hj
    rcases List.mem_append.mp hj with hj | hj
    · exact h.jump_head hj
    · rw [List.mem_singleton.mp hj]; exact ht
  · intro a hb ha
    rw [other (fun he => hb (by rw [he]))]
    exact h.jumps hb ha
  · intro a ha
    rw [other (fun he => ha (he ▸ hq))]
    exact h.no_jumps ha

theorem jump_jumpsFrom {t : Nat} {k : EdgeKind} :
    (d.jump q t k).jumpsFrom q = d.jumpsFrom q ++ [⟨q, t, k⟩] := by
  simp [Discovery.jump, Discovery.jumpsFrom, List.filter_append]

/-! ## Claiming code -/

/-- How a walk comes to its end at `q`. -/
inductive EndsWith (l : Layout) (stops : Nat → Bool) (q : Nat) : Ending → Prop
  | branch {i : LinkedInstruction} : l.code[q]? = some i → l.ends q = true →
      EndsWith l stops q (.branch q i)
  | runsOff {i : LinkedInstruction} : l.ends q = false → q + 1 = l.code.length →
      EndsWith l stops q (.runsOff i)
  | meets : l.ends q = false → q + 1 < l.code.length → stops (q + 1) = true →
      EndsWith l stops q (.meets q)

/-- A walk claims the positions up to the first that ends a block, is the last of the code or stands
in front of a stop. -/
theorem run_spec (stops : Nat → Bool) (hp : p < l.code.length) :
    ∃ q e, p ≤ q ∧ q < l.code.length ∧
      run stops p (l.code.drop p) = (List.range' p (q + 1 - p), some e) ∧
      (∀ r, p ≤ r → r < q → l.ends r = false ∧ stops (r + 1) = false) ∧
      EndsWith l stops q e := by
  induction hn : l.code.length - p generalizing p with
  | zero => omega
  | succ n ih =>
    have hi : l.code[p]? = some l.code[p] := List.getElem?_eq_getElem hp
    have single : List.range' p (p + 1 - p) = [p] := by
      rw [Nat.add_sub_cancel_left]; rfl
    have nothing : ∀ r, p ≤ r → r < p → l.ends r = false ∧ stops (r + 1) = false := by
      intro r h1 h2; omega
    rw [List.drop_eq_getElem_cons hp, run]
    by_cases hends : l.code[p].opcode.endsBlock = true
    · rw [if_pos hends]
      exact ⟨p, _, Nat.le_refl _, hp, by rw [single], nothing, .branch hi (by rwa [Layout.ends_eq hi])⟩
    · have hends' : l.ends p = false := by simpa [Layout.ends_eq hi] using hends
      rw [if_neg hends]
      by_cases hlast : p + 1 = l.code.length
      · have hnil : (l.code.drop (p + 1)).isEmpty = true := by
          rw [List.isEmpty_iff, List.drop_eq_nil_iff]; omega
        rw [if_pos hnil]
        exact ⟨p, _, Nat.le_refl _, hp, by rw [single], nothing, .runsOff hends' hlast⟩
      · have hcons : ¬ (l.code.drop (p + 1)).isEmpty = true := by
          rw [List.isEmpty_iff, List.drop_eq_nil_iff]; omega
        rw [if_neg hcons]
        by_cases hstop : stops (p + 1) = true
        · rw [if_pos hstop]
          exact ⟨p, _, Nat.le_refl _, hp, by rw [single], nothing, .meets hends' (by omega) hstop⟩
        · rw [if_neg hstop]
          obtain ⟨q, e, hpq, hq, hrun, hfree, he⟩ := ih (p := p + 1) (by omega) (by omega)
          rw [hrun]
          refine ⟨q, e, by omega, hq, ?_, ?_, he⟩
          · rw [show q + 1 - p = (q + 1 - (p + 1)) + 1 by omega, List.range'_succ]
          · intro r hpr hrq
            by_cases hr : r = p
            · subst hr; exact ⟨hends', by simpa using hstop⟩
            · exact hfree r (by omega) hrq

/-- The state a walk leaves its last position in, before it follows the branches of it. -/
def claim (d : Discovery) (rest : List Nat) (p q : Nat) : Discovery :=
  { d with pending := rest, walked := d.walked ++ List.range' p (q + 1 - p) }

theorem mem_claim {rest : List Nat} {a : Nat} (hpq : p ≤ q) :
    a ∈ (claim d rest p q).walked ↔ a ∈ d.walked ∨ (p ≤ a ∧ a ≤ q) := by
  simp only [claim, List.mem_append, List.mem_range'_1]
  constructor <;> rintro (h | h) <;> first | exact .inl h | exact .inr (by omega)

/-- Nothing a walk claims was walked before: code is entered at starts only. -/
theorem Inv.claim_fresh {rest : List Nat} (h : Inv l none d) (hpend : d.pending = p :: rest)
    (hfree : ∀ r, p ≤ r → r < q → r + 1 ∉ d.heads) :
    ∀ a, p ≤ a → a ≤ q → a ∉ d.walked := by
  intro a hpa
  induction hpa with
  | refl => intro _; exact (h.pending_head (by rw [hpend]; simp)).2
  | @step a hpa ih =>
    intro haq hw
    obtain ⟨b, hb, hbw, -⟩ := h.entered hw (hfree a hpa (by omega))
    have hab : a = b := by omega
    exact ih (by omega) (hab ▸ hbw)

theorem Inv.claim {rest : List Nat} (h : Inv l none d) (hpend : d.pending = p :: rest)
    (hpq : p ≤ q) (hq : q < l.code.length)
    (hfree : ∀ r, p ≤ r → r < q → l.ends r = false ∧ r + 1 ∉ d.heads ∧ (l.root? (r + 1)).isSome = false) :
    Inv l (some q) (claim d rest p q) ∧ (Flow.claim d rest p q).jumpsFrom q = [] := by
  have fresh := h.claim_fresh hpend (fun r h1 h2 => (hfree r h1 h2).2.1)
  have hp : p ∈ d.heads := (h.pending_head (by rw [hpend]; simp)).1
  have hrest : p ∉ rest ∧ rest.Nodup := by
    have := h.pending_nodup
    rw [hpend] at this
    exact List.nodup_cons.mp this
  have mem : ∀ {a}, a ∈ (Flow.claim d rest p q).walked ↔ a ∈ d.walked ∨ (p ≤ a ∧ a ≤ q) :=
    mem_claim hpq
  -- a claimed position is the start itself or stands behind another claimed one
  have inner : ∀ {a}, p ≤ a → a ≤ q → a = p ∨ ∃ r, a = r + 1 ∧ p ≤ r ∧ r < q := by
    intro a h1 h2
    by_cases ha : a = p
    · exact .inl ha
    · exact .inr ⟨a - 1, by omega, by omega, by omega⟩
  refine ⟨?_, h.no_jumps (fresh q hpq (Nat.le_refl _))⟩
  constructor
  case heads_nodup => exact h.heads_nodup
  case leader => exact h.leader
  case walked_nodup =>
    refine List.nodup_append.mpr ⟨h.walked_nodup, List.nodup_range', ?_⟩
    intro a ha b hb hab
    rw [List.mem_range'_1] at hb
    exact fresh b hb.1 (by omega) (hab ▸ ha)
  case walked_lt =>
    intro a ha
    rcases mem.mp ha with ha | ha
    · exact h.walked_lt ha
    · omega
  case pending_nodup => exact hrest.2
  case pending_head =>
    intro a ha
    obtain ⟨hhead, hw⟩ := h.pending_head (p := a) (by rw [hpend]; exact List.mem_cons_of_mem _ ha)
    refine ⟨hhead, fun hc => ?_⟩
    rcases mem.mp hc with hc | ⟨h1, h2⟩
    · exact hw hc
    · obtain rfl | ⟨r, rfl, hr, hr'⟩ := inner h1 h2
      · exact hrest.1 ha
      · exact (hfree r hr hr').2.1 hhead
  case covered =>
    intro a ha
    rcases h.covered ha with hc | hc
    · rw [hpend] at hc
      rcases List.mem_cons.mp hc with rfl | hc
      · exact .inr (mem.mpr (.inr ⟨Nat.le_refl _, hpq⟩))
      · exact .inl hc
    · exact .inr (mem.mpr (.inl hc))
  case entered =>
    intro a ha hna
    rcases mem.mp ha with ha | ⟨h1, h2⟩
    · obtain ⟨r, hr, hrw, he⟩ := h.entered ha hna
      exact ⟨r, hr, mem.mpr (.inl hrw), he⟩
    · obtain rfl | ⟨r, rfl, hr, hr'⟩ := inner h1 h2
      · exact absurd hp hna
      · exact ⟨r, rfl, mem.mpr (.inr ⟨hr, by omega⟩), (hfree r hr hr').1⟩
  case root_head =>
    intro a ha hroot
    rcases mem.mp ha with ha | ⟨h1, h2⟩
    · exact h.root_head ha hroot
    · obtain rfl | ⟨r, rfl, hr, hr'⟩ := inner h1 h2
      · exact hp
      · rw [(hfree r hr hr').2.2] at hroot; cases hroot
  case onward =>
    intro a ha hb he hlt
    rcases mem.mp ha with ha | ⟨h1, h2⟩
    · exact (h.onward ha (by simp) he hlt).imp (fun hw => mem.mpr (.inl hw)) id
    · have hne : a ≠ q := fun haq => hb (by rw [haq])
      exact .inl (mem.mpr (.inr ⟨by omega, by omega⟩))
  case busy_head =>
    intro a ha hw
    cases ha
    rcases mem.mp hw with hw | hw
    · by_contra hn
      obtain ⟨r, hr, hrw, -⟩ := h.entered hw hn
      exact fresh q hpq (Nat.le_refl _) ((show q = r by omega) ▸ hrw)
    · omega
  case jump_head => exact h.jump_head
  case jumps =>
    intro a hb ha
    rcases mem.mp ha with ha | ⟨h1, h2⟩
    · exact h.jumps (by simp) ha
    · have hne : a ≠ q := fun haq => hb (by rw [haq])
      obtain ⟨he, hh, -⟩ := hfree a h1 (by omega)
      refine (h.no_jumps (fresh a h1 h2)).trans ?_
      show [] = l.outgoing d.heads a
      simp [Layout.outgoing, he, hh]
  case no_jumps =>
    intro a ha
    exact h.no_jumps (fun hw => ha (mem.mpr (.inl hw)))

/-! ## Following branches -/

/-- Once the exits of the busy position are complete, nothing is left out. -/
theorem Inv.close (h : Inv l (some q) d)
    (honward : l.ends q = false → q + 1 < l.code.length → q + 1 ∈ d.heads)
    (hwalked : q ∈ d.walked) (hjumps : d.jumpsFrom q = l.outgoing d.heads q) : Inv l none d := by
  refine { h with onward := ?_, busy_head := ?_, jumps := ?_ }
  · intro a ha _ he hlt
    by_cases haq : a = q
    · subst haq; exact .inr (honward he hlt)
    · exact h.onward ha (by simpa using Ne.symm haq) he hlt
  · intro a ha; cases ha
  · intro a _ ha
    by_cases haq : a = q
    · subst haq; exact hjumps
    · exact h.jumps (by simpa using Ne.symm haq) ha

theorem branches_ok {ss : List (Int × EdgeKind)} (owner : Option Int) (h : Inv l (some q) d) (hq : q ∈ d.walked)
    (hss : ∀ s ∈ ss, ∃ t, l.position? s.1 = some t ∧ l.LeaderAt t) :
    ∃ e, branches l q owner ss d = .ok e ∧ Inv l (some q) e ∧ e.walked = d.walked ∧
      e.calls = d.calls ∧ d.heads ⊆ e.heads ∧
      e.jumpsFrom q = d.jumpsFrom q ++
        (ss.filterMap fun s => (l.position? s.1).map (·, s.2)).map fun w => ⟨q, w.1, w.2⟩ := by
  induction ss generalizing d with
  | nil => exact ⟨d, rfl, h, rfl, rfl, List.Subset.refl _, by simp⟩
  | cons s ss ih =>
    obtain ⟨a, k⟩ := s
    obtain ⟨t, ht, hlead⟩ := hss (a, k) (by simp)
    have hreq : Inv l (some q) (d.request l t owner) := h.request hlead
    have hq' : q ∈ (d.request l t owner).walked := by rwa [request_walked]
    obtain ⟨e, he, hinv, hw, hc, hh, hj⟩ := ih (hreq.jump (k := k) hq' request_head) hq'
      (fun s hs => hss s (List.mem_cons_of_mem _ hs))
    refine ⟨e, ?_, hinv, hw.trans request_walked, hc.trans request_calls,
      fun p hp => hh (request_grows.heads hp), ?_⟩
    · simp only [branches, requestAt_ok ht, bind, Except.bind]
      exact he
    · rw [hj, jump_jumpsFrom, h.request_jumpsFrom]
      simp [ht]

theorem noteCall_ok {i : LinkedInstruction} (owner : Option Int) (hs : l.Sound) (hi : l.code[q]? = some i)
    (h : Inv l (some q) d) :
    ∃ e, noteCall l owner i d = .ok e ∧ Inv l (some q) e ∧ e.walked = d.walked ∧
      d.heads ⊆ e.heads ∧ e.jumpsFrom q = d.jumpsFrom q ∧
      e.calls = d.calls ++ (l.callAt q).toList := by
  by_cases hop : i.opcode = .jsr
  · have hmem := List.mem_of_getElem? hi
    obtain ⟨j, hj, hfollow⟩ := Layout.follower_eq hs.linked hi (by rw [hop]; rfl)
    obtain ⟨c, -, htarget⟩ := hs.linked.target hmem (by simp [hop, Opcode.branches])
    have hroot := hs.calls_known hmem hop htarget
    have hends : l.ends q = true := by rw [Layout.ends_eq hi, hop]; rfl
    have hlead := Layout.leaderAt_behind hends (List.getElem?_eq_some_iff.mp hj).1
    have hpos := Layout.position?_eq hs.linked hj
    have hreq : Inv l (some q) (d.request l (q + 1) owner) := h.request hlead
    refine ⟨{ d.request l (q + 1) owner with
      calls := (d.request l (q + 1) owner).calls ++ [⟨i.address, c.address, q + 1⟩] },
      ?_, ?_, ?_, ?_, ?_, ?_⟩
    · unfold noteCall
      rw [hop, htarget, hfollow]
      simp only [List.contains_iff_mem, hroot, if_true, requestAt_ok hpos, bind, Except.bind]
      rfl
    · exact { hreq with }
    · exact request_walked
    · exact request_grows.heads
    · exact h.request_jumpsFrom
    · simp [request_calls, Layout.callAt, hi, hop, htarget]
  · have hnone : noteCall l owner i d = .ok d := by
      unfold noteCall
      split
      · rename_i hjsr _ _; exact absurd hjsr hop
      · rfl
    exact ⟨d, hnone, h, rfl, List.Subset.refl _, rfl, by simp [Layout.callAt, hi, hop]⟩

/-! ## Walks -/

/-- The calls noted are those of the walked code, each once. -/
def Noted (l : Layout) (d : Discovery) : Prop := d.calls = d.walked.filterMap l.callAt

theorem callAt_eq_none (h : l.ends p = false) : l.callAt p = none := by
  unfold Layout.callAt
  cases hi : l.code[p]? with
  | none => rfl
  | some i =>
    rw [Layout.ends_eq hi] at h
    simp only [Option.bind_some, ite_eq_right_iff]
    intro hop
    rw [hop] at h
    cases h

/-- Of the claimed positions only the last can hold a call. -/
theorem filterMap_callAt_range' (hpq : p ≤ q) (hfree : ∀ r, p ≤ r → r < q → l.ends r = false) :
    (List.range' p (q + 1 - p)).filterMap l.callAt = (l.callAt q).toList := by
  rw [show q + 1 - p = (q - p) + 1 by omega, List.range'_concat, List.filterMap_append]
  have hnone : (List.range' p (q - p)).filterMap l.callAt = [] := by
    rw [List.filterMap_eq_nil_iff]
    intro r hr
    rw [List.mem_range'_1] at hr
    exact callAt_eq_none (hfree r hr.1 (by omega))
  rw [hnone, show p + 1 * (q - p) = q by omega]
  cases h : l.callAt q <;> simp [h]

/-- A walk claims its positions and goes on by how it ended. -/
theorem walk_eq {rest : List Nat} {ending : Ending}
    (hrun : run (fun q => d.starts? q || (l.root? q).isSome) p (l.code.drop p) =
      (List.range' p (q + 1 - p), some ending)) :
    walk l p { d with pending := rest } = match ending with
      | .branch r i => branches l r (d.ownerOf p) (successors i) (claim d rest p q) >>=
          noteCall l (d.ownerOf p) i
      | .meets r => .ok (((claim d rest p q).request l (r + 1) (d.ownerOf p)).jump r (r + 1)
          .unconditional)
      | .runsOff i => .ok { claim d rest p q with events := d.events ++ [.runsOff i.address] } := by
  have hrun' : run (fun q => { d with pending := rest }.starts? q || (l.root? q).isSome) p
      (l.code.drop p) = (List.range' p (q + 1 - p), some ending) := hrun
  unfold walk
  simp only [hrun']
  cases ending <;> rfl

theorem walk_ok {rest : List Nat} (hs : l.Sound) (h : Inv l none d) (hn : Noted l d)
    (hpend : d.pending = p :: rest) :
    ∃ e, walk l p { d with pending := rest } = .ok e ∧ Inv l none e ∧ Noted l e ∧ Grows d e ∧
      d.walked.length < e.walked.length := by
  have hp : p < l.code.length := (h.leader (h.pending_head (by rw [hpend]; simp)).1).lt
  obtain ⟨q, ending, hpq, hq, hrun, hfree, hend⟩ :=
    run_spec (fun q => d.starts? q || (l.root? q).isSome) hp
  have hfree' : ∀ r, p ≤ r → r < q →
      l.ends r = false ∧ r + 1 ∉ d.heads ∧ (l.root? (r + 1)).isSome = false := by
    intro r h1 h2
    obtain ⟨he, hstop⟩ := hfree r h1 h2
    rw [Bool.or_eq_false_iff] at hstop
    refine ⟨he, ?_, hstop.2⟩
    intro hm
    rw [Discovery.starts?_iff.mpr hm] at hstop
    cases hstop.1
  obtain ⟨hclaim, hempty⟩ := h.claim hpend hpq hq hfree'
  have hqw : q ∈ (claim d rest p q).walked := (mem_claim hpq).mpr (.inr ⟨hpq, Nat.le_refl _⟩)
  -- whatever follows the claim leaves the walked code as it is and adds the call at `q`
  have finish : ∀ e : Discovery, e.walked = (claim d rest p q).walked → d.heads ⊆ e.heads →
      e.calls = d.calls ++ (l.callAt q).toList →
      Noted l e ∧ Grows d e ∧ d.walked.length < e.walked.length := by
    intro e hw hh hc
    refine ⟨?_, ⟨hh, ?_⟩, ?_⟩
    · unfold Noted
      rw [hc, hw, claim, List.filterMap_append, hn,
        filterMap_callAt_range' hpq (fun r h1 h2 => (hfree' r h1 h2).1)]
    · rw [hw]; exact List.subset_append_left _ _
    · rw [hw, claim, List.length_append, List.length_range']; omega
  rw [walk_eq hrun]
  cases hend with
  | branch hi hends =>
    obtain ⟨e, he, hinv, hw, hc, hh, hj⟩ := branches_ok (d.ownerOf p) hclaim hqw
      (fun s hs' => Layout.successors_leaderAt hs.linked hi hs')
    obtain ⟨f, hf, hinv', hw', hh', hj', hc'⟩ := noteCall_ok (d.ownerOf p) hs hi hinv
    refine ⟨f, ?_, ?_, finish f (hw'.trans hw) (fun a ha => hh' (hh ha)) (by rw [hc', hc]; rfl)⟩
    · simp only [he, bind, Except.bind]
      exact hf
    · refine hinv'.close (fun hne => by rw [hends] at hne; cases hne) (by rw [hw', hw]; exact hqw) ?_
      rw [hj', hj, hempty]
      simp [Layout.outgoing, hends, Layout.ways, hi]
  | runsOff hends hlast =>
    refine ⟨_, rfl, ?_, finish _ rfl (List.Subset.refl _) ?_⟩
    · refine Inv.close (q := q) { hclaim with } (fun _ hlt => by omega) hqw ?_
      refine hempty.trans ?_
      have hout : q + 1 ∉ d.heads := fun hm => by have := (h.leader hm).lt; omega
      show [] = l.outgoing d.heads q
      simp [Layout.outgoing, hends, hout]
    · rw [callAt_eq_none hends]; simp [claim]
  | meets hends hlt hstop =>
    have hlead : l.LeaderAt (q + 1) := by
      rcases Bool.or_eq_true_iff.mp hstop with hm | hroot
      · exact h.leader (Discovery.starts?_iff.mp hm)
      · exact Layout.leaderAt_root hroot
    have hreq : Inv l (some q) ((claim d rest p q).request l (q + 1) (d.ownerOf p)) :=
      hclaim.request hlead
    have hqw' : q ∈ ((claim d rest p q).request l (q + 1) (d.ownerOf p)).walked := by
      rwa [request_walked]
    refine ⟨_, rfl, ?_, finish _ request_walked (fun a ha => request_grows.heads ha) ?_⟩
    · refine (hreq.jump hqw' request_head).close (fun _ _ => request_head) hqw' ?_
      rw [jump_jumpsFrom, hclaim.request_jumpsFrom, hempty]
      show _ = l.outgoing ((claim d rest p q).request l (q + 1) (d.ownerOf p)).heads q
      simp [Layout.outgoing, hends, request_head]
    · rw [callAt_eq_none hends, Option.toList_none, List.append_nil]
      exact request_calls

/-! ## Walking until nothing is pending -/

theorem Inv.walked_length_le (h : Inv l busy d) : d.walked.length ≤ l.code.length := by
  have hsub : d.walked ⊆ List.range l.code.length := fun p hp => List.mem_range.mpr (h.walked_lt hp)
  simpa using List.Nodup.length_le_of_subset h.walked_nodup hsub

/-- Every walk claims at least one position, so the fuel is not used up. -/
theorem drain_ok (fuel : Nat) (hs : l.Sound) (h : Inv l none d) (hn : Noted l d)
    (hf : l.code.length < fuel + d.walked.length) :
    ∃ e, drain l fuel d = .ok e ∧ Inv l none e ∧ Noted l e ∧ Grows d e ∧ e.pending = [] := by
  induction fuel generalizing d with
  | zero =>
    have := h.walked_length_le
    omega
  | succ fuel ih =>
    cases hpend : d.pending with
    | nil => exact ⟨d, by simp [drain, hpend], h, hn, .refl d, hpend⟩
    | cons p rest =>
      obtain ⟨e, he, hinv, hnoted, hgrows, hlen⟩ := walk_ok hs h hn hpend
      obtain ⟨f, hf', hinv', hnoted', hgrows', hnil⟩ := ih hinv hnoted (by omega)
      refine ⟨f, ?_, hinv', hnoted', hgrows.trans hgrows', hnil⟩
      simp only [drain, hpend, he, bind, Except.bind]
      exact hf'

/-- Nothing is pending, so all that blocks start at has been walked. -/
structure Drained (l : Layout) (d : Discovery) : Prop where
  inv : Inv l none d
  noted : Noted l d
  idle : d.pending = []

theorem Drained.walked_of_head (h : Drained l d) (hp : p ∈ d.heads) : p ∈ d.walked := by
  rcases h.inv.covered hp with hpend | hw
  · rw [h.idle] at hpend; cases hpend
  · exact hw

theorem request_drain (owner : Option Int) (hs : l.Sound) (h : Drained l d) (hl : l.LeaderAt p) :
    ∃ e, drain l (l.code.length + 1) (d.request l p owner) = .ok e ∧ Drained l e ∧ Grows d e ∧
      p ∈ e.heads := by
  have hnoted : Noted l (d.request l p owner) := by
    unfold Noted
    rw [request_calls, request_walked]
    exact h.noted
  obtain ⟨e, he, hinv, hn, hgrows, hnil⟩ := drain_ok (l.code.length + 1) hs (h.inv.request hl) hnoted
    (by omega)
  exact ⟨e, he, ⟨hinv, hn, hnil⟩, request_grows.trans hgrows, hgrows.heads request_head⟩

theorem fromRoot_ok {a : Int} (hs : l.Sound) (h : Drained l d) (ha : a ∈ l.roots) :
    ∃ e, fromRoot l d a = .ok e ∧ Drained l e ∧ Grows d e ∧
      ∃ p, l.position? a = some p ∧ p ∈ e.heads := by
  obtain ⟨i, hi, rfl⟩ := hs.roots_known ha
  obtain ⟨p, hp, hpos⟩ := Layout.position?_of_mem hs.linked hi
  obtain ⟨e, he, hd, hg, hhead⟩ := request_drain (p := p) (some i.address) hs h
    ⟨i, hp, .root ha⟩
  refine ⟨e, ?_, hd, hg, p, hpos, hhead⟩
  simp only [fromRoot, requestAt_ok hpos, bind, Except.bind]
  exact he

theorem fromRoots_ok (as : List Int) (hs : l.Sound) (h : Drained l d) (has : ∀ a ∈ as, a ∈ l.roots) :
    ∃ e, as.foldlM (fromRoot l) d = .ok e ∧ Drained l e ∧ Grows d e ∧
      ∀ a ∈ as, ∃ p, l.position? a = some p ∧ p ∈ e.heads := by
  induction as generalizing d with
  | nil => exact ⟨d, rfl, h, .refl d, by simp⟩
  | cons a as ih =>
    obtain ⟨e, he, hd, hg, p, hpos, hp⟩ := fromRoot_ok hs h (has a (by simp))
    obtain ⟨f, hf, hd', hg', hall⟩ := ih hd (fun b hb => has b (List.mem_cons_of_mem _ hb))
    refine ⟨f, ?_, hd', hg.trans hg', ?_⟩
    · simp only [List.foldlM_cons, he, bind, Except.bind]
      exact hf
    · intro b hb
      rcases List.mem_cons.mp hb with rfl | hb
      · exact ⟨p, hpos, hg'.heads hp⟩
      · exact hall b hb

/-- Code that no walk has come to, all in front of it walked, stands behind a jump or a return. -/
theorem Drained.leaderAt_orphan (h : Drained l d) (hp : p < l.code.length)
    (hfront : ∀ r < p, r ∈ d.walked) (hw : p ∉ d.walked) (hh : p ∉ d.heads) : l.LeaderAt p := by
  cases p with
  | zero => exact Layout.leaderAt_zero hp
  | succ q =>
    by_cases hends : l.ends q = true
    · exact Layout.leaderAt_behind hends hp
    · rcases h.inv.onward (hfront q (by omega)) (by simp) (by simpa using hends) hp with h' | h'
      · exact absurd h' hw
      · exact absurd h' hh

theorem fromOrphan_ok (hs : l.Sound) (h : Drained l d) (hp : p < l.code.length)
    (hfront : ∀ r < p, r ∈ d.walked) :
    ∃ e, fromOrphan l d p = .ok e ∧ Drained l e ∧ Grows d e ∧ p ∈ e.walked := by
  unfold fromOrphan
  by_cases hc : (d.walked.contains p || d.starts? p) = true
  · rw [if_pos hc]
    refine ⟨d, rfl, h, .refl d, ?_⟩
    rcases Bool.or_eq_true_iff.mp hc with hw | hh
    · simpa using hw
    · exact h.walked_of_head (Discovery.starts?_iff.mp hh)
  · rw [if_neg hc]
    rw [Bool.or_eq_true_iff, not_or, Discovery.starts?_iff] at hc
    obtain ⟨e, he, hd, hg, hhead⟩ := request_drain (p := p) none hs h
      (h.leaderAt_orphan hp hfront (by simpa using hc.1) hc.2)
    exact ⟨e, he, hd, hg, hd.walked_of_head hhead⟩

theorem fromOrphans_ok {n : Nat} (hs : l.Sound) (h : Drained l d) (hn : n ≤ l.code.length) :
    ∃ e, (List.range n).foldlM (fromOrphan l) d = .ok e ∧ Drained l e ∧ Grows d e ∧
      ∀ p < n, p ∈ e.walked := by
  induction n with
  | zero => exact ⟨d, rfl, h, .refl d, by simp⟩
  | succ n ih =>
    obtain ⟨e, he, hd, hg, hall⟩ := ih (by omega)
    obtain ⟨f, hf, hd', hg', hw⟩ := fromOrphan_ok hs hd (p := n) (by omega) hall
    refine ⟨f, ?_, hd', hg.trans hg', ?_⟩
    · rw [List.range_succ, List.foldlM_append, he]
      simp only [List.foldlM_cons, List.foldlM_nil, hf, bind, Except.bind]
      rfl
    · intro p hp
      by_cases hpn : p = n
      · exact hpn ▸ hw
      · exact hg'.walked (hall p (by omega))

end

/-! ## The whole search -/

theorem mem_insertBy {α : Type} {key : α → Int} {x y : α} {ys : List α} :
    x ∈ Order.insertBy key y ys ↔ x = y ∨ x ∈ ys := by
  induction ys with
  | nil => simp [Order.insertBy]
  | cons z zs ih =>
    unfold Order.insertBy
    split
    · simp
    · simp only [List.mem_cons, ih]
      tauto

theorem mem_sortBy {α : Type} {key : α → Int} {x : α} {xs : List α} :
    x ∈ Order.sortBy key xs ↔ x ∈ xs := by
  induction xs with
  | nil => simp [Order.sortBy]
  | cons y ys ih => rw [Order.sortBy, mem_insertBy, ih, List.mem_cons]

/-- What a search ends with: everything is walked and the blocks start exactly at the leaders. -/
structure Complete (l : Layout) (d : Discovery) : Prop extends Drained l d where
  walked : ∀ {p}, p < l.code.length → p ∈ d.walked
  head_iff : ∀ {p}, p ∈ d.heads ↔ l.LeaderAt p

section
variable {l : Layout} {d : Discovery}

/-- A branch of walked code leads to a start. -/
theorem Drained.target_head (hs : l.Sound) (h : Drained l d) {q : Nat} {i : LinkedInstruction}
    {a : Int} (hi : l.code[q]? = some i) (hq : q ∈ d.walked) (hb : i.opcode.branches)
    (ht : i.target = some a) : ∃ p, l.position? a = some p ∧ p ∈ d.heads := by
  obtain ⟨j, hj, hta⟩ := hs.linked.target (List.mem_of_getElem? hi) hb
  have haj : a = j.address := by rw [ht] at hta; exact Option.some.inj hta
  obtain ⟨p, hp, hpos⟩ := Layout.position?_of_mem hs.linked hj
  have hends : l.ends q = true := by
    rw [Layout.ends_eq hi]
    revert hb
    cases i.opcode <;> simp [Opcode.branches, Opcode.endsBlock]
  obtain ⟨k, hk⟩ : ∃ k, (a, k) ∈ successors i := by
    unfold successors
    revert hb
    cases i.opcode <;> simp [Opcode.branches, ht]
  have hjump : Jump.mk q p k ∈ d.jumpsFrom q := by
    rw [h.inv.jumps (by simp) hq]
    simp only [Layout.outgoing, hends, if_true, Layout.ways, hi, Option.map_some, Option.getD_some,
      List.mem_map, List.mem_filterMap]
    exact ⟨(p, k), ⟨(a, k), hk, by rw [haj, hpos]; rfl⟩, rfl⟩
  exact ⟨p, haj ▸ hpos, h.inv.jump_head (List.mem_of_mem_filter hjump)⟩

theorem Drained.head_of_leaderAt (hs : l.Sound) (h : Drained l d)
    (hroots : ∀ a ∈ l.roots, ∃ p, l.position? a = some p ∧ p ∈ d.heads)
    (hw : ∀ p < l.code.length, p ∈ d.walked) {p : Nat} (hp : l.LeaderAt p) : p ∈ d.heads := by
  have hlt := hp.lt
  obtain ⟨i, hi, hlead⟩ := hp
  have hpos := Layout.position?_eq hs.linked hi
  -- code is entered at starts or behind code that falls through
  have entered : ∀ q, p = q + 1 → l.ends q = true → p ∈ d.heads := by
    intro q hq hends
    by_contra hn
    obtain ⟨r, hr, -, hr'⟩ := h.inv.entered (hw p hlt) hn
    rw [show r = q by omega, hends] at hr'
    cases hr'
  generalize ha : i.address = a at hlead hpos
  cases hlead with
  | @first j hj =>
    rw [List.head?_eq_getElem?] at hj
    have hp0 := position_unique hs.linked.ordered hi hj ha
    by_contra hn
    obtain ⟨r, hr, -⟩ := h.inv.entered (hw p hlt) hn
    omega
  | root hr =>
    obtain ⟨q, hq, hhead⟩ := hroots a hr
    rw [hpos] at hq
    exact Option.some.inj hq ▸ hhead
  | target hj hb ht =>
    obtain ⟨q, hq⟩ := List.getElem?_of_mem hj
    obtain ⟨t, ht', hhead⟩ := h.target_head hs hq
      (hw q (List.getElem?_eq_some_iff.mp hq).1) hb ht
    rw [hpos] at ht'
    exact Option.some.inj ht' ▸ hhead
  | @behind q j k hj hends hk =>
    exact entered q (position_unique hs.linked.ordered hi hk ha) (by rw [Layout.ends_eq hj, hends])

/-- The search succeeds, walks all code, and finds the leaders. -/
theorem discover_complete (hs : l.Sound) : ∃ d, discover l = .ok d ∧ Complete l d := by
  have hstart : Drained l {} := ⟨inv_empty l, rfl, rfl⟩
  obtain ⟨d, hd, hdrained, -, hroots⟩ := fromRoots_ok (Order.sortBy id l.roots) hs hstart
    (fun a ha => mem_sortBy.mp ha)
  obtain ⟨e, he, hdrained', hgrows, hall⟩ := fromOrphans_ok hs hdrained (Nat.le_refl _)
  refine ⟨e, ?_, hdrained', fun hp => hall _ hp, hdrained'.inv.leader, ?_⟩
  · simp only [discover, hd, bind, Except.bind]
    exact he
  · refine hdrained'.head_of_leaderAt hs ?_ hall
    intro a ha
    obtain ⟨p, hp, hhead⟩ := hroots a (mem_sortBy.mpr ha)
    exact ⟨p, hp, hgrows.heads hhead⟩

end

end ScriptFlow.Flow
