import ScriptFlow.Proofs.Flow.Cutting
import ScriptFlow.Proofs.Instruction.Decode
import Mathlib.Logic.Relation

/-! # The search, action by action

A search takes few kinds of actions: it lets a block start at a root, at code nothing has come to or
where an instruction leads, claims the code behind a start, and notes edges and calls. `Acts` says when
each may be taken, without the loops that take them, so what every action keeps holds at every moment
of a search. `Sane` is the first such fact; the last part shows that a search takes no other steps. -/

namespace ScriptFlow

namespace LinkedInstruction

/-- The addresses control may come to right behind an instruction. -/
def onward (i : LinkedInstruction) : List Int :=
  (if i.opcode.branches then i.target.toList else []) ++ i.follower.toList

/-- Those of them that are in the same subroutine: a call comes back, and a stored continuation is
run later. -/
def inside (i : LinkedInstruction) : List Int :=
  (if i.opcode ∈ [Opcode.jmp, .jz, .jnz] then i.target.toList else []) ++ i.follower.toList

theorem onward_of_inside {i : LinkedInstruction} {a : Int} (h : a ∈ i.inside) : a ∈ i.onward := by
  rcases List.mem_append.mp h with h | h
  · split at h
    · rename_i hop
      refine List.mem_append_left _ ?_
      rw [if_pos]
      · exact h
      · revert hop
        cases i.opcode <;> simp [Opcode.branches]
    · cases h
  · exact List.mem_append_right _ h

end LinkedInstruction

namespace Flow

namespace Layout

/-- Control goes from one position to another, where `next` are the addresses it may go to. -/
def Flows (l : Layout) (next : LinkedInstruction → List Int) (p q : Nat) : Prop :=
  ∃ i j, l.code[p]? = some i ∧ l.code[q]? = some j ∧ j.address ∈ next i

section
variable {l : Layout} {next : LinkedInstruction → List Int} {p q : Nat} {i : LinkedInstruction}

theorem Flows.lt (h : l.Flows next p q) : q < l.code.length := by
  obtain ⟨-, j, -, hj, -⟩ := h
  exact (List.getElem?_eq_some_iff.mp hj).1

/-- What does not end a block leads to the position behind it only. -/
theorem Flows.eq_succ (hl : Linked l.code) (h : l.Flows LinkedInstruction.onward p q)
    (hends : l.ends p = false) : q = p + 1 := by
  obtain ⟨i, j, hi, hj, hmem⟩ := h
  rw [ends_eq hi] at hends
  have hnb : ¬ i.opcode.branches := by
    revert hends
    cases i.opcode <;> simp [Opcode.branches, Opcode.endsBlock]
  rw [LinkedInstruction.onward, if_neg hnb, List.nil_append, Option.mem_toList, hl.follower hi] at hmem
  split at hmem
  · obtain ⟨k, hk, hka⟩ := Option.map_eq_some_iff.mp hmem
    exact position_unique hl.ordered hj hk hka.symm
  · cases hmem

/-- What ends a block leads to leaders. -/
theorem Flows.leaderAt (hl : Linked l.code) (h : l.Flows LinkedInstruction.onward p q)
    (hends : l.ends p = true) : l.LeaderAt q := by
  obtain ⟨i, j, hi, hj, hmem⟩ := h
  rcases List.mem_append.mp hmem with hmem | hmem
  · split at hmem
    · exact ⟨j, hj, .target (List.mem_of_getElem? hi) (by assumption) (Option.mem_toList.mp hmem)⟩
    · cases hmem
  · rw [Option.mem_toList, hl.follower hi] at hmem
    split at hmem
    · obtain ⟨k, hk, hka⟩ := Option.map_eq_some_iff.mp hmem
      rw [ends_eq hi] at hends
      exact ⟨j, hj, hka ▸ .behind hi hends hk⟩
    · cases hmem

/-- Code that does not end a block falls through. -/
theorem flows_succ (hl : Linked l.code) (hends : l.ends p = false) (hp : p + 1 < l.code.length) :
    l.Flows LinkedInstruction.inside p (p + 1) := by
  have hi : l.code[p]? = some l.code[p] := List.getElem?_eq_getElem (by omega)
  have hj : l.code[p + 1]? = some l.code[p + 1] := List.getElem?_eq_getElem hp
  refine ⟨_, _, hi, hj, List.mem_append_right _ ?_⟩
  have hfalls : l.code[p].opcode.fallsThrough = true := by
    rw [ends_eq hi] at hends
    revert hends
    cases l.code[p].opcode <;> simp [Opcode.endsBlock, Opcode.fallsThrough]
  rw [Option.mem_toList, hl.follower hi, if_pos hfalls, hj]
  rfl

theorem Flows.onward (h : l.Flows LinkedInstruction.inside p q) :
    l.Flows LinkedInstruction.onward p q := by
  obtain ⟨i, j, hi, hj, hmem⟩ := h
  exact ⟨i, j, hi, hj, LinkedInstruction.onward_of_inside hmem⟩

/-- The branches of an instruction go onward. -/
theorem flows_of_successors (hi : l.code[p]? = some i) {s : Int × EdgeKind} (hs : s ∈ successors i)
    (hq : l.position? s.1 = some q) : l.Flows LinkedInstruction.onward p q := by
  obtain ⟨j, hj, ha⟩ := position?_some hq
  refine ⟨i, j, hi, hj, ?_⟩
  have target : ∀ {k : EdgeKind}, i.opcode.branches → s ∈ i.target.toList.map (·, k) →
      s.1 ∈ i.onward := by
    intro k hb hs
    obtain ⟨a, hm, rfl⟩ := List.mem_map.mp hs
    exact List.mem_append_left _ (by rwa [if_pos hb])
  have follower : ∀ {k : EdgeKind}, s ∈ i.follower.toList.map (·, k) → s.1 ∈ i.onward := by
    intro k hs
    obtain ⟨a, hm, rfl⟩ := List.mem_map.mp hs
    exact List.mem_append_right _ hm
  rw [ha]
  unfold successors at hs
  dsimp only at hs
  split at hs <;> rename_i hop <;> try rw [List.mem_append] at hs
  · exact target (by simp [hop, Opcode.branches]) hs
  · exact hs.elim (target (by simp [hop, Opcode.branches])) follower
  · exact hs.elim (target (by simp [hop, Opcode.branches])) follower
  · exact target (by simp [hop, Opcode.branches]) hs
  · exact hs.elim (target (by simp [hop, Opcode.branches])) follower
  · cases hs

end

end Layout

/-! ## Actions -/

/-- A moment of a search. What is `busy` is the last position of a walk while its branches are
followed. -/
structure Stage where
  busy : Option Nat := none
  found : Discovery := {}

/-- A walk comes to its end at a position: it ends a block, the code ends, or a block or a root stands
behind it. -/
def Layout.Halts (l : Layout) (heads : List Nat) (q : Nat) : Prop :=
  l.ends q = true ∨ q + 1 = l.code.length ∨ q + 1 ∈ heads ∨ (l.root? (q + 1)).isSome = true

/-- The actions of a search. -/
inductive Acts (l : Layout) : Stage → Stage → Prop
  /-- Let a block start at a root. -/
  | root {d : Discovery} {a : Int} {p : Nat} : a ∈ l.roots → l.position? a = some p →
      d.pending = [] → Acts l ⟨none, d⟩ ⟨none, d.request l p (some a)⟩
  /-- Let a block start at the first position nothing has come to, once all roots are known. -/
  | orphan {d : Discovery} {p : Nat} :
      (∀ a ∈ l.roots, ∃ r, l.position? a = some r ∧ r ∈ d.heads) → d.pending = [] →
      p < l.code.length → (∀ r < p, r ∈ d.walked) → p ∉ d.walked → p ∉ d.heads →
      Acts l ⟨none, d⟩ ⟨none, d.request l p none⟩
  /-- Claim the code behind the first pending start. -/
  | claim {d : Discovery} {p q : Nat} {rest : List Nat} : d.pending = p :: rest → p ≤ q →
      q < l.code.length → (∀ r, p ≤ r → r < q → l.ends r = false ∧ r + 1 ∉ d.heads ∧
        (l.root? (r + 1)).isSome = false) → l.Halts d.heads q →
      Acts l ⟨none, d⟩ ⟨some q, claim d rest p q⟩
  /-- Let a block start where the busy position leads. -/
  | follow {d : Discovery} {q t : Nat} : l.Flows LinkedInstruction.onward q t →
      Acts l ⟨some q, d⟩ ⟨some q, d.request l t (d.ownerOf q)⟩
  /-- Note an edge of the busy position. -/
  | jump {d : Discovery} {q t : Nat} {k : EdgeKind} : t ∈ d.heads →
      Acts l ⟨some q, d⟩ ⟨some q, d.jump q t k⟩
  /-- Note a call that comes back to a known start. -/
  | call {d : Discovery} {q : Nat} {c : Call} : c.back ∈ d.heads →
      Acts l ⟨some q, d⟩ ⟨some q, { d with calls := d.calls ++ [c] }⟩
  /-- Report something. -/
  | report {d : Discovery} {q : Nat} {e : Event} :
      Acts l ⟨some q, d⟩ ⟨some q, { d with events := d.events ++ [e] }⟩
  /-- Leave the busy position when all it leads to is known. -/
  | done {d : Discovery} {q : Nat} : (∀ t, l.Flows LinkedInstruction.onward q t → t ∈ d.heads) →
      d.jumpsFrom q = l.outgoing d.heads q → Acts l ⟨some q, d⟩ ⟨none, d⟩

/-- A search can come to this moment. -/
def Stage.Reached (l : Layout) (st : Stage) : Prop := Relation.ReflTransGen (Acts l) {} st

/-! ## Owners of walked code -/

section
variable {l : Layout} {busy : Option Nat} {d : Discovery} {starts : List Start} {s : Start}
variable {p q r w : Nat} {owner : Option Int}

/-- The start in front of a position is the closest one. -/
theorem startOf?_eq (hnd : (starts.map Start.position).Nodup) (hs : s ∈ starts)
    (hle : s.position ≤ p) (hmax : ∀ t ∈ starts, t.position ≤ p → t.position ≤ s.position) :
    startOf? starts p = some s := by
  cases hu : startOf? starts p with
  | none => exact absurd hu (startOf?_ne_none hs hle)
  | some u =>
    obtain ⟨hmem, hup, hu'⟩ := startOf?_spec hu
    have hus : u.position = s.position := Nat.le_antisymm (hmax u hmem hup) (hu' s hs hle)
    rw [List.inj_on_of_nodup_map hnd hmem hs hus]

/-- Between starts nothing changes. -/
theorem startOf?_congr (hnd : (starts.map Start.position).Nodup) (hle : p ≤ q)
    (hfree : ∀ r, p < r → r ≤ q → r ∉ starts.map Start.position) :
    startOf? starts q = startOf? starts p := by
  have inFront : ∀ t ∈ starts, t.position ≤ q → t.position ≤ p := by
    intro t ht htq
    by_contra hn
    exact hfree t.position (by omega) htq (List.mem_map_of_mem ht)
  cases hp : startOf? starts p with
  | none =>
    cases hq : startOf? starts q with
    | none => rfl
    | some u =>
      obtain ⟨hu, huq, -⟩ := startOf?_spec hq
      exact absurd hp (startOf?_ne_none hu (inFront u hu huq))
  | some u =>
    obtain ⟨hu, hup, humax⟩ := startOf?_spec hp
    exact startOf?_eq hnd hu (by omega) (fun t ht htq => humax t ht (inFront t ht htq))

/-- One more start serves the positions from it on up to the next start. -/
theorem startOf?_append (hnd : ((starts ++ [s]).map Start.position).Nodup) :
    startOf? (starts ++ [s]) w = startOf? starts w ∨
      startOf? (starts ++ [s]) w = some s ∧ s.position ≤ w ∧
        startOf? starts w = startOf? starts s.position ∧
        ∀ r, s.position < r → r ≤ w → r ∉ starts.map Start.position := by
  have hnd' : (starts.map Start.position).Nodup := by
    rw [List.map_append] at hnd
    exact hnd.of_append_left
  by_cases hlast : s.position ≤ w ∧ ∀ t ∈ starts, t.position ≤ w → t.position ≤ s.position
  · obtain ⟨hle, hmax⟩ := hlast
    have hfree : ∀ r, s.position < r → r ≤ w → r ∉ starts.map Start.position := by
      intro r hr hrw hm
      obtain ⟨t, ht, rfl⟩ := List.mem_map.mp hm
      have := hmax t ht hrw
      omega
    refine .inr ⟨startOf?_eq hnd (by simp) hle ?_, hle, startOf?_congr hnd' hle hfree, hfree⟩
    intro t ht htw
    rcases List.mem_append.mp ht with ht | ht
    · exact hmax t ht htw
    · exact Nat.le_of_eq (congrArg Start.position (List.mem_singleton.mp ht))
  · left
    cases hu : startOf? starts w with
    | none =>
      cases hv : startOf? (starts ++ [s]) w with
      | none => rfl
      | some v =>
        obtain ⟨hmem, hvw, -⟩ := startOf?_spec hv
        exfalso
        rcases List.mem_append.mp hmem with hmem | hmem
        · exact startOf?_ne_none hmem hvw hu
        · rw [List.mem_singleton.mp hmem] at hvw
          exact hlast ⟨hvw, fun t ht htw => absurd hu (startOf?_ne_none ht htw)⟩
    | some u =>
      obtain ⟨hmem, huw, humax⟩ := startOf?_spec hu
      refine startOf?_eq hnd (List.mem_append_left _ hmem) huw ?_
      intro t ht htw
      rcases List.mem_append.mp ht with ht | ht
      · exact humax t ht htw
      · rw [List.mem_singleton.mp ht] at htw ⊢
        by_contra hn
        refine hlast ⟨htw, fun v hv hvw => ?_⟩
        have := humax v hv hvw
        omega

/-- From a walked position back to the start of its block all code is walked and falls through. -/
theorem Inv.walked_back (h : Inv l busy d) (hw : w ∈ d.walked) (hr : r ≤ w)
    (hfree : ∀ x, r < x → x ≤ w → x ∉ d.heads) :
    r ∈ d.walked ∧ ∀ x, r ≤ x → x < w → x ∈ d.walked ∧ l.ends x = false := by
  induction w with
  | zero =>
    obtain rfl : r = 0 := by omega
    exact ⟨hw, fun x _ hx => by omega⟩
  | succ w ih =>
    by_cases hrw : r = w + 1
    · exact ⟨hrw ▸ hw, fun x h1 h2 => by omega⟩
    · obtain ⟨v, hv, hvw, hends⟩ := h.entered hw (hfree (w + 1) (by omega) (Nat.le_refl _))
      obtain rfl : w = v := by omega
      obtain ⟨hr', hall⟩ := ih hvw (by omega) (fun x h1 h2 => hfree x h1 (by omega))
      refine ⟨hr', fun x h1 h2 => ?_⟩
      by_cases hx : x = w
      · exact hx ▸ ⟨hvw, hends⟩
      · exact hall x h1 (by omega)

/-- Walked code is in a block. -/
theorem Inv.exists_startOf? (h : Inv l busy d) (hw : w ∈ d.walked) :
    ∃ s ∈ d.starts, startOf? d.starts w = some s := by
  cases hs : startOf? d.starts w with
  | some s => exact ⟨s, (startOf?_spec hs).1, rfl⟩
  | none =>
    have hfree : ∀ x, x ≤ w → x ∉ d.heads := by
      intro x hx hm
      obtain ⟨s, hs', rfl⟩ := List.mem_map.mp hm
      exact startOf?_ne_none hs' hx hs
    obtain ⟨h0, -⟩ := h.walked_back hw (Nat.zero_le w) (fun x _ hx => hfree x hx)
    obtain ⟨x, hx, -⟩ := h.entered h0 (hfree 0 (Nat.zero_le _))
    omega

theorem ownerOf_head (hnd : d.heads.Nodup) (hs : s ∈ d.starts) : d.ownerOf s.position = s.owner := by
  unfold Discovery.ownerOf
  rw [startOf?_eq hnd hs (Nat.le_refl _) (fun t _ h => h)]
  rfl

theorem Inv.heads_append_nodup (h : Inv l busy d) (hp : p ∉ d.heads) (o : Option Int) :
    ((d.starts ++ [Start.mk p o]).map Start.position).Nodup := by
  rw [heads_append, List.nodup_append]
  refine ⟨h.heads_nodup, List.nodup_singleton _, ?_⟩
  intro a ha b hb hab
  exact hp (List.mem_singleton.mp hb ▸ hab ▸ ha)

/-- A start where nothing is walked serves nothing that is walked or starts a block. -/
theorem Inv.startOf?_open (h : Inv l busy d) (hp : p ∉ d.heads) (hnw : p ∉ d.walked)
    (o : Option Int) (hw : w ∈ d.walked ∨ w ∈ d.heads) :
    startOf? (d.starts ++ [⟨p, o⟩]) w = startOf? d.starts w := by
  obtain hsame | ⟨-, hpw, -, hfree⟩ := startOf?_append (w := w) (h.heads_append_nodup hp o)
  · exact hsame
  · -- the new start would have to be walked or to be the head itself
    exfalso
    rcases hw with hw | hw
    · exact hnw (h.walked_back hw hpw hfree).1
    · rcases Nat.lt_or_eq_of_le hpw with hlt | heq
      · exact hfree w hlt (Nat.le_refl _) hw
      · obtain rfl : p = w := heq
        exact hp hw

/-- Letting a block start changes the owner of nothing that is walked or starts a block. -/
theorem Inv.ownerOf_request (h : Inv l busy d) (hw : w ∈ d.walked ∨ w ∈ d.heads) :
    (d.request l p owner).ownerOf w = d.ownerOf w := by
  obtain ⟨-, he⟩ | ⟨hh, -, he⟩ | ⟨hh, hnw, he⟩ := request_cases l p owner d
  · rw [he]
  · rw [he]
    show (startOf? (d.starts ++ [⟨p, d.ownerOf p⟩]) w).bind Start.owner = _
    obtain hsame | ⟨hnew, -, hold, -⟩ :=
      startOf?_append (w := w) (h.heads_append_nodup hh (d.ownerOf p))
    · rw [hsame]
      rfl
    · rw [hnew]
      exact (congrArg (Option.bind · Start.owner) hold).symm
  · rw [he]
    show (startOf? (d.starts ++ [⟨p, (l.root? p).or owner⟩]) w).bind Start.owner = _
    rw [h.startOf?_open hh hnw _ hw]
    rfl

end

/-! ## What every action keeps -/

/-- What holds at every moment of a search: the invariant of discoveries, and what a walk knows of the
position it is busy with. -/
structure Sane (l : Layout) (st : Stage) : Prop where
  inv : Inv l st.busy st.found
  busy_walked : ∀ {q}, st.busy = some q → q ∈ st.found.walked
  halts : ∀ {q}, st.busy = some q → l.Halts st.found.heads q
  followed : ∀ {q t}, q ∈ st.found.walked → st.busy ≠ some q →
    l.Flows LinkedInstruction.onward q t → t ∈ st.found.heads ∨ t ∈ st.found.walked
  back_head : ∀ {c}, c ∈ st.found.calls → c.back ∈ st.found.heads

theorem sane_empty (l : Layout) : Sane l {} := ⟨inv_empty l, nofun, nofun, nofun, nofun⟩

theorem Layout.Halts.mono {l : Layout} {heads heads' : List Nat} {q : Nat} (h : l.Halts heads q)
    (hsub : heads ⊆ heads') : l.Halts heads' q :=
  h.imp id (Or.imp id (Or.imp (fun hm => hsub hm) id))

section
variable {l : Layout} {st st' : Stage} {d : Discovery} {busy : Option Nat} {p q t : Nat}

/-- What the busy position leads to is a leader. -/
theorem Sane.leaderAt (hl : Linked l.code) (h : Sane l ⟨some q, d⟩)
    (hf : l.Flows LinkedInstruction.onward q t) : l.LeaderAt t := by
  by_cases hends : l.ends q = true
  · exact hf.leaderAt hl hends
  · have ht := hf.eq_succ hl (by simpa using hends)
    have hlt := hf.lt
    rcases h.halts rfl with hhalt | hhalt | hhalt | hhalt
    · exact absurd hhalt hends
    · omega
    · exact ht ▸ h.inv.leader hhalt
    · exact ht ▸ Layout.leaderAt_root hhalt

theorem Sane.request {owner : Option Int} (h : Sane l ⟨busy, d⟩) (hp : l.LeaderAt p) :
    Sane l ⟨busy, d.request l p owner⟩ where
  inv := h.inv.request hp
  busy_walked hq := by
    show _ ∈ (d.request l p owner).walked
    rw [request_walked]
    exact h.busy_walked hq
  halts hq := (h.halts hq).mono request_grows.heads
  followed hw hb hf := by
    show _ ∈ (d.request l p owner).heads ∨ _ ∈ (d.request l p owner).walked
    rw [request_walked] at hw ⊢
    exact (h.followed hw hb hf).imp (fun hm => request_grows.heads hm) id
  back_head hc := by
    rw [request_calls] at hc
    exact request_grows.heads (h.back_head hc)

theorem Sane.claim {rest : List Nat} (hl : Linked l.code) (h : Sane l ⟨none, d⟩)
    (hpend : d.pending = p :: rest) (hpq : p ≤ q) (hq : q < l.code.length)
    (hfree : ∀ r, p ≤ r → r < q → l.ends r = false ∧ r + 1 ∉ d.heads ∧
      (l.root? (r + 1)).isSome = false) (hhalt : l.Halts d.heads q) :
    Sane l ⟨some q, Flow.claim d rest p q⟩ where
  inv := (h.inv.claim hpend hpq hq hfree).1
  busy_walked hb := by
    cases hb
    exact (mem_claim hpq).mpr (.inr ⟨hpq, Nat.le_refl _⟩)
  halts hb := by
    cases hb
    exact hhalt
  followed {r t} hr hb hf := by
    rcases (mem_claim hpq).mp hr with hr | ⟨h1, h2⟩
    · exact (h.followed hr (by simp) hf).imp id (fun hm => (mem_claim hpq).mpr (.inl hm))
    · have hne : r ≠ q := fun hrq => hb (by rw [hrq])
      have ht := hf.eq_succ hl (hfree r h1 (by omega)).1
      exact .inr ((mem_claim hpq).mpr (.inr ⟨by omega, by omega⟩))
  back_head hc := h.back_head hc

theorem Acts.sane (hl : Linked l.code) (h : Sane l st) (hact : Acts l st st') : Sane l st' := by
  cases hact with
  | root ha hp _ =>
    obtain ⟨i, hi, rfl⟩ := Layout.position?_some hp
    exact h.request ⟨i, hi, .root ha⟩
  | @orphan d p _ hidle hp hfront hw hh =>
    refine h.request ?_
    cases p with
    | zero => exact Layout.leaderAt_zero hp
    | succ q =>
      by_cases hends : l.ends q = true
      · exact Layout.leaderAt_behind hends hp
      · rcases h.inv.onward (hfront q (by omega)) (by simp) (by simpa using hends) hp with h' | h'
        · exact absurd h' hw
        · exact absurd h' hh
  | claim hpend hpq hq hfree hhalt => exact h.claim hl hpend hpq hq hfree hhalt
  | follow hf => exact h.request (h.leaderAt hl hf)
  | jump ht =>
    exact ⟨h.inv.jump (h.busy_walked rfl) ht, h.busy_walked, h.halts, h.followed, h.back_head⟩
  | call hback =>
    refine ⟨{ h.inv with }, h.busy_walked, h.halts, h.followed, fun hc => ?_⟩
    rcases List.mem_append.mp hc with hc | hc
    · exact h.back_head hc
    · exact List.mem_singleton.mp hc ▸ hback
  | report => exact ⟨{ h.inv with }, h.busy_walked, h.halts, h.followed, h.back_head⟩
  | @done d q hall hjumps =>
    refine ⟨h.inv.close ?_ (h.busy_walked rfl) hjumps, nofun, nofun, ?_, h.back_head⟩
    · intro hends hlt
      exact hall _ (Layout.flows_succ hl hends hlt).onward
    · intro r t hr _ hf
      by_cases hrq : r = q
      · subst hrq
        exact .inl (hall t hf)
      · exact h.followed hr (by simpa using Ne.symm hrq) hf

/-- What a later moment keeps of an earlier one. The owner of code that is walked or starts a block is
settled. -/
structure Extends (st st' : Stage) : Prop where
  heads : st.found.heads ⊆ st'.found.heads
  walked : st.found.walked <+: st'.found.walked
  owner : ∀ {p}, p ∈ st.found.walked ∨ p ∈ st.found.heads →
    st'.found.ownerOf p = st.found.ownerOf p

theorem Acts.extends (h : Sane l st) (hact : Acts l st st') : Extends st st' := by
  cases hact with
  | root | orphan | follow =>
    exact ⟨request_grows.heads, ⟨[], by rw [List.append_nil, request_walked]⟩, h.inv.ownerOf_request⟩
  | claim => exact ⟨List.Subset.refl _, List.prefix_append _ _, fun _ => rfl⟩
  | jump | call | report | done =>
    exact ⟨List.Subset.refl _, List.prefix_refl _, fun _ => rfl⟩

theorem Extends.trans {st'' : Stage} (h : Extends st st') (h' : Extends st' st'') :
    Extends st st'' where
  heads _ hp := h'.heads (h.heads hp)
  walked := h.walked.trans h'.walked
  owner hp := (h'.owner (hp.imp (fun hw => h.walked.subset hw) (fun hh => h.heads hh))).trans
    (h.owner hp)

theorem Sane.acts (hl : Linked l.code) (h : Sane l st)
    (hacts : Relation.ReflTransGen (Acts l) st st') : Sane l st' ∧ Extends st st' := by
  induction hacts with
  | refl => exact ⟨h, List.Subset.refl _, List.prefix_refl _, fun _ => rfl⟩
  | tail _ hact ih => exact ⟨hact.sane hl ih.1, ih.2.trans (hact.extends ih.1)⟩

theorem Stage.Reached.sane (hl : Linked l.code) (h : st.Reached l) : Sane l st :=
  ((sane_empty l).acts hl h).1

end

/-! ## A search takes these actions only -/

section
variable {l : Layout} {d e : Discovery} {p q t : Nat} {a : Int} {i : LinkedInstruction}
variable {owner : Option Int}

theorem requestAt_eq_ok {r : Nat × Discovery} (h : d.requestAt l a owner = .ok r) :
    l.position? a = some r.1 ∧ r.2 = d.request l r.1 owner := by
  unfold Discovery.requestAt at h
  split at h
  · cases h
    exact ⟨by assumption, rfl⟩
  · cases h

theorem branches_acts {ss : List (Int × EdgeKind)} (hl : Linked l.code) (hi : l.code[q]? = some i)
    (hss : ∀ s ∈ ss, s ∈ successors i) (h : Sane l ⟨some q, d⟩) (howner : d.ownerOf q = owner)
    (he : branches l q owner ss d = .ok e) :
    Relation.ReflTransGen (Acts l) ⟨some q, d⟩ ⟨some q, e⟩ ∧ e.ownerOf q = owner := by
  induction ss generalizing d with
  | nil =>
    cases he
    exact ⟨.refl, howner⟩
  | cons s ss ih =>
    rw [branches] at he
    obtain ⟨r, hr, he⟩ := bind_eq_ok.mp he
    obtain ⟨ht, hreq⟩ := requestAt_eq_ok hr
    have hfollow : Acts l ⟨some q, d⟩ ⟨some q, r.2⟩ := by
      rw [hreq, ← howner]
      exact .follow (Layout.flows_of_successors hi (hss s (by simp)) ht)
    have hjump : Acts l ⟨some q, r.2⟩ ⟨some q, r.2.jump q r.1 s.2⟩ :=
      .jump (by rw [hreq]; exact request_head)
    have howner' : r.2.ownerOf q = owner :=
      ((hfollow.extends h).owner (.inl (h.busy_walked rfl))).trans howner
    obtain ⟨hacts, hend⟩ := ih (fun s hs => hss s (List.mem_cons_of_mem _ hs))
      (hjump.sane hl (hfollow.sane hl h)) howner' he
    exact ⟨.head hfollow (.head hjump hacts), hend⟩

/-- Noting a call lets a block start behind it, and changes no edge. -/
theorem noteCall_acts (hl : Linked l.code) (hi : l.code[q]? = some i) (h : Sane l ⟨some q, d⟩)
    (howner : d.ownerOf q = owner) (he : noteCall l owner i d = .ok e) :
    Relation.ReflTransGen (Acts l) ⟨some q, d⟩ ⟨some q, e⟩ ∧ e.jumpsFrom q = d.jumpsFrom q ∧
      d.heads ⊆ e.heads ∧ (i.opcode = .jsr → q + 1 ∈ e.heads) := by
  unfold noteCall at he
  split at he
  · rename_i callee back hop htarget hback
    split at he
    · obtain ⟨r, hr, he⟩ := bind_eq_ok.mp he
      cases he
      obtain ⟨hpos, hreq⟩ := requestAt_eq_ok hr
      obtain ⟨j, hj, hfollower⟩ := Layout.follower_eq hl hi (by rw [hop]; rfl)
      rw [hback] at hfollower
      cases hfollower
      have hr1 : q + 1 = r.1 := Option.some.inj ((Layout.position?_eq hl hj).symm.trans hpos)
      have hflow : l.Flows LinkedInstruction.onward q r.1 := by
        refine ⟨i, j, hi, hr1 ▸ hj, List.mem_append_right _ ?_⟩
        rw [hback]
        simp
      have hfollow : Acts l ⟨some q, d⟩ ⟨some q, r.2⟩ := by
        rw [hreq, ← howner]
        exact .follow hflow
      have hhead : r.1 ∈ r.2.heads := by
        rw [hreq]
        exact request_head
      refine ⟨.head hfollow (.single (.call hhead)), ?_, (hfollow.extends h).heads, fun _ => ?_⟩
      · show r.2.jumpsFrom q = _
        rw [hreq]
        exact h.inv.request_jumpsFrom
      · exact hr1 ▸ hhead
    · cases he
  · rename_i hno
    cases he
    refine ⟨.refl, rfl, List.Subset.refl _, fun hop => ?_⟩
    obtain ⟨c, -, htarget⟩ := hl.target (List.mem_of_getElem? hi) (by simp [hop, Opcode.branches])
    obtain ⟨j, -, hfollower⟩ := Layout.follower_eq hl hi (by rw [hop]; rfl)
    exact absurd hfollower (hno _ _ hop htarget)

/-- What an instruction that ends a block leads to is one of its branches, or what a call comes back
to. -/
theorem successors_of_onward (hends : i.opcode.endsBlock = true)
    (hfalls : i.opcode.fallsThrough = false → i.follower = none) (h : a ∈ i.onward) :
    (∃ k, (a, k) ∈ successors i) ∨ i.opcode = .jsr ∧ i.follower = some a := by
  unfold successors
  cases hop : i.opcode <;>
    simp only [hop, LinkedInstruction.onward, Opcode.endsBlock, Opcode.fallsThrough,
      Opcode.branches, List.mem_append, Option.mem_toList, List.mem_map, List.mem_cons,
      reduceCtorEq, or_true, false_or, true_or, if_true] at hends hfalls h ⊢ <;>
    grind

theorem Layout.Flows.ways (hl : Linked l.code) (hi : l.code[q]? = some i) (hends : l.ends q = true)
    (h : l.Flows LinkedInstruction.onward q t) :
    (∃ k, (t, k) ∈ l.ways q) ∨ i.opcode = .jsr ∧ t = q + 1 := by
  obtain ⟨i', j, hi', hj, hmem⟩ := h
  obtain rfl : i = i' := Option.some.inj (hi.symm.trans hi')
  rw [Layout.ends_eq hi] at hends
  have hfollower := hl.follower hi
  obtain ⟨k, hk⟩ | ⟨hop, hback⟩ := successors_of_onward hends
    (fun hfalls => by rw [hfollower, hfalls]; rfl) hmem
  · refine .inl ⟨k, List.mem_filterMap.mpr ⟨(j.address, k), by rw [hi]; exact hk, ?_⟩⟩
    rw [Layout.position?_eq hl hj]
    rfl
  · rw [hfollower, hop] at hback
    obtain ⟨n, hn, hna⟩ := Option.map_eq_some_iff.mp hback
    exact .inr ⟨hop, position_unique hl.ordered hj hn hna.symm⟩

/-- Follow the branches of an instruction that ends a block, and leave it. -/
theorem branch_acts (hl : Linked l.code) (h : Sane l ⟨some q, d⟩) (hi : l.code[q]? = some i)
    (hends : l.ends q = true) (howner : d.ownerOf q = owner) (hempty : d.jumpsFrom q = [])
    (he : branches l q owner (successors i) d >>= noteCall l owner i = .ok e) :
    Relation.ReflTransGen (Acts l) ⟨some q, d⟩ ⟨none, e⟩ := by
  obtain ⟨f, hf, he⟩ := bind_eq_ok.mp he
  obtain ⟨hacts, hownerf⟩ := branches_acts hl hi (fun _ hs => hs) h howner hf
  obtain ⟨f', hf', hinv, -, -, -, hjumps⟩ := branches_ok owner h.inv (h.busy_walked rfl)
    (fun s hs => Layout.successors_leaderAt hl hi hs)
  cases hf'.symm.trans hf
  obtain ⟨hacts', hjumps', hheads, hback⟩ := noteCall_acts hl hi (h.acts hl hacts).1 hownerf he
  refine (hacts.trans hacts').trans (.single (.done ?_ ?_))
  · intro t ht
    obtain ⟨k, hk⟩ | ⟨hop, rfl⟩ := ht.ways hl hi hends
    · have hjump : Jump.mk q t k ∈ f.jumpsFrom q := by
        rw [hjumps]
        refine List.mem_append_right _ (List.mem_map.mpr ⟨(t, k), ?_, rfl⟩)
        simpa [Layout.ways, hi] using hk
      exact hheads (hinv.jump_head (List.mem_of_mem_filter hjump))
    · exact hback hop
  · rw [hjumps', hjumps, hempty]
    simp [Layout.outgoing, hends, Layout.ways, hi]

/-- Lead a position into the block behind it, and leave it. -/
theorem meets_acts (hl : Linked l.code) (h : Sane l ⟨some q, d⟩) (hends : l.ends q = false)
    (hlt : q + 1 < l.code.length) (howner : d.ownerOf q = owner) (hempty : d.jumpsFrom q = []) :
    Relation.ReflTransGen (Acts l) ⟨some q, d⟩
      ⟨none, (d.request l (q + 1) owner).jump q (q + 1) .unconditional⟩ := by
  have hfollow : Acts l ⟨some q, d⟩ ⟨some q, d.request l (q + 1) owner⟩ := by
    rw [← howner]
    exact .follow (Layout.flows_succ hl hends hlt).onward
  refine .head hfollow (.head (.jump request_head) (.single (.done ?_ ?_)))
  · intro t ht
    rw [ht.eq_succ hl hends]
    exact request_head
  · rw [jump_jumpsFrom, h.inv.request_jumpsFrom, hempty]
    show _ = l.outgoing (d.request l (q + 1) owner).heads q
    simp [Layout.outgoing, hends, request_head]

theorem claim_ownerOf (rest : List Nat) (h : Inv l none d) (hpq : p ≤ q)
    (hfree : ∀ r, p ≤ r → r < q → r + 1 ∉ d.heads) :
    (claim d rest p q).ownerOf q = d.ownerOf p := by
  show (startOf? d.starts q).bind Start.owner = _
  rw [startOf?_congr h.heads_nodup hpq]
  · rfl
  · intro r h1 h2
    have := hfree (r - 1) (by omega) (by omega)
    rwa [show r - 1 + 1 = r by omega] at this

/-- What stops a walk is what it halts at. -/
theorem EndsWith.halts {ending : Ending}
    (h : EndsWith l (fun q => d.starts? q || (l.root? q).isSome) q ending) : l.Halts d.heads q := by
  cases h with
  | branch _ hends => exact .inl hends
  | runsOff _ hlast => exact .inr (.inl hlast)
  | meets _ _ hstop =>
    rcases Bool.or_eq_true_iff.mp hstop with hm | hroot
    · exact .inr (.inr (.inl (Discovery.starts?_iff.mp hm)))
    · exact .inr (.inr (.inr hroot))

/-- A walk claims code, follows what the last of it leads to, and leaves it. -/
theorem walk_acts {rest : List Nat} (hl : Linked l.code) (h : Sane l ⟨none, d⟩)
    (hpend : d.pending = p :: rest) (he : walk l p { d with pending := rest } = .ok e) :
    Relation.ReflTransGen (Acts l) ⟨none, d⟩ ⟨none, e⟩ ∧ d.walked.length < e.walked.length := by
  have hp : p < l.code.length := (h.inv.leader (h.inv.pending_head (by rw [hpend]; simp)).1).lt
  obtain ⟨q, ending, hpq, hq, hrun, hfree, hend⟩ :=
    run_spec (fun q => d.starts? q || (l.root? q).isSome) hp
  have hfree' : ∀ r, p ≤ r → r < q →
      l.ends r = false ∧ r + 1 ∉ d.heads ∧ (l.root? (r + 1)).isSome = false := by
    intro r h1 h2
    obtain ⟨hends, hstop⟩ := hfree r h1 h2
    rw [Bool.or_eq_false_iff] at hstop
    exact ⟨hends, fun hm => by simp [Discovery.starts?_iff.mpr hm] at hstop, hstop.2⟩
  have hclaim : Acts l ⟨none, d⟩ ⟨some q, claim d rest p q⟩ := .claim hpend hpq hq hfree' hend.halts
  have hs := hclaim.sane hl h
  have howner : (claim d rest p q).ownerOf q = d.ownerOf p :=
    claim_ownerOf rest h.inv hpq (fun r h1 h2 => (hfree' r h1 h2).2.1)
  have hempty := (h.inv.claim hpend hpq hq hfree').2
  have hrest : Relation.ReflTransGen (Acts l) ⟨some q, claim d rest p q⟩ ⟨none, e⟩ := by
    rw [walk_eq hrun] at he
    cases hend with
    | branch hi hends => exact branch_acts hl hs hi hends howner hempty he
    | meets hends hlt _ =>
      cases he
      exact meets_acts hl hs hends hlt howner hempty
    | runsOff hends hlast =>
      cases he
      refine .head .report (.single (.done ?_ (hempty.trans ?_)))
      · intro t ht
        have := ht.eq_succ hl hends
        have := ht.lt
        omega
      · have hout : q + 1 ∉ d.heads := fun hm => by have := (h.inv.leader hm).lt; omega
        show [] = l.outgoing d.heads q
        simp [Layout.outgoing, hends, hout]
  refine ⟨.head hclaim hrest, Nat.lt_of_lt_of_le ?_ (hs.acts hl hrest).2.walked.length_le⟩
  show _ < (claim d rest p q).walked.length
  rw [claim, List.length_append, List.length_range']
  omega

/-- Every walk claims something, so the fuel suffices. -/
theorem drain_acts {fuel : Nat} (hl : Linked l.code) (h : Sane l ⟨none, d⟩)
    (hf : l.code.length < fuel + d.walked.length) (he : drain l fuel d = .ok e) :
    Relation.ReflTransGen (Acts l) ⟨none, d⟩ ⟨none, e⟩ ∧ e.pending = [] := by
  induction fuel generalizing d with
  | zero =>
    have := h.inv.walked_length_le
    simp only at this
    omega
  | succ fuel ih =>
    rw [drain] at he
    cases hpend : d.pending with
    | nil =>
      rw [hpend] at he
      cases he
      exact ⟨.refl, hpend⟩
    | cons p rest =>
      rw [hpend] at he
      obtain ⟨f, hf', he⟩ := bind_eq_ok.mp he
      obtain ⟨hacts, hlen⟩ := walk_acts hl h hpend hf'
      obtain ⟨hacts', hidle⟩ := ih (h.acts hl hacts).1 (by omega) he
      exact ⟨hacts.trans hacts', hidle⟩

/-- A search that can come to rest here: nothing is pending. -/
structure Rests (l : Layout) (d : Discovery) : Prop where
  reached : Stage.Reached l ⟨none, d⟩
  idle : d.pending = []

theorem Rests.walked_of_head (hl : Linked l.code) (h : Rests l d) (hp : p ∈ d.heads) :
    p ∈ d.walked := by
  rcases (h.reached.sane hl).inv.covered hp with hpend | hw
  · rw [h.idle] at hpend
    cases hpend
  · exact hw

/-- After one more request everything is walked again. -/
theorem Rests.drain (hl : Linked l.code) (h : Rests l d)
    (hact : Acts l ⟨none, d⟩ ⟨none, d.request l p owner⟩)
    (he : drain l (l.code.length + 1) (d.request l p owner) = .ok e) :
    Rests l e ∧ Extends ⟨none, d⟩ ⟨none, e⟩ ∧ p ∈ e.heads := by
  have hs := h.reached.sane hl
  obtain ⟨hacts, hidle⟩ := drain_acts hl (hact.sane hl hs) (by omega) he
  refine ⟨⟨(h.reached.tail hact).trans hacts, hidle⟩, (hs.acts hl (.head hact hacts)).2, ?_⟩
  exact ((hact.sane hl hs).acts hl hacts).2.heads request_head

theorem Rests.fromRoots {as : List Int} (hl : Linked l.code) (h : Rests l d)
    (has : ∀ a ∈ as, a ∈ l.roots) (he : as.foldlM (fromRoot l) d = .ok e) :
    Rests l e ∧ Extends ⟨none, d⟩ ⟨none, e⟩ ∧
      ∀ a ∈ as, ∃ p, l.position? a = some p ∧ p ∈ e.heads := by
  induction as generalizing d with
  | nil =>
    cases he
    exact ⟨h, ⟨List.Subset.refl _, List.prefix_refl _, fun _ => rfl⟩, nofun⟩
  | cons a as ih =>
    rw [List.foldlM_cons] at he
    obtain ⟨f, hf, he⟩ := bind_eq_ok.mp he
    obtain ⟨⟨p, g⟩, hr, hf⟩ := bind_eq_ok.mp hf
    obtain ⟨hpos, hreq⟩ := requestAt_eq_ok hr
    obtain rfl : g = d.request l p (some a) := hreq
    obtain ⟨hrests, hext, hp⟩ := h.drain hl (.root (has a (by simp)) hpos h.idle) hf
    obtain ⟨hrests', hext', hall⟩ := ih hrests (fun b hb => has b (List.mem_cons_of_mem _ hb)) he
    refine ⟨hrests', hext.trans hext', fun b hb => ?_⟩
    rcases List.mem_cons.mp hb with rfl | hb
    · exact ⟨p, hpos, hext'.heads hp⟩
    · exact hall b hb

theorem Rests.fromOrphans {n : Nat} (hl : Linked l.code) (h : Rests l d)
    (hroots : ∀ a ∈ l.roots, ∃ p, l.position? a = some p ∧ p ∈ d.heads)
    (hn : n ≤ l.code.length) (he : (List.range n).foldlM (fromOrphan l) d = .ok e) :
    Rests l e ∧ Extends ⟨none, d⟩ ⟨none, e⟩ ∧ ∀ p < n, p ∈ e.walked := by
  induction n generalizing e with
  | zero =>
    cases he
    exact ⟨h, ⟨List.Subset.refl _, List.prefix_refl _, fun _ => rfl⟩, nofun⟩
  | succ n ih =>
    rw [List.range_succ, List.foldlM_append] at he
    obtain ⟨f, hf, he⟩ := bind_eq_ok.mp he
    obtain ⟨hrests, hext, hall⟩ := ih (by omega) hf
    rw [List.foldlM_cons] at he
    obtain ⟨g, hg, he⟩ := bind_eq_ok.mp he
    cases he
    have upTo : ∀ {e : Discovery}, Extends ⟨none, f⟩ ⟨none, e⟩ → n ∈ e.walked →
        ∀ p < n + 1, p ∈ e.walked := by
      intro e hfe hne p hp
      by_cases hpn : p = n
      · exact hpn ▸ hne
      · exact hfe.walked.subset (hall p (by omega))
    unfold fromOrphan at hg
    split at hg
    · rename_i hknown
      cases hg
      refine ⟨hrests, hext, upTo ⟨List.Subset.refl _, List.prefix_refl _, fun _ => rfl⟩ ?_⟩
      rcases Bool.or_eq_true_iff.mp hknown with hw | hh
      · simpa using hw
      · exact hrests.walked_of_head hl (Discovery.starts?_iff.mp hh)
    · rename_i hnew
      rw [Bool.or_eq_true_iff, not_or, Discovery.starts?_iff] at hnew
      have hact : Acts l ⟨none, f⟩ ⟨none, f.request l n none⟩ := by
        refine .orphan (fun a ha => ?_) hrests.idle (by omega) hall (by simpa using hnew.1) hnew.2
        obtain ⟨r, hr, hrh⟩ := hroots a ha
        exact ⟨r, hr, hext.heads hrh⟩
      obtain ⟨hrests', hext', hp⟩ := hrests.drain hl hact hg
      exact ⟨hrests', hext.trans hext', upTo hext' (hrests'.walked_of_head hl hp)⟩

/-- What a search ends with is a moment it can come to, with nothing pending and everything walked. -/
theorem discover_rests (hl : Linked l.code) (h : discover l = .ok d) :
    Rests l d ∧ ∀ p < l.code.length, p ∈ d.walked := by
  obtain ⟨e, he, h⟩ := bind_eq_ok.mp h
  obtain ⟨hrests, -, hroots⟩ := Rests.fromRoots hl ⟨.refl, rfl⟩ (fun a ha => mem_sortBy.mp ha) he
  obtain ⟨hrests', -, hall⟩ :=
    hrests.fromOrphans hl (fun a ha => hroots a (mem_sortBy.mpr ha)) (Nat.le_refl _) h
  exact ⟨hrests', hall⟩

end

end Flow

end ScriptFlow
