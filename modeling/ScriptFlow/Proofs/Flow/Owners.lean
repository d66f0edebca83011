import ScriptFlow.Proofs.Flow.Edges

/-! # Roots own themselves

A walk stops in front of a root, so a root is never found in the middle of a block: it is the start of
one from the first moment on, and then it owns it. -/

namespace ScriptFlow.Flow

/-- Roots are never walked past, and blocks that start at one belong to it. -/
structure RootsOwned (l : Layout) (d : Discovery) : Prop where
  pending : ∀ p ∈ d.pending, p ∈ d.heads
  walked : ∀ p ∈ d.walked, (l.root? p).isSome → p ∈ d.heads
  owned : ∀ s ∈ d.starts, ∀ a, l.root? s.position = some a → s.owner = some a

section
variable {l : Layout} {d e : Discovery} {p q : Nat} {owner : Option Int}

theorem rootsOwned_empty (l : Layout) : RootsOwned l {} := ⟨nofun, nofun, nofun⟩

/-- Edges, calls and events do not matter. -/
theorem RootsOwned.of_eq (h : RootsOwned l d) (hstarts : e.starts = d.starts)
    (hwalked : e.walked = d.walked) (hpending : e.pending = d.pending) : RootsOwned l e := by
  obtain ⟨pending, walked, owned⟩ := h
  refine ⟨?_, ?_, hstarts ▸ owned⟩
  · simpa [Discovery.heads, hstarts, hpending] using pending
  · simpa [Discovery.heads, hstarts, hwalked] using walked

/-- A root asked for is a start already, or becomes one with itself as its owner. -/
theorem RootsOwned.request (h : RootsOwned l d) : RootsOwned l (d.request l p owner) := by
  obtain ⟨-, he⟩ | ⟨hhead, hwalked, he⟩ | ⟨-, -, he⟩ := request_cases l p owner d
  · rwa [he]
  · rw [he]
    have hgrows : d.heads ⊆ (d.starts ++ [Start.mk p (d.ownerOf p)]).map Start.position := by
      simp [Discovery.heads]
    refine ⟨fun q hq => hgrows (h.pending q hq), fun q hq hr => hgrows (h.walked q hq hr), ?_⟩
    intro s hs a ha
    rcases List.mem_append.mp hs with hs | hs
    · exact h.owned s hs a ha
    · -- the middle of a walked block is no root
      cases List.mem_singleton.mp hs
      exact absurd (h.walked p hwalked (by rw [ha]; rfl)) hhead
  · rw [he]
    have hheads := heads_append d p ((l.root? p).or owner)
    refine ⟨fun q hq => ?_, fun q hq hr => ?_, fun s hs a ha => ?_⟩
    · show q ∈ (d.starts ++ _).map Start.position
      rw [hheads, List.mem_append]
      exact (List.mem_append.mp hq).imp_left (h.pending q)
    · show q ∈ (d.starts ++ _).map Start.position
      rw [hheads, List.mem_append]
      exact .inl (h.walked q hq hr)
    · rcases List.mem_append.mp hs with hs | hs
      · exact h.owned s hs a ha
      · cases List.mem_singleton.mp hs
        show (l.root? p).or owner = some a
        rw [ha]
        rfl

theorem RootsOwned.requestAt {a : Int} (h : RootsOwned l d)
    (he : d.requestAt l a owner = .ok (q, e)) : RootsOwned l e := by
  unfold Discovery.requestAt at he
  split at he
  · cases he
    exact h.request
  · cases he

theorem RootsOwned.branches {ss : List (Int × EdgeKind)} (h : RootsOwned l d)
    (he : branches l p owner ss d = .ok e) : RootsOwned l e := by
  induction ss generalizing d with
  | nil =>
    cases he
    exact h
  | cons s ss ih =>
    simp only [Flow.branches, bind, Except.bind] at he
    split at he
    · cases he
    · rename_i r hr
      have hrequest := h.requestAt (q := r.1) (e := r.2) hr
      refine ih ?_ he
      exact hrequest.of_eq rfl rfl rfl

theorem RootsOwned.noteCall {i : LinkedInstruction} (h : RootsOwned l d)
    (he : noteCall l owner i d = .ok e) : RootsOwned l e := by
  unfold Flow.noteCall at he
  split at he
  · split at he
    · simp only [bind, Except.bind] at he
      split at he
      · cases he
      · rename_i r hr
        cases he
        exact (h.requestAt (q := r.1) (e := r.2) hr).of_eq rfl rfl rfl
    · cases he
  · cases he
    exact h

/-- A walk claims its start and positions it does not stop at. -/
theorem mem_run {stops : Nat → Bool} {code : List LinkedInstruction} {r : Nat}
    (h : r ∈ (run stops p code).1) : r = p ∨ stops r = false := by
  induction code generalizing p with
  | nil => cases h
  | cons i rest ih =>
    unfold run at h
    split at h
    · exact .inl (List.mem_singleton.mp h)
    · split at h
      · exact .inl (List.mem_singleton.mp h)
      · split at h
        · exact .inl (List.mem_singleton.mp h)
        · rename_i hstops
          rcases List.mem_cons.mp h with rfl | h
          · exact .inl rfl
          · rcases ih h with rfl | h
            · exact .inr (by simpa using hstops)
            · exact .inr h

theorem RootsOwned.walk (h : RootsOwned l d) (hp : p ∈ d.heads) (he : walk l p d = .ok e) :
    RootsOwned l e := by
  have hclaim : RootsOwned l { d with walked := d.walked ++
      (run (fun q => d.starts? q || (l.root? q).isSome) p (l.code.drop p)).1 } := by
    refine ⟨h.pending, fun q hq hr => ?_, h.owned⟩
    rcases List.mem_append.mp hq with hq | hq
    · exact h.walked q hq hr
    · rcases mem_run hq with rfl | hstops
      · exact hp
      · simp [hr] at hstops
  unfold Flow.walk at he
  dsimp only at he
  split at he
  · simp only [bind, Except.bind] at he
    split at he
    · cases he
    · rename_i d' hd'
      exact (hclaim.branches hd').noteCall he
  · rename_i q _
    cases he
    exact RootsOwned.of_eq (hclaim.request (p := q + 1)) rfl rfl rfl
  · cases he
    exact hclaim.of_eq rfl rfl rfl
  · cases he
    exact hclaim

theorem RootsOwned.drain {fuel : Nat} (h : RootsOwned l d) (he : drain l fuel d = .ok e) :
    RootsOwned l e := by
  induction fuel generalizing d with
  | zero =>
    cases he
    exact h
  | succ fuel ih =>
    unfold Flow.drain at he
    split at he
    · cases he
      exact h
    · rename_i p rest hpending
      simp only [bind, Except.bind] at he
      split at he
      · cases he
      · rename_i d' hd'
        have hrest : RootsOwned l { d with pending := rest } :=
          ⟨fun q hq => h.pending q (by rw [hpending]; exact List.mem_cons_of_mem _ hq), h.walked,
            h.owned⟩
        exact ih (hrest.walk (h.pending p (by simp [hpending])) hd') he

theorem RootsOwned.foldlM {α : Type} {f : Discovery → α → Except FlowError Discovery}
    (step : ∀ {d e a}, RootsOwned l d → f d a = .ok e → RootsOwned l e) {as : List α}
    (h : RootsOwned l d) (he : as.foldlM f d = .ok e) : RootsOwned l e := by
  induction as generalizing d with
  | nil =>
    cases he
    exact h
  | cons a as ih =>
    simp only [List.foldlM_cons, bind, Except.bind] at he
    split at he
    · cases he
    · rename_i d' hd'
      exact ih (step h hd') he

theorem discover_rootsOwned (h : discover l = .ok d) : RootsOwned l d := by
  simp only [discover, bind, Except.bind] at h
  split at h
  · cases h
  · rename_i d' hd'
    have hroots : RootsOwned l d' := by
      refine (rootsOwned_empty l).foldlM (fun {d e a} hd he => ?_) hd'
      simp only [fromRoot, bind, Except.bind] at he
      split at he
      · cases he
      · rename_i r hr
        exact (hd.requestAt (q := r.1) (e := r.2) hr).drain he
    refine hroots.foldlM (fun {d e p} hd he => ?_) h
    unfold fromOrphan at he
    split at he
    · cases he
      exact hd
    · exact hd.request.drain he

/-- The block at a root belongs to that root. -/
theorem Complete.owner_root (hc : Complete l d) (ho : RootsOwned l d) {i : LinkedInstruction}
    (hp : l.code[p]? = some i) (hroot : i.address ∈ l.roots) :
    blockOf d.starts p < (assemble l.code d).size ∧
      (assemble l.code d).addressOf (blockOf d.starts p) = i.address ∧
      ((assemble l.code d).block (blockOf d.starts p)).owner = some i.address := by
  have hhead : p ∈ d.heads := hc.head_iff.mpr ⟨i, hp, .root hroot⟩
  obtain ⟨b, s, hb, rfl⟩ := hc.exists_start_of_leaderAt (hc.inv.leader hhead)
  rw [hc.blockOf_start hb, assemble_owner hb]
  refine ⟨lt_assemble_size hb, assemble_addressOf hb hp, ?_⟩
  exact ho.owned s (List.mem_of_getElem? hb) _ (by simp [Layout.root?, hp, hroot])

end

end ScriptFlow.Flow
