import ScriptFlow.Proofs.Flow.Partition

/-! # The edges of a block are those its last instruction asks for

Walks note an edge by the position it leaves. Only a position that ends a block, or stands in front of
a start, has edges, and it is the last of its block however late that start was found. -/

namespace ScriptFlow

/-- Where the edges of a block lead, by address, and how. -/
def Graph.leadsTo (g : Graph) (b : BlockId) : List (Int × EdgeKind) :=
  (g.edges b).map fun e => (g.addressOf e.child, e.kind)

theorem Graph.mem_leadsTo {g : Graph} {b : BlockId} {a : Int} {k : EdgeKind} :
    (a, k) ∈ g.leadsTo b ↔ ∃ e ∈ g.edges b, g.addressOf e.child = a ∧ e.kind = k := by
  simp [leadsTo]

namespace Flow

/-- Where calls of a subroutine return to: behind each call whose target it is. -/
def returnsTo (code : List LinkedInstruction) (owner : Option Int) : List (Int × EdgeKind) :=
  code.filterMap fun j =>
    if j.opcode = .jsr ∧ j.target.isSome ∧ j.target = owner then j.follower.map (·, .back) else none

/-- The edges that the last instruction of a block asks for. Only the order of the returns is left
open. -/
def Dictates (code : List LinkedInstruction) (owner : Option Int) (i : LinkedInstruction)
    (es : List (Int × EdgeKind)) : Prop :=
  match i.opcode with
  | .jmp => ∃ t, i.target = some t ∧ es = [(t, .unconditional)]
  | .jz | .jnz => ∃ t f, i.target = some t ∧ i.follower = some f ∧
      es = [(t, .whenTrue), (f, .whenFalse)]
  | .jsr => ∃ t, i.target = some t ∧ es = [(t, .call)]
  | .storestate => ∃ t f, i.target = some t ∧ i.follower = some f ∧
      es = [(t, .state), (f, .unconditional)]
  | .retn => es.Perm (returnsTo code owner)
  | _ => es = i.follower.toList.map (·, .unconditional)

section
variable {l : Layout} {d : Discovery} {b p q : Nat} {s : Start} {i : LinkedInstruction}

/-- The last position of a block. -/
def lastOf (l : Layout) (d : Discovery) (s : Start) : Nat :=
  nextStart d.starts s.position l.code.length - 1

namespace Complete

theorem position_le_lastOf (hc : Complete l d) (hb : d.starts[b]? = some s) :
    s.position ≤ lastOf l d s ∧ lastOf l d s + 1 = nextStart d.starts s.position l.code.length ∧
      lastOf l d s < l.code.length := by
  have hlt : s.position < nextStart d.starts s.position l.code.length :=
    lt_nextStart_self (hc.start_leaderAt hb).lt
  have hle : nextStart d.starts s.position l.code.length ≤ l.code.length := nextStart_le
  unfold lastOf
  omega

theorem blockOf_lastOf (hc : Complete l d) (hb : d.starts[b]? = some s) :
    blockOf d.starts (lastOf l d s) = b := by
  obtain ⟨hle, hnext, -⟩ := hc.position_le_lastOf hb
  exact blockOf_eq (n := l.code.length) hc.inv.heads_nodup hb hle (by omega)

theorem last?_eq (hc : Complete l d) (hb : d.starts[b]? = some s) :
    ((assemble l.code d).block b).last? = l.code[lastOf l d s]? := by
  unfold Block.last?
  rw [assemble_instructions hb, cut_getLast? (hc.start_leaderAt hb).lt]
  rfl

/-- A position that has an edge is the last of its block. -/
theorem eq_lastOf (hc : Complete l d) (hb : d.starts[blockOf d.starts p]? = some s)
    (hp : p < l.code.length) (hexit : l.ends p = true ∨ p + 1 ∈ d.heads) : p = lastOf l d s := by
  obtain ⟨t, ht, hle, hlt⟩ := hc.blockOf_spec hp
  rw [hb] at ht
  cases ht
  obtain ⟨-, hnext, hlast⟩ := hc.position_le_lastOf hb
  have hhead : p + 1 < l.code.length → l.LeaderAt (p + 1) := by
    intro hlt'
    rcases hexit with hends | hh
    · exact Layout.leaderAt_behind hends hlt'
    · exact hc.inv.leader hh
  by_contra hne
  exact hc.not_leaderAt_inside (s := s) (p := p + 1) (by omega) (by omega) (hhead (by omega))

/-- The jumps that leave a block are those noted for its last position. -/
theorem filter_jumps (hc : Complete l d) (hb : d.starts[b]? = some s) :
    (d.jumps.filter fun j => blockOf d.starts j.source == b) = d.jumpsFrom (lastOf l d s) := by
  unfold Discovery.jumpsFrom
  apply List.filter_congr
  intro j hj
  have hfrom : j ∈ d.jumpsFrom j.source := List.mem_filter.mpr ⟨hj, by simp⟩
  have hw : j.source ∈ d.walked := by
    by_contra hn
    rw [hc.inv.no_jumps hn] at hfrom
    cases hfrom
  have hexit : l.ends j.source = true ∨ j.source + 1 ∈ d.heads := by
    rw [hc.inv.jumps (by simp) hw, Layout.outgoing] at hfrom
    split at hfrom
    · exact .inl (by assumption)
    · split at hfrom
      · exact .inr (by assumption)
      · cases hfrom
  rw [Bool.eq_iff_iff, beq_iff_eq, beq_iff_eq]
  constructor
  · intro hblock
    exact hc.eq_lastOf (by rw [hblock]; exact hb) (hc.inv.walked_lt hw) hexit
  · intro hsource
    rw [hsource]
    exact hc.blockOf_lastOf hb

theorem addressOf_blockOf (hc : Complete l d) (hp : p ∈ d.heads) (hi : l.code[p]? = some i) :
    (assemble l.code d).addressOf (blockOf d.starts p) = i.address := by
  obtain ⟨c, t, ht, rfl⟩ := hc.exists_start_of_leaderAt (hc.inv.leader hp)
  rw [hc.blockOf_start ht]
  exact assemble_addressOf ht hi

theorem blockOf_lt (hc : Complete l d) (hp : p < l.code.length) :
    blockOf d.starts p < (assemble l.code d).size := by
  obtain ⟨s, hb, -, -⟩ := hc.blockOf_spec hp
  exact lt_assemble_size hb

/-! ## Edges noted by walks -/

/-- Seen by address, the edges of an instruction that ends a block are its successors. -/
theorem ways_addresses (hs : l.Sound) (hc : Complete l d) (hp : l.code[p]? = some i) :
    (l.ways p).map (fun w => ((assemble l.code d).addressOf (blockOf d.starts w.1), w.2)) =
      successors i := by
  have each : ∀ ss : List (Int × EdgeKind), (∀ s ∈ ss, s ∈ successors i) →
      (ss.filterMap fun s => (l.position? s.1).map (·, s.2)).map
        (fun w => ((assemble l.code d).addressOf (blockOf d.starts w.1), w.2)) = ss := by
    intro ss hss
    induction ss with
    | nil => rfl
    | cons s ss ih =>
      obtain ⟨t, ht, hlead⟩ := Layout.successors_leaderAt hs.linked hp (hss s (by simp))
      obtain ⟨j, hj, hja⟩ := Layout.position?_some ht
      have hadr := hc.addressOf_blockOf (hc.head_iff.mpr hlead) hj
      have hrest := ih (fun s hs => hss s (List.mem_cons_of_mem _ hs))
      simp only [List.filterMap_cons, ht, Option.map_some, List.map_cons, hadr, hja, hrest]
  unfold Layout.ways
  rw [hp]
  exact each _ (fun _ h => h)

/-- The edges of a block that are no returns, by the address they lead to. -/
def localEdges (l : Layout) (d : Discovery) (s : Start) : List (Int × EdgeKind) :=
  (l.outgoing d.heads (lastOf l d s)).map fun j =>
    ((assemble l.code d).addressOf (blockOf d.starts j.target), j.kind)

theorem localEdges_of_ends (hs : l.Sound) (hc : Complete l d) (hi : l.code[lastOf l d s]? = some i)
    (hends : l.ends (lastOf l d s) = true) : localEdges l d s = successors i := by
  rw [← hc.ways_addresses hs hi]
  simp only [localEdges, Layout.outgoing, hends, if_true, List.map_map]
  rfl

theorem localEdges_of_falls (hs : l.Sound) (hc : Complete l d) (hb : d.starts[b]? = some s)
    (hi : l.code[lastOf l d s]? = some i) (hends : l.ends (lastOf l d s) = false) :
    localEdges l d s = i.follower.toList.map (·, .unconditional) := by
  have hfalls : i.opcode.fallsThrough = true := by
    rw [Layout.ends_eq hi] at hends
    revert hends
    cases i.opcode <;> simp [Opcode.endsBlock, Opcode.fallsThrough]
  obtain ⟨-, hnext, -⟩ := hc.position_le_lastOf hb
  rw [hs.linked.follower hi, hfalls, if_pos rfl]
  obtain hend | ⟨t, ht, -, hpos⟩ := nextStart_eq d.starts s.position l.code.length
  · have hnone : lastOf l d s + 1 ∉ d.heads := by
      intro hm
      have := (hc.inv.leader hm).lt
      omega
    rw [List.getElem?_eq_none (by omega)]
    simp [localEdges, Layout.outgoing, hends, hnone]
  · have hhead : lastOf l d s + 1 ∈ d.heads := by
      rw [hnext, ← hpos]
      exact List.mem_map_of_mem ht
    obtain ⟨j, hj, -⟩ := hc.inv.leader hhead
    rw [hj]
    simp [localEdges, Layout.outgoing, hends, hhead, hc.addressOf_blockOf hhead hj]

/-! ## Edges of returns -/

theorem filter_exitsOf {g : Graph} (hb : b < g.size) (root : Int) :
    (exitsOf g root).filter (fun c => c == b) =
      if (g.block b).owner = some root ∧ ((g.block b).last?.map fun i => i.opcode) = some .retn
      then [b] else [] := by
  have hids : g.ids.filter (fun c => c == b) = [b] := by
    rw [Graph.ids, List.filter_beq, List.nodup_range.count, if_pos (List.mem_range.mpr hb)]
    rfl
  unfold exitsOf
  rw [List.filter_filter]
  split
  · rename_i hexit
    rw [← hids]
    apply List.filter_congr
    intro c _
    by_cases hcb : c = b
    · subst hcb; simp [hexit.1, hexit.2]
    · simp [hcb]
  · rename_i hexit
    rw [List.filter_eq_nil_iff]
    intro c _ hc
    simp only [Bool.and_eq_true, beq_iff_eq] at hc
    obtain ⟨rfl, ho, hl⟩ := hc
    exact hexit ⟨ho, hl⟩

/-- The returns of a block that returns, one for each noted call of its owner. -/
theorem filter_returnLinks (hb : d.starts[b]? = some s) :
    ((returnLinks l.code d).filter fun e => e.parent == b).map (fun e => Edge.mk e.child e.kind) =
      if (((assemble l.code d).block b).last?.map fun i => i.opcode) = some .retn then
        d.calls.filterMap fun c => if s.owner = some c.callee
          then some ⟨blockOf d.starts c.back, .back⟩ else none
      else [] := by
  have hlt : b < (blocksOf l.code d.starts).size := by
    rw [blocksOf_size]
    exact (List.getElem?_eq_some_iff.mp hb).1
  have howner : ((blocksOf l.code d.starts).block b).owner = s.owner := by
    rw [blocksOf_block hb]
    rfl
  have hlast : ((blocksOf l.code d.starts).block b).last? = ((assemble l.code d).block b).last? := by
    unfold Block.last?
    rw [assemble_sameCode.instructions]
  unfold returnLinks
  induction d.calls with
  | nil => simp
  | cons c calls ih =>
    rw [List.flatMap_cons, List.filter_append, List.map_append, ih, List.filter_map, List.map_map]
    have hpar : ((fun e : Graph.Link => e.parent == b) ∘ fun c' =>
        ⟨c', blockOf d.starts c.back, .back⟩) = fun c' => c' == b := rfl
    rw [hpar, filter_exitsOf hlt, howner, hlast]
    by_cases hret : (((assemble l.code d).block b).last?.map fun i => i.opcode) = some .retn
    · by_cases ho : s.owner = some c.callee <;> simp [hret, ho]
    · simp [hret]

/-- All code is walked once, so the calls noted are those of the code. -/
theorem calls_perm (hc : Complete l d) :
    d.calls.Perm ((List.range l.code.length).filterMap l.callAt) := by
  rw [hc.noted]
  apply List.Perm.filterMap
  rw [List.perm_ext_iff_of_nodup hc.inv.walked_nodup List.nodup_range]
  intro p
  rw [List.mem_range]
  exact ⟨hc.inv.walked_lt, hc.walked⟩

theorem filterMap_eq_range {β : Type} (code : List LinkedInstruction)
    (f : LinkedInstruction → Option β) :
    code.filterMap f = (List.range code.length).filterMap fun p => code[p]?.bind f := by
  induction code with
  | nil => rfl
  | cons i rest ih =>
    have hrest : (fun p => (i :: rest)[p]?.bind f) ∘ Nat.succ = fun p => rest[p]?.bind f := by
      funext p
      simp
    rw [List.length_cons, List.range_succ_eq_map, List.filterMap_cons, List.filterMap_cons,
      List.filterMap_map, hrest, ← ih]
    rfl

/-- Seen by address, the returns of a block lead behind the calls of its owner. -/
theorem returns_perm (hs : l.Sound) (hc : Complete l d) (owner : Option Int) :
    (d.calls.filterMap fun c => if owner = some c.callee
      then some ((assemble l.code d).addressOf (blockOf d.starts c.back), EdgeKind.back)
      else none).Perm (returnsTo l.code owner) := by
  refine (List.Perm.filterMap _ hc.calls_perm).trans (List.Perm.of_eq ?_)
  rw [List.filterMap_filterMap, returnsTo, filterMap_eq_range]
  apply List.filterMap_congr
  intro p hp
  obtain ⟨i, hi⟩ : ∃ i, l.code[p]? = some i := ⟨_, List.getElem?_eq_getElem (List.mem_range.mp hp)⟩
  unfold Layout.callAt
  rw [hi, Option.bind_some, Option.bind_some]
  by_cases hop : i.opcode = .jsr
  · obtain ⟨c, -, ht⟩ := hs.linked.target (List.mem_of_getElem? hi) (by simp [hop, Opcode.branches])
    obtain ⟨j, hj, hf⟩ := Layout.follower_eq hs.linked hi (by rw [hop]; rfl)
    have hlead := Layout.leaderAt_behind (by rw [Layout.ends_eq hi, hop]; rfl)
      (List.getElem?_eq_some_iff.mp hj).1
    have hadr := hc.addressOf_blockOf (hc.head_iff.mpr hlead) hj
    rw [if_pos hop, ht, Option.map_some, Option.bind_some, hadr, hf]
    by_cases ho : owner = some c.address
    · simp [hop, ho]
    · simp [hop, ho, Ne.symm ho]
  · simp [hop]

/-! ## All edges of a block -/

theorem leadsTo_eq (hc : Complete l d) (hb : d.starts[b]? = some s) :
    (assemble l.code d).leadsTo b = localEdges l d s ++
      if (((assemble l.code d).block b).last?.map fun i => i.opcode) = some .retn then
        d.calls.filterMap fun c => if s.owner = some c.callee
          then some ((assemble l.code d).addressOf (blockOf d.starts c.back), EdgeKind.back)
          else none
      else [] := by
  have hjumps : ((jumpLinks d).filter fun e => e.parent == b).map (fun e => Edge.mk e.child e.kind) =
      (l.outgoing d.heads (lastOf l d s)).map fun j => ⟨blockOf d.starts j.target, j.kind⟩ := by
    obtain ⟨-, -, hlast⟩ := hc.position_le_lastOf hb
    rw [← hc.inv.jumps (by simp) (hc.walked hlast), ← hc.filter_jumps hb, jumpLinks,
      List.filter_map, List.map_map]
    rfl
  unfold Graph.leadsTo
  rw [assemble_edges hb, List.filter_append, List.map_append, hjumps, filter_returnLinks hb,
    List.map_append, List.map_map]
  congr 1
  split
  · rw [List.map_filterMap]
    apply List.filterMap_congr
    intro c _
    split <;> rfl
  · rfl

theorem dictates (hs : l.Sound) (hc : Complete l d) (hb : d.starts[b]? = some s) :
    ∃ i, ((assemble l.code d).block b).last? = some i ∧
      Dictates l.code ((assemble l.code d).block b).owner i ((assemble l.code d).leadsTo b) := by
  obtain ⟨-, -, hlast⟩ := hc.position_le_lastOf hb
  obtain ⟨i, hi⟩ : ∃ i, l.code[lastOf l d s]? = some i := ⟨_, List.getElem?_eq_getElem hlast⟩
  have hlast? : ((assemble l.code d).block b).last? = some i := (hc.last?_eq hb).trans hi
  refine ⟨i, hlast?, ?_⟩
  have target : i.opcode.branches → ∃ t, i.target = some t := by
    intro hbr
    obtain ⟨j, -, ht⟩ := hs.linked.target (List.mem_of_getElem? hi) hbr
    exact ⟨_, ht⟩
  have follower : i.opcode.needsFollower = true → ∃ f, i.follower = some f := by
    intro hn
    obtain ⟨j, -, hf⟩ := Layout.follower_eq hs.linked hi hn
    exact ⟨_, hf⟩
  rw [hc.leadsTo_eq hb, hlast?, assemble_owner hb, Option.map_some]
  by_cases hends : l.ends (lastOf l d s) = true
  · rw [hc.localEdges_of_ends hs hi hends]
    have hends' := hends
    rw [Layout.ends_eq hi] at hends'
    unfold Dictates successors
    cases hop : i.opcode <;> simp only [hop, Opcode.endsBlock, Bool.false_eq_true] at hends' ⊢
    case jmp =>
      obtain ⟨t, ht⟩ := target (by simp [hop, Opcode.branches])
      exact ⟨t, ht, by simp [ht]⟩
    case jsr =>
      obtain ⟨t, ht⟩ := target (by simp [hop, Opcode.branches])
      exact ⟨t, ht, by simp [ht]⟩
    case jz | jnz | storestate =>
      obtain ⟨t, ht⟩ := target (by simp [hop, Opcode.branches])
      obtain ⟨f, hf⟩ := follower (by simp [hop, Opcode.needsFollower])
      exact ⟨t, f, ht, hf, by simp [ht, hf]⟩
    case retn => simpa using hc.returns_perm hs s.owner
  · rw [Bool.not_eq_true] at hends
    rw [hc.localEdges_of_falls hs hb hi hends]
    rw [Layout.ends_eq hi] at hends
    unfold Dictates
    cases hop : i.opcode <;> simp only [hop, Opcode.endsBlock, Bool.true_eq_false] at hends ⊢ <;> simp

theorem back_lt (hs : l.Sound) (hc : Complete l d) {c : Call} (h : c ∈ d.calls) :
    c.back < l.code.length := by
  rw [hc.noted] at h
  obtain ⟨p, -, hp⟩ := List.mem_filterMap.mp h
  unfold Layout.callAt at hp
  obtain ⟨i, hi, hcall⟩ := Option.bind_eq_some_iff.mp hp
  split at hcall
  · rename_i hop
    obtain ⟨j, hj⟩ := hs.linked.followed hi (by rw [hop]; rfl)
    obtain ⟨t, -, rfl⟩ := Option.map_eq_some_iff.mp hcall
    exact (List.getElem?_eq_some_iff.mp hj).1
  · cases hcall

/-- Edges lead to blocks of the graph. -/
theorem child_lt (hs : l.Sound) (hc : Complete l d) (hb : b < (assemble l.code d).size) {e : Edge}
    (he : e ∈ (assemble l.code d).edges b) : e.child < (assemble l.code d).size := by
  obtain ⟨s, hbs⟩ := exists_start hb
  rw [assemble_edges hbs] at he
  obtain ⟨k, hk, rfl⟩ := List.mem_map.mp he
  rcases List.mem_append.mp (List.mem_of_mem_filter hk) with hk | hk
  · obtain ⟨j, hj, rfl⟩ := List.mem_map.mp hk
    exact hc.blockOf_lt (hc.inv.leader (hc.inv.jump_head hj)).lt
  · obtain ⟨c, hcall, hk⟩ := List.mem_flatMap.mp hk
    obtain ⟨x, -, rfl⟩ := List.mem_map.mp hk
    exact hc.blockOf_lt (hc.back_lt hs hcall)

end Complete

end

namespace Dictates

variable {code : List LinkedInstruction} {owner : Option Int} {i : LinkedInstruction}
  {es : List (Int × EdgeKind)} {a : Int}

theorem of_target (h : Dictates code owner i es) (hb : i.opcode.branches) (ht : i.target = some a) :
    ∃ k, (a, k) ∈ es := by
  unfold Dictates at h
  rw [ht] at h
  revert hb
  cases hop : i.opcode <;> simp only [hop] at h <;> simp only [Opcode.branches]
  case jmp | jsr =>
    obtain ⟨t, ht', rfl⟩ := h
    cases ht'
    exact fun _ => ⟨_, List.mem_cons_self⟩
  case jz | jnz | storestate =>
    obtain ⟨t, f, ht', -, rfl⟩ := h
    cases ht'
    exact fun _ => ⟨_, List.mem_cons_self⟩
  all_goals simp

theorem of_follower (h : Dictates code owner i es) (hj : i.opcode ≠ .jsr)
    (hfalls : i.opcode.fallsThrough = true) (hf : i.follower = some a) : ∃ k, (a, k) ∈ es := by
  unfold Dictates at h
  rw [hf] at h
  cases hop : i.opcode <;> simp only [hop] at h hj
  case jmp | retn => rw [hop] at hfalls; cases hfalls
  case jsr => exact absurd rfl hj
  case jz | jnz | storestate =>
    obtain ⟨t, f, -, hf', rfl⟩ := h
    cases hf'
    exact ⟨_, List.mem_cons_of_mem _ List.mem_cons_self⟩
  all_goals exact ⟨.unconditional, by rw [h]; simp⟩

theorem of_call (h : Dictates code owner i es) (ha : (a, .call) ∈ es) :
    i.opcode = .jsr ∧ i.target = some a := by
  unfold Dictates at h
  split at h
  · obtain ⟨t, -, rfl⟩ := h; simp at ha
  · obtain ⟨t, f, -, -, rfl⟩ := h; simp at ha
  · obtain ⟨t, f, -, -, rfl⟩ := h; simp at ha
  · rename_i hop
    obtain ⟨t, ht, rfl⟩ := h
    have hat : a = t := by simpa using ha
    exact ⟨hop, by rw [ht, hat]⟩
  · obtain ⟨t, f, -, -, rfl⟩ := h; simp at ha
  · have hm := h.mem_iff.mp ha
    obtain ⟨j, -, hj⟩ := List.mem_filterMap.mp hm
    split at hj
    · obtain ⟨x, -, hx⟩ := Option.map_eq_some_iff.mp hj
      cases hx
    · cases hj
  · rw [h] at ha
    obtain ⟨x, -, hx⟩ := List.mem_map.mp ha
    cases hx

/-- A block returns behind the calls of its owner and nowhere else. -/
theorem of_retn (h : Dictates code owner i es) (hop : i.opcode = .retn) :
    (a, .back) ∈ es ↔
      ∃ j ∈ code, j.opcode = .jsr ∧ j.target.isSome ∧ j.target = owner ∧ j.follower = some a := by
  unfold Dictates at h
  simp only [hop] at h
  rw [h.mem_iff, returnsTo, List.mem_filterMap]
  constructor
  · rintro ⟨j, hj, hja⟩
    split at hja
    · rename_i hcond
      obtain ⟨f, hf, hfa⟩ := Option.map_eq_some_iff.mp hja
      cases hfa
      exact ⟨j, hj, hcond.1, hcond.2.1, hcond.2.2, hf⟩
    · cases hja
  · rintro ⟨j, hj, hop', hsome, howner, hf⟩
    exact ⟨j, hj, by rw [if_pos ⟨hop', hsome, howner⟩, hf]; rfl⟩

end Dictates

/-- Every edge of the graph, told by the last instructions of its blocks. -/
structure DictatedEdges (code : List LinkedInstruction) (built : Built) : Prop where
  /-- An address names one block, so it is enough to tell edges by address. -/
  distinct : ∀ b < built.graph.size, ∀ c < built.graph.size,
    built.graph.addressOf b = built.graph.addressOf c → b = c
  inside : ∀ b < built.graph.size, ∀ e ∈ built.graph.edges b, e.child < built.graph.size
  edges : ∀ b < built.graph.size, ∃ i, (built.graph.block b).last? = some i ∧
    Dictates code (built.graph.block b).owner i (built.graph.leadsTo b)
  /-- Calls lead to the entries of subroutines. -/
  entries : ∀ b < built.graph.size, ∀ e ∈ built.graph.edges b, e.kind = .call →
    ∃ s ∈ built.subroutines, s.address = built.graph.addressOf e.child ∧ s.entry = some e.child

theorem entry_eq {g : Graph} {calls : List Call} {root : Int × SubroutineKind} {b : BlockId}
    (hdistinct : ∀ b < g.size, ∀ c < g.size, g.addressOf b = g.addressOf c → b = c)
    (hb : b < g.size) (ha : g.addressOf b = root.1) : (subroutineOf g calls root).entry = some b := by
  show (g.ids.find? fun c => g.addressOf c == root.1) = some b
  cases hf : g.ids.find? fun c => g.addressOf c == root.1 with
  | none =>
    have := List.find?_eq_none.mp hf b (List.mem_range.mpr hb)
    simp [ha] at this
  | some c =>
    have hc := List.mem_range.mp (List.mem_of_find?_eq_some hf)
    have hca : g.addressOf c = root.1 := by simpa using List.find?_some hf
    rw [hdistinct c hc b hb (hca.trans ha.symm)]

section
variable {code : List LinkedInstruction} {roots : List (Int × SubroutineKind)}

theorem call_entry (hs : Layout.Sound ⟨code, roots.map Prod.fst⟩) {d : Discovery}
    (hc : Complete ⟨code, roots.map Prod.fst⟩ d) {b : BlockId} {e : Edge}
    (hb : b < (assemble code d).size) (he : e ∈ (assemble code d).edges b) (hk : e.kind = .call) :
    ∃ s ∈ (Order.sortBy Prod.fst roots).map (subroutineOf (assemble code d) d.calls),
      s.address = (assemble code d).addressOf e.child ∧ s.entry = some e.child := by
  obtain ⟨s, hbs⟩ := exists_start (l := ⟨code, roots.map Prod.fst⟩) hb
  obtain ⟨i, hi, hdict⟩ := hc.dictates hs hbs
  obtain ⟨hop, ht⟩ := hdict.of_call (a := (assemble code d).addressOf e.child)
    (List.mem_map.mpr ⟨e, he, by rw [hk]⟩)
  have hmem : i ∈ code := by
    rw [hc.last?_eq hbs] at hi
    exact List.mem_of_getElem? hi
  obtain ⟨root, hroot, hra⟩ := List.mem_map.mp (hs.calls_known hmem hop ht)
  refine ⟨_, List.mem_map.mpr ⟨root, mem_sortBy.mpr hroot, rfl⟩, hra, ?_⟩
  exact entry_eq (hc.leaderPartition hs).distinct (hc.child_lt hs hb he) hra.symm

/-- However often blocks were cut, in the end each has the edges its last instruction asks for. -/
theorem build_edges_dictated {is : List Instruction} {store : Code}
    (hstore : Code.ofList is = .ok store) (hlink : store.link = .ok code)
    (hroots : ∀ r ∈ roots, ∃ i ∈ code, i.address = r.1)
    (hcalls : ∀ i ∈ code, i.opcode = .jsr → ∀ a, i.target = some a → a ∈ roots.map Prod.fst) :
    ∃ built, build code roots = .ok built ∧ DictatedEdges code built := by
  have hs := sound_of_link hstore hlink hroots hcalls
  obtain ⟨built, d, hbuilt, hgraph, hsubs, hc⟩ := build_complete hs
  refine ⟨built, hbuilt, ?_, ?_, ?_, ?_⟩ <;> rw [hgraph]
  · exact (hc.leaderPartition hs).distinct
  · exact fun b hb e he => hc.child_lt hs hb he
  · intro b hb
    obtain ⟨s, hbs⟩ := exists_start (l := ⟨code, roots.map Prod.fst⟩) hb
    have hdict := hc.dictates hs hbs
    dsimp only at hdict
    exact hdict
  · intro b hb e he hk
    rw [hsubs, hgraph]
    exact call_entry hs hc hb he hk

theorem loopAndCall_edges : Code.ofList loopAndCall = .ok ⟨loopAndCall.toArray⟩ ∧
    Code.link ⟨loopAndCall.toArray⟩ = .ok loopAndCallLinked ∧
    ∃ built, build loopAndCallLinked [(13, .plain), (39, .plain)] = .ok built ∧
      DictatedEdges loopAndCallLinked built :=
  ⟨rfl, rfl, build_edges_dictated
    (show Code.ofList loopAndCall = .ok ⟨loopAndCall.toArray⟩ from rfl) rfl (by decide) (by decide)⟩

end

end Flow

end ScriptFlow
