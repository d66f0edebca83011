import ScriptFlow.Proofs.Script.Loading
import Mathlib.Logic.Relation

/-! # Which executions the graph covers

Execution is a machine with a program counter and a stack of return addresses. All its transfers are
edges of the graph but for returns: a block returns to the callers of the one subroutine that owns it.
A return from shared code, made on behalf of another subroutine, has no edge. The graph covers all
executions of a script exactly when no such return is executed. -/

namespace ScriptFlow.Flow

/-- Where execution stands, and where the calls it is in return to. -/
structure Machine where
  pc : Int
  returns : List Int

/-- A step of execution. Conditional jumps may go either way, and a stored continuation may start
where it was stored, outside of all calls. Nothing is left to do after a return with no caller. -/
inductive Step (code : List LinkedInstruction) : Machine → Machine → Prop
  | call {i : LinkedInstruction} {t f : Int} {rs : List Int} : i ∈ code → i.opcode = .jsr →
      i.target = some t → i.follower = some f → Step code ⟨i.address, rs⟩ ⟨t, f :: rs⟩
  | back {i : LinkedInstruction} {r : Int} {rs : List Int} : i ∈ code → i.opcode = .retn →
      Step code ⟨i.address, r :: rs⟩ ⟨r, rs⟩
  | jump {i : LinkedInstruction} {t : Int} {rs : List Int} : i ∈ code → i.opcode = .jmp →
      i.target = some t → Step code ⟨i.address, rs⟩ ⟨t, rs⟩
  | taken {i : LinkedInstruction} {t : Int} {rs : List Int} : i ∈ code →
      i.opcode.isConditional = true → i.target = some t → Step code ⟨i.address, rs⟩ ⟨t, rs⟩
  | passed {i : LinkedInstruction} {f : Int} {rs : List Int} : i ∈ code →
      i.opcode.isConditional = true → i.follower = some f → Step code ⟨i.address, rs⟩ ⟨f, rs⟩
  | resume {i : LinkedInstruction} {t : Int} {rs : List Int} : i ∈ code → i.opcode = .storestate →
      i.target = some t → Step code ⟨i.address, rs⟩ ⟨t, []⟩
  | store {i : LinkedInstruction} {f : Int} {rs : List Int} : i ∈ code → i.opcode = .storestate →
      i.follower = some f → Step code ⟨i.address, rs⟩ ⟨f, rs⟩
  | next {i : LinkedInstruction} {f : Int} {rs : List Int} : i ∈ code →
      i.opcode.endsBlock = false → i.follower = some f → Step code ⟨i.address, rs⟩ ⟨f, rs⟩

/-- The states of all executions from the first instruction on. -/
inductive Executed (code : List LinkedInstruction) : Machine → Prop
  | start {i : LinkedInstruction} : code.head? = some i → Executed code ⟨i.address, []⟩
  | step {m n : Machine} : Executed code m → Step code m n → Executed code n

/-- An edge of the block leads to the address; it is a return if the instruction is. -/
def Follows (g : Graph) (b : BlockId) (i : LinkedInstruction) (a : Int) : Prop :=
  ∃ e ∈ g.edges b, g.addressOf e.child = a ∧ (i.opcode = .retn → e.kind = .back)

/-- Every executed transfer from the last instruction of a block is along an edge. -/
def Covers (code : List LinkedInstruction) (g : Graph) : Prop :=
  ∀ m n, Executed code m → Step code m n → ∀ b i, g.holder? m.pc = some b →
    (g.block b).last? = some i → i.address = m.pc → Follows g b i n.pc

/-- Every executed return is made in a block of the subroutine whose call it returns from. -/
def ReturnsOwned (code : List LinkedInstruction) (g : Graph) : Prop :=
  ∀ m, Executed code m → ∀ i ∈ code, i.address = m.pc → i.opcode = .retn →
    ∀ r rs, m.returns = r :: rs → ∀ j ∈ code, j.opcode = .jsr → j.follower = some r →
      ∀ b, g.holder? m.pc = some b → (g.block b).owner = j.target

/-- Edges lead from one block to another, in any number of steps. -/
def Leads (g : Graph) : BlockId → BlockId → Prop :=
  Relation.ReflTransGen fun b c => ∃ e ∈ g.edges b, e.child = c

/-- What the edges of a graph say about the executions of its code. -/
structure OwnedCoverage (code : List LinkedInstruction) (g : Graph) : Prop where
  /-- A transfer lacks its edge only if it is a return for a subroutine other than the owner. -/
  transfers : ∀ m n, Executed code m → Step code m n → ∀ b i, g.holder? m.pc = some b →
    (g.block b).last? = some i → i.address = m.pc →
      (Follows g b i n.pc ↔ (i.opcode = .retn → ∀ j ∈ code, j.opcode = .jsr →
        j.follower = some n.pc → (g.block b).owner = j.target))
  covers : Covers code g ↔ ReturnsOwned code g
  reaches : ReturnsOwned code g → ∀ m, Executed code m →
    ∃ root b, Script.rootBlock? code g = some root ∧ g.holder? m.pc = some b ∧ Leads g root b

theorem Leads.eq_or_edge {g : Graph} {b c : BlockId} (h : Leads g b c) :
    b = c ∨ ∃ p < g.size, ∃ e ∈ g.edges p, e.child = c := by
  rcases Relation.ReflTransGen.cases_tail h with rfl | ⟨p, -, e, he, hec⟩
  · exact .inl rfl
  · exact .inr ⟨p, Graph.lt_size_of_mem_edges he, e, he, hec⟩

section
variable {code : List LinkedInstruction} {m n : Machine} {i : LinkedInstruction}

theorem eq_of_address (hl : Linked code) {j : LinkedInstruction} (hi : i ∈ code) (hj : j ∈ code)
    (ha : i.address = j.address) : i = j := by
  obtain ⟨p, hp⟩ := List.getElem?_of_mem hi
  obtain ⟨q, hq⟩ := List.getElem?_of_mem hj
  have hpq := position_unique hl.ordered hp hq ha
  rw [hpq, hq] at hp
  exact (Option.some.inj hp).symm

theorem follower_mem (hl : Linked code) {f : Int} (hi : i ∈ code) (hf : i.follower = some f) :
    ∃ j ∈ code, j.address = f := by
  obtain ⟨p, hp⟩ := List.getElem?_of_mem hi
  rw [hl.follower hp] at hf
  split at hf
  · obtain ⟨j, hj, rfl⟩ := Option.map_eq_some_iff.mp hf
    exact ⟨j, List.mem_of_getElem? hj, rfl⟩
  · cases hf

theorem target_mem (hl : Linked code) {t : Int} (hi : i ∈ code) (hb : i.opcode.branches)
    (ht : i.target = some t) : ∃ j ∈ code, j.address = t := by
  obtain ⟨j, hj, htj⟩ := hl.target hi hb
  rw [ht] at htj
  exact ⟨j, hj, (Option.some.inj htj).symm⟩

/-- Two instructions with one follower are one. -/
theorem eq_of_follower (hl : Linked code) {j : LinkedInstruction} {f : Int} (hi : i ∈ code)
    (hj : j ∈ code) (hfi : i.follower = some f) (hfj : j.follower = some f) : i = j := by
  obtain ⟨p, hp⟩ := List.getElem?_of_mem hi
  obtain ⟨q, hq⟩ := List.getElem?_of_mem hj
  rw [hl.follower hp] at hfi
  rw [hl.follower hq] at hfj
  split at hfi
  · split at hfj
    · obtain ⟨x, hx, hxf⟩ := Option.map_eq_some_iff.mp hfi
      obtain ⟨y, hy, hyf⟩ := Option.map_eq_some_iff.mp hfj
      have hpq := position_unique hl.ordered hx hy (hxf.trans hyf.symm)
      have hpq' : p = q := by omega
      rw [hpq', hq] at hp
      exact (Option.some.inj hp).symm
    · cases hfj
  · cases hfi

/-- Return addresses stand behind calls. -/
theorem Executed.pushed (h : Executed code m) :
    ∀ r ∈ m.returns, ∃ j ∈ code, j.opcode = .jsr ∧ j.follower = some r := by
  induction h with
  | start _ => simp
  | step _ hs ih =>
    cases hs with
    | call hi hop _ hf =>
      intro r hr
      rcases List.mem_cons.mp hr with rfl | hr
      · exact ⟨_, hi, hop, hf⟩
      · exact ih r hr
    | back _ _ => exact fun r hr => ih r (List.mem_cons_of_mem _ hr)
    | resume _ _ _ => simp
    | jump _ _ _ | taken _ _ _ | passed _ _ _ | store _ _ _ | next _ _ _ => exact ih

theorem branches_of_isConditional {op : Opcode} (h : op.isConditional = true) : op.branches := by
  revert h
  cases op <;> simp [Opcode.isConditional, Opcode.branches]

theorem Executed.pc_mem (hl : Linked code) (h : Executed code m) : ∃ i ∈ code, i.address = m.pc := by
  cases h with
  | start hi => exact ⟨_, List.mem_of_mem_head? hi, rfl⟩
  | step h hs =>
    cases hs with
    | call hi hop ht _ => exact target_mem hl hi (by simp [hop, Opcode.branches]) ht
    | back _ _ =>
      obtain ⟨j, hj, -, hf⟩ := h.pushed _ (List.mem_cons_self ..)
      exact follower_mem hl hj hf
    | jump hi hop ht => exact target_mem hl hi (by simp [hop, Opcode.branches]) ht
    | taken hi hop ht => exact target_mem hl hi (branches_of_isConditional hop) ht
    | resume hi hop ht => exact target_mem hl hi (by simp [hop, Opcode.branches]) ht
    | passed hi _ hf | store hi _ hf | next hi _ hf => exact follower_mem hl hi hf

theorem Step.of_retn (hl : Linked code) (h : Step code m n) (hi : i ∈ code) (ha : i.address = m.pc)
    (hop : i.opcode = .retn) : m.returns = n.pc :: n.returns := by
  cases h with
  | back _ _ => rfl
  | call hj hop' _ _ | jump hj hop' _ | taken hj hop' _ | passed hj hop' _ | resume hj hop' _
  | store hj hop' _ | next hj hop' _ =>
    rw [← eq_of_address hl hi hj ha, hop] at hop'
    cases hop'

/-- A step other than a return goes where the instruction asks its block to lead. -/
theorem Step.dictated (hl : Linked code) (h : Step code m n) (hi : i ∈ code)
    (ha : i.address = m.pc) (hop : i.opcode ≠ .retn) {o : Option Int} {es : List (Int × EdgeKind)}
    (hd : Dictates code o i es) : ∃ k, (n.pc, k) ∈ es := by
  have same : ∀ {j : LinkedInstruction}, j ∈ code → j.address = m.pc → j = i :=
    fun hj haj => eq_of_address hl hj hi (haj.trans ha.symm)
  cases h with
  | back hj hop' => exact absurd (same hj rfl ▸ hop') hop
  | call hj hop' ht _ | jump hj hop' ht | resume hj hop' ht =>
    rw [same hj rfl] at hop' ht
    exact hd.of_target (by simp [hop', Opcode.branches]) ht
  | taken hj hop' ht =>
    rw [same hj rfl] at hop' ht
    exact hd.of_target (branches_of_isConditional hop') ht
  | passed hj hop' hf =>
    rw [same hj rfl] at hop' hf
    refine hd.of_follower ?_ ?_ hf
    · rintro hjsr; rw [hjsr] at hop'; cases hop'
    · revert hop'; cases i.opcode <;> simp [Opcode.isConditional, Opcode.fallsThrough]
  | store hj hop' hf =>
    rw [same hj rfl] at hop' hf
    exact hd.of_follower (by simp [hop']) (by simp [hop', Opcode.fallsThrough]) hf
  | next hj hop' hf =>
    rw [same hj rfl] at hop' hf
    refine hd.of_follower ?_ ?_ hf
    · rintro hjsr; rw [hjsr] at hop'; cases hop'
    · revert hop'; cases i.opcode <;> simp [Opcode.endsBlock, Opcode.fallsThrough]

end

/-! ## Transfers and edges -/

section
variable {l : Layout} {d : Discovery} {b p : Nat} {m n : Machine} {i : LinkedInstruction}

namespace Complete

/-- An executed state stands in a block. -/
theorem exists_holder (hs : l.Sound) (hc : Complete l d) (h : Executed l.code m) :
    ∃ p i s, l.code[p]? = some i ∧ i.address = m.pc ∧
      (assemble l.code d).holder? m.pc = some (blockOf d.starts p) ∧
      d.starts[blockOf d.starts p]? = some s := by
  obtain ⟨i, hi, ha⟩ := h.pc_mem hs.linked
  obtain ⟨p, hp⟩ := List.getElem?_of_mem hi
  obtain ⟨s, hb, -, -⟩ := hc.blockOf_spec (List.getElem?_eq_some_iff.mp hp).1
  exact ⟨p, i, s, hp, ha, ha ▸ hc.holder?_eq hs hp, hb⟩

/-- A transfer has its edge exactly if it is no return or the owner of the block was called. -/
theorem follows_iff (hs : l.Sound) (hc : Complete l d) (hm : Executed l.code m)
    (hstep : Step l.code m n) (hb : (assemble l.code d).holder? m.pc = some b)
    (hlast : ((assemble l.code d).block b).last? = some i) (ha : i.address = m.pc) :
    Follows (assemble l.code d) b i n.pc ↔
      (i.opcode = .retn → ∀ j ∈ l.code, j.opcode = .jsr → j.follower = some n.pc →
        ((assemble l.code d).block b).owner = j.target) := by
  obtain ⟨p, -, s, -, -, hholder, hbs⟩ := hc.exists_holder hs hm
  rw [hb] at hholder
  cases hholder
  obtain ⟨i', hi', hdict⟩ := hc.dictates hs hbs
  rw [hlast] at hi'
  cases hi'
  have hi : i ∈ l.code := by
    rw [hc.last?_eq hbs] at hlast
    exact List.mem_of_getElem? hlast
  -- the edges of a return are told by its owner, all others by the instruction alone
  by_cases hop : i.opcode = .retn
  · have hpush : n.pc ∈ m.returns := by rw [hstep.of_retn hs.linked hi ha hop]; simp
    constructor
    · rintro ⟨e, he, hea, hk⟩ - j hj - hf
      obtain ⟨c, hcm, -, -, howner, hcf⟩ :=
        (hdict.of_retn hop).mp (Graph.mem_leadsTo.mpr ⟨e, he, hea, hk hop⟩)
      rw [← howner, eq_of_follower hs.linked hj hcm hf hcf]
    · intro howned
      obtain ⟨j, hj, hjsr, hf⟩ := hm.pushed _ hpush
      obtain ⟨t, -, ht⟩ := hs.linked.target hj (by simp [hjsr, Opcode.branches])
      have hmem := (hdict.of_retn hop).mpr
        ⟨j, hj, hjsr, by rw [ht]; rfl, (howned hop j hj hjsr hf).symm, hf⟩
      obtain ⟨e, he, hea, hk⟩ := Graph.mem_leadsTo.mp hmem
      exact ⟨e, he, hea, fun _ => hk⟩
  · refine ⟨fun _ h => absurd h hop, fun _ => ?_⟩
    obtain ⟨k, hk⟩ := hstep.dictated hs.linked hi ha hop hdict
    obtain ⟨e, he, hea, -⟩ := Graph.mem_leadsTo.mp hk
    exact ⟨e, he, hea, fun h => absurd h hop⟩

/-- An instruction that ends blocks is the last of its own. -/
theorem last?_of_ends (hc : Complete l d) (hp : l.code[p]? = some i)
    (hends : i.opcode.endsBlock = true) :
    ((assemble l.code d).block (blockOf d.starts p)).last? = some i := by
  have hlt := (List.getElem?_eq_some_iff.mp hp).1
  obtain ⟨s, hb, -, -⟩ := hc.blockOf_spec hlt
  rw [hc.last?_eq hb, ← hc.eq_lastOf hb hlt (.inl (by rw [Layout.ends_eq hp, hends])), hp]

theorem covers_iff (hs : l.Sound) (hc : Complete l d) :
    Covers l.code (assemble l.code d) ↔ ReturnsOwned l.code (assemble l.code d) := by
  constructor
  · intro hcov m hm i hi ha hop r rs hret j hj hjsr hf b hb
    obtain ⟨p, i', s, hp, ha', hholder, -⟩ := hc.exists_holder hs hm
    have hii : i = i' := eq_of_address hs.linked hi (List.mem_of_getElem? hp) (ha.trans ha'.symm)
    subst hii
    rw [hb] at hholder
    cases hholder
    have hlast := hc.last?_of_ends hp (by rw [hop]; rfl)
    have hstep : Step l.code m ⟨r, rs⟩ := by
      obtain ⟨pc, returns⟩ := m
      simp only at ha hret
      subst ha hret
      exact .back hi hop
    have hfol := hcov m _ hm hstep _ i hb hlast ha
    exact (hc.follows_iff hs hm hstep hb hlast ha).mp hfol hop j hj hjsr hf
  · intro howned m n hm hstep b i hb hlast ha
    rw [hc.follows_iff hs hm hstep hb hlast ha]
    intro hop j hj hjsr hf
    have hi : i ∈ l.code := by
      obtain ⟨p, -, s, -, -, hholder, hbs⟩ := hc.exists_holder hs hm
      rw [hb] at hholder
      cases hholder
      rw [hc.last?_eq hbs] at hlast
      exact List.mem_of_getElem? hlast
    exact howned m hm i hi ha hop _ _ (hstep.of_retn hs.linked hi ha hop) j hj hjsr hf b hb

/-! ## Executed blocks -/

/-- Inside a block execution goes on to the instruction stored next, in the same block. -/
theorem blockOf_next (hc : Complete l d) (hp : p + 1 < l.code.length)
    {s : Start} (hb : d.starts[blockOf d.starts p]? = some s) (hne : p ≠ lastOf l d s) :
    blockOf d.starts (p + 1) = blockOf d.starts p := by
  obtain ⟨t, ht, hle, hlt⟩ := hc.blockOf_spec (show p < l.code.length by omega)
  rw [hb] at ht
  cases ht
  obtain ⟨-, hnext, -⟩ := hc.position_le_lastOf hb
  exact blockOf_eq (n := l.code.length) hc.inv.heads_nodup hb (by omega) (by omega)

theorem holder?_addressOf (hs : l.Sound) (hc : Complete l d) (hb : b < (assemble l.code d).size) :
    (assemble l.code d).holder? ((assemble l.code d).addressOf b) = some b := by
  obtain ⟨s, hbs⟩ := exists_start hb
  obtain ⟨i, hi, -⟩ := hc.start_leaderAt hbs
  rw [assemble_addressOf hbs hi, hc.holder?_eq hs hi, hc.blockOf_start hbs]

/-- One step of a covered execution stays in its block or leaves it along an edge. -/
theorem step_leads (hs : l.Sound) (hc : Complete l d) (hcov : Covers l.code (assemble l.code d))
    (hm : Executed l.code m) (hstep : Step l.code m n)
    (hb : (assemble l.code d).holder? m.pc = some b) :
    ∃ c, (assemble l.code d).holder? n.pc = some c ∧ Leads (assemble l.code d) b c := by
  obtain ⟨p, i, s, hp, ha, hholder, hbs⟩ := hc.exists_holder hs hm
  rw [hb] at hholder
  cases hholder
  by_cases hlast : p = lastOf l d s
  · have hlast? := (hc.last?_eq hbs).trans (hlast ▸ hp)
    obtain ⟨e, he, hea, -⟩ := hcov m n hm hstep _ i hb hlast? ha
    have hlt := hc.child_lt hs (lt_assemble_size hbs) he
    exact ⟨e.child, hea ▸ hc.holder?_addressOf hs hlt, .single ⟨e, he, rfl⟩⟩
  · -- in front of the last position nothing ends the block, so control goes on to what is stored next
    have hends : i.opcode.endsBlock = false := by
      by_contra hne
      rw [Bool.not_eq_false] at hne
      exact hlast (hc.eq_lastOf hbs (List.getElem?_eq_some_iff.mp hp).1
        (.inl (by rw [Layout.ends_eq hp, hne])))
    have hf : i.follower = some n.pc := by
      have same : ∀ {j : LinkedInstruction}, j ∈ l.code → j.address = m.pc → j = i :=
        fun hj haj => eq_of_address hs.linked hj (List.mem_of_getElem? hp) (haj.trans ha.symm)
      cases hstep with
      | next hj _ hf => exact same hj rfl ▸ hf
      | call hj hop _ _ | back hj hop | jump hj hop _ | resume hj hop _ | store hj hop _ =>
        rw [same hj rfl] at hop
        rw [hop] at hends
        cases hends
      | taken hj hop _ | passed hj hop _ =>
        rw [same hj rfl] at hop
        revert hop hends
        cases i.opcode <;> simp [Opcode.isConditional, Opcode.endsBlock]
    rw [hs.linked.follower hp] at hf
    split at hf
    · obtain ⟨j, hj, hja⟩ := Option.map_eq_some_iff.mp hf
      refine ⟨_, ?_, .refl⟩
      rw [← hja, hc.holder?_eq hs hj, hc.blockOf_next (List.getElem?_eq_some_iff.mp hj).1 hbs hlast]
    · cases hf

theorem executed_leads (hs : l.Sound) (hc : Complete l d) (hcov : Covers l.code (assemble l.code d))
    (hm : Executed l.code m) :
    ∃ root b, Script.rootBlock? l.code (assemble l.code d) = some root ∧
      (assemble l.code d).holder? m.pc = some b ∧ Leads (assemble l.code d) root b := by
  induction hm with
  | @start i hi =>
    have hp : l.code[0]? = some i := by rw [← List.head?_eq_getElem?, hi]
    have hholder := hc.holder?_eq hs hp
    exact ⟨_, _, by simp [Script.rootBlock?, hi, hholder], hholder, .refl⟩
  | step hm hstep ih =>
    obtain ⟨root, b, hroot, hb, hpath⟩ := ih
    obtain ⟨c, hc', hedge⟩ := hc.step_leads hs hcov hm hstep hb
    exact ⟨root, c, hroot, hc', hpath.trans hedge⟩

theorem ownedCoverage (hs : l.Sound) (hc : Complete l d) :
    OwnedCoverage l.code (assemble l.code d) where
  transfers _ _ hm hstep _ _ hb hlast ha := hc.follows_iff hs hm hstep hb hlast ha
  covers := hc.covers_iff hs
  reaches howned _ hm := hc.executed_leads hs ((hc.covers_iff hs).mpr howned) hm

end Complete

end

/-! ## Loaded scripts -/

/-- The graph of a loaded script covers its executions exactly if all returns are made by owners. -/
theorem load_covers_owned_returns {image : List UInt8} {events : List Event} {s : Script}
    (h : Script.load image = (events, .ok s)) :
    ∃ built, build s.code (Script.rootsOf s.code) = .ok built ∧
      OwnedCoverage s.code built.graph := by
  have hs := Script.sound_rootsOf (Script.load_linked h)
  obtain ⟨built, d, hbuilt, hgraph, -, hc⟩ := build_complete hs
  have hcov := hc.ownedCoverage hs
  dsimp only at hcov
  exact ⟨built, hbuilt, hgraph ▸ hcov⟩

/-- A call of a subroutine of its own. -/
def plainCall : List UInt8 :=
  Script.magic ++ [Script.marker, 0, 0, 0, 23] ++ [0x1E, 0, 0, 0, 0, 8] ++ [0x20, 0] ++ [0x20, 0]

/-- The same script with its links. -/
def plainCallLinked : List LinkedInstruction :=
  [⟨⟨13, .jsr, 0, 6, .offset 8⟩, some 19, some 21, .plain⟩,
   ⟨⟨19, .retn, 0, 2, .none⟩, none, none, .plain⟩,
   ⟨⟨21, .retn, 0, 2, .none⟩, none, none, .subroutine⟩]

/-- The graph of the script. -/
def plainCallGraph : Graph where
  blocks := #[
    ⟨13, [plainCallLinked[0]], some 13, [], [⟨1, .call⟩]⟩,
    ⟨21, [plainCallLinked[2]], some 21, [0], [⟨2, .back⟩]⟩,
    ⟨19, [plainCallLinked[1]], some 13, [1], []⟩]

theorem plainCall_linkedCode : Script.linkedCode plainCall 23 = .ok plainCallLinked := by
  decide +kernel

theorem plainCall_graph {built : Built}
    (h : build plainCallLinked (Script.rootsOf plainCallLinked) = .ok built) :
    built.graph = plainCallGraph := by
  have hmap : (build plainCallLinked (Script.rootsOf plainCallLinked)).map Built.graph =
      .ok plainCallGraph := by decide +kernel
  rw [h] at hmap
  exact Except.ok.inj hmap

theorem plainCall_executed {m : Machine} (h : Executed plainCallLinked m) :
    m = ⟨13, []⟩ ∨ m = ⟨21, [19]⟩ ∨ m = ⟨19, []⟩ := by
  have hops : ∀ i ∈ plainCallLinked, i.opcode = .jsr ∨ i.opcode = .retn := by decide
  induction h with
  | start hi =>
    cases hi
    exact .inl rfl
  | step _ hs ih =>
    cases hs with
    | @call i t f rs hi hop ht hf =>
      have hcall : ∀ i ∈ plainCallLinked, i.opcode = .jsr →
          i.address = 13 ∧ i.target = some 21 ∧ i.follower = some 19 := by decide
      obtain ⟨ha, ht', hf'⟩ := hcall i hi hop
      grind
    | back hi hop => grind
    | jump hi hop | taken hi hop | passed hi hop | resume hi hop | store hi hop | next hi hop =>
      rcases hops _ hi with h | h <;> rw [h] at hop <;> cases hop

theorem plainCall_covered : ∃ events s built, Script.load plainCall = (events, .ok s) ∧
    s.code = plainCallLinked ∧ build s.code (Script.rootsOf s.code) = .ok built ∧
    OwnedCoverage s.code built.graph ∧ Covers s.code built.graph := by
  obtain ⟨events, s, hload, hcode⟩ := Script.load_of_linkedCode
    (show Script.declaredSize plainCall = .ok 23 by decide +kernel) plainCall_linkedCode
  obtain ⟨built, hbuilt, hcov⟩ := load_covers_owned_returns hload
  refine ⟨events, s, built, hload, hcode, hbuilt, hcov, hcov.covers.mpr ?_⟩
  rw [hcode] at hbuilt
  rw [hcode, plainCall_graph hbuilt]
  intro m hm i hi ha hop r rs hret j hj hjsr hf b hb
  -- only the state inside of the call has something to return to
  rcases plainCall_executed hm with rfl | rfl | rfl
  · cases hret
  · have htarget : ∀ j ∈ plainCallLinked, j.opcode = .jsr → j.target = some 21 := by decide
    have hholder : plainCallGraph.holder? 21 = some 1 := by decide +kernel
    cases hholder.symm.trans hb
    rw [htarget j hj hjsr]
    rfl
  · cases hret

/-- Two calls, the first of a subroutine that goes on as the other one. -/
def tailCall : List UInt8 :=
  Script.magic ++ [Script.marker, 0, 0, 0, 35] ++ [0x1E, 0, 0, 0, 0, 16] ++
    [0x1E, 0, 0, 0, 0, 8] ++ [0x20, 0] ++ [0x20, 0] ++ [0x1D, 0, 0xFF, 0xFF, 0xFF, 0xFE]

/-- The same script with its links. -/
def tailCallLinked : List LinkedInstruction :=
  [⟨⟨13, .jsr, 0, 6, .offset 16⟩, some 19, some 29, .plain⟩,
   ⟨⟨19, .jsr, 0, 6, .offset 8⟩, some 25, some 27, .plain⟩,
   ⟨⟨25, .retn, 0, 2, .none⟩, none, none, .plain⟩,
   ⟨⟨27, .retn, 0, 2, .none⟩, none, none, .subroutine⟩,
   ⟨⟨29, .jmp, 0, 6, .offset (-2)⟩, none, some 27, .subroutine⟩]

/-- The graph of the script. -/
def tailCallGraph : Graph where
  blocks := #[
    ⟨13, [tailCallLinked[0]], some 13, [], [⟨1, .call⟩]⟩,
    ⟨29, [tailCallLinked[4]], some 29, [0], [⟨3, .unconditional⟩]⟩,
    ⟨19, [tailCallLinked[1]], some 13, [], [⟨3, .call⟩]⟩,
    ⟨27, [tailCallLinked[3]], some 27, [1, 2], [⟨4, .back⟩]⟩,
    ⟨25, [tailCallLinked[2]], some 13, [3], []⟩]

theorem tailCall_linkedCode : Script.linkedCode tailCall 35 = .ok tailCallLinked := by
  decide +kernel

theorem tailCall_graph : ∃ built,
    build tailCallLinked (Script.rootsOf tailCallLinked) = .ok built ∧
      built.graph = tailCallGraph :=
  ⟨_, rfl, by decide +kernel⟩

theorem tailCall_returns : Executed tailCallLinked ⟨27, [19]⟩ ∧
    Step tailCallLinked ⟨27, [19]⟩ ⟨19, []⟩ := by
  have start : Executed tailCallLinked ⟨13, []⟩ :=
    .start (i := tailCallLinked[0]) rfl
  have called : Executed tailCallLinked ⟨29, [19]⟩ :=
    start.step (.call (i := tailCallLinked[0]) (by decide) rfl rfl rfl)
  have jumped : Executed tailCallLinked ⟨27, [19]⟩ :=
    called.step (.jump (i := tailCallLinked[4]) (by decide) rfl rfl)
  exact ⟨jumped, .back (i := tailCallLinked[3]) (by decide) rfl⟩

/-- The first call comes back, by a return that belongs to the other subroutine: the transfer has no
edge, and the block behind the call runs though no path leads to it. -/
theorem tailCall_uncovered : ∃ events s built, Script.load tailCall = (events, .ok s) ∧
    build s.code (Script.rootsOf s.code) = .ok built ∧ ¬ Covers s.code built.graph ∧
    ∃ m root b, Executed s.code m ∧ Script.rootBlock? s.code built.graph = some root ∧
      built.graph.holder? m.pc = some b ∧ ¬ Leads built.graph root b := by
  obtain ⟨events, s, hload, hcode⟩ := Script.load_of_linkedCode
    (show Script.declaredSize tailCall = .ok 35 by decide +kernel) tailCall_linkedCode
  obtain ⟨built, hbuilt, hgraph⟩ := tailCall_graph
  obtain ⟨hrun, hback⟩ := tailCall_returns
  refine ⟨events, s, built, hload, hcode ▸ hbuilt, ?_⟩
  rw [hcode, hgraph]
  refine ⟨fun hcov => ?_, ⟨19, []⟩, 0, 2, hrun.step hback, by decide +kernel, by decide +kernel, ?_⟩
  · obtain ⟨e, he, ha, -⟩ :=
      hcov _ _ hrun hback 3 tailCallLinked[3] (by decide +kernel) (by decide) rfl
    revert e
    decide
  · intro hpath
    have hedge := hpath.eq_or_edge
    revert hedge
    decide

end ScriptFlow.Flow
