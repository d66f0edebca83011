import ScriptFlow.Code.Link
import Mathlib.Data.List.Basic

/-! # What linking promises

A store takes instructions in increasing address order only. Linking it succeeds when every branch
has a destination in the store and every instruction that needs a follower has one; `Linked` is all
that the search for blocks relies on, said of the linked list alone. -/

namespace ScriptFlow

/-- The opcode leads somewhere else than to the instruction stored next. -/
def Opcode.branches (op : Opcode) : Prop := op ∈ [Opcode.jmp, .jz, .jnz, .jsr, .storestate]

instance (op : Opcode) : Decidable op.branches := inferInstanceAs (Decidable (op ∈ _))

theorem Opcode.branches_iff {op : Opcode} : op.branches ↔ ∃ t, Tag.ofOpcode? op = some t := by
  cases op <;> simp [branches, Tag.ofOpcode?]

/-- Linked code: addresses increase, followers are the instructions stored next, branches lead to
instructions of the code, and each target bears a tag at least as strong as the branch asks for. -/
structure Linked (code : List LinkedInstruction) : Prop where
  ordered : code.Pairwise fun i j => i.address < j.address
  follower : ∀ {p : Nat} {i : LinkedInstruction}, code[p]? = some i →
    i.follower = if i.opcode.fallsThrough then code[p + 1]?.map (fun j => j.address) else none
  followed : ∀ {p i}, code[p]? = some i → i.opcode.needsFollower = true →
    ∃ j, code[p + 1]? = some j
  target : ∀ {i}, i ∈ code → i.opcode.branches → ∃ j ∈ code, i.target = some j.address
  tagged : ∀ {i j t}, i ∈ code → j ∈ code → Tag.ofOpcode? i.opcode = some t →
    i.target = some j.address → t.rank ≤ j.tag.rank

theorem position_unique {code : List LinkedInstruction} {p q : Nat} {i j : LinkedInstruction}
    (ho : code.Pairwise fun i j => i.address < j.address) (hp : code[p]? = some i)
    (hq : code[q]? = some j) (ha : i.address = j.address) : p = q := by
  obtain ⟨hp', rfl⟩ := List.getElem?_eq_some_iff.mp hp
  obtain ⟨hq', rfl⟩ := List.getElem?_eq_some_iff.mp hq
  have hlt := List.pairwise_iff_getElem.mp ho
  rcases Nat.lt_trichotomy p q with h | h | h
  · have := hlt p q hp' hq' h; omega
  · exact h
  · have := hlt q p hq' hp' h; omega

namespace Code

/-! ## The store -/

theorem append_ok {code next : Code} {i : Instruction} (h : code.append i = .ok next) :
    next.toList = code.toList ++ [i] ∧ ∀ last, code.toList.getLast? = some last →
      last.address < i.address := by
  unfold append at h
  simp only [toList, Array.getLast?_toList]
  split at h
  · rename_i last hlast
    split at h
    · cases h
    · cases h
      refine ⟨by simp, ?_⟩
      intro l hl
      rw [hlast] at hl
      cases hl
      omega
  · rename_i hnone
    cases h
    exact ⟨by simp, fun l hl => by rw [hnone] at hl; cases hl⟩

/-- Addresses in increasing order. -/
def Ordered (code : Code) : Prop := code.toList.Pairwise fun i j => i.address < j.address

theorem append_ordered {code next : Code} {i : Instruction} (ho : code.Ordered)
    (h : code.append i = .ok next) : next.Ordered := by
  obtain ⟨hl, hlast⟩ := append_ok h
  unfold Ordered
  rw [hl, List.pairwise_append]
  refine ⟨ho, List.pairwise_singleton _ _, ?_⟩
  intro j hj k hk
  rw [List.mem_singleton.mp hk]
  obtain ⟨front, last, hsplit⟩ := (List.eq_nil_or_concat' code.toList).resolve_left
    (List.ne_nil_of_mem hj)
  have hend := hlast last (by rw [hsplit]; simp)
  unfold Ordered at ho
  rw [hsplit] at ho hj
  rcases List.mem_append.mp hj with hm | hm
  · have hlt := (List.pairwise_append.mp ho).2.2 j hm last (by simp)
    omega
  · rw [List.mem_singleton.mp hm]
    exact hend

theorem foldlM_append_ordered {is : List Instruction} {code store : Code} (ho : code.Ordered)
    (h : is.foldlM append code = .ok store) : store.Ordered := by
  induction is generalizing code with
  | nil => cases h; exact ho
  | cons i rest ih =>
    simp only [List.foldlM_cons, bind, Except.bind] at h
    split at h
    · cases h
    · rename_i next hn
      exact ih (append_ordered ho hn) h

theorem ofList_ordered {is : List Instruction} {store : Code} (h : ofList is = .ok store) :
    store.Ordered := by
  have hnil : Ordered {} := List.Pairwise.nil
  exact foldlM_append_ordered hnil h

theorem locate?_sound {code : Code} {a : Int} {p : Nat} (h : code.locate? a = some p) :
    ∃ i, code.items[p]? = some i ∧ i.address = a := by
  unfold locate? at h
  dsimp only at h
  split at h
  · rename_i i hi
    split at h
    · cases h
      exact ⟨i, hi, by assumption⟩
    · cases h
  · cases h

/-! ## Targets -/

theorem resolve_ok {code : Code} {next : Bool} {i : Instruction} {t : Option Nat}
    (h : code.resolve next i = .ok t) :
    (i.opcode.needsFollower = true → next = true) ∧
      ∀ tag, Tag.ofOpcode? i.opcode = some tag →
        ∃ p j, t = some p ∧ code.items[p]? = some j ∧ j.address = destination i := by
  unfold resolve at h
  split at h
  · cases h
  · rename_i hnext
    refine ⟨fun hn => by simpa [hn] using hnext, ?_⟩
    intro tag htag
    rw [htag] at h
    dsimp only at h
    split at h
    · rename_i p hp
      obtain ⟨j, hj, ha⟩ := locate?_sound hp
      cases h
      exact ⟨p, j, rfl, hj, ha⟩
    · cases h

/-- The targets run parallel to the instructions, each what `resolve` makes of its own. -/
theorem resolveAll_ok {code : Code} {is : List Instruction} {ts : List (Option Nat)}
    (h : code.resolveAll is = .ok ts) : ts.length = is.length ∧
      ∀ (p : Nat) (i : Instruction), is[p]? = some i →
        ∃ t, ts[p]? = some t ∧ code.resolve (is[p + 1]?).isSome i = .ok t := by
  induction is generalizing ts with
  | nil => cases h; simp
  | cons i rest ih =>
    simp only [resolveAll, bind, Except.bind] at h
    split at h
    · cases h
    · rename_i t ht
      split at h
      · cases h
      · rename_i ts' hts
        cases h
        obtain ⟨hlen, hat⟩ := ih hts
        refine ⟨by simp [hlen], ?_⟩
        intro p j hj
        cases p with
        | zero =>
          simp only [List.getElem?_cons_zero, Option.some.injEq] at hj
          subst hj
          refine ⟨t, rfl, ?_⟩
          rw [← ht]
          cases rest <;> rfl
        | succ p => exact hat p j hj

/-! ## Tags -/

theorem rank_le_join (a b : Tag) : a.rank ≤ (a.join b).rank ∧ b.rank ≤ (a.join b).rank := by
  unfold Tag.join
  split <;> omega

theorem markTarget_length (tags : List Tag) (b : Instruction × Option Nat) :
    (markTarget tags b).length = tags.length := by
  unfold markTarget mark
  split <;> simp

theorem markTarget_grows {tags : List Tag} {b : Instruction × Option Nat} {p : Nat} {old : Tag}
    (h : tags[p]? = some old) : ∃ new, (markTarget tags b)[p]? = some new ∧ old.rank ≤ new.rank := by
  unfold markTarget mark
  split
  · rename_i t q _ _
    by_cases hq : q = p
    · subst hq
      exact ⟨old.join t, by simp [h], (rank_le_join old t).1⟩
    · exact ⟨old, by simp [hq, h], Nat.le_refl _⟩
  · exact ⟨old, h, Nat.le_refl _⟩

theorem foldl_markTarget_length (bs : List (Instruction × Option Nat)) (tags : List Tag) :
    (bs.foldl markTarget tags).length = tags.length := by
  induction bs generalizing tags with
  | nil => rfl
  | cons b bs ih => rw [List.foldl_cons, ih, markTarget_length]

theorem foldl_markTarget_grows (bs : List (Instruction × Option Nat)) {tags : List Tag} {p : Nat}
    {old : Tag} (h : tags[p]? = some old) :
    ∃ new, (bs.foldl markTarget tags)[p]? = some new ∧ old.rank ≤ new.rank := by
  induction bs generalizing tags old with
  | nil => exact ⟨old, h, Nat.le_refl _⟩
  | cons b bs ih =>
    obtain ⟨mid, hmid, hle⟩ := markTarget_grows (b := b) h
    obtain ⟨new, hnew, hle'⟩ := ih hmid
    exact ⟨new, hnew, Nat.le_trans hle hle'⟩

/-- A mark that was set at some point of the fold is never weakened afterwards. -/
theorem foldl_markTarget_marks {bs : List (Instruction × Option Nat)} (tags : List Tag)
    {b : Instruction × Option Nat} {t : Tag} {p : Nat} (hb : b ∈ bs)
    (ht : Tag.ofOpcode? b.1.opcode = some t) (hp : b.2 = some p) (hlt : p < tags.length) :
    ∃ new, (bs.foldl markTarget tags)[p]? = some new ∧ t.rank ≤ new.rank := by
  induction bs generalizing tags with
  | nil => cases hb
  | cons c bs ih =>
    rcases List.mem_cons.mp hb with rfl | hm
    · have hold : tags[p]? = some tags[p] := List.getElem?_eq_getElem hlt
      have hmark : (markTarget tags b)[p]? = some (tags[p].join t) := by
        simp [markTarget, mark, ht, hp, hold]
      obtain ⟨new, hnew, hle⟩ := foldl_markTarget_grows bs hmark
      exact ⟨new, hnew, Nat.le_trans (rank_le_join _ t).2 hle⟩
    · exact ih _ hm (by rwa [markTarget_length])

/-! ## Putting the links together -/

theorem zipLinks_getElem? (addressOf : Nat → Option Int) {is : List Instruction}
    {ts : List (Option Nat)} {tags : List Tag} {p : Nat} {i : Instruction} {t : Option Nat} {tag : Tag}
    (hi : is[p]? = some i) (ht : ts[p]? = some t) (htag : tags[p]? = some tag) :
    (zipLinks addressOf is ts tags)[p]? = some
      { toInstruction := i
        follower := if i.opcode.fallsThrough then is[p + 1]?.map Instruction.address else none
        target := t.bind addressOf
        tag } := by
  induction is generalizing ts tags p with
  | nil => simp at hi
  | cons j rest ih =>
    cases ts with
    | nil => simp at ht
    | cons u us =>
      cases tags with
      | nil => simp at htag
      | cons v vs =>
        cases p with
        | zero =>
          simp only [List.getElem?_cons_zero, Option.some.injEq] at hi ht htag
          subst hi ht htag
          simp [zipLinks, List.head?_eq_getElem?]
        | succ p =>
          simp only [List.getElem?_cons_succ] at hi ht htag
          simpa [zipLinks] using ih hi ht htag

theorem zipLinks_length (addressOf : Nat → Option Int) (is : List Instruction)
    (ts : List (Option Nat)) (tags : List Tag) (ht : ts.length = is.length)
    (htag : tags.length = is.length) : (zipLinks addressOf is ts tags).length = is.length := by
  induction is generalizing ts tags with
  | nil => rfl
  | cons i rest ih =>
    match ts, tags, ht, htag with
    | t :: ts, tag :: tags, ht, htag =>
      simp only [List.length_cons, Nat.add_right_cancel_iff] at ht htag
      simp [zipLinks, ih ts tags ht htag]

section
variable {store : Code} {code : List LinkedInstruction}

/-- Linking keeps every instruction in its place. -/
theorem link_at (h : store.link = .ok code) {p : Nat} {l : LinkedInstruction}
    (hp : code[p]? = some l) : store.toList[p]? = some l.toInstruction ∧
      l.follower = (if l.opcode.fallsThrough then store.toList[p + 1]?.map Instruction.address
        else none) ∧
      ∃ t, store.resolve (store.toList[p + 1]?).isSome l.toInstruction = .ok t ∧
        l.target = t.bind fun q => store.items[q]?.map Instruction.address := by
  simp only [link, bind, Except.bind] at h
  split at h
  · cases h
  · rename_i ts hts
    cases h
    obtain ⟨hlen, hat⟩ := resolveAll_ok hts
    have htags := foldl_markTarget_length (store.toList.zip ts) (store.toList.map fun _ => Tag.plain)
    rw [List.length_map] at htags
    obtain ⟨hlt, -⟩ := List.getElem?_eq_some_iff.mp hp
    rw [zipLinks_length _ _ _ _ hlen htags] at hlt
    obtain ⟨t, ht, hres⟩ := hat p _ (List.getElem?_eq_getElem hlt)
    have hl := zipLinks_getElem? (fun q => store.items[q]?.map Instruction.address)
      (List.getElem?_eq_getElem hlt) ht (List.getElem?_eq_getElem (htags.symm ▸ hlt))
    rw [hl] at hp
    cases hp
    exact ⟨List.getElem?_eq_getElem hlt, rfl, t, hres, rfl⟩

theorem link_length (h : store.link = .ok code) : code.length = store.toList.length := by
  simp only [link, bind, Except.bind] at h
  split at h
  · cases h
  · rename_i ts hts
    cases h
    apply zipLinks_length _ _ _ _ (resolveAll_ok hts).1
    rw [foldl_markTarget_length, List.length_map]

theorem link_tagged (h : store.link = .ok code) {p q : Nat} {l j : LinkedInstruction} {t : Tag}
    (hp : code[p]? = some l) (hq : code[q]? = some j) (ht : Tag.ofOpcode? l.opcode = some t)
    (hres : store.resolve (store.toList[p + 1]?).isSome l.toInstruction = .ok (some q)) :
    t.rank ≤ j.tag.rank := by
  have hi := (link_at h hp).1
  have hj := (link_at h hq).1
  simp only [link, bind, Except.bind] at h
  split at h
  · cases h
  · rename_i ts hts
    cases h
    obtain ⟨hlen, hat⟩ := resolveAll_ok hts
    have htags := foldl_markTarget_length (store.toList.zip ts) (store.toList.map fun _ => Tag.plain)
    rw [List.length_map] at htags
    obtain ⟨u, hu, hru⟩ := hat p _ hi
    have hsome : u = some q := by rw [hres] at hru; cases hru; rfl
    have hmem : (l.toInstruction, some q) ∈ store.toList.zip ts := by
      apply List.mem_of_getElem? (i := p)
      rw [List.getElem?_zip_eq_some]
      exact ⟨hi, hsome ▸ hu⟩
    obtain ⟨hlt, -⟩ := List.getElem?_eq_some_iff.mp hj
    obtain ⟨new, hnew, hle⟩ := foldl_markTarget_marks
      (store.toList.map fun _ => Tag.plain) hmem ht rfl (by rwa [List.length_map])
    obtain ⟨v, hv, -⟩ := hat q _ hj
    have hl := zipLinks_getElem? (fun q => store.items[q]?.map Instruction.address)
      hj hv hnew
    have htag := congrArg (Option.map LinkedInstruction.tag) (hl.symm.trans hq)
    rw [← Option.some.inj htag]
    exact hle

theorem link_address (h : store.link = .ok code) (p : Nat) :
    code[p]?.map (fun l => l.address) = store.toList[p]?.map Instruction.address := by
  cases hp : code[p]? with
  | some l => rw [(link_at h hp).1]; rfl
  | none =>
    have hge := List.getElem?_eq_none_iff.mp hp
    rw [link_length h] at hge
    rw [List.getElem?_eq_none hge]
    rfl

theorem link_pairwise (ho : store.Ordered) (h : store.link = .ok code) :
    code.Pairwise fun i j => i.address < j.address := by
  rw [List.pairwise_iff_getElem]
  intro p q hp hq hpq
  have hip := (link_at h (List.getElem?_eq_getElem hp)).1
  have hiq := (link_at h (List.getElem?_eq_getElem hq)).1
  obtain ⟨hp', hip⟩ := List.getElem?_eq_some_iff.mp hip
  obtain ⟨hq', hiq⟩ := List.getElem?_eq_some_iff.mp hiq
  rw [← hip, ← hiq]
  exact List.pairwise_iff_getElem.mp ho p q hp' hq' hpq

/-- A branch of linked code leads to a position of the code. -/
theorem link_target (h : store.link = .ok code) {p : Nat} {l : LinkedInstruction} {t : Tag}
    (hp : code[p]? = some l) (ht : Tag.ofOpcode? l.opcode = some t) :
    ∃ q j, code[q]? = some j ∧ l.target = some j.address ∧
      store.resolve (store.toList[p + 1]?).isSome l.toInstruction = .ok (some q) := by
  obtain ⟨-, -, u, hres, htarget⟩ := link_at h hp
  obtain ⟨q, i, rfl, hi, -⟩ := (resolve_ok hres).2 t ht
  have hlt : q < code.length := by
    rw [link_length h, toList, Array.length_toList]
    exact (Array.getElem?_eq_some_iff.mp hi).1
  obtain ⟨j, hj⟩ : ∃ j, code[q]? = some j := ⟨_, List.getElem?_eq_getElem hlt⟩
  have hij := (link_at h hj).1
  rw [toList, Array.getElem?_toList, hi] at hij
  cases hij
  exact ⟨q, j, hj, by rw [htarget]; simp [hi], hres⟩

theorem link_linked (ho : store.Ordered) (h : store.link = .ok code) : Linked code where
  ordered := link_pairwise ho h
  follower := by
    intro p i hp
    rw [(link_at h hp).2.1, link_address h]
  followed := by
    intro p i hp hn
    obtain ⟨-, -, t, hres, -⟩ := link_at h hp
    have hnext := (resolve_ok hres).1 hn
    have hmap := link_address h (p + 1)
    cases hc : code[p + 1]? with
    | some j => exact ⟨j, rfl⟩
    | none =>
      rw [hc] at hmap
      rw [Option.map_eq_none_iff.mp hmap.symm] at hnext
      cases hnext
  target := by
    intro i hi hb
    obtain ⟨p, hp⟩ := List.getElem?_of_mem hi
    obtain ⟨t, ht⟩ := Opcode.branches_iff.mp hb
    obtain ⟨q, j, hj, htarget, -⟩ := link_target h hp ht
    exact ⟨j, List.mem_of_getElem? hj, htarget⟩
  tagged := by
    intro i j t hi hj ht htarget
    obtain ⟨p, hp⟩ := List.getElem?_of_mem hi
    obtain ⟨q, k, hk, hk', hres⟩ := link_target h hp ht
    obtain ⟨r, hr⟩ := List.getElem?_of_mem hj
    have ha : k.address = j.address := by rw [hk'] at htarget; exact Option.some.inj htarget
    have hqr := position_unique (link_pairwise ho h) hk hr ha
    subst hqr
    exact link_tagged h hp hr ht hres

end

end Code

end ScriptFlow
