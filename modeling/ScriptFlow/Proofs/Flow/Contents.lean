import ScriptFlow.Proofs.Flow.Stages
import ScriptFlow.Proofs.Graph.Mirror
import Mathlib.Data.List.Sort

/-! # What blocks hold while they are found

A block holds the positions that walks have claimed behind its start. A walk fills the block it starts
from, which was empty until then. A start where nothing is walked opens an empty block and takes
nothing from any other; a start in the middle of a block takes the rest of it. Once everything is
walked, each block holds the code from its start up to the next. -/

namespace ScriptFlow.Flow

namespace Discovery

/-- The walked positions of the block with the given start. -/
def held (l : Layout) (d : Discovery) (s : Start) : List Nat :=
  (List.range l.code.length).filter fun q => q ∈ d.walked ∧ startOf? d.starts q = some s

/-- The block with the given start as it is so far, before any edge touches it. -/
def blockSoFar (l : Layout) (d : Discovery) (s : Start) : Block where
  address := (l.code[s.position]?.map fun i => i.address).getD 0
  instructions := (d.held l s).filterMap (l.code[·]?)
  owner := s.owner

def blocksSoFar (l : Layout) (d : Discovery) : Graph := ⟨(d.starts.map (d.blockSoFar l)).toArray⟩

end Discovery

section
variable {l : Layout} {busy : Option Nat} {d e : Discovery} {s t : Start} {p q : Nat} {b : BlockId}
variable {o : Option Int}

/-! ## Held positions -/

theorem mem_held : q ∈ d.held l s ↔
    q < l.code.length ∧ q ∈ d.walked ∧ startOf? d.starts q = some s := by
  simp [Discovery.held]

theorem held_pairwise : (d.held l s).Pairwise (· < ·) := List.pairwise_lt_range.filter _

/-- A block holds what is listed in order and is the same. -/
theorem held_eq {qs : List Nat} (hqs : qs.Pairwise (· < ·)) (hmem : ∀ q, q ∈ d.held l s ↔ q ∈ qs) :
    d.held l s = qs := held_pairwise.eq_of_mem_iff hqs hmem

theorem held_congr (hwalked : e.walked = d.walked)
    (hstart : ∀ q ∈ d.walked, startOf? e.starts q = some t ↔ startOf? d.starts q = some s) :
    e.held l t = d.held l s := by
  refine held_eq held_pairwise fun q => ?_
  rw [mem_held, mem_held, hwalked]
  exact and_congr_right fun _ => and_congr_right fun hq => hstart q hq

/-- Nothing is held by a block that is still to be walked. -/
theorem Inv.held_of_not_walked (h : Inv l busy d) (hw : s.position ∉ d.walked) : d.held l s = [] := by
  refine List.eq_nil_iff_forall_not_mem.mpr fun q hq => hw ?_
  obtain ⟨-, hq, hsq⟩ := mem_held.mp hq
  obtain ⟨-, hle, hmax⟩ := startOf?_spec hsq
  refine (h.walked_back hq hle fun x hx hxq hm => ?_).1
  obtain ⟨u, hu, rfl⟩ := List.mem_map.mp hm
  have := hmax u hu hxq
  omega

theorem startOf?_self (hnd : d.heads.Nodup) (hs : s ∈ d.starts) :
    startOf? d.starts s.position = some s :=
  startOf?_eq hnd hs (Nat.le_refl _) fun _ _ ht => ht

/-! ## One more start -/

section
variable (hstarts : e.starts = d.starts ++ [⟨p, o⟩]) (hwalked : e.walked = d.walked)
include hstarts hwalked

theorem Inv.held_open (h : Inv l busy d) (hh : p ∉ d.heads) (hw : p ∉ d.walked) (s : Start) :
    e.held l s = d.held l s := by
  refine held_congr hwalked fun q hq => ?_
  rw [hstarts, h.startOf?_open hh hw o (.inl hq)]

omit hwalked in
/-- The new start serves the positions of the old one from its own on. -/
theorem Inv.startOf?_split (h : Inv l busy d) (hh : p ∉ d.heads)
    (hs : startOf? d.starts p = some s) (hq : startOf? d.starts q = some s) :
    startOf? e.starts q = if q < p then some s else some ⟨p, o⟩ := by
  rw [hstarts]
  obtain hsame | ⟨hnew, hle, -⟩ := startOf?_append (w := q) (h.heads_append_nodup hh o)
  · rw [hsame, hq, if_pos]
    by_contra hle
    obtain ⟨-, -, hmax⟩ := startOf?_spec (hsame.trans hq)
    have hps : p ≤ s.position := hmax ⟨p, o⟩ (by simp) (Nat.le_of_not_lt hle)
    obtain ⟨hmem, hsp, -⟩ := startOf?_spec hs
    exact hh (Nat.le_antisymm hps hsp ▸ List.mem_map_of_mem hmem)
  · rw [hnew, if_neg (Nat.not_lt.mpr hle)]

omit hwalked in
/-- What the two serve together is what the old start served. -/
theorem Inv.startOf?_served (h : Inv l busy d) (hh : p ∉ d.heads)
    (hs : startOf? d.starts p = some s)
    (hq : startOf? e.starts q = some s ∨ startOf? e.starts q = some ⟨p, o⟩) :
    startOf? d.starts q = some s := by
  rw [hstarts] at hq
  obtain hsame | ⟨-, -, hold, -⟩ := startOf?_append (w := q) (h.heads_append_nodup hh o)
  · rw [hsame] at hq
    rcases hq with hq | hq
    · exact hq
    · exact absurd (List.mem_map_of_mem (startOf?_spec hq).1) hh
  · exact hold.trans hs

theorem Inv.held_split_of_ne (h : Inv l busy d) (hh : p ∉ d.heads)
    (hs : startOf? d.starts p = some s) (ht : t ∈ d.starts) (hts : t ≠ s) :
    e.held l t = d.held l t := by
  refine held_congr hwalked fun q _ => ?_
  rw [hstarts]
  obtain hsame | ⟨hnew, -, hold, -⟩ := startOf?_append (w := q) (h.heads_append_nodup hh o)
  · rw [hsame]
  · have htp : (⟨p, o⟩ : Start) ≠ t := by
      intro hpt
      exact hh (List.mem_map.mpr ⟨t, ht, by rw [← hpt]⟩)
    rw [hnew, hold, hs]
    simp [htp, Ne.symm hts]

theorem Inv.mem_held_split (h : Inv l busy d) (hh : p ∉ d.heads)
    (hs : startOf? d.starts p = some s) :
    (q ∈ e.held l s ↔ q ∈ d.held l s ∧ q < p) ∧
      (q ∈ e.held l ⟨p, o⟩ ↔ q ∈ d.held l s ∧ p ≤ q) := by
  have hne : s ≠ ⟨p, o⟩ := by
    intro hsp
    exact hh (List.mem_map.mpr ⟨s, (startOf?_spec hs).1, by rw [hsp]⟩)
  simp only [mem_held, hwalked]
  by_cases hq : startOf? d.starts q = some s
  · simp only [h.startOf?_split hstarts hh hs hq, hq]
    by_cases hqp : q < p
    · simp [hqp, hne]
    · simp [hqp, Ne.symm hne, Nat.le_of_not_lt hqp]
  · have hnot := fun hq' => hq (h.startOf?_served hstarts hh hs hq')
    simp only [hq, and_false, false_and, iff_false, not_and]
    exact ⟨fun _ _ hq' => hnot (.inl hq'), fun _ _ hq' => hnot (.inr hq')⟩

theorem Inv.held_split (h : Inv l busy d) (hh : p ∉ d.heads) (hs : startOf? d.starts p = some s) :
    d.held l s = e.held l s ++ e.held l ⟨p, o⟩ := by
  have hmem := fun q => h.mem_held_split (q := q) hstarts hwalked hh hs
  refine held_eq (List.pairwise_append.mpr ⟨held_pairwise, held_pairwise, ?_⟩) fun q => ?_
  · intro a ha c hc
    have := ((hmem a).1.mp ha).2
    have := ((hmem c).2.mp hc).2
    omega
  · rw [List.mem_append, (hmem q).1, (hmem q).2, ← and_or_left, and_iff_left (Nat.lt_or_ge q p)]

/-- The new block starts at its start. -/
theorem Inv.head?_held_split (h : Inv l busy d) (hh : p ∉ d.heads) (hw : p ∈ d.walked)
    (hs : startOf? d.starts p = some s) : (e.held l ⟨p, o⟩).head? = some p := by
  have hmem := fun q => (h.mem_held_split (q := q) hstarts hwalked hh hs).2
  have hp := (hmem p).mpr ⟨mem_held.mpr ⟨h.walked_lt hw, hw, hs⟩, Nat.le_refl p⟩
  have horder : (e.held l ⟨p, o⟩).Pairwise (· < ·) := held_pairwise
  cases hlist : e.held l ⟨p, o⟩ with
  | nil =>
    rw [hlist] at hp
    cases hp
  | cons q qs =>
    have hpq : p ≤ q := ((hmem q).mp (by rw [hlist]; simp)).2
    rw [hlist] at hp horder
    rcases List.mem_cons.mp hp with rfl | hp
    · rfl
    · have := (List.pairwise_cons.mp horder).1 p hp
      omega

/-- The position in front of the new start stays where it was. -/
theorem Inv.held_front_ne (h : Inv l busy d) (hh : p ∉ d.heads) (hw : p ∈ d.walked)
    (hs : startOf? d.starts p = some s) : ∃ q, q ∈ e.held l s := by
  obtain ⟨q, hpq, hq, -⟩ := h.entered hw hh
  have hsq : startOf? d.starts q = some s := by
    rw [← hs]
    refine (startOf?_congr h.heads_nodup (by omega) fun r h1 h2 => ?_).symm
    obtain rfl : r = p := by omega
    exact hh
  refine ⟨q, (h.mem_held_split hstarts hwalked hh hs).1.mpr ⟨?_, by omega⟩⟩
  exact mem_held.mpr ⟨h.walked_lt hq, hq, hsq⟩

end

/-! ## A walk -/

theorem Inv.held_claim {rest : List Nat} (h : Inv l none d) (hs : s ∈ d.starts)
    (hpend : d.pending = s.position :: rest) (hpq : s.position ≤ q) (hq : q < l.code.length)
    (hfree : ∀ r, s.position ≤ r → r < q → r + 1 ∉ d.heads) :
    (Flow.claim d rest s.position q).held l s = List.range' s.position (q + 1 - s.position) ∧
      ∀ t, t ≠ s → (Flow.claim d rest s.position q).held l t = d.held l t := by
  have hserved : ∀ r, s.position ≤ r → r ≤ q → startOf? d.starts r = some s := by
    intro r h1 h2
    rw [← startOf?_self h.heads_nodup hs]
    refine startOf?_congr h.heads_nodup h1 fun x hx hxr => ?_
    have := hfree (x - 1) (by omega) (by omega)
    rwa [show x - 1 + 1 = x by omega] at this
  have hempty : d.held l s = [] := h.held_of_not_walked (h.pending_head (by rw [hpend]; simp)).2
  have hmem : ∀ t r, r ∈ (Flow.claim d rest s.position q).held l t ↔
      r ∈ d.held l t ∨ (s.position ≤ r ∧ r ≤ q) ∧ t = s := by
    intro t r
    rw [mem_held, mem_held, mem_claim hpq]
    show _ ∧ _ ∧ startOf? d.starts r = some t ↔ _
    constructor
    · intro hr
      obtain ⟨hr, hw | hw, hstart⟩ := hr
      · exact .inl ⟨hr, hw, hstart⟩
      · exact .inr ⟨hw, Option.some.inj (hstart.symm.trans (hserved r hw.1 hw.2))⟩
    · intro hr
      obtain ⟨hr, hw, hstart⟩ | ⟨hw, rfl⟩ := hr
      · exact ⟨hr, .inl hw, hstart⟩
      · exact ⟨by omega, .inr hw, hserved r hw.1 hw.2⟩
  refine ⟨held_eq List.pairwise_lt_range' fun r => ?_, fun t hts => held_eq held_pairwise fun r => ?_⟩
  · rw [hmem, hempty, List.mem_range'_1]
    simp only [List.not_mem_nil, false_or, and_true]
    omega
  · rw [hmem]
    simp [hts]

/-! ## When everything is walked -/

theorem filterMap_range' {α : Type} (xs : List α) (p n : Nat) :
    (List.range' p n).filterMap (xs[·]?) = (xs.drop p).take n := by
  induction n generalizing p with
  | zero => simp
  | succ n ih =>
    rw [List.range'_succ, List.filterMap_cons, ih]
    by_cases hp : p < xs.length
    · rw [List.getElem?_eq_getElem hp, List.drop_eq_getElem_cons hp, List.take_succ_cons]
    · rw [List.getElem?_eq_none (by omega), List.drop_eq_nil_of_le (by omega),
        List.drop_eq_nil_of_le (by omega)]
      simp

theorem Inv.held_cut (h : Inv l busy d) (hs : s ∈ d.starts)
    (hall : ∀ q < l.code.length, q ∈ d.walked) :
    (d.held l s).filterMap (l.code[·]?) = cut l.code d.starts s.position := by
  have hheld : d.held l s = List.range' s.position
      (nextStart d.starts s.position l.code.length - s.position) := by
    refine held_eq List.pairwise_lt_range' fun q => ?_
    rw [mem_held, List.mem_range'_1]
    constructor
    · intro hq
      obtain ⟨hq, -, hsq⟩ := hq
      obtain ⟨-, hle, hmax⟩ := startOf?_spec hsq
      have hlt : q < nextStart d.starts s.position l.code.length := by
        refine lt_nextStart_iff.mpr ⟨hq, fun t ht hst => ?_⟩
        by_contra hle'
        have := hmax t ht (by omega)
        omega
      omega
    · intro hrange
      obtain ⟨hle, hlt⟩ := hrange
      have hlt : q < nextStart d.starts s.position l.code.length := by omega
      obtain ⟨hq, hnext⟩ := lt_nextStart_iff.mp hlt
      refine ⟨hq, hall q hq, startOf?_eq h.heads_nodup hs hle fun t ht htq => ?_⟩
      by_contra hst
      have := hnext t ht (by omega)
      omega
  rw [hheld, filterMap_range']
  rfl

/-! ## Blocks -/

theorem blocksSoFar_size : (d.blocksSoFar l).size = d.starts.length := by
  simp [Discovery.blocksSoFar, Graph.size]

theorem blocksSoFar_block (hb : d.starts[b]? = some s) :
    (d.blocksSoFar l).block b = d.blockSoFar l s := by
  unfold Graph.block Discovery.blocksSoFar
  rw [Array.getD_eq_getD_getElem?, List.getElem?_toArray, List.getElem?_map, hb]
  rfl

theorem blocksSoFar_bare (l : Layout) (d : Discovery) : (d.blocksSoFar l).Bare := by
  intro b hb
  rw [blocksSoFar_size] at hb
  rw [Graph.edges, blocksSoFar_block (List.getElem?_eq_getElem hb)]
  exact ⟨rfl, rfl⟩

/-- No start is listed twice. -/
theorem Inv.idxOf_eq (h : Inv l busy d) (hb : d.starts[b]? = some s) : d.starts.idxOf s = b := by
  obtain ⟨hlt, rfl⟩ := List.getElem?_eq_some_iff.mp hb
  exact List.Nodup.idxOf_getElem (List.Nodup.of_map _ h.heads_nodup) b hlt

/-- A start where nothing is walked is an empty block. -/
theorem Inv.blocks_open (h : Inv l busy d) (hstarts : e.starts = d.starts ++ [⟨p, o⟩])
    (hwalked : e.walked = d.walked) (hh : p ∉ d.heads) (hw : p ∉ d.walked) : e.blocksSoFar l =
      (d.blocksSoFar l).add ((l.code[p]?.map fun i => i.address).getD 0) [] o := by
  have hheld := h.held_open hstarts hwalked hh hw
  have hsame : ∀ s, e.blockSoFar l s = d.blockSoFar l s := by
    intro s
    rw [Discovery.blockSoFar, Discovery.blockSoFar, hheld]
  unfold Discovery.blocksSoFar Graph.add
  rw [hstarts, List.map_append, List.map_congr_left fun s _ => hsame s, List.map_singleton,
    List.push_toArray, hsame, Discovery.blockSoFar, h.held_of_not_walked hw]
  rfl

theorem code_of_mem_held (hq : q ∈ d.held l s) : ∃ i, l.code[q]? = some i :=
  ⟨_, List.getElem?_eq_getElem (mem_held.mp hq).1⟩

/-- A start in the middle of a block divides its code. -/
theorem Inv.blocks_divide (h : Inv l busy d) (hstarts : e.starts = d.starts ++ [⟨p, d.ownerOf p⟩])
    (hwalked : e.walked = d.walked) (hh : p ∉ d.heads) (hw : p ∈ d.walked) :
    Graph.Divides (d.blocksSoFar l) (e.blocksSoFar l) (blockOf d.starts p) := by
  obtain ⟨s, hs, hps⟩ := h.exists_startOf? hw
  have hb : blockOf d.starts p = d.starts.idxOf s := by rw [blockOf, hps]
  have hat : d.starts[d.starts.idxOf s]? = some s := List.getElem?_idxOf hs
  have hkept : ∀ {c : Nat} {t : Start}, d.starts[c]? = some t → e.starts[c]? = some t := by
    intro c t hc
    rw [hstarts, List.getElem?_append_left (List.getElem?_eq_some_iff.mp hc).1, hc]
  have hnew : e.starts[d.starts.length]? = some ⟨p, d.ownerOf p⟩ := by
    rw [hstarts, List.getElem?_append_right (Nat.le_refl _), Nat.sub_self]
    rfl
  have hold : ∀ c < d.starts.length, ∃ t, d.starts[c]? = some t ∧
      (d.blocksSoFar l).block c = d.blockSoFar l t ∧ (e.blocksSoFar l).block c = e.blockSoFar l t := by
    intro c hc
    have ht := List.getElem?_eq_getElem hc
    exact ⟨_, ht, blocksSoFar_block ht, blocksSoFar_block (hkept ht)⟩
  rw [hb]
  constructor <;> try rw [blocksSoFar_size]
  case parts =>
    rw [blocksSoFar_block hat, blocksSoFar_block (hkept hat), blocksSoFar_block hnew]
    simp only [Discovery.blockSoFar, h.held_split hstarts hwalked hh hps, List.filterMap_append]
  case front_ne =>
    rw [blocksSoFar_block (hkept hat)]
    obtain ⟨q, hq⟩ := h.held_front_ne hstarts hwalked hh hw hps
    obtain ⟨i, hi⟩ := code_of_mem_held hq
    exact List.ne_nil_of_mem (List.mem_filterMap.mpr ⟨q, hq, hi⟩)
  case first =>
    rw [blocksSoFar_block hnew]
    obtain ⟨qs, hqs⟩ := List.head?_eq_some_iff.mp (h.head?_held_split hstarts hwalked hh hw hps)
    obtain ⟨i, hi⟩ := code_of_mem_held (l := l) (d := e) (q := p) (by rw [hqs]; simp)
    simp only [Discovery.blockSoFar, hqs, List.filterMap_cons, hi]
    rfl
  case heir =>
    rw [blocksSoFar_block hat, blocksSoFar_block hnew]
    show d.ownerOf p = s.owner
    rw [Discovery.ownerOf, hps]
    rfl
  case code =>
    intro c hc hcb
    obtain ⟨t, ht, hd, he⟩ := hold c hc
    have hts : t ≠ s := by
      intro hts
      exact hcb (hts ▸ h.idxOf_eq ht).symm
    rw [hd, he, Discovery.blockSoFar, Discovery.blockSoFar,
      h.held_split_of_ne hstarts hwalked hh hps (List.mem_of_getElem? ht) hts]
  case address | owner =>
    intro c hc
    obtain ⟨t, -, hd, he⟩ := hold c hc
    rw [hd, he]
    rfl

/-- A walk fills one block, which was empty. -/
theorem Inv.blocks_claim {rest : List Nat} (h : Inv l none d) (hpend : d.pending = p :: rest)
    (hpq : p ≤ q) (hq : q < l.code.length) (hfree : ∀ r, p ≤ r → r < q → r + 1 ∉ d.heads) :
    ∃ b < d.starts.length, ((d.blocksSoFar l).block b).instructions = [] ∧ ∃ code,
      (Flow.claim d rest p q).blocksSoFar l =
        (d.blocksSoFar l).update b fun x => { x with instructions := code } := by
  obtain ⟨hhead, hfresh⟩ := h.pending_head (p := p) (by rw [hpend]; simp)
  obtain ⟨s, hs, rfl⟩ := List.mem_map.mp hhead
  obtain ⟨hfilled, hothers⟩ := h.held_claim hs hpend hpq hq hfree
  obtain ⟨b, hb⟩ := List.getElem?_of_mem hs
  have hlt := (List.getElem?_eq_some_iff.mp hb).1
  refine ⟨b, hlt, ?_, ((Flow.claim d rest s.position q).blockSoFar l s).instructions, ?_⟩
  · rw [blocksSoFar_block hb, Discovery.blockSoFar, h.held_of_not_walked hfresh]
    rfl
  · refine Graph.ext_block ?_ fun c hc => ?_
    · rw [Graph.size_update, blocksSoFar_size, blocksSoFar_size]
      rfl
    · rw [Graph.size_update, blocksSoFar_size] at hc
      have ht := List.getElem?_eq_getElem hc
      rw [Graph.block_update, blocksSoFar_size, blocksSoFar_block (d := Flow.claim d rest _ q) ht,
        blocksSoFar_block ht]
      by_cases hbc : b = c
      · subst hbc
        obtain rfl : d.starts[b] = s := Option.some.inj (ht.symm.trans hb)
        rw [if_pos ⟨rfl, hc⟩]
        rfl
      · have hts : d.starts[c] ≠ s := by
          intro hts
          exact hbc ((h.idxOf_eq hb).symm.trans (h.idxOf_eq (ht.trans (congrArg some hts))))
        rw [if_neg fun hc' => hbc hc'.1, Discovery.blockSoFar, Discovery.blockSoFar, hothers _ hts]

/-- When everything is walked, the blocks are those that the starts cut out of the code. -/
theorem Inv.blocksSoFar_eq (h : Inv l busy d) (hall : ∀ q < l.code.length, q ∈ d.walked) :
    d.blocksSoFar l = blocksOf l.code d.starts := by
  refine Graph.ext_block (by rw [blocksSoFar_size, blocksOf_size]) fun b hb => ?_
  rw [blocksOf_size] at hb
  have hs := List.getElem?_eq_getElem hb
  rw [blocksSoFar_block hs, blocksOf_block hs, Discovery.blockSoFar,
    h.held_cut (List.mem_of_getElem? hs) hall]
  rfl

end

end ScriptFlow.Flow
