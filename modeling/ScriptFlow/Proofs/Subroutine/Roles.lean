import ScriptFlow.Proofs.Order
import ScriptFlow.Subroutine.Roles
import Mathlib.Data.Finset.Card

/-! # Who plays which role

The roles are told by addresses and calls alone: `IsStart`, `IsGlobal` and `IsMain` say of a subroutine
that it has a role, without a word about positions or sorting. Identification finds exactly these
subroutines if addresses are distinct, so it does not matter in what order the subroutines and their
blocks are listed. -/

namespace ScriptFlow

/-! ## What a subroutine does -/

namespace Subroutine

/-- The instructions of its blocks, as the blocks are listed. -/
def code (g : Graph) (sub : Subroutine) : List LinkedInstruction :=
  sub.blocks.flatMap fun b => (g.block b).instructions

/-- A linked call at `site` leads to `target`. -/
def Calls (g : Graph) (sub : Subroutine) (site target : Int) : Prop :=
  ∃ i ∈ sub.code g, i.address = site ∧ i.opcode = .jsr ∧ i.target = some target

/-- Its first linked call behind an address leads to `target`. -/
def CallsNext (g : Graph) (sub : Subroutine) (behind target : Int) : Prop :=
  ∃ site, (behind < site ∧ sub.Calls g site target) ∧
    ∀ site' target', sub.Calls g site' target' → behind < site' → site ≤ site'

/-- Its first linked call behind its first `SAVEBP` leads to `target`. -/
def CallsBehindBase (g : Graph) (sub : Subroutine) (target : Int) : Prop :=
  ∃ base, Order.LeastWith (fun i => i.address) (sub.code g) (fun i => i.opcode = .savebp) base ∧
    sub.CallsNext g base.address target

/-- The call right after its first call of `callee` leads to `target`. -/
def CallsAfter (g : Graph) (sub : Subroutine) (callee target : Int) : Prop :=
  ∃ site, (sub.Calls g site callee ∧ ∀ site', sub.Calls g site' callee → site ≤ site') ∧
    sub.CallsNext g site target

/-- It makes one linked call, which leads to `target`. -/
def CallsOnly (g : Graph) (sub : Subroutine) (target : Int) : Prop :=
  ∃ site, sub.Calls g site target ∧
    ∀ site' target', sub.Calls g site' target' → site' = site ∧ target' = target

end Subroutine

/-! ## The roles -/

namespace Roles

section
variable (g : Graph) (subs : List Subroutine)

/-- The subroutine with the lowest address. -/
def IsStart (x : Subroutine) : Prop := Order.LeastWith Subroutine.address subs (fun _ => True) x

/-- It could be the global initialiser: another than the start that is no continuation and saves the
base pointer. -/
def Candidate (x : Subroutine) : Prop :=
  ¬ IsStart subs x ∧ x.kind ≠ .state ∧ ∃ i ∈ x.code g, i.opcode = .savebp

/-- The candidate with the lowest address. -/
def IsGlobal (x : Subroutine) : Prop := Order.LeastWith Subroutine.address subs (Candidate g subs) x

/-- The calls point to the main subroutine in one of three places: in the global initialiser; in the
start, if the global initialiser calls no known subroutine there; in the start alone, if there is no
global initialiser. -/
inductive Designated (x : Subroutine) : Prop
  | byGlobal {global : Subroutine} : IsGlobal g subs global → global.CallsBehindBase g x.address →
      Designated x
  | byStart {global start : Subroutine} : IsGlobal g subs global →
      (∀ y ∈ subs, ¬ global.CallsBehindBase g y.address) → IsStart subs start →
      start.CallsAfter g global.address x.address → Designated x
  | alone {start : Subroutine} : (∀ y, ¬ IsGlobal g subs y) → IsStart subs start →
      start.CallsOnly g x.address → Designated x

/-- The subroutine the calls point to, unless it has another role. -/
def IsMain (x : Subroutine) : Prop :=
  (x ∈ subs ∧ Designated g subs x) ∧ ¬ IsStart subs x ∧ ¬ IsGlobal g subs x

/-- Addresses name subroutines, and instructions within a subroutine. -/
def Distinct : Prop :=
  (subs.map Subroutine.address).Nodup ∧ ∀ x ∈ subs, ((x.code g).map fun i => i.address).Nodup

instance : Decidable (Distinct g subs) := inferInstanceAs (Decidable (_ ∧ _))

/-- The subroutine at the position of a role. -/
def held (role : Option Nat) : Option Subroutine := role.bind fun n => subs[n]?

/-- The positions of the roles that are there. -/
def positions (r : Roles) : List Nat := r.start.toList ++ r.global.toList ++ r.main.toList

/-- The roles are what they should be. -/
structure Fits (r : Roles) : Prop where
  known : ∀ n ∈ r.positions, n < subs.length
  distinct : r.positions.Nodup
  start : ∀ x, held subs r.start = some x ↔ IsStart subs x
  global : ∀ x, held subs r.global = some x ↔ IsGlobal g subs x
  main : ∀ x, held subs r.main = some x ↔ IsMain g subs x
  multiple : r.multipleGlobal = true ↔
    ∃ x ∈ subs, ∃ y ∈ subs, x ≠ y ∧ Candidate g subs x ∧ Candidate g subs y

end

end Roles

/-! ## Calls in order -/

namespace Subroutine

variable {g : Graph} {sub : Subroutine}

theorem instructions_perm (g : Graph) (sub : Subroutine) : (sub.instructions g).Perm (sub.code g) :=
  Order.perm_sortBy _ _

theorem mem_calls {site target : Int} :
    (site, target) ∈ sub.calls g ↔ sub.Calls g site target := by
  simp only [calls, Calls, List.mem_filterMap, (instructions_perm g sub).mem_iff]
  refine exists_congr fun i => and_congr_right fun _ => ?_
  split
  · rename_i hop
    simp [hop, and_comm]
  · rename_i hop
    simp [hop]

theorem calls_ordered (h : ((sub.code g).map fun i => i.address).Nodup) :
    (sub.calls g).Pairwise fun c d => c.1 < d.1 := by
  refine (Order.sortBy_strict h).filterMap _ fun i j hij c hc d hd => ?_
  split at hc <;> simp at hc
  split at hd <;> simp at hd
  obtain ⟨-, -, rfl⟩ := hc
  obtain ⟨-, -, rfl⟩ := hd
  exact hij

theorem callsNext_iff {behind target : Int} : sub.CallsNext g behind target ↔
    ∃ c, Order.LeastWith Prod.fst (sub.calls g) (fun c => behind < c.1) c ∧ c.2 = target := by
  constructor
  · intro h
    obtain ⟨site, ⟨hlt, hcall⟩, hleast⟩ := h
    exact ⟨(site, target), ⟨⟨mem_calls.mpr hcall, hlt⟩,
      fun d hd => hleast d.1 d.2 (mem_calls.mp hd)⟩, rfl⟩
  · intro h
    obtain ⟨⟨site, target⟩, ⟨⟨hcall, hlt⟩, hleast⟩, rfl⟩ := h
    exact ⟨site, ⟨hlt, mem_calls.mp hcall⟩,
      fun site' target' hcall' => hleast (site', target') (mem_calls.mpr hcall')⟩

theorem findOpcode?_eq_some (h : ((sub.code g).map fun i => i.address).Nodup) {op : Opcode}
    {i : LinkedInstruction} : sub.findOpcode? g op = some i ↔
      Order.LeastWith (fun i => i.address) (sub.code g) (fun i => i.opcode = op) i := by
  refine (Order.find?_sortBy h).trans ?_
  simp only [beq_iff_eq]

theorem callsAfter_iff (h : ((sub.code g).map fun i => i.address).Nodup) {callee target : Int} :
    sub.CallsAfter g callee target ↔ ∃ c d rest,
      (sub.calls g).dropWhile (fun c => c.2 != callee) = c :: d :: rest ∧ d.2 = target := by
  have hdrop : ∀ c d, (∃ rest, (sub.calls g).dropWhile (fun c => c.2 != callee) = c :: d :: rest) ↔
      Order.LeastWith Prod.fst (sub.calls g) (fun c => c.2 = callee) c ∧
        Order.LeastWith Prod.fst (sub.calls g) (fun d => c.1 < d.1) d := by
    intro c d
    rw [Order.dropWhile_eq_cons_cons (calls_ordered h)]
    simp
  constructor
  · intro hafter
    obtain ⟨site, ⟨hcall, hleast⟩, hnext⟩ := hafter
    obtain ⟨d, hd, rfl⟩ := callsNext_iff.mp hnext
    have hfirst : ∀ c ∈ sub.calls g, c.2 = callee → site ≤ c.1 := by
      rintro ⟨site', callee'⟩ hcall' rfl
      exact hleast site' (mem_calls.mp hcall')
    obtain ⟨rest, hrest⟩ :=
      (hdrop (site, callee) d).mpr ⟨⟨⟨mem_calls.mpr hcall, rfl⟩, hfirst⟩, hd⟩
    exact ⟨_, d, rest, hrest, rfl⟩
  · intro hdropped
    obtain ⟨⟨site, callee'⟩, d, rest, hrest, rfl⟩ := hdropped
    obtain ⟨⟨⟨hcall, rfl⟩, hleast⟩, hd⟩ := (hdrop _ d).mp ⟨rest, hrest⟩
    refine ⟨site, ⟨mem_calls.mp hcall, fun site' hcall' => ?_⟩, callsNext_iff.mpr ⟨d, hd, rfl⟩⟩
    exact hleast (site', callee') (mem_calls.mpr hcall') rfl

theorem callsOnly_iff (h : ((sub.code g).map fun i => i.address).Nodup) {target : Int} :
    sub.CallsOnly g target ↔ ∃ c, sub.calls g = [c] ∧ c.2 = target := by
  constructor
  · intro hcalls
    obtain ⟨site, hcall, honly⟩ := hcalls
    have hmem := mem_calls.mpr hcall
    have hall : ∀ c ∈ sub.calls g, c = (site, target) := fun c hc =>
      Prod.ext (honly c.1 c.2 (mem_calls.mp hc)).1 (honly c.1 c.2 (mem_calls.mp hc)).2
    have hordered := calls_ordered h
    cases hcalls : sub.calls g with
    | nil => rw [hcalls] at hmem; cases hmem
    | cons c rest =>
      rw [hcalls] at hall hordered
      cases rest with
      | nil => exact ⟨c, rfl, by rw [hall c (by simp)]⟩
      | cons d rest =>
        have hlt := (List.pairwise_cons.mp hordered).1 d (by simp)
        rw [hall c (by simp), hall d (by simp)] at hlt
        exact absurd hlt (Int.lt_irrefl _)
  · intro hsingle
    obtain ⟨⟨site, target⟩, hcalls, rfl⟩ := hsingle
    refine ⟨site, mem_calls.mp (by rw [hcalls]; simp), fun site' target' hcall => ?_⟩
    have hmem := mem_calls.mpr hcall
    rw [hcalls, List.mem_singleton] at hmem
    exact Prod.mk.inj hmem

theorem callsBehindBase_iff (h : ((sub.code g).map fun i => i.address).Nodup) {target : Int} :
    sub.CallsBehindBase g target ↔ ∃ base, sub.findOpcode? g .savebp = some base ∧
      ∃ c, (sub.calls g).find? (fun c => c.1 > base.address) = some c ∧ c.2 = target := by
  simp only [CallsBehindBase, callsNext_iff, findOpcode?_eq_some h,
    Order.find?_eq_some (calls_ordered h), decide_eq_true_eq, gt_iff_lt]

theorem findOpcode?_isSome {op : Opcode} :
    (sub.findOpcode? g op).isSome = true ↔ ∃ i ∈ sub.code g, i.opcode = op := by
  simp [findOpcode?, (instructions_perm g sub).mem_iff]

end Subroutine

namespace Roles

section
variable {g : Graph} {subs : List Subroutine} {n m : Nat} {x y : Subroutine} {a : Int}

/-! ## Positions -/

theorem nth_eq (h : subs[n]? = some x) : nth subs n = x := by
  simp [nth, h]

theorem getElem?_nth (h : n < subs.length) : subs[n]? = some (nth subs n) := by
  simp [nth, h]

theorem position_eq (hd : (subs.map Subroutine.address).Nodup) (hn : subs[n]? = some x)
    (hm : subs[m]? = some y) (ha : x.address = y.address) : n = m := by
  have hx : (subs.map Subroutine.address)[n]? = some x.address := by simp [hn]
  have hy : (subs.map Subroutine.address)[m]? = some x.address := by simp [hm, ha]
  obtain ⟨hn', hx⟩ := List.getElem?_eq_some_iff.mp hx
  obtain ⟨hm', hy⟩ := List.getElem?_eq_some_iff.mp hy
  exact hd.getElem_inj_iff.mp (hx.trans hy.symm)

theorem leastWith_positions {P : Nat → Prop} {Q : Subroutine → Prop}
    (hPQ : ∀ n x, subs[n]? = some x → (P n ↔ Q x)) :
    Order.LeastWith (fun n => (nth subs n).address) (List.range subs.length) P n ↔
      ∃ x, subs[n]? = some x ∧ Order.LeastWith Subroutine.address subs Q x := by
  constructor
  · intro h
    obtain ⟨⟨hn, hP⟩, hleast⟩ := h
    have hx := getElem?_nth (List.mem_range.mp hn)
    refine ⟨_, hx, ⟨List.mem_of_getElem? hx, (hPQ n _ hx).mp hP⟩, fun y hy hQ => ?_⟩
    obtain ⟨m, hm⟩ := List.getElem?_of_mem hy
    rw [← nth_eq hm]
    exact hleast m (List.mem_range.mpr (List.getElem?_eq_some_iff.mp hm).1) ((hPQ m y hm).mpr hQ)
  · intro h
    obtain ⟨x, hx, ⟨-, hQ⟩, hleast⟩ := h
    have hlt := (List.getElem?_eq_some_iff.mp hx).1
    refine ⟨⟨List.mem_range.mpr hlt, (hPQ n x hx).mpr hQ⟩, fun m hm hP => ?_⟩
    have hy := getElem?_nth (List.mem_range.mp hm)
    show (nth subs n).address ≤ (nth subs m).address
    rw [nth_eq hx]
    exact hleast _ (List.mem_of_getElem? hy) ((hPQ m _ hy).mp hP)

theorem map_nth (subs : List Subroutine) : (List.range subs.length).map (nth subs) = subs := by
  refine List.ext_getElem? fun n => ?_
  by_cases hn : n < subs.length
  · simp [getElem?_nth hn, List.getElem?_range hn]
  · simp [Nat.le_of_not_lt hn]

theorem nodup_addresses (hd : (subs.map Subroutine.address).Nodup) :
    ((List.range subs.length).map fun n => (nth subs n).address).Nodup := by
  have hmap := congrArg (List.map Subroutine.address) (map_nth subs)
  rw [List.map_map] at hmap
  exact hmap ▸ hd

theorem withAddress?_eq_some (hd : (subs.map Subroutine.address).Nodup) :
    withAddress? subs a = some n ↔ ∃ x, subs[n]? = some x ∧ x.address = a := by
  have hmem : ∀ m, m ∈ (List.range subs.length).filter (fun n => (nth subs n).address == a) ↔
      ∃ x, subs[m]? = some x ∧ x.address = a := by
    intro m
    simp only [List.mem_filter, List.mem_range, beq_iff_eq]
    constructor
    · intro h
      obtain ⟨hm, ha⟩ := h
      exact ⟨_, getElem?_nth hm, ha⟩
    · intro h
      obtain ⟨x, hx, rfl⟩ := h
      exact ⟨(List.getElem?_eq_some_iff.mp hx).1, by rw [nth_eq hx]⟩
  constructor
  · intro h
    exact (hmem n).mp (List.mem_of_getLast? h)
  · intro h
    obtain ⟨x, hx, ha⟩ := h
    -- the last one listed is the only one
    have hne := List.ne_nil_of_mem ((hmem n).mpr ⟨x, hx, ha⟩)
    obtain ⟨y, hy, hya⟩ := (hmem _).mp (List.getLast_mem hne)
    rw [withAddress?, List.getLast?_eq_some_getLast hne,
      position_eq hd hy hx (hya.trans ha.symm)]

/-- What is known of the address called is known of the subroutine there. -/
theorem exists_withAddress? (hd : (subs.map Subroutine.address).Nodup) {R : Int → Prop} :
    (∃ a, R a ∧ withAddress? subs a = some n) ↔ ∃ x, subs[n]? = some x ∧ R x.address := by
  simp only [withAddress?_eq_some hd]
  constructor
  · intro h
    obtain ⟨_, hR, x, hx, rfl⟩ := h
    exact ⟨x, hx, hR⟩
  · intro h
    obtain ⟨x, hx, hR⟩ := h
    exact ⟨_, hR, x, hx, rfl⟩

/-! ## What identification finds -/

theorem calledByGlobal?_eq_some (hd : Distinct g subs) (hx : x ∈ subs) :
    calledByGlobal? g subs x = some n ↔
      ∃ y, subs[n]? = some y ∧ x.CallsBehindBase g y.address := by
  rw [← exists_withAddress? hd.1]
  simp only [Subroutine.callsBehindBase_iff (hd.2 x hx)]
  constructor
  · intro h
    unfold calledByGlobal? at h
    split at h
    · cases h
    · rename_i base hbase
      split at h
      · rename_i c hc
        exact ⟨c.2, ⟨base, hbase, c, hc, rfl⟩, h⟩
      · cases h
  · intro h
    obtain ⟨_, ⟨base, hbase, c, hc, rfl⟩, hn⟩ := h
    simp only [calledByGlobal?, hbase, hc, hn]

theorem calledByGlobal?_eq_none (hd : Distinct g subs) (hx : x ∈ subs) :
    calledByGlobal? g subs x = none ↔ ∀ y ∈ subs, ¬ x.CallsBehindBase g y.address := by
  rw [Option.eq_none_iff_forall_ne_some]
  constructor
  · intro h y hy hcall
    obtain ⟨n, hn⟩ := List.getElem?_of_mem hy
    exact h n ((calledByGlobal?_eq_some hd hx).mpr ⟨y, hn, hcall⟩)
  · intro h n hn
    obtain ⟨y, hy, hcall⟩ := (calledByGlobal?_eq_some hd hx).mp hn
    exact h y (List.mem_of_getElem? hy) hcall

theorem calledAfterGlobal?_eq_some (hd : Distinct g subs) (hx : x ∈ subs) :
    calledAfterGlobal? g subs x y = some n ↔
      ∃ z, subs[n]? = some z ∧ x.CallsAfter g y.address z.address := by
  rw [← exists_withAddress? hd.1]
  simp only [Subroutine.callsAfter_iff (hd.2 x hx)]
  have hdrop : ((x.calls g).map Prod.snd).dropWhile (fun t => t != y.address) =
      ((x.calls g).dropWhile fun c => c.2 != y.address).map Prod.snd := List.dropWhile_map
  constructor
  · intro h
    simp only [calledAfterGlobal?, hdrop] at h
    split at h
    · rename_i hcons
      obtain ⟨c, rest, hc, rfl, hrest⟩ := List.map_eq_cons_iff.mp hcons
      obtain ⟨d, rest', rfl, rfl, -⟩ := List.map_eq_cons_iff.mp hrest
      exact ⟨d.2, ⟨c, d, rest', hc, rfl⟩, h⟩
    · cases h
  · intro h
    obtain ⟨_, ⟨c, d, rest, hcons, rfl⟩, hn⟩ := h
    simp only [calledAfterGlobal?, hdrop, hcons, List.map_cons, hn]

theorem onlyCall?_eq_some (hd : Distinct g subs) (hx : x ∈ subs) :
    onlyCall? g subs x = some n ↔ ∃ z, subs[n]? = some z ∧ x.CallsOnly g z.address := by
  rw [← exists_withAddress? hd.1]
  simp only [Subroutine.callsOnly_iff (hd.2 x hx)]
  constructor
  · intro h
    unfold onlyCall? at h
    split at h
    · rename_i c hc
      exact ⟨c.2, ⟨c, hc, rfl⟩, h⟩
    · cases h
  · intro h
    obtain ⟨_, ⟨c, hc, rfl⟩, hn⟩ := h
    simp only [onlyCall?, hc, hn]

theorem startOf?_eq_some (hd : (subs.map Subroutine.address).Nodup) :
    startOf? subs = some n ↔ ∃ x, subs[n]? = some x ∧ IsStart subs x :=
  (Order.firstMin?_eq_some (nodup_addresses hd)).trans
    (leastWith_positions fun _ _ _ => Iff.rfl)

theorem IsStart.eq (hd : (subs.map Subroutine.address).Nodup) (hx : IsStart subs x)
    (hy : IsStart subs y) : x = y :=
  Order.LeastWith.eq hd hx hy

theorem IsGlobal.eq (hd : (subs.map Subroutine.address).Nodup) (hx : IsGlobal g subs x)
    (hy : IsGlobal g subs y) : x = y :=
  Order.LeastWith.eq hd hx hy

theorem position_ne_start (hd : (subs.map Subroutine.address).Nodup)
    (hm : startOf? subs = some m) (hx : subs[n]? = some x) : n ≠ m ↔ ¬ IsStart subs x := by
  obtain ⟨y, hy, hstart⟩ := (startOf?_eq_some hd).mp hm
  refine not_congr ⟨?_, fun hxs => ?_⟩
  · rintro rfl
    rw [hx] at hy
    cases hy
    exact hstart
  · exact position_eq hd hx hy (by rw [hxs.eq hd hstart])

/-- The test for candidates, position by position. -/
theorem candidate_iff (hd : (subs.map Subroutine.address).Nodup) (hm : startOf? subs = some m)
    (hx : subs[n]? = some x) : (n != m && (nth subs n).kind != .state &&
      ((nth subs n).findOpcode? g .savebp).isSome) = true ↔ Candidate g subs x := by
  rw [nth_eq hx, Bool.and_eq_true, Bool.and_eq_true, bne_iff_ne, bne_iff_ne, and_assoc,
    Subroutine.findOpcode?_isSome, position_ne_start hd hm hx]
  rfl

theorem head?_globalCandidates (hd : (subs.map Subroutine.address).Nodup)
    (hm : startOf? subs = some m) : (globalCandidates g subs m).head? = some n ↔
      ∃ x, subs[n]? = some x ∧ IsGlobal g subs x := by
  rw [globalCandidates, List.head?_filter, Order.find?_sortBy (nodup_addresses hd)]
  exact leastWith_positions fun _ _ hx => candidate_iff hd hm hx

theorem mem_globalCandidates (hd : (subs.map Subroutine.address).Nodup)
    (hm : startOf? subs = some m) : n ∈ globalCandidates g subs m ↔
      ∃ x, subs[n]? = some x ∧ Candidate g subs x := by
  rw [globalCandidates, List.mem_filter, (Order.perm_sortBy _ _).mem_iff, List.mem_range]
  constructor
  · intro h
    obtain ⟨hn, hc⟩ := h
    exact ⟨_, getElem?_nth hn, (candidate_iff hd hm (getElem?_nth hn)).mp hc⟩
  · intro h
    obtain ⟨x, hx, hc⟩ := h
    exact ⟨(List.getElem?_eq_some_iff.mp hx).1, (candidate_iff hd hm hx).mpr hc⟩

theorem nodup_globalCandidates (g : Graph) (subs : List Subroutine) (start : Nat) :
    (globalCandidates g subs start).Nodup :=
  (((Order.perm_sortBy _ _).nodup_iff).mpr List.nodup_range).filter _

theorem one_lt_globalCandidates (hd : (subs.map Subroutine.address).Nodup)
    (hm : startOf? subs = some m) : 1 < (globalCandidates g subs m).length ↔
      ∃ x ∈ subs, ∃ y ∈ subs, x ≠ y ∧ Candidate g subs x ∧ Candidate g subs y := by
  rw [← List.toFinset_card_of_nodup (nodup_globalCandidates g subs m), Finset.one_lt_card]
  simp only [List.mem_toFinset, mem_globalCandidates hd hm]
  constructor
  · intro h
    obtain ⟨i, ⟨x, hx, hcx⟩, j, ⟨y, hy, hcy⟩, hij⟩ := h
    refine ⟨x, List.mem_of_getElem? hx, y, List.mem_of_getElem? hy, ?_, hcx, hcy⟩
    rintro rfl
    exact hij (position_eq hd hx hy rfl)
  · intro h
    obtain ⟨x, hx, y, hy, hxy, hcx, hcy⟩ := h
    obtain ⟨i, hi⟩ := List.getElem?_of_mem hx
    obtain ⟨j, hj⟩ := List.getElem?_of_mem hy
    refine ⟨i, ⟨x, hi, hcx⟩, j, ⟨y, hj, hcy⟩, ?_⟩
    rintro rfl
    rw [hi] at hj
    exact hxy (Option.some.inj hj)

/-- The subroutine that the calls point to, whatever other role it has. -/
def designated? (g : Graph) (subs : List Subroutine) (start : Nat) : Option Nat → Option Nat
  | some n => (calledByGlobal? g subs (nth subs n)).or
      (calledAfterGlobal? g subs (nth subs start) (nth subs n))
  | none => onlyCall? g subs (nth subs start)

theorem identify_eq (hm : startOf? subs = some m) : identify g subs =
    { start := some m
      global := (globalCandidates g subs m).head?
      main := (designated? g subs m (globalCandidates g subs m).head?).filter fun k =>
        k != m && some k != (globalCandidates g subs m).head?
      multipleGlobal := (globalCandidates g subs m).length > 1 } := by
  simp only [identify, hm]
  cases (globalCandidates g subs m).head? <;> rfl

theorem designated?_eq_some (hd : Distinct g subs) (hm : startOf? subs = some m) :
    designated? g subs m (globalCandidates g subs m).head? = some n ↔
      ∃ x, subs[n]? = some x ∧ Designated g subs x := by
  obtain ⟨start, hstart, hs⟩ := (startOf?_eq_some hd.1).mp hm
  have hstartmem := List.mem_of_getElem? hstart
  -- where the calls are looked for depends on the global initialiser, and there is at most one
  cases hglobal : (globalCandidates g subs m).head? with
  | none =>
    have hno : ∀ y, ¬ IsGlobal g subs y := by
      intro y hy
      obtain ⟨k, hk⟩ := List.getElem?_of_mem hy.1.1
      have := (head?_globalCandidates hd.1 hm).mpr ⟨y, hk, hy⟩
      rw [hglobal] at this
      cases this
    rw [designated?, nth_eq hstart, onlyCall?_eq_some hd hstartmem]
    refine exists_congr fun x => and_congr_right fun _ => ⟨.alone hno hs, ?_⟩
    intro h
    rcases h with ⟨hg, -⟩ | ⟨hg, -, -, -⟩ | ⟨-, hs', hcall⟩
    · exact absurd hg (hno _)
    · exact absurd hg (hno _)
    · exact hs.eq hd.1 hs' ▸ hcall
  | some k =>
    obtain ⟨global, hk, hg⟩ := (head?_globalCandidates hd.1 hm).mp hglobal
    rw [designated?, nth_eq hstart, nth_eq hk, Option.or_eq_some_iff,
      calledByGlobal?_eq_some hd hg.1.1, calledByGlobal?_eq_none hd hg.1.1,
      calledAfterGlobal?_eq_some hd hstartmem]
    constructor
    · intro h
      rcases h with ⟨x, hx, hcall⟩ | ⟨hno, x, hx, hcall⟩
      · exact ⟨x, hx, .byGlobal hg hcall⟩
      · exact ⟨x, hx, .byStart hg hno hs hcall⟩
    · intro h
      rcases h with ⟨x, hx, ⟨hg', hcall⟩ | ⟨hg', hno, hs', hcall⟩ | ⟨hno, -, -⟩⟩
      · exact .inl ⟨x, hx, hg.eq hd.1 hg' ▸ hcall⟩
      · obtain rfl := hg.eq hd.1 hg'
        exact .inr ⟨hno, x, hx, hs.eq hd.1 hs' ▸ hcall⟩
      · exact absurd hg (hno _)

/-- The main subroutine is called. -/
theorem Designated.called (h : Designated g subs x) : ∃ y ∈ subs, ∃ site, y.Calls g site x.address := by
  cases h with
  | byGlobal hg hcall =>
    obtain ⟨-, -, site, ⟨-, hcall⟩, -⟩ := hcall
    exact ⟨_, hg.1.1, site, hcall⟩
  | byStart _ _ hs hcall =>
    obtain ⟨-, -, site, ⟨-, hcall⟩, -⟩ := hcall
    exact ⟨_, hs.1.1, site, hcall⟩
  | alone _ hs hcall =>
    obtain ⟨site, hcall, -⟩ := hcall
    exact ⟨_, hs.1.1, site, hcall⟩

theorem held_eq_some {role : Option Nat} :
    held subs role = some x ↔ ∃ n, role = some n ∧ subs[n]? = some x :=
  Option.bind_eq_some_iff

theorem of_position {role : Option Nat} {P : Subroutine → Prop}
    (h : role = some n ↔ ∃ x, subs[n]? = some x ∧ P x) (hn : role = some n)
    (hx : subs[n]? = some x) : P x := by
  obtain ⟨y, hy, hPy⟩ := h.mp hn
  rw [hx] at hy
  cases hy
  exact hPy

/-- A role is held by the subroutine with a property if its position is that one's. -/
theorem held_iff {role : Option Nat} {P : Subroutine → Prop} (hP : ∀ x, P x → x ∈ subs)
    (h : ∀ n, role = some n ↔ ∃ x, subs[n]? = some x ∧ P x) (x : Subroutine) :
    held subs role = some x ↔ P x := by
  rw [held_eq_some]
  constructor
  · intro hheld
    obtain ⟨n, hn, hx⟩ := hheld
    exact of_position (h n) hn hx
  · intro hx
    obtain ⟨n, hn⟩ := List.getElem?_of_mem (hP x hx)
    exact ⟨n, (h n).mpr ⟨x, hn, hx⟩, hn⟩

theorem startOf?_eq_none : startOf? subs = none ↔ subs = [] := by
  rw [startOf?, Order.firstMin?_eq_none, List.range_eq_nil, List.length_eq_zero_iff]

theorem exists_isStart (hd : (subs.map Subroutine.address).Nodup) (hne : subs ≠ []) :
    ∃ x, IsStart subs x := by
  obtain ⟨m, hm⟩ := Option.ne_none_iff_exists'.mp (mt startOf?_eq_none.mp hne)
  obtain ⟨x, -, hx⟩ := (startOf?_eq_some hd).mp hm
  exact ⟨x, hx⟩

theorem start_eq_some (hd : Distinct g subs) :
    (identify g subs).start = some n ↔ ∃ x, subs[n]? = some x ∧ IsStart subs x := by
  rw [← startOf?_eq_some hd.1]
  cases hm : startOf? subs with
  | none =>
    rw [startOf?_eq_none.mp hm]
    rfl
  | some m => rw [identify_eq hm]

theorem global_eq_some (hd : Distinct g subs) :
    (identify g subs).global = some n ↔ ∃ x, subs[n]? = some x ∧ IsGlobal g subs x := by
  cases hm : startOf? subs with
  | none =>
    rw [startOf?_eq_none.mp hm]
    simp [identify, startOf?, Order.firstMin?]
  | some m => rw [identify_eq hm, head?_globalCandidates hd.1 hm]

theorem main_eq_some (hd : Distinct g subs) :
    (identify g subs).main = some n ↔ ∃ x, subs[n]? = some x ∧ IsMain g subs x := by
  cases hm : startOf? subs with
  | none =>
    rw [startOf?_eq_none.mp hm]
    simp [identify, startOf?, Order.firstMin?]
  | some m =>
    rw [identify_eq hm, Option.filter_eq_some_iff, designated?_eq_some hd hm, Bool.and_eq_true,
      bne_iff_ne, bne_iff_ne]
    constructor
    · intro h
      obtain ⟨⟨x, hx, hdes⟩, hstart, hglobal⟩ := h
      refine ⟨x, hx, ⟨List.mem_of_getElem? hx, hdes⟩, (position_ne_start hd.1 hm hx).mp hstart,
        fun hg => hglobal ?_⟩
      exact ((head?_globalCandidates hd.1 hm).mpr ⟨x, hx, hg⟩).symm
    · intro h
      obtain ⟨x, hx, ⟨-, hdes⟩, hstart, hglobal⟩ := h
      refine ⟨⟨x, hx, hdes⟩, (position_ne_start hd.1 hm hx).mpr hstart, fun hg => hglobal ?_⟩
      exact of_position (head?_globalCandidates hd.1 hm) hg.symm hx

theorem multipleGlobal_eq_true (hd : Distinct g subs) : (identify g subs).multipleGlobal = true ↔
    ∃ x ∈ subs, ∃ y ∈ subs, x ≠ y ∧ Candidate g subs x ∧ Candidate g subs y := by
  cases hm : startOf? subs with
  | none =>
    rw [startOf?_eq_none.mp hm]
    simp [identify, startOf?, Order.firstMin?]
  | some m =>
    rw [← one_lt_globalCandidates hd.1 hm, identify_eq hm]
    exact decide_eq_true_iff

theorem mem_positions {r : Roles} :
    n ∈ r.positions ↔ r.start = some n ∨ r.global = some n ∨ r.main = some n := by
  simp [positions]

theorem nodup_positions {r : Roles} (hglobal : ∀ n, r.global = some n → r.start ≠ some n)
    (hmain : ∀ n, r.main = some n → r.start ≠ some n ∧ r.global ≠ some n) : r.positions.Nodup := by
  have hnodup : ∀ o : Option Nat, o.toList.Nodup := fun o => by cases o <;> simp
  refine List.Nodup.append (List.Nodup.append (hnodup _) (hnodup _) ?_) (hnodup _) ?_
  · intro n hs hg
    exact hglobal n (Option.mem_toList.mp hg) (Option.mem_toList.mp hs)
  · intro n hsg hm
    obtain ⟨hns, hng⟩ := hmain n (Option.mem_toList.mp hm)
    rcases List.mem_append.mp hsg with hs | hg
    · exact hns (Option.mem_toList.mp hs)
    · exact hng (Option.mem_toList.mp hg)

/-- Identification finds what the roles should be. -/
theorem fits_identify (hd : Distinct g subs) : (identify g subs).Fits g subs where
  known n hn := by
    have hat : ∃ x, subs[n]? = some x := by
      rcases mem_positions.mp hn with hn | hn | hn
      · obtain ⟨x, hx, -⟩ := (start_eq_some hd).mp hn
        exact ⟨x, hx⟩
      · obtain ⟨x, hx, -⟩ := (global_eq_some hd).mp hn
        exact ⟨x, hx⟩
      · obtain ⟨x, hx, -⟩ := (main_eq_some hd).mp hn
        exact ⟨x, hx⟩
    obtain ⟨x, hx⟩ := hat
    exact (List.getElem?_eq_some_iff.mp hx).1
  distinct := by
    refine nodup_positions (fun n hg hs => ?_) (fun n hmain => ⟨fun hs => ?_, fun hg => ?_⟩)
    · obtain ⟨x, hx, hglobal⟩ := (global_eq_some hd).mp hg
      exact hglobal.1.2.1 (of_position (start_eq_some hd) hs hx)
    · obtain ⟨x, hx, -, hnot, -⟩ := (main_eq_some hd).mp hmain
      exact hnot (of_position (start_eq_some hd) hs hx)
    · obtain ⟨x, hx, -, -, hnot⟩ := (main_eq_some hd).mp hmain
      exact hnot (of_position (global_eq_some hd) hg hx)
  start := held_iff (fun _ hx => hx.1.1) fun _ => start_eq_some hd
  global := held_iff (fun _ hx => hx.1.1) fun _ => global_eq_some hd
  main := held_iff (fun _ hx => hx.1.1) fun _ => main_eq_some hd
  multiple := multipleGlobal_eq_true hd

end

end Roles

end ScriptFlow
