import ScriptFlow.Proofs.Subroutine.Roles

/-! # Listing and naming subroutines

Two things that leave the roles as they are. Subroutines and their blocks may be listed in any order,
since the roles are told by membership and addresses. And the kinds that the roles give may be in place
already, unless the main subroutine was a continuation before: as such it was no candidate for the
global initialiser, as main it would be one. -/

namespace ScriptFlow

namespace Roles

/-! ## Other orders -/

/-- The same subroutine, up to the order of its blocks. -/
def Similar (x y : Subroutine) : Prop := ∃ bs, x.blocks.Perm bs ∧ y = { x with blocks := bs }

/-- The same subroutines in another order, each with its blocks in another order. -/
def Rearranged (subs subs' : List Subroutine) : Prop :=
  ∃ mid, subs.Perm mid ∧ List.Forall₂ Similar mid subs'

/-- The roles fall to the same subroutines. -/
structure SameCast (subs : List Subroutine) (r : Roles) (subs' : List Subroutine) (r' : Roles) :
    Prop where
  start : Option.Rel Similar (held subs r.start) (held subs' r'.start)
  global : Option.Rel Similar (held subs r.global) (held subs' r'.global)
  main : Option.Rel Similar (held subs r.main) (held subs' r'.main)
  multiple : r.multipleGlobal = r'.multipleGlobal

namespace Similar
variable {x y : Subroutine}

theorem symm (h : Similar x y) : Similar y x := by
  obtain ⟨bs, hbs, rfl⟩ := h
  exact ⟨x.blocks, hbs.symm, rfl⟩

theorem address (h : Similar x y) : y.address = x.address := by
  obtain ⟨bs, -, rfl⟩ := h
  rfl

theorem kind (h : Similar x y) : y.kind = x.kind := by
  obtain ⟨bs, -, rfl⟩ := h
  rfl

theorem code (h : Similar x y) (g : Graph) : (y.code g).Perm (x.code g) := by
  obtain ⟨bs, hbs, rfl⟩ := h
  exact hbs.symm.flatMap_right _

theorem calls (h : Similar x y) (g : Graph) : y.Calls g = x.Calls g := by
  funext site target
  simp only [Subroutine.Calls, (h.code g).mem_iff]

theorem callsBehindBase (h : Similar x y) (g : Graph) :
    y.CallsBehindBase g = x.CallsBehindBase g := by
  funext target
  simp only [Subroutine.CallsBehindBase, Order.LeastWith.perm (h.code g), Subroutine.CallsNext,
    h.calls]

theorem callsAfter (h : Similar x y) (g : Graph) : y.CallsAfter g = x.CallsAfter g := by
  funext callee target
  simp only [Subroutine.CallsAfter, Subroutine.CallsNext, h.calls]

theorem callsOnly (h : Similar x y) (g : Graph) : y.CallsOnly g = x.CallsOnly g := by
  funext target
  simp only [Subroutine.CallsOnly, h.calls]

end Similar

/-- Each subroutine of one list is in the other, up to the order of its blocks. -/
structure Matches (subs subs' : List Subroutine) : Prop where
  forth : ∀ x ∈ subs, ∃ y ∈ subs', Similar x y
  back : ∀ y ∈ subs', ∃ x ∈ subs, Similar x y

theorem matches_of_forall₂ {mid subs' : List Subroutine} (h : List.Forall₂ Similar mid subs') :
    Matches mid subs' := by
  induction h with
  | nil => exact ⟨by simp, by simp⟩
  | @cons x y _ _ hxy _ ih =>
    refine ⟨fun z hz => ?_, fun z hz => ?_⟩
    · rcases List.mem_cons.mp hz with rfl | hz
      · exact ⟨y, List.mem_cons_self, hxy⟩
      · obtain ⟨w, hw, hzw⟩ := ih.forth z hz
        exact ⟨w, List.mem_cons_of_mem _ hw, hzw⟩
    · rcases List.mem_cons.mp hz with rfl | hz
      · exact ⟨x, List.mem_cons_self, hxy⟩
      · obtain ⟨w, hw, hwz⟩ := ih.back z hz
        exact ⟨w, List.mem_cons_of_mem _ hw, hwz⟩

namespace Matches
variable {g : Graph} {subs subs' : List Subroutine} {x y : Subroutine}

theorem symm (h : Matches subs subs') : Matches subs' subs where
  forth y hy := by
    obtain ⟨x, hx, hxy⟩ := h.back y hy
    exact ⟨x, hx, hxy.symm⟩
  back x hx := by
    obtain ⟨y, hy, hxy⟩ := h.forth x hx
    exact ⟨y, hy, hxy.symm⟩

theorem leastWith (h : Matches subs subs') {P Q : Subroutine → Prop}
    (hPQ : ∀ x ∈ subs, ∀ y ∈ subs', Similar x y → Q y → P x) (hy : y ∈ subs')
    (hxy : Similar x y) (hQ : Q y) (hx : Order.LeastWith Subroutine.address subs P x) :
    Order.LeastWith Subroutine.address subs' Q y := by
  refine ⟨⟨hy, hQ⟩, fun z hz hQz => ?_⟩
  obtain ⟨w, hw, hwz⟩ := h.back z hz
  rw [hxy.address, hwz.address]
  exact hx.2 w hw (hPQ w hw z hz hwz hQz)

theorem isStart (h : Matches subs subs') (hy : y ∈ subs') (hxy : Similar x y)
    (hx : IsStart subs x) : IsStart subs' y :=
  h.leastWith (fun _ _ _ _ _ _ => trivial) hy hxy trivial hx

theorem candidate (h : Matches subs subs') (hx : x ∈ subs) (hxy : Similar x y)
    (hc : Candidate g subs x) : Candidate g subs' y := by
  obtain ⟨hstart, hkind, i, hi, hop⟩ := hc
  refine ⟨fun hs => hstart (h.symm.isStart hx hxy.symm hs), ?_, i, ?_, hop⟩
  · rwa [hxy.kind]
  · exact (hxy.code g).mem_iff.mpr hi

theorem isGlobal (h : Matches subs subs') (hy : y ∈ subs') (hxy : Similar x y)
    (hx : IsGlobal g subs x) : IsGlobal g subs' y :=
  h.leastWith (fun _ _ _ hz hwz hc => h.symm.candidate hz hwz.symm hc) hy hxy
    (h.candidate hx.1.1 hxy hx.1.2) hx

theorem designated (h : Matches subs subs') (hxy : Similar x y)
    (hx : Designated g subs x) : Designated g subs' y := by
  cases hx with
  | @byGlobal global hg hcall =>
    obtain ⟨global', hmem, hsim⟩ := h.forth global hg.1.1
    refine .byGlobal (h.isGlobal hmem hsim hg) ?_
    rwa [hsim.callsBehindBase, hxy.address]
  | @byStart global start hg hno hs hcall =>
    obtain ⟨global', hgmem, hgsim⟩ := h.forth global hg.1.1
    obtain ⟨start', hsmem, hssim⟩ := h.forth start hs.1.1
    refine .byStart (h.isGlobal hgmem hgsim hg) ?_ (h.isStart hsmem hssim hs) ?_
    · intro z hz
      obtain ⟨w, hw, hwz⟩ := h.back z hz
      rw [hgsim.callsBehindBase, hwz.address]
      exact hno w hw
    · rwa [hssim.callsAfter, hgsim.address, hxy.address]
  | @alone start hno hs hcall =>
    obtain ⟨start', hsmem, hssim⟩ := h.forth start hs.1.1
    refine .alone (fun z hz => ?_) (h.isStart hsmem hssim hs) ?_
    · obtain ⟨w, hw, hwz⟩ := h.back z hz.1.1
      exact hno w (h.symm.isGlobal hw hwz.symm hz)
    · rwa [hssim.callsOnly, hxy.address]

theorem isMain (h : Matches subs subs') (hy : y ∈ subs') (hxy : Similar x y)
    (hx : IsMain g subs x) : IsMain g subs' y := by
  obtain ⟨⟨hmem, hdes⟩, hstart, hglobal⟩ := hx
  refine ⟨⟨hy, h.designated hxy hdes⟩, fun hs => hstart ?_, fun hg => hglobal ?_⟩
  · exact h.symm.isStart hmem hxy.symm hs
  · exact h.symm.isGlobal hmem hxy.symm hg

/-- Addresses tell candidates apart in both lists. -/
theorem candidates (h : Matches subs subs') (hd : (subs.map Subroutine.address).Nodup)
    (htwo : ∃ x ∈ subs, ∃ y ∈ subs, x ≠ y ∧ Candidate g subs x ∧ Candidate g subs y) :
    ∃ x ∈ subs', ∃ y ∈ subs', x ≠ y ∧ Candidate g subs' x ∧ Candidate g subs' y := by
  obtain ⟨x, hx, y, hy, hne, hcx, hcy⟩ := htwo
  obtain ⟨x', hx', hxx'⟩ := h.forth x hx
  obtain ⟨y', hy', hyy'⟩ := h.forth y hy
  refine ⟨x', hx', y', hy', fun heq => hne ?_, h.candidate hx hxx' hcx, h.candidate hy hyy' hcy⟩
  refine List.inj_on_of_nodup_map hd hx hy ?_
  rw [← hxx'.address, ← hyy'.address, heq]

end Matches

section
variable {g : Graph} {subs subs' : List Subroutine}

theorem Rearranged.matches (h : Rearranged subs subs') : Matches subs subs' := by
  obtain ⟨mid, hperm, hall⟩ := h
  obtain ⟨hforth, hback⟩ := matches_of_forall₂ hall
  refine ⟨fun x hx => hforth x (hperm.mem_iff.mp hx), fun y hy => ?_⟩
  obtain ⟨x, hx, hxy⟩ := hback y hy
  exact ⟨x, hperm.mem_iff.mpr hx, hxy⟩

theorem Rearranged.addresses (h : Rearranged subs subs') :
    (subs.map Subroutine.address).Perm (subs'.map Subroutine.address) := by
  obtain ⟨mid, hperm, hall⟩ := h
  have heq : mid.map Subroutine.address = subs'.map Subroutine.address := by
    induction hall generalizing subs with
    | nil => rfl
    | cons hxy _ ih => rw [List.map_cons, List.map_cons, hxy.address, ih (List.Perm.refl _)]
  exact heq ▸ hperm.map _

theorem Rearranged.distinct (h : Rearranged subs subs') (hd : Distinct g subs) :
    Distinct g subs' := by
  refine ⟨h.addresses.nodup_iff.mp hd.1, fun y hy => ?_⟩
  obtain ⟨x, hx, hxy⟩ := h.matches.back y hy
  exact ((hxy.code g).map _).nodup_iff.mpr (hd.2 x hx)

/-- A role that is told by a property falls to the same subroutine in both lists. -/
theorem Matches.held (h : Matches subs subs') {role role' : Option Nat} {P Q : Subroutine → Prop}
    (hP : ∀ x, held subs role = some x ↔ P x) (hQ : ∀ y, held subs' role' = some y ↔ Q y)
    (hforth : ∀ x y, y ∈ subs' → Similar x y → P x → Q y)
    (hback : ∀ y x, x ∈ subs → Similar y x → Q y → P x) :
    Option.Rel Similar (Roles.held subs role) (Roles.held subs' role') := by
  cases hx : Roles.held subs role with
  | none =>
    cases hy : Roles.held subs' role' with
    | none => exact .none
    | some y =>
      obtain ⟨n, -, hn⟩ := held_eq_some.mp hy
      obtain ⟨x, hmem, hxy⟩ := h.back y (List.mem_of_getElem? hn)
      have := (hP x).mpr (hback y x hmem hxy.symm ((hQ y).mp hy))
      rw [hx] at this
      cases this
  | some x =>
    obtain ⟨n, -, hn⟩ := held_eq_some.mp hx
    obtain ⟨y, hmem, hxy⟩ := h.forth x (List.mem_of_getElem? hn)
    rw [(hQ y).mpr (hforth x y hmem hxy ((hP x).mp hx))]
    exact .some hxy

/-- Identification is blind to the order of subroutines and of their blocks. -/
theorem Rearranged.sameCast (h : Rearranged subs subs') (hd : Distinct g subs) :
    SameCast subs (identify g subs) subs' (identify g subs') := by
  have hm := h.matches
  have hfits := fits_identify hd
  have hfits' := fits_identify (h.distinct hd)
  constructor
  · exact hm.held hfits.start hfits'.start (fun _ _ => hm.isStart) (fun _ _ => hm.symm.isStart)
  · exact hm.held hfits.global hfits'.global (fun _ _ => hm.isGlobal) (fun _ _ => hm.symm.isGlobal)
  · exact hm.held hfits.main hfits'.main (fun _ _ => hm.isMain) (fun _ _ => hm.symm.isMain)
  · rw [Bool.eq_iff_iff, hfits.multiple, hfits'.multiple]
    exact ⟨hm.candidates hd.1, hm.symm.candidates (h.distinct hd).1⟩

end

/-! ## Giving out the roles -/

/-- The kind of the subroutine at a position once the roles are given. -/
def kindAt (r : Roles) (n : Nat) (kind : SubroutineKind) : SubroutineKind :=
  if r.main = some n then .main
  else if r.global = some n then .global
  else if r.start = some n then .start
  else kind

/-- The position of the role that a kind stands for. -/
def ofKind (r : Roles) : SubroutineKind → Option Nat
  | .start => r.start
  | .global => r.global
  | .main => r.main
  | .plain | .state => none

section
variable {subs : List Subroutine} {r : Roles} {n : Nat}

theorem getElem?_assign (kind : SubroutineKind) (role : Option Nat) (subs : List Subroutine)
    (n : Nat) : (assign kind role subs)[n]? =
      subs[n]?.map fun x => { x with kind := if role = some n then kind else x.kind } := by
  cases role with
  | none => simp [assign]
  | some m =>
    rw [assign, List.getElem?_modify]
    by_cases hmn : m = n <;> simp [hmn]

theorem getElem?_apply (r : Roles) (subs : List Subroutine) (n : Nat) :
    (r.apply subs)[n]? = subs[n]?.map fun x => { x with kind := r.kindAt n x.kind } := by
  simp only [apply, getElem?_assign, Option.map_map]
  rfl

theorem kindAt_kindAt (r : Roles) (n : Nat) (kind : SubroutineKind) :
    r.kindAt n (r.kindAt n kind) = r.kindAt n kind := by
  unfold kindAt
  split
  · rfl
  · split
    · rfl
    · split <;> rfl

/-- Kinds are given to the positions of their roles. -/
theorem ofKind_kindAt (r : Roles) (n : Nat) (kind : SubroutineKind) :
    r.ofKind (r.kindAt n kind) = some n ∨ r.kindAt n kind = kind := by
  unfold kindAt
  split
  · rename_i hmain
    exact .inl hmain
  · split
    · rename_i hglobal
      exact .inl hglobal
    · split
      · rename_i hstart
        exact .inl hstart
      · exact .inr rfl

theorem apply_apply (r : Roles) (subs : List Subroutine) :
    r.apply (r.apply subs) = r.apply subs := by
  refine List.ext_getElem? fun n => ?_
  simp only [getElem?_apply, Option.map_map, Function.comp_def, kindAt_kindAt]

theorem kindAt_eq (hn : n ∉ r.positions) (kind : SubroutineKind) : r.kindAt n kind = kind := by
  simp only [mem_positions, not_or] at hn
  simp [kindAt, hn]

end

/-! ## Identification after that -/

/-- The same subroutines but for their kinds. -/
structure Relabels (subs subs' : List Subroutine) : Prop where
  length : subs'.length = subs.length
  nth : ∀ n, ∃ kind, nth subs' n = { nth subs n with kind }

namespace Relabels
variable {g : Graph} {subs subs' : List Subroutine} {n m : Nat}

theorem address (h : Relabels subs subs') (n : Nat) :
    (Roles.nth subs' n).address = (Roles.nth subs n).address := by
  obtain ⟨kind, hn⟩ := h.nth n
  rw [hn]

theorem findOpcode? (h : Relabels subs subs') (g : Graph) (n : Nat) (op : Opcode) :
    (Roles.nth subs' n).findOpcode? g op = (Roles.nth subs n).findOpcode? g op := by
  obtain ⟨kind, hn⟩ := h.nth n
  rw [hn]
  rfl

theorem calls (h : Relabels subs subs') (g : Graph) (n : Nat) :
    (Roles.nth subs' n).calls g = (Roles.nth subs n).calls g := by
  obtain ⟨kind, hn⟩ := h.nth n
  rw [hn]
  rfl

theorem startOf? (h : Relabels subs subs') : startOf? subs' = startOf? subs := by
  simp only [Roles.startOf?, h.length, h.address]

theorem withAddress? (h : Relabels subs subs') : withAddress? subs' = withAddress? subs := by
  funext a
  simp only [Roles.withAddress?, h.length, h.address]

theorem designated? (h : Relabels subs subs') (g : Graph) (m : Nat) (global : Option Nat) :
    designated? g subs' m global = designated? g subs m global := by
  cases global with
  | none => simp only [Roles.designated?, onlyCall?, h.calls, h.withAddress?]
  | some n =>
    simp only [Roles.designated?, calledByGlobal?, calledAfterGlobal?, h.calls, h.withAddress?,
      h.findOpcode?, h.address]

theorem globalCandidates (h : Relabels subs subs')
    (hstate : ∀ n, n ≠ m → ((Roles.nth subs' n).kind = .state ↔ (Roles.nth subs n).kind = .state)) :
    globalCandidates g subs' m = globalCandidates g subs m := by
  simp only [Roles.globalCandidates, h.length, h.address, h.findOpcode?]
  refine List.filter_congr fun n _ => ?_
  by_cases hn : n = m
  · simp [hn]
  · have hkind : ((Roles.nth subs' n).kind != .state) = ((Roles.nth subs n).kind != .state) := by
      rw [Bool.eq_iff_iff, bne_iff_ne, bne_iff_ne]
      exact not_congr (hstate n hn)
    rw [hkind]

theorem identify (h : Relabels subs subs')
    (hstate : ∀ m, Roles.startOf? subs = some m → ∀ n, n ≠ m →
      ((Roles.nth subs' n).kind = .state ↔ (Roles.nth subs n).kind = .state)) :
    identify g subs' = identify g subs := by
  cases hm : Roles.startOf? subs with
  | none =>
    have hm' := h.startOf?.trans hm
    simp only [Roles.identify, hm, hm']
  | some m =>
    rw [identify_eq hm, identify_eq (h.startOf?.trans hm), h.designated?,
      h.globalCandidates (hstate m hm)]

end Relabels

section
variable {g : Graph} {subs : List Subroutine} {n m : Nat}

theorem length_apply (r : Roles) (subs : List Subroutine) :
    (r.apply subs).length = subs.length := by
  have hassign : ∀ kind role (subs : List Subroutine), (assign kind role subs).length = subs.length := by
    intro kind role subs
    cases role with
    | none => rfl
    | some m => exact List.length_modify ..
  simp only [apply, hassign]

theorem nth_apply (r : Roles) (hn : n < subs.length) :
    nth (r.apply subs) n = { nth subs n with kind := r.kindAt n (nth subs n).kind } :=
  nth_eq (by rw [getElem?_apply, getElem?_nth hn]; rfl)

theorem nth_of_length_le (hn : subs.length ≤ n) : nth subs n = { address := 0 } := by
  simp [nth, hn]

theorem relabels_apply (r : Roles) (subs : List Subroutine) : Relabels subs (r.apply subs) where
  length := length_apply r subs
  nth n := by
    by_cases hn : n < subs.length
    · exact ⟨_, nth_apply r hn⟩
    · have hle := Nat.le_of_not_lt hn
      rw [nth_of_length_le hle, nth_of_length_le ((length_apply r subs).symm ▸ hle)]
      exact ⟨_, rfl⟩

theorem kind_of_head?_globalCandidates (h : (globalCandidates g subs m).head? = some n) :
    (nth subs n).kind ≠ .state := by
  have hmem := (List.mem_filter.mp (List.mem_of_head? h)).2
  simp only [Bool.and_eq_true, bne_iff_ne] at hmem
  exact hmem.1.2

/-- Giving out the roles changes no role, if the main subroutine was no continuation. -/
theorem identify_apply (hmain : ∀ n x, (identify g subs).main = some n → subs[n]? = some x →
    x.kind ≠ .state) : identify g ((identify g subs).apply subs) = identify g subs := by
  refine (relabels_apply _ subs).identify fun m hm n hnm => ?_
  by_cases hn : n < subs.length
  · rw [nth_apply _ hn]
    simp only [kindAt]
    split
    · -- a continuation that becomes main would be a candidate from now on
      rename_i hrole
      have hkind := hmain n _ hrole (getElem?_nth hn)
      simp [hkind]
    · split
      · rename_i hrole
        rw [identify_eq hm] at hrole
        have hkind := kind_of_head?_globalCandidates hrole
        simp [hkind]
      · split
        · rename_i hrole
          rw [identify_eq hm] at hrole
          exact absurd (Option.some.inj hrole).symm hnm
        · rfl
  · have hle := Nat.le_of_not_lt hn
    rw [nth_of_length_le hle, nth_of_length_le ((length_apply _ subs).symm ▸ hle)]

end

end Roles

end ScriptFlow
