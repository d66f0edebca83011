import ScriptFlow.Proofs.Code.Tags
import ScriptFlow.Proofs.Script.Listed
import ScriptFlow.Proofs.Subroutine.Casting

/-! # The roles of a loaded script

The subroutines of a loaded script have distinct addresses and so do their instructions, so the roles
are what they should be. The start is where execution starts. Once the roles are given, each subroutine
has a name of its own, and looking for the roles again finds the same: the main subroutine is called,
and an address that is called never was the entry of a continuation. -/

namespace ScriptFlow

/-! ## Names -/

/-- How the names of a kind begin. -/
def SubroutineKind.initials : SubroutineKind → List Char
  | .plain => ['s', 'u', 'b']
  | .start => ['_', 's', 't']
  | .global => ['_', 'g', 'l']
  | .main => ['m', 'a', 'i']
  | .state => ['s', 't', 'a']

theorem SubroutineKind.initials_injective {k l : SubroutineKind} (h : k.initials = l.initials) :
    k = l := by
  cases k <;> cases l <;> simp [initials] at h ⊢

namespace Subroutine
variable {x y : Subroutine}

theorem take_name (x : Subroutine) : x.name.toList.take 3 = x.kind.initials := by
  unfold name
  split <;> rename_i h <;> simp [h, SubroutineKind.initials]

theorem kind_eq_of_name (h : x.name = y.name) : x.kind = y.kind :=
  SubroutineKind.initials_injective (by rw [← take_name, ← take_name, h])

/-- Names without a role are told apart by addresses. -/
theorem address_eq_of_name (h : x.name = y.name) (hk : x.kind = .plain ∨ x.kind = .state) :
    x.address = y.address := by
  have hy := kind_eq_of_name h
  rcases hk with hx | hx
  all_goals
    rw [hx] at hy
    simp only [name, hx, ← hy] at h
    exact Text.upperHex_injective (String.append_right_inj _ |>.mp h)

end Subroutine

namespace Script

/-! ## Entry points -/

/-- The entry of a continuation and of nothing else: the address is stored, is not called, and is not
where execution starts. -/
structure Continuation (code : List LinkedInstruction) (a : Int) : Prop where
  stored : ∃ i ∈ code, i.opcode = .storestate ∧ i.target = some a
  uncalled : ∀ i ∈ code, i.opcode = .jsr → i.target ≠ some a
  inside : code.head?.map (fun i => i.address) ≠ some a

section
variable {image : List UInt8} {size : Nat} {code : List LinkedInstruction} {a : Int}

theorem linkedCode_caused (h : linkedCode image size = .ok code) {j : LinkedInstruction}
    (hj : j ∈ code) (htag : j.tag ≠ .plain) :
    ∃ i ∈ code, Tag.ofOpcode? i.opcode = some j.tag ∧ i.target = some j.address := by
  simp only [linkedCode, bind, Except.bind] at h
  split at h
  · cases h
  · split at h
    · cases h
    · split at h
      · cases h
      · exact Code.link_caused h hj htag

theorem ofOpcode?_eq_state {op : Opcode} (h : Tag.ofOpcode? op = some .state) : op = .storestate := by
  cases op <;> simp [Tag.ofOpcode?] at h ⊢

theorem ofOpcode?_eq_subroutine {op : Opcode} (h : Tag.ofOpcode? op = some .subroutine) :
    op = .jsr := by
  cases op <;> simp [Tag.ofOpcode?] at h ⊢

theorem rootOf?_eq_state {i : LinkedInstruction} :
    rootOf? i = some (a, .state) ↔ i.tag = .state ∧ i.address = a := by
  unfold rootOf?
  split <;> rename_i htag <;> simp [htag]

/-- Entry points are continuations by what leads to them. -/
theorem mem_rootsOf_state (h : linkedCode image size = .ok code) :
    (a, SubroutineKind.state) ∈ rootsOf code ↔ Continuation code a := by
  have hl := linkedCode_linked h
  cases code with
  | nil =>
    refine iff_of_false (by simp [rootsOf]) fun hc => ?_
    obtain ⟨i, hi, -⟩ := hc.stored
    cases hi
  | cons first rest =>
    have hfirst := (List.pairwise_cons.mp hl.ordered).1
    constructor
    · intro hmem
      have hmem : (a, SubroutineKind.state) ∈ rest.filterMap rootOf? := by simpa [rootsOf] using hmem
      obtain ⟨j, hj, hroot⟩ := List.mem_filterMap.mp hmem
      obtain ⟨htag, rfl⟩ := rootOf?_eq_state.mp hroot
      have hjc := List.mem_cons_of_mem first hj
      refine ⟨?_, fun i hi hop htarget => ?_, fun hhead => ?_⟩
      · obtain ⟨i, hi, hop, htarget⟩ := linkedCode_caused h hjc (by rw [htag]; simp)
        exact ⟨i, hi, ofOpcode?_eq_state (hop.trans (by rw [htag])), htarget⟩
      · have hrank := hl.tagged hi hjc (t := .subroutine) (by rw [hop]; rfl) htarget
        rw [htag] at hrank
        exact absurd hrank (by decide)
      · have hlt := hfirst j hj
        have heq : first.address = j.address := by simpa using hhead
        omega
    · intro hc
      obtain ⟨i, hi, hop, htarget⟩ := hc.stored
      obtain ⟨j, hj, hto⟩ := hl.target hi (by simp [hop, Opcode.branches])
      have hja : j.address = a := by rw [hto] at htarget; exact Option.some.inj htarget
      have hrank := hl.tagged hi hj (t := .state) (by rw [hop]; rfl) hto
      -- a stronger tag would have come from a call
      have htag : j.tag = .state := by
        cases htag : j.tag with
        | plain | label => rw [htag] at hrank; exact absurd hrank (by decide)
        | state => rfl
        | subroutine =>
          obtain ⟨k, hk, hkop, hkt⟩ := linkedCode_caused h hj (by rw [htag]; simp)
          rw [htag] at hkop
          exact absurd (hkt.trans (by rw [hja])) (hc.uncalled k hk (ofOpcode?_eq_subroutine hkop))
      rcases List.mem_cons.mp hj with rfl | hj
      · exact absurd (by simp [hja]) hc.inside
      · exact List.mem_cons_of_mem _
          (List.mem_filterMap.mpr ⟨j, hj, rootOf?_eq_state.mpr ⟨htag, hja⟩⟩)

theorem kind_of_mem_rootsOf {r : Int × SubroutineKind} (h : r ∈ rootsOf code) :
    r.2 = .plain ∨ r.2 = .state := by
  cases code with
  | nil => cases h
  | cons first rest =>
    rcases List.mem_cons.mp h with rfl | h
    · exact .inl rfl
    · obtain ⟨i, -, hi⟩ := List.mem_filterMap.mp h
      unfold rootOf? at hi
      split at hi <;> cases hi
      · exact .inl rfl
      · exact .inr rfl

end

/-! ## Loaded scripts -/

/-- The roles of a script were found in a list of its entry points. -/
structure Cast (s : Script) (found : List Subroutine) : Prop where
  roles : s.roles = Roles.identify s.graph found
  subroutines : s.subroutines = s.roles.apply found
  roots : found.map (fun x => (x.address, x.kind)) = Order.sortBy Prod.fst (rootsOf s.code)

section
variable {image : List UInt8} {events : List Event} {s : Script} {found : List Subroutine}

theorem load_cast (h : load image = (events, .ok s)) :
    (∃ size, linkedCode image size = .ok s.code) ∧ ∃ found, s.Cast found := by
  obtain ⟨size, code, events', -, hcode, hof⟩ := ofCode_of_load h
  cases code with
  | nil =>
    cases hof
    exact ⟨⟨size, hcode⟩, [], rfl, rfl, rfl⟩
  | cons i rest =>
    obtain ⟨d, hd, -⟩ := Flow.discover_complete (sound_rootsOf (linkedCode_linked hcode))
    simp only [ofCode, Flow.build, hd, bind, Except.bind] at hof
    cases hof
    refine ⟨⟨size, hcode⟩, _, rfl, rfl, ?_⟩
    rw [List.map_map, List.map_map]
    exact List.map_id _

/-- Addresses tell the subroutines of a loaded script apart, and the instructions of each. -/
theorem load_distinct (h : load image = (events, .ok s)) : Roles.Distinct s.graph s.subroutines := by
  refine ⟨List.pairwise_map.mpr ((load_shares_blocks h).ordered.imp fun hxy => Int.ne_of_lt hxy),
    fun sub hsub => List.pairwise_map.mpr ?_⟩
  have hsec : Listing.ofSubroutine sub ∈ Listing.sections s :=
    List.mem_append_left _ (List.mem_map_of_mem hsub)
  exact ((load_arranged h).code_ordered _ hsec).imp fun hij => Int.ne_of_lt hij

/-- No entry point lies before the first instruction. -/
theorem first_le_of_mem_rootsOf {first : LinkedInstruction} {rest : List LinkedInstruction} {a : Int}
    (hl : Linked (first :: rest)) (ha : a ∈ (rootsOf (first :: rest)).map Prod.fst) :
    first.address ≤ a := by
  obtain ⟨r, hr, rfl⟩ := List.mem_map.mp ha
  rcases List.mem_cons.mp hr with rfl | hr
  · exact Int.le_refl _
  · exact Int.le_of_lt ((List.pairwise_cons.mp (rootsOf_pairwise hl)).1 r hr)

theorem kind_unique {code : List LinkedInstruction} (hl : Linked code) {a : Int}
    {j k : SubroutineKind} (hj : (a, j) ∈ rootsOf code) (hk : (a, k) ∈ rootsOf code) : j = k := by
  have hnodup : ((rootsOf code).map Prod.fst).Nodup :=
    List.pairwise_map.mpr ((rootsOf_pairwise hl).imp fun hxy => Int.ne_of_lt hxy)
  exact congrArg Prod.snd (List.inj_on_of_nodup_map hnodup hj hk rfl)

namespace Cast

theorem map_eq {β : Type} (hc : s.Cast found) (f : Subroutine → β)
    (hf : ∀ sub kind, f { sub with kind } = f sub) : s.subroutines.map f = found.map f := by
  rw [hc.subroutines]
  exact map_apply hf _ _

theorem distinct (hc : s.Cast found) (h : load image = (events, .ok s)) :
    Roles.Distinct s.graph found := by
  obtain ⟨haddress, hcode⟩ := load_distinct h
  rw [hc.map_eq Subroutine.address fun _ _ => rfl] at haddress
  refine ⟨haddress, fun x hx => ?_⟩
  have hmem : x.code s.graph ∈ s.subroutines.map (Subroutine.code s.graph) :=
    hc.map_eq (Subroutine.code s.graph) (fun _ _ => rfl) ▸ List.mem_map_of_mem hx
  obtain ⟨y, hy, hyx⟩ := List.mem_map.mp hmem
  exact hyx ▸ hcode y hy

theorem mem_rootsOf (hc : s.Cast found) {x : Subroutine} (hx : x ∈ found) :
    (x.address, x.kind) ∈ rootsOf s.code := by
  have hmem : (x.address, x.kind) ∈ found.map fun x => (x.address, x.kind) := List.mem_map_of_mem hx
  rw [hc.roots] at hmem
  exact (Order.perm_sortBy _ _).mem_iff.mp hmem

/-- What is called never was the entry of a continuation. -/
theorem main_kind (hc : s.Cast found) (h : load image = (events, .ok s)) {n : Nat} {x : Subroutine}
    (hn : (Roles.identify s.graph found).main = some n) (hx : found[n]? = some x) :
    x.kind ≠ .state := by
  intro hstate
  obtain ⟨⟨size, hcode⟩, -⟩ := load_cast h
  have hmain := Roles.of_position (Roles.main_eq_some (hc.distinct h)) hn hx
  obtain ⟨y, -, site, i, hi, -, hop, htarget⟩ := hmain.1.2.called
  have hroot := hc.mem_rootsOf (List.mem_of_getElem? hx)
  rw [hstate, mem_rootsOf_state hcode] at hroot
  obtain ⟨b, -, hib⟩ := List.mem_flatMap.mp hi
  exact hroot.uncalled i (load_mem_code h hib) hop htarget

theorem identify_eq (hc : s.Cast found) (h : load image = (events, .ok s)) :
    Roles.identify s.graph s.subroutines = s.roles := by
  rw [hc.subroutines, hc.roles]
  exact Roles.identify_apply fun n x => hc.main_kind h

theorem getElem?_of_notMem (hc : s.Cast found) {n : Nat} {sub : Subroutine}
    (hsub : s.subroutines[n]? = some sub) (hn : n ∉ s.roles.positions) : found[n]? = some sub := by
  rw [hc.subroutines, Roles.getElem?_apply] at hsub
  obtain ⟨x, hx, rfl⟩ := Option.map_eq_some_iff.mp hsub
  rw [Roles.kindAt_eq hn]
  exact hx

theorem kind_cases (hc : s.Cast found) {n : Nat} {x : Subroutine} (hx : s.subroutines[n]? = some x) :
    s.roles.ofKind x.kind = some n ∨ x.kind = .plain ∨ x.kind = .state := by
  rw [hc.subroutines, Roles.getElem?_apply] at hx
  obtain ⟨y, hy, rfl⟩ := Option.map_eq_some_iff.mp hx
  rcases s.roles.ofKind_kindAt n y.kind with hrole | hkind
  · exact .inl hrole
  · refine .inr ?_
    show s.roles.kindAt n y.kind = .plain ∨ s.roles.kindAt n y.kind = .state
    rw [hkind]
    exact kind_of_mem_rootsOf (hc.mem_rootsOf (List.mem_of_getElem? hy))

/-- A name tells its subroutine: by the role, which only one has, or by the address. -/
theorem eq_of_name (hc : s.Cast found) (hd : (s.subroutines.map Subroutine.address).Nodup)
    {x y : Subroutine} (hx : x ∈ s.subroutines) (hy : y ∈ s.subroutines)
    (hname : x.name = y.name) : x = y := by
  by_cases hk : x.kind = .plain ∨ x.kind = .state
  · exact List.inj_on_of_nodup_map hd hx hy (Subroutine.address_eq_of_name hname hk)
  · obtain ⟨n, hn⟩ := List.getElem?_of_mem hx
    obtain ⟨m, hm⟩ := List.getElem?_of_mem hy
    have hkind := Subroutine.kind_eq_of_name hname
    have hxn := (hc.kind_cases hn).resolve_right hk
    have hym := (hc.kind_cases hm).resolve_right (hkind ▸ hk)
    rw [hkind, hym] at hxn
    cases hxn
    rw [hn] at hm
    exact Option.some.inj hm

theorem names_nodup (hc : s.Cast found) (hd : (s.subroutines.map Subroutine.address).Nodup) :
    (s.subroutines.map Subroutine.name).Nodup :=
  List.Nodup.map_on (fun _ hx _ hy => hc.eq_of_name hd hx hy) hd.of_map

end Cast

/-- The lowest subroutine is entered by the block that execution starts in. -/
theorem Laid.start_entry {l : Flow.Layout} {d : Flow.Discovery} (h : s.Laid l d) {x : Subroutine}
    (hx : Roles.IsStart s.subroutines x) : ∃ root, x.entry = some root ∧ s.root? = some root := by
  obtain ⟨⟨hmem, -⟩, hleast⟩ := hx
  have hroot := h.addresses x hmem
  have hroots := h.roots
  have hl := h.sound.linked
  cases hcode : l.code with
  | nil =>
    rw [hroots, hcode] at hroot
    cases hroot
  | cons first rest =>
    have hfirst : first.address ∈ l.roots := by rw [hroots, hcode]; simp [rootsOf]
    have haddress : x.address = first.address := by
      obtain ⟨y, hy, hya⟩ := h.rooted _ hfirst
      rw [hcode] at hl
      rw [hroots, hcode] at hroot
      refine Int.le_antisymm ?_ (first_le_of_mem_rootsOf hl hroot)
      rw [← hya]
      exact hleast y hy trivial
    obtain ⟨b, hb, hholder, hbaddress, -⟩ := h.root hfirst
    obtain ⟨e, -, hentry, hat, -⟩ := h.entry_eq hmem
    refine ⟨b, ?_, ?_⟩
    · rw [hentry, (hat b hb).mp (hbaddress.trans haddress.symm)]
    · simp only [root?, rootBlock?, h.code, hcode, List.head?_cons, Option.bind_some]
      exact hholder

/-- The roles of a loaded script are what they should be. -/
theorem load_fits (h : load image = (events, .ok s)) : s.roles.Fits s.graph s.subroutines := by
  obtain ⟨-, found, hc⟩ := load_cast h
  rw [← hc.identify_eq h]
  exact Roles.fits_identify (load_distinct h)

theorem load_start_entry (h : load image = (events, .ok s)) (hcode : s.code ≠ []) :
    ∃ start root, s.inRole s.roles.start = some start ∧ start.entry = some root ∧
      s.root? = some root := by
  rcases load_laid h with ⟨-, -, hnil⟩ | ⟨l, d, hlaid⟩
  · exact absurd hnil hcode
  · obtain ⟨first, rest, hfirst⟩ := List.exists_cons_of_ne_nil hcode
    have hroot : first.address ∈ l.roots := by
      rw [hlaid.roots, ← hlaid.code, hfirst]
      simp [rootsOf]
    obtain ⟨sub, hsub, -⟩ := hlaid.rooted _ hroot
    obtain ⟨start, hstart⟩ := Roles.exists_isStart (load_distinct h).1 (List.ne_nil_of_mem hsub)
    obtain ⟨root, hentry, hroot⟩ := hlaid.start_entry hstart
    exact ⟨start, root, ((load_fits h).start start).mpr hstart, hentry, hroot⟩

end

/-! ## Main statements -/

/-- Roles are what they should be, however subroutines and blocks are listed. In a loaded script the
start is entered where execution starts, and no two subroutines have a name in common. -/
theorem roles_fit_in_any_order :
    (∀ (g : Graph) (subs : List Subroutine), Roles.Distinct g subs →
      (Roles.identify g subs).Fits g subs ∧ ∀ subs', Roles.Rearranged subs subs' →
        Roles.SameCast subs (Roles.identify g subs) subs' (Roles.identify g subs')) ∧
    ∀ (image : List UInt8) (events : List Event) (s : Script), load image = (events, .ok s) →
      s.roles.Fits s.graph s.subroutines ∧
      (s.code ≠ [] → ∃ start root, s.inRole s.roles.start = some start ∧
        start.entry = some root ∧ s.root? = some root) ∧
      (s.subroutines.map Subroutine.name).Nodup := by
  constructor
  · intro g subs hd
    exact ⟨Roles.fits_identify hd, fun subs' h => h.sameCast hd⟩
  · intro image events s h
    obtain ⟨-, found, hc⟩ := load_cast h
    exact ⟨load_fits h, load_start_entry h, hc.names_nodup (load_distinct h).1⟩

/-- 13 STORESTATE keeps 29 for later, a continuation that saves the base pointer; 33 STORESTATE keeps
61, which 53 JSR of the global initialiser at 51 calls as well. -/
def storedMain : List UInt8 :=
  magic ++ [marker, 0, 0, 0, 65] ++ [0x2C, 0x10, 0, 0, 0, 0, 0, 0, 0, 0] ++ [0x1D, 0, 0, 0, 0, 10] ++
    [0x2A, 0] ++ [0x20, 0] ++ [0x2C, 0x1C, 0, 0, 0, 0, 0, 0, 0, 0] ++ [0x1E, 0, 0, 0, 0, 8] ++
    [0x20, 0] ++ [0x2A, 0] ++ [0x1E, 0, 0, 0, 0, 8] ++ [0x20, 0] ++ [0x2A, 0] ++ [0x20, 0]

/-- Two base pointers are saved by subroutines that are called, and listing everything backwards does
not change which of them is the global initialiser. -/
theorem storedMain_roles_fit : ∃ events s subs', load storedMain = (events, .ok s) ∧
    Roles.Distinct s.graph s.subroutines ∧ Roles.Rearranged s.subroutines subs' ∧
    Roles.SameCast s.subroutines (Roles.identify s.graph s.subroutines) subs'
      (Roles.identify s.graph subs') ∧
    Roles.identify s.graph s.subroutines = ⟨some 0, some 2, some 3, true⟩ ∧
    Roles.identify s.graph subs' = ⟨some 3, some 1, some 0, true⟩ ∧
    (∃ start root, s.inRole s.roles.start = some start ∧ start.entry = some root ∧
      s.root? = some root) ∧
    s.subroutines.map Subroutine.name = ["_start", "sta_0000001D", "_global", "main"] ∧
    (s.subroutines.map Subroutine.name).Nodup := by
  have hcheck : (match load storedMain with
    | (_, .ok s) => decide (Roles.Distinct s.graph s.subroutines) &&
        decide (Roles.identify s.graph s.subroutines = ⟨some 0, some 2, some 3, true⟩) &&
        decide (Roles.identify s.graph (s.subroutines.reverse.map fun x =>
          { x with blocks := x.blocks.reverse }) = ⟨some 3, some 1, some 0, true⟩) &&
        decide (s.code ≠ []) && decide (s.subroutines.map Subroutine.name =
          ["_start", "sta_0000001D", "_global", "main"])
    | _ => false) = true := by
    decide +kernel
  split at hcheck
  · rename_i events s hload
    simp only [Bool.and_eq_true, decide_eq_true_eq] at hcheck
    obtain ⟨⟨⟨⟨hdistinct, hroles⟩, hreversed⟩, hcode⟩, hnames⟩ := hcheck
    have hback : Roles.Rearranged s.subroutines (s.subroutines.reverse.map fun x =>
        { x with blocks := x.blocks.reverse }) := by
      refine ⟨_, (List.reverse_perm _).symm, List.forall₂_map_right_iff.mpr ?_⟩
      exact List.forall₂_same.mpr fun x _ => ⟨_, (List.reverse_perm _).symm, rfl⟩
    obtain ⟨-, hstart, hnodup⟩ := roles_fit_in_any_order.2 _ events s hload
    exact ⟨events, s, _, hload, hdistinct, hback,
      (roles_fit_in_any_order.1 _ _ hdistinct).2 _ hback, hroles, hreversed, hstart hcode, hnames,
      hnodup⟩
  · cases hcheck

/-- In a loaded script the roles can be looked for again and given again, and nothing changes. Who has
no role is of the kind its entry point is of: a continuation if the address is one, else plain. -/
theorem load_roles_settled {image : List UInt8} {events : List Event} {s : Script}
    (h : load image = (events, .ok s)) :
    Roles.identify s.graph s.subroutines = s.roles ∧
    s.roles.apply s.subroutines = s.subroutines ∧
    (∀ a, (a, SubroutineKind.state) ∈ rootsOf s.code ↔ Continuation s.code a) ∧
    ∀ n sub, s.subroutines[n]? = some sub → n ∉ s.roles.positions →
      (∀ kind, (sub.address, kind) ∈ rootsOf s.code ↔ kind = sub.kind) ∧
      (sub.kind = .plain ∨ sub.kind = .state) ∧
      (sub.kind = .state ↔ Continuation s.code sub.address) := by
  obtain ⟨⟨size, hcode⟩, found, hc⟩ := load_cast h
  have hstate := fun a => mem_rootsOf_state (a := a) hcode
  refine ⟨hc.identify_eq h, ?_, hstate, fun n sub hsub hn => ?_⟩
  · rw [hc.subroutines, Roles.apply_apply]
  · have hroot := hc.mem_rootsOf (List.mem_of_getElem? (hc.getElem?_of_notMem hsub hn))
    have hkind : ∀ kind, (sub.address, kind) ∈ rootsOf s.code ↔ kind = sub.kind := by
      intro kind
      constructor
      · exact fun hmem => kind_unique (linkedCode_linked hcode) hmem hroot
      · intro heq
        rw [heq]
        exact hroot
    refine ⟨hkind, kind_of_mem_rootsOf hroot, ?_⟩
    rw [← hstate, hkind, eq_comm]

/-- The main subroutine is stored as well as called; what is only stored stays a continuation. -/
theorem storedMain_roles_settled : ∃ events s sub, load storedMain = (events, .ok s) ∧
    s.roles = ⟨some 0, some 2, some 3, true⟩ ∧
    Roles.identify s.graph s.subroutines = s.roles ∧ s.roles.apply s.subroutines = s.subroutines ∧
    s.subroutines[1]? = some sub ∧ sub.address = 29 ∧ sub.kind = .state ∧
    Continuation s.code 29 ∧ ¬ Continuation s.code 61 ∧
    ∃ i ∈ s.code, i.opcode = .storestate ∧ i.target = some 61 := by
  have hcheck : (match load storedMain with
    | (_, .ok s) => decide (s.roles = ⟨some 0, some 2, some 3, true⟩) &&
        decide (s.subroutines[1]?.map (fun x => (x.address, x.kind)) = some (29, .state)) &&
        decide ((61, SubroutineKind.state) ∉ rootsOf s.code) &&
        decide (∃ i ∈ s.code, i.opcode = .storestate ∧ i.target = some 61)
    | _ => false) = true := by
    decide +kernel
  split at hcheck
  · rename_i events s hload
    simp only [Bool.and_eq_true, decide_eq_true_eq] at hcheck
    obtain ⟨⟨⟨hroles, hsub⟩, hmain⟩, hstored⟩ := hcheck
    obtain ⟨sub, hsub, hroot⟩ := Option.map_eq_some_iff.mp hsub
    obtain ⟨ha, hk⟩ := Prod.mk.inj hroot
    obtain ⟨hagain, happly, hstates, hunroled⟩ := load_roles_settled hload
    have hcontinuation := (hunroled 1 sub hsub (by rw [hroles]; decide)).2.2.mp hk
    rw [ha] at hcontinuation
    exact ⟨events, s, sub, hload, hroles, hagain, happly, hsub, ha, hk, hcontinuation,
      fun hc => hmain ((hstates 61).mpr hc), hstored⟩
  · cases hcheck

end Script

end ScriptFlow
