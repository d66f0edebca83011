import ScriptFlow.Proofs.Flow.Owners
import ScriptFlow.Proofs.Graph.Marking
import ScriptFlow.Proofs.Script.Loading
import ScriptFlow.Proofs.Script.Totality

/-! # Loaded scripts over their code

A loaded script is a graph over decoded and linked code, built from the entry points of that code, with
edges marked dead since. Its subroutines are those entry points. -/

namespace ScriptFlow.Script

section
variable {image : List UInt8} {events : List Event} {s : Script} {sub : Subroutine} {size : Nat}
variable {code : List LinkedInstruction}

theorem ofCode_of_load (h : load image = (events, .ok s)) : ∃ size code events',
    declaredSize image = .ok size ∧ linkedCode image size = .ok code ∧
      ofCode size code = .ok (s, events') := by
  unfold load at h
  split at h
  · cases h
  · rename_i size hsize
    dsimp only at h
    split at h
    · cases h
    · rename_i code hcode
      split at h
      · cases h
      · rename_i t events' hof
        cases h
        exact ⟨size, code, events', hsize, hcode, hof⟩

/-- Linking keeps decoded instructions as they are. -/
theorem linkedCode_decoded (hsize : ValidHeader image size)
    (h : linkedCode image size = .ok code) : ∀ i ∈ code, i.toInstruction.WellFormed := by
  have hdecode := h
  rw [linkedCode] at hdecode
  obtain ⟨is, his, -⟩ := bind_eq_ok.mp hdecode
  obtain ⟨heq, -⟩ := linkedCode_of_decode hsize.least hsize.most his
  rw [heq] at h
  intro i hi
  obtain ⟨n, hn⟩ := List.getElem?_of_mem hi
  have hmem := List.mem_of_getElem? (Code.link_at h hn).1
  exact ((Instruction.decode_eq_ok hsize.least hsize.most).mp his).wellFormed _
    (by simpa [Code.toList] using hmem)

theorem mem_assign {kind : SubroutineKind} {n : Option Nat} {subs : List Subroutine}
    (h : sub ∈ Roles.assign kind n subs) :
    ∃ sub₀ ∈ subs, sub.address = sub₀.address ∧ sub.entry = sub₀.entry := by
  unfold Roles.assign at h
  split at h
  · obtain ⟨m, hm⟩ := List.getElem?_of_mem h
    rw [List.getElem?_modify] at hm
    obtain ⟨sub₀, hsub₀, rfl⟩ := Option.map_eq_some_iff.mp hm
    refine ⟨sub₀, List.mem_of_getElem? hsub₀, ?_⟩
    split <;> exact ⟨rfl, rfl⟩
  · exact ⟨sub, h, rfl, rfl⟩

/-- Roles change nothing but the kinds of subroutines. -/
theorem mem_apply {r : Roles} {subs : List Subroutine} (h : sub ∈ r.apply subs) :
    ∃ sub₀ ∈ subs, sub.address = sub₀.address ∧ sub.entry = sub₀.entry := by
  obtain ⟨sub₁, h, ha₁, he₁⟩ := mem_assign h
  obtain ⟨sub₂, h, ha₂, he₂⟩ := mem_assign h
  obtain ⟨sub₃, h, ha₃, he₃⟩ := mem_assign h
  exact ⟨sub₃, h, ha₁.trans (ha₂.trans ha₃), he₁.trans (he₂.trans he₃)⟩

theorem exists_mem_assign (kind : SubroutineKind) (n : Option Nat) {subs : List Subroutine}
    (h : sub ∈ subs) : ∃ sub' ∈ Roles.assign kind n subs, sub'.address = sub.address := by
  unfold Roles.assign
  split
  · rename_i n
    obtain ⟨m, hm⟩ := List.getElem?_of_mem h
    refine ⟨_, List.mem_of_getElem? (by rw [List.getElem?_modify, hm]; rfl), ?_⟩
    split <;> rfl
  · exact ⟨sub, h, rfl⟩

/-- No subroutine is lost when roles are given. -/
theorem exists_mem_apply {r : Roles} {subs : List Subroutine} (h : sub ∈ subs) :
    ∃ sub' ∈ r.apply subs, sub'.address = sub.address := by
  obtain ⟨sub₁, h₁, ha₁⟩ := exists_mem_assign .start r.start h
  obtain ⟨sub₂, h₂, ha₂⟩ := exists_mem_assign .global r.global h₁
  obtain ⟨sub₃, h₃, ha₃⟩ := exists_mem_assign .main r.main h₂
  exact ⟨sub₃, h₃, ha₃.trans (ha₂.trans ha₁)⟩

/-- What does not depend on kinds stays as it is, subroutine by subroutine. -/
theorem map_apply {β : Type} {f : Subroutine → β} (hf : ∀ sub kind, f { sub with kind } = f sub)
    (r : Roles) (subs : List Subroutine) : (r.apply subs).map f = subs.map f := by
  have hassign : ∀ kind n subs, (Roles.assign kind n subs).map f = subs.map f := by
    intro kind n subs
    unfold Roles.assign
    split
    · refine List.ext_getElem? fun m => ?_
      rw [List.getElem?_map, List.getElem?_map, List.getElem?_modify]
      cases subs[m]? with
      | none => rfl
      | some sub =>
        show some (f (if _ then _ else _)) = some (f sub)
        split
        · rw [hf]
        · rfl
    · rfl
  simp only [Roles.apply, hassign]

theorem mem_of_inRole {role : Option Nat} (h : s.inRole role = some sub) : sub ∈ s.subroutines := by
  obtain ⟨n, -, hn⟩ := Option.bind_eq_some_iff.mp h
  exact List.mem_of_getElem? hn

/-- The target of a stored continuation is an entry point. -/
theorem continuation_mem_rootsOf {i : LinkedInstruction} {a : Int} (hl : Linked code) (hi : i ∈ code)
    (hop : i.opcode = .storestate) (ha : i.target = some a) : a ∈ (rootsOf code).map Prod.fst := by
  obtain ⟨j, hj, htj⟩ := hl.target hi (by simp [hop, Opcode.branches])
  have hrank := hl.tagged hi hj (t := .state) (by rw [hop]; rfl) htj
  rw [ha] at htj
  cases htj
  have hroot : ∃ r, rootOf? j = some r := by
    unfold rootOf?
    cases htag : j.tag with
    | plain | label => simp [htag, Tag.rank] at hrank
    | state | subroutine => exact ⟨_, rfl⟩
  obtain ⟨r, hr⟩ := hroot
  cases code with
  | nil => cases hj
  | cons first rest =>
    rcases List.mem_cons.mp hj with rfl | hj
    · simp [rootsOf]
    · refine List.mem_map.mpr ⟨r, List.mem_cons_of_mem _ ?_, rootOf?_address hr⟩
      exact List.mem_filterMap.mpr ⟨j, hj, hr⟩

/-- The address and the blocks of a subroutine. -/
def extent (sub : Subroutine) : Int × List BlockId := (sub.address, sub.blocks)

/-- The blocks that belong to an address. -/
def ownedBy (g : Graph) (a : Int) : List BlockId := g.ids.filter fun b => (g.block b).owner == some a

/-- How a script lies over its code: the graph is the one discovered in it, with edges marked dead,
and the subroutines are its entry points. -/
structure Laid (s : Script) (l : Flow.Layout) (d : Flow.Discovery) : Prop where
  code : s.code = l.code
  roots : l.roots = (rootsOf l.code).map Prod.fst
  discovered : Flow.discover l = .ok d
  extents : s.subroutines.map extent = (Order.sortBy Prod.fst (rootsOf l.code)).map fun r =>
    (r.1, s.graph.byAddress (ownedBy (Flow.assemble l.code d) r.1))
  sound : l.Sound
  complete : Flow.Complete l d
  owned : Flow.RootsOwned l d
  decoded : ∀ i ∈ l.code, i.toInstruction.WellFormed
  continuations : ∀ i ∈ l.code, i.opcode = .storestate → ∀ a, i.target = some a → a ∈ l.roots
  marked : ∃ listed root, s.graph = ((Flow.assemble l.code d).markDead listed root).graph
  entries : ∀ sub ∈ s.subroutines, sub.entry = (Flow.assemble l.code d).ids.find? fun b =>
    (Flow.assemble l.code d).addressOf b == sub.address
  addresses : ∀ sub ∈ s.subroutines, sub.address ∈ l.roots
  rooted : ∀ a ∈ l.roots, ∃ sub ∈ s.subroutines, sub.address = a

theorem load_laid (h : load image = (events, .ok s)) :
    (s.graph.size = 0 ∧ s.subroutines = [] ∧ s.code = []) ∨ ∃ l d, s.Laid l d := by
  obtain ⟨size, code, events', hsize, hcode, hof⟩ := ofCode_of_load h
  have hl := linkedCode_linked hcode
  have hdecoded := linkedCode_decoded (declaredSize_eq_ok.mp hsize) hcode
  cases code with
  | nil =>
    cases hof
    exact .inl ⟨rfl, rfl, rfl⟩
  | cons i rest =>
    have hs := sound_rootsOf hl
    obtain ⟨d, hd, hc⟩ := Flow.discover_complete hs
    simp only [ofCode, Flow.build, hd, bind, Except.bind] at hof
    cases hof
    refine .inr ⟨_, d, rfl, rfl, hd, ?_, hs, hc, Flow.discover_rootsOwned hd, hdecoded,
      fun j hj hop a ha => continuation_mem_rootsOf hl hj hop ha, ⟨_, _, rfl⟩, fun sub hsub => ?_,
      fun sub hsub => ?_, fun a ha => ?_⟩
    · refine (map_apply (fun _ _ => rfl) _ _).trans ?_
      rw [List.map_map, List.map_map]
      rfl
    · obtain ⟨sub₁, hsub₁, ha, he⟩ := mem_apply hsub
      obtain ⟨sub₂, hsub₂, rfl⟩ := List.mem_map.mp hsub₁
      obtain ⟨root, -, rfl⟩ := List.mem_map.mp hsub₂
      rw [he, ha]
      rfl
    · obtain ⟨sub₁, hsub₁, ha, -⟩ := mem_apply hsub
      obtain ⟨sub₂, hsub₂, rfl⟩ := List.mem_map.mp hsub₁
      obtain ⟨root, hroot, rfl⟩ := List.mem_map.mp hsub₂
      rw [ha]
      exact List.mem_map_of_mem (Flow.mem_sortBy.mp hroot)
    · obtain ⟨root, hroot, rfl⟩ := List.mem_map.mp ha
      exact exists_mem_apply (List.mem_map_of_mem (List.mem_map_of_mem (Flow.mem_sortBy.mpr hroot)))

end

end ScriptFlow.Script
