import ScriptFlow.Proofs.Flow.Edges
import ScriptFlow.Script.Basic

/-! # Loaded scripts are linked code

The entry points of linked code are among its instructions, and every call leads to one of them, by
the tag that linking left there. So the search for blocks never fails on the code of an image. -/

namespace ScriptFlow.Script

section
variable {code : List LinkedInstruction} {i : LinkedInstruction}

theorem rootOf?_address {r : Int × SubroutineKind} (h : rootOf? i = some r) : r.1 = i.address := by
  unfold rootOf? at h
  split at h <;> cases h <;> rfl

theorem mem_rootsOf_address {r : Int × SubroutineKind} (h : r ∈ rootsOf code) :
    ∃ i ∈ code, i.address = r.1 := by
  cases code with
  | nil => cases h
  | cons j rest =>
    rcases List.mem_cons.mp h with rfl | hr
    · exact ⟨j, by simp, rfl⟩
    · obtain ⟨i, hi, hir⟩ := List.mem_filterMap.mp hr
      exact ⟨i, List.mem_cons_of_mem _ hi, (rootOf?_address hir).symm⟩

theorem tag_eq_subroutine {t : Tag} (h : Tag.subroutine.rank ≤ t.rank) : t = .subroutine := by
  cases t <;> simp [Tag.rank] at h ⊢

theorem address_mem_rootsOf (hi : i ∈ code) (ht : i.tag = .subroutine) :
    i.address ∈ (rootsOf code).map Prod.fst := by
  cases code with
  | nil => cases hi
  | cons j rest =>
    rcases List.mem_cons.mp hi with rfl | hm
    · simp [rootsOf]
    · refine List.mem_map.mpr ⟨(i.address, .plain), List.mem_cons_of_mem _ ?_, rfl⟩
      exact List.mem_filterMap.mpr ⟨i, hm, by simp [rootOf?, ht]⟩

theorem sound_rootsOf (hl : Linked code) : Flow.Layout.Sound ⟨code, (rootsOf code).map Prod.fst⟩ where
  linked := hl
  roots_known := by
    intro a ha
    obtain ⟨r, hr, rfl⟩ := List.mem_map.mp ha
    exact mem_rootsOf_address hr
  calls_known := by
    intro i a hi hop ht
    obtain ⟨j, hj, htj⟩ := hl.target hi (by simp [hop, Opcode.branches])
    have hrank := hl.tagged hi hj (t := .subroutine) (by rw [hop]; rfl) htj
    rw [ht] at htj
    cases htj
    exact address_mem_rootsOf hj (tag_eq_subroutine hrank)

end

section
variable {image : List UInt8} {size : Nat} {code : List LinkedInstruction}

theorem linkedCode_linked (h : linkedCode image size = .ok code) : Linked code := by
  simp only [linkedCode, bind, Except.bind] at h
  split at h
  · cases h
  · split at h
    · cases h
    · rename_i store hstore
      split at h
      · cases h
      · exact Code.link_linked (Code.ofList_ordered hstore) h

theorem ofCode_ok (size : Nat) (hl : Linked code) :
    ∃ s events, ofCode size code = .ok (s, events) ∧ s.code = code := by
  cases code with
  | nil => exact ⟨_, _, rfl, rfl⟩
  | cons i rest =>
    obtain ⟨built, -, hbuilt, -⟩ := Flow.build_complete (sound_rootsOf hl)
    simp only [ofCode, hbuilt, bind, Except.bind]
    exact ⟨_, _, rfl, rfl⟩

/-- Nothing can fail once the code is linked. -/
theorem load_of_linkedCode (hsize : declaredSize image = .ok size)
    (hcode : linkedCode image size = .ok code) :
    ∃ events s, load image = (events, .ok s) ∧ s.code = code := by
  obtain ⟨s, events, hof, hs⟩ := ofCode_ok size (linkedCode_linked hcode)
  simp only [load, hsize, hcode, hof]
  exact ⟨_, s, rfl, hs⟩

theorem load_linked {events : List Event} {s : Script} (h : load image = (events, .ok s)) :
    Linked s.code := by
  unfold load at h
  split at h
  · cases h
  · rename_i size _
    dsimp only at h
    split at h
    · cases h
    · rename_i code hcode
      have hl := linkedCode_linked hcode
      obtain ⟨t, events', hof, ht⟩ := ofCode_ok size hl
      rw [hof] at h
      cases h
      rwa [ht]

end

end ScriptFlow.Script
