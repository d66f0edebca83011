import ScriptFlow.Proofs.Code.Linked

/-! # Where tags come from

A tag is at least as strong as every branch to its instruction asks for. It is no stronger either: some
branch to the instruction asks for just this tag, unless there is none and the instruction is plain. -/

namespace ScriptFlow.Code

section
variable {tags : List Tag} {p : Nat} {new : Tag}

theorem join_eq_or (a b : Tag) : a.join b = a ∨ a.join b = b := by
  unfold Tag.join
  split
  · exact .inr rfl
  · exact .inl rfl

theorem markTarget_caused {b : Instruction × Option Nat} (h : (markTarget tags b)[p]? = some new) :
    tags[p]? = some new ∨ Tag.ofOpcode? b.1.opcode = some new ∧ b.2 = some p := by
  unfold markTarget mark at h
  split at h
  · rename_i t q ht hq
    rw [List.getElem?_modify] at h
    obtain ⟨old, hold, hnew⟩ := Option.map_eq_some_iff.mp h
    by_cases hqp : q = p
    · subst hqp
      simp only [if_true] at hnew
      rcases join_eq_or old t with hjoin | hjoin
      · exact .inl (by rw [hold, ← hnew, hjoin])
      · exact .inr ⟨by rw [ht, ← hnew, hjoin], hq⟩
    · simp only [hqp, if_false] at hnew
      exact .inl (by rw [hold, ← hnew])
  · exact .inl h

/-- Along the list of branches the last tag that changed at a position is the one left there. -/
theorem foldl_markTarget_caused {bs : List (Instruction × Option Nat)}
    (h : (bs.foldl markTarget tags)[p]? = some new) :
    tags[p]? = some new ∨ ∃ b ∈ bs, Tag.ofOpcode? b.1.opcode = some new ∧ b.2 = some p := by
  induction bs generalizing tags with
  | nil => exact .inl h
  | cons b bs ih =>
    rcases ih h with hmid | ⟨c, hc, hcause⟩
    · rcases markTarget_caused hmid with hold | hcause
      · exact .inl hold
      · exact .inr ⟨b, List.mem_cons_self, hcause⟩
    · exact .inr ⟨c, List.mem_cons_of_mem _ hc, hcause⟩

end

section
variable {store : Code} {code : List LinkedInstruction}

/-- The tag of a linked instruction is plain or what a branch to it asks for. -/
theorem link_caused (h : store.link = .ok code) {j : LinkedInstruction} (hj : j ∈ code)
    (htag : j.tag ≠ .plain) :
    ∃ i ∈ code, Tag.ofOpcode? i.opcode = some j.tag ∧ i.target = some j.address := by
  obtain ⟨q, hq⟩ := List.getElem?_of_mem hj
  have hjq := (link_at h hq).1
  simp only [link, bind, Except.bind] at h
  split at h
  · cases h
  · rename_i ts hts
    cases h
    obtain ⟨hlen, hat⟩ := resolveAll_ok hts
    have htags := foldl_markTarget_length (store.toList.zip ts) (store.toList.map fun _ => Tag.plain)
    rw [List.length_map] at htags
    -- the tag of `j` is the one that marking left at its position
    obtain ⟨hlt, -⟩ := List.getElem?_eq_some_iff.mp hjq
    have hnew := List.getElem?_eq_getElem (htags.symm ▸ hlt)
    obtain ⟨t, ht, -⟩ := hat q _ hjq
    have hlinked := zipLinks_getElem? (fun q => store.items[q]?.map Instruction.address) hjq ht hnew
    have hjtag := congrArg (Option.map LinkedInstruction.tag) (hlinked.symm.trans hq)
    rw [Option.map_some, Option.map_some, Option.some.injEq] at hjtag
    rcases foldl_markTarget_caused hnew with hplain | ⟨b, hb, hop, hbq⟩
    · rw [List.getElem?_map, hjq] at hplain
      exact absurd (hjtag.symm.trans (Option.some.inj hplain).symm) htag
    · obtain ⟨p, hp⟩ := List.getElem?_of_mem hb
      obtain ⟨hpi, hpt⟩ := List.getElem?_zip_eq_some.mp hp
      obtain ⟨hplt, -⟩ := List.getElem?_eq_some_iff.mp hpi
      have hi := zipLinks_getElem? (fun q => store.items[q]?.map Instruction.address) hpi hpt
        (List.getElem?_eq_getElem (htags.symm ▸ hplt))
      refine ⟨_, List.mem_of_getElem? hi, by rw [← hjtag]; exact hop, ?_⟩
      rw [toList, Array.getElem?_toList] at hjq
      simp [hbq, hjq]

end

end ScriptFlow.Code
