import ScriptFlow.Proofs.Code.Linkable

/-! # The store as a map from addresses

Instructions are offered to a new store one after the other. It takes those whose address is above all
that it was offered before, and the others leave it as it was. What it finds by binary search is then
what the map finds that sends the address of each instruction taken to this instruction. -/

namespace ScriptFlow.Code

/-- The store after an attempt to append. One that is refused leaves it as it was. -/
def offer (code : Code) (i : Instruction) : Code :=
  match code.append i with
  | .ok next => next
  | .error _ => code

/-- A new store after attempts to append. -/
def offered (attempts : List Instruction) : Code := attempts.foldl offer {}

/-- The attempts that succeed behind those of the past: each is above all that came before it, whether
these succeeded or not. -/
def takenAfter (past : List Instruction) : List Instruction → List Instruction
  | [] => []
  | i :: rest =>
    if ∀ j ∈ past, j.address < i.address then i :: takenAfter (i :: past) rest
    else takenAfter (i :: past) rest

/-- The attempts that succeed on a new store. -/
def taken (attempts : List Instruction) : List Instruction := takenAfter [] attempts

/-- The address of the instruction is not above that of the last one stored. -/
def Behind (stored : List Instruction) (i : Instruction) : Prop :=
  ∃ last, stored.getLast? = some last ∧ i.address ≤ last.address

/-- The store holds the instructions in increasing address order, and finds each of them by its address
and nothing else. -/
structure Maps (code : Code) (stored : List Instruction) : Prop where
  held : code.toList = stored
  increasing : stored.Pairwise fun i j => i.address < j.address
  located : ∀ a p, code.locate? a = some p ↔ ∃ i, stored[p]? = some i ∧ i.address = a
  found : ∀ a i, code.find? a = some i ↔ i ∈ stored ∧ i.address = a
  missed : ∀ a, (∀ i ∈ stored, i.address ≠ a) → code.locate? a = none ∧ code.find? a = none

section
variable {code : Code} {past : List Instruction} {i : Instruction} {a : Int} {p : Nat}

/-! ## Looking up -/

theorem getElem?_toList : code.toList[p]? = code.items[p]? := by
  rw [toList, Array.getElem?_toList]

theorem locate?_eq_some (ho : code.Ordered) :
    code.locate? a = some p ↔ ∃ i, code.toList[p]? = some i ∧ i.address = a := by
  simp only [getElem?_toList]
  constructor
  · exact locate?_sound
  · rintro ⟨i, hi, ha⟩
    exact locate?_complete ho hi ha

theorem find?_eq_some (ho : code.Ordered) :
    code.find? a = some i ↔ i ∈ code.toList ∧ i.address = a := by
  simp only [find?, Option.bind_eq_some_iff, locate?_eq_some ho, getElem?_toList]
  constructor
  · rintro ⟨p, ⟨j, hj, ha⟩, hi⟩
    obtain rfl : j = i := Option.some.inj (hj.symm.trans hi)
    exact ⟨List.mem_of_getElem? (getElem?_toList.trans hj), ha⟩
  · rintro ⟨hi, ha⟩
    obtain ⟨p, hp⟩ := List.getElem?_of_mem hi
    rw [getElem?_toList] at hp
    exact ⟨p, ⟨i, hp, ha⟩, hp⟩

theorem Ordered.maps (ho : code.Ordered) : Maps code code.toList where
  held := rfl
  increasing := ho
  located _ _ := locate?_eq_some ho
  found _ _ := find?_eq_some ho
  missed a habsent := by
    have hlocate : code.locate? a = none := by
      rw [Option.eq_none_iff_forall_ne_some]
      intro p hp
      obtain ⟨i, hi, ha⟩ := (locate?_eq_some ho).mp hp
      exact habsent i (List.mem_of_getElem? hi) ha
    exact ⟨hlocate, by rw [find?, hlocate]; rfl⟩

/-! ## One attempt -/

theorem append_eq_error (h : Behind code.toList i) : code.append i = .error (.outOfOrder i.address) := by
  obtain ⟨last, hlast, hle⟩ := h
  rw [toList, Array.getLast?_toList] at hlast
  rw [append, hlast]
  exact if_pos hle

theorem append_eq_ok (h : ¬ Behind code.toList i) : code.append i = .ok ⟨code.items.push i⟩ := by
  unfold append
  split
  · rename_i last hlast
    refine if_neg fun hle => h ⟨last, ?_, hle⟩
    rwa [toList, Array.getLast?_toList]
  · rfl

theorem offer_of_behind (h : Behind code.toList i) : code.offer i = code := by
  rw [offer, append_eq_error h]

theorem append_eq_offer (h : ¬ Behind code.toList i) : code.append i = .ok (code.offer i) := by
  rw [offer, append_eq_ok h]

theorem toList_offer (h : ¬ Behind code.toList i) : (code.offer i).toList = code.toList ++ [i] := by
  exact (append_ok (append_eq_offer h)).1

theorem Ordered.offer (ho : code.Ordered) (i : Instruction) : (code.offer i).Ordered := by
  by_cases h : Behind code.toList i
  · rwa [offer_of_behind h]
  · exact append_ordered ho (append_eq_offer h)

/-- The last address is the highest. -/
theorem Ordered.not_behind_iff (ho : code.Ordered) :
    ¬ Behind code.toList i ↔ ∀ j ∈ code.toList, j.address < i.address := by
  constructor
  · intro h j hj
    have hordered := append_ordered ho (append_eq_offer h)
    rw [Ordered, toList_offer h] at hordered
    exact (List.pairwise_append.mp hordered).2.2 j hj i List.mem_cons_self
  · rintro h ⟨last, hlast, hle⟩
    have hlt := h last (List.mem_of_getLast? hlast)
    omega

/-! ## A history of attempts -/

/-- An address is above all that was attempted exactly if it is above all that is stored. -/
def Tops (code : Code) (past : List Instruction) : Prop :=
  ∀ a, (∀ j ∈ past, j.address < a) ↔ ∀ j ∈ code.toList, j.address < a

theorem Tops.offer_taken (ht : code.Tops past) (ho : code.Ordered)
    (h : ∀ j ∈ past, j.address < i.address) :
    (code.offer i).toList = code.toList ++ [i] ∧ (code.offer i).Tops (i :: past) := by
  have hlist := toList_offer (ho.not_behind_iff.mpr ((ht _).mp h))
  refine ⟨hlist, fun a => ?_⟩
  rw [List.forall_mem_cons, ht a, hlist, List.forall_mem_append, List.forall_mem_singleton, and_comm]

theorem Tops.offer_refused (ht : code.Tops past) (ho : code.Ordered)
    (h : ¬ ∀ j ∈ past, j.address < i.address) :
    code.offer i = code ∧ code.Tops (i :: past) := by
  have hbehind : Behind code.toList i := by
    by_contra hnot
    exact h ((ht _).mpr (ho.not_behind_iff.mp hnot))
  refine ⟨offer_of_behind hbehind, fun a => ?_⟩
  rw [List.forall_mem_cons, ht a]
  refine and_iff_right_of_imp fun hall => ?_
  -- the last one stored is between the refused address and whatever is above all stored
  obtain ⟨last, hlast, hle⟩ := hbehind
  have hlt := hall last (List.mem_of_getLast? hlast)
  omega

/-- After a history the store holds what was in it before and then what was taken. -/
theorem foldl_offer (attempts : List Instruction) (ht : code.Tops past) (ho : code.Ordered) :
    (attempts.foldl offer code).Ordered ∧
      (attempts.foldl offer code).toList = code.toList ++ takenAfter past attempts := by
  induction attempts generalizing code past with
  | nil => exact ⟨ho, (List.append_nil _).symm⟩
  | cons i rest ih =>
    rw [List.foldl_cons, takenAfter]
    by_cases h : ∀ j ∈ past, j.address < i.address
    · obtain ⟨hlist, htops⟩ := ht.offer_taken ho h
      obtain ⟨hordered, hheld⟩ := ih htops (ho.offer i)
      rw [if_pos h, hheld, hlist, List.append_assoc]
      exact ⟨hordered, rfl⟩
    · obtain ⟨hsame, htops⟩ := ht.offer_refused ho h
      rw [if_neg h, hsame]
      exact ih htops ho

theorem offered_maps (attempts : List Instruction) : Maps (offered attempts) (taken attempts) := by
  have hempty : Ordered {} := List.Pairwise.nil
  have htops : Tops {} [] := fun a => Iff.rfl
  obtain ⟨hordered, hheld⟩ := foldl_offer attempts htops hempty
  have hmaps := Ordered.maps hordered
  rwa [hheld] at hmaps

theorem offered_concat (attempts : List Instruction) (i : Instruction) :
    offered (attempts ++ [i]) = (offered attempts).offer i := by
  rw [offered, List.foldl_append]
  rfl

/-- What is found after one more instruction is stored: itself at its address, all else as before. -/
theorem Maps.find?_update {next : Code} {stored : List Instruction} (h : Maps code stored)
    (hnext : Maps next (stored ++ [i])) :
    next.find? = Function.update code.find? i.address (some i) := by
  funext a
  refine Option.ext fun j => ?_
  rw [hnext.found, List.mem_append, List.mem_singleton]
  by_cases ha : a = i.address
  · subst ha
    rw [Function.update_self, Option.some.injEq]
    constructor
    · rintro ⟨hj | rfl, ha⟩
      · have hlt := (List.pairwise_append.mp hnext.increasing).2.2 j hj i List.mem_cons_self
        omega
      · rfl
    · rintro rfl
      exact ⟨.inr rfl, rfl⟩
  · rw [Function.update_of_ne ha, h.found]
    constructor
    · rintro ⟨hj | rfl, hja⟩
      · exact ⟨hj, hja⟩
      · exact absurd hja.symm ha
    · exact fun hj => ⟨.inl hj.1, hj.2⟩

end

/-- After any history of attempts to append, the store is a map from the addresses of those that
succeeded. One more attempt is refused exactly if its address is not above the last, which changes
nothing, or it sets its address in the map and leaves all others as they were. -/
theorem offered_refines_map (attempts : List Instruction) :
    Maps (offered attempts) (taken attempts) ∧ ∀ i : Instruction,
      (Behind (taken attempts) i →
        (offered attempts).append i = .error (.outOfOrder i.address) ∧
        offered (attempts ++ [i]) = offered attempts ∧ taken (attempts ++ [i]) = taken attempts) ∧
      (¬ Behind (taken attempts) i →
        (offered attempts).append i = .ok (offered (attempts ++ [i])) ∧
        taken (attempts ++ [i]) = taken attempts ++ [i] ∧
        (offered (attempts ++ [i])).find? =
          Function.update (offered attempts).find? i.address (some i)) := by
  have hmaps := offered_maps attempts
  refine ⟨hmaps, fun i => ?_⟩
  have hnext := offered_maps (attempts ++ [i])
  constructor
  · intro hbehind
    rw [← hmaps.held] at hbehind
    have hsame : offered (attempts ++ [i]) = offered attempts := by
      rw [offered_concat, offer_of_behind hbehind]
    exact ⟨append_eq_error hbehind, hsame, by rw [← hnext.held, hsame, hmaps.held]⟩
  · intro hbehind
    rw [← hmaps.held] at hbehind
    have htaken : taken (attempts ++ [i]) = taken attempts ++ [i] := by
      rw [← hnext.held, offered_concat, toList_offer hbehind, hmaps.held]
    refine ⟨by rw [offered_concat, append_eq_offer hbehind], htaken, ?_⟩
    exact hmaps.find?_update (htaken ▸ hnext)

/-- Two of the attempts come too late: one for an address that is taken, one for an address below. -/
def lateAttempts : List Instruction :=
  [{ address := 13, opcode := .nop, type := 0, size := 2 },
    { address := 19, opcode := .retn, type := 0, size := 2 },
    { address := 19, opcode := .nop, type := 0, size := 2 },
    { address := 15, opcode := .nop, type := 0, size := 2 },
    { address := 40, opcode := .retn, type := 0, size := 2 }]

theorem lateAttempts_refine_map :
    let late : Instruction := { address := 40, opcode := .nop, type := 0, size := 2 }
    let next : Instruction := { address := 41, opcode := .nop, type := 0, size := 2 }
    (taken lateAttempts).map Instruction.address = [13, 19, 40] ∧
      (offered lateAttempts).locate? 40 = some 2 ∧
      (∃ i, (offered lateAttempts).find? 19 = some i ∧ i.opcode = .retn) ∧
      (offered lateAttempts).find? 15 = none ∧
      (Behind (taken lateAttempts) late ∧
        offered (lateAttempts ++ [late]) = offered lateAttempts) ∧
      ¬ Behind (taken lateAttempts) next ∧
      (offered lateAttempts).append next = .ok (offered (lateAttempts ++ [next])) := by
  obtain ⟨hmaps, hstep⟩ := offered_refines_map lateAttempts
  have hlast : (taken lateAttempts).getLast? =
      some { address := 40, opcode := .retn, type := 0, size := 2 } := by decide
  have hlate : Behind (taken lateAttempts) { address := 40, opcode := .nop, type := 0, size := 2 } :=
    ⟨_, hlast, by decide⟩
  have hnext : ¬ Behind (taken lateAttempts)
      { address := 41, opcode := .nop, type := 0, size := 2 } := by
    rintro ⟨last, hsome, hle⟩
    obtain rfl := Option.some.inj (hlast.symm.trans hsome)
    exact absurd hle (by decide)
  have hfound : (offered lateAttempts).find? 19 =
      some { address := 19, opcode := .retn, type := 0, size := 2 } :=
    (hmaps.found 19 _).mpr ⟨by decide, rfl⟩
  exact ⟨by decide, (hmaps.located 40 2).mpr ⟨_, rfl, rfl⟩, ⟨_, hfound, rfl⟩,
    (hmaps.missed 15 (by decide)).2, ⟨hlate, ((hstep _).1 hlate).2.1⟩, hnext, ((hstep _).2 hnext).1⟩

end ScriptFlow.Code
