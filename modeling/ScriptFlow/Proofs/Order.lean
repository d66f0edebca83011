import ScriptFlow.Sequence
import Mathlib.Data.List.Sort

/-! # Sorting by a key

Sorting is insertion sort, so it only rearranges, and keys that differ come out in strictly increasing
order. What is found first in such an order is what has the least key, whatever order it came in. -/

namespace ScriptFlow.Order

variable {α : Type} {key : α → Int} {xs : List α}

theorem insertBy_eq (key : α → Int) (x : α) (xs : List α) :
    insertBy key x xs = xs.orderedInsert (fun x y => key x ≤ key y) x := by
  induction xs with
  | nil => rfl
  | cons y ys ih => rw [insertBy, List.orderedInsert, ih]

theorem sortBy_eq (key : α → Int) (xs : List α) :
    sortBy key xs = xs.insertionSort (fun x y => key x ≤ key y) := by
  induction xs with
  | nil => rfl
  | cons x xs ih => rw [sortBy, ih, insertBy_eq, List.insertionSort_cons]

theorem perm_sortBy (key : α → Int) (xs : List α) : (sortBy key xs).Perm xs := by
  rw [sortBy_eq]
  exact List.perm_insertionSort _ xs

theorem pairwise_sortBy (key : α → Int) (xs : List α) :
    (sortBy key xs).Pairwise fun x y => key x ≤ key y := by
  rw [sortBy_eq]
  have : Std.Total (fun x y : α => key x ≤ key y) := ⟨fun x y => Int.le_total _ _⟩
  have : IsTrans α (fun x y : α => key x ≤ key y) := ⟨fun _ _ _ => Int.le_trans⟩
  exact List.pairwise_insertionSort _ xs

theorem sortBy_strict (h : (xs.map key).Nodup) :
    (sortBy key xs).Pairwise fun x y => key x < key y := by
  have hdiff : (sortBy key xs).Pairwise fun x y => key x ≠ key y :=
    List.pairwise_map.mp (((perm_sortBy key xs).map key).nodup_iff.mpr h)
  exact ((pairwise_sortBy key xs).and hdiff).imp fun hxy => lt_of_le_of_ne hxy.1 hxy.2

/-! ## The least key -/

/-- Of the members with a property, one whose key is least. -/
def LeastWith (key : α → Int) (xs : List α) (P : α → Prop) (x : α) : Prop :=
  (x ∈ xs ∧ P x) ∧ ∀ y ∈ xs, P y → key x ≤ key y

section
variable {P : α → Prop} {x y : α}

theorem LeastWith.eq (h : (xs.map key).Nodup) (hx : LeastWith key xs P x)
    (hy : LeastWith key xs P y) : x = y := by
  refine List.inj_on_of_nodup_map h hx.1.1 hy.1.1 (Int.le_antisymm ?_ ?_)
  · exact hx.2 y hy.1.1 hy.1.2
  · exact hy.2 x hx.1.1 hx.1.2

theorem LeastWith.perm {ys : List α} (h : xs.Perm ys) :
    LeastWith key xs P x ↔ LeastWith key ys P x := by
  simp only [LeastWith, h.mem_iff]

theorem leastWith_cons_of_not (hx : ¬ P x) :
    LeastWith key (x :: xs) P y ↔ LeastWith key xs P y := by
  constructor
  · intro h
    obtain ⟨⟨hy, hPy⟩, hall⟩ := h
    rcases List.mem_cons.mp hy with rfl | hy
    · exact absurd hPy hx
    · exact ⟨⟨hy, hPy⟩, fun z hz => hall z (List.mem_cons_of_mem _ hz)⟩
  · intro h
    obtain ⟨⟨hy, hPy⟩, hall⟩ := h
    refine ⟨⟨List.mem_cons_of_mem _ hy, hPy⟩, fun z hz hPz => ?_⟩
    rcases List.mem_cons.mp hz with rfl | hz
    · exact absurd hPz hx
    · exact hall z hz hPz

/-- In front of a list in order stands the least member, if it has the property. -/
theorem leastWith_cons (h : (x :: xs).Pairwise fun x y => key x < key y) (hx : P x) :
    LeastWith key (x :: xs) P y ↔ y = x := by
  have hfirst := (List.pairwise_cons.mp h).1
  constructor
  · intro hleast
    obtain ⟨⟨hy, -⟩, hall⟩ := hleast
    rcases List.mem_cons.mp hy with rfl | hmem
    · rfl
    · have hle := hall x List.mem_cons_self hx
      have hlt := hfirst y hmem
      omega
  · rintro rfl
    refine ⟨⟨List.mem_cons_self, hx⟩, fun z hz _ => ?_⟩
    rcases List.mem_cons.mp hz with rfl | hmem
    · exact Int.le_refl _
    · exact Int.le_of_lt (hfirst z hmem)

end

theorem firstMin?_eq_none : firstMin? key xs = none ↔ xs = [] := by
  cases xs with
  | nil => simp [firstMin?]
  | cons x xs =>
    rw [firstMin?]
    split
    · simp
    · split <;> simp

theorem firstMin?_least {x : α} (h : firstMin? key xs = some x) :
    LeastWith key xs (fun _ => True) x := by
  induction xs generalizing x with
  | nil => cases h
  | cons y ys ih =>
    rw [firstMin?] at h
    split at h
    · rename_i hnone
      cases h
      rw [firstMin?_eq_none.mp hnone]
      simp [LeastWith]
    · rename_i z hz
      obtain ⟨⟨hmem, -⟩, hall⟩ := ih hz
      split at h
      · rename_i hle
        cases h
        refine ⟨⟨List.mem_cons_self, trivial⟩, fun w hw _ => ?_⟩
        rcases List.mem_cons.mp hw with rfl | hw
        · exact Int.le_refl _
        · exact Int.le_trans hle (hall w hw trivial)
      · rename_i hlt
        cases h
        refine ⟨⟨List.mem_cons_of_mem _ hmem, trivial⟩, fun w hw _ => ?_⟩
        rcases List.mem_cons.mp hw with rfl | hw
        · omega
        · exact hall w hw trivial

theorem firstMin?_eq_some (h : (xs.map key).Nodup) {x : α} :
    firstMin? key xs = some x ↔ LeastWith key xs (fun _ => True) x := by
  constructor
  · exact firstMin?_least
  · intro hx
    cases hmin : firstMin? key xs with
    | none => rw [firstMin?_eq_none.mp hmin] at hx; cases hx.1.1
    | some y => rw [hx.eq h (firstMin?_least hmin)]

section
variable {p : α → Bool} {x y : α}

theorem find?_eq_some (h : xs.Pairwise fun x y => key x < key y) :
    xs.find? p = some y ↔ LeastWith key xs (fun x => p x = true) y := by
  induction xs with
  | nil => simp [LeastWith]
  | cons x xs ih =>
    by_cases hx : p x = true
    · rw [List.find?_cons_of_pos hx, leastWith_cons h hx, Option.some.injEq, eq_comm]
    · rw [List.find?_cons_of_neg hx, leastWith_cons_of_not (x := x) hx, ih h.tail]

theorem find?_sortBy (h : (xs.map key).Nodup) :
    (sortBy key xs).find? p = some y ↔ LeastWith key xs (fun x => p x = true) y :=
  (find?_eq_some (sortBy_strict h)).trans (LeastWith.perm (perm_sortBy key xs))

/-- Of a list in order, the first two left are the least that is not dropped and the least behind
it. -/
theorem dropWhile_eq_cons_cons (h : xs.Pairwise fun x y => key x < key y) :
    (∃ rest, xs.dropWhile p = x :: y :: rest) ↔ LeastWith key xs (fun z => ¬ p z = true) x ∧
      LeastWith key xs (fun z => key x < key z) y := by
  induction xs with
  | nil => simp [LeastWith]
  | cons z zs ih =>
    have hfirst := (List.pairwise_cons.mp h).1
    by_cases hz : p z = true
    · rw [List.dropWhile_cons_of_pos hz, ih h.tail, leastWith_cons_of_not (x := z) (not_not.mpr hz)]
      refine and_congr_right fun hx => (leastWith_cons_of_not ?_).symm
      have hlt := hfirst x hx.1.1
      omega
    · rw [List.dropWhile_cons_of_neg hz, leastWith_cons h hz]
      constructor
      · intro hdrop
        obtain ⟨rest, hcons⟩ := hdrop
        obtain ⟨rfl, rfl⟩ := List.cons.inj hcons
        refine ⟨rfl, (leastWith_cons_of_not (x := z) (Int.lt_irrefl _)).mpr ?_⟩
        exact (leastWith_cons h.tail (hfirst y List.mem_cons_self)).mpr rfl
      · intro hleast
        obtain ⟨rfl, hy⟩ := hleast
        rw [leastWith_cons_of_not (x := x) (Int.lt_irrefl _)] at hy
        cases zs with
        | nil => cases hy.1.1
        | cons w ws =>
          rw [leastWith_cons h.tail (hfirst w List.mem_cons_self)] at hy
          exact ⟨ws, by rw [hy]⟩

end

end ScriptFlow.Order
