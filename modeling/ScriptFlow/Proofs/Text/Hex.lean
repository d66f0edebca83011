import ScriptFlow.Text.Hex
import Mathlib.Data.List.Basic

/-! # Hexadecimal texts

A number can be read back from its hexadecimal digits, whatever zeros stand in front of them, so
different addresses have different texts. No other character than a digit or a minus sign occurs in
one, so an address can be told from what is written behind it. -/

namespace ScriptFlow.Text

/-- The value of an upper-case hexadecimal digit. -/
def hexDigit (c : Char) : Nat := if c.toNat ≤ '9'.toNat then c.toNat - '0'.toNat else c.toNat - 55

/-- The number that hexadecimal digits spell. -/
def hexValue (cs : List Char) : Nat := cs.foldl (fun n c => 16 * n + hexDigit c) 0

/-- A character of a hexadecimal text. -/
def isHex (c : Char) : Bool := c ∈ "-0123456789ABCDEF".toList

theorem digitChar_spec : ∀ d < 16, hexDigit (Nat.digitChar d).toUpper = d ∧
    isHex (Nat.digitChar d).toUpper = true ∧ (Nat.digitChar d).toUpper ≠ '-' := by
  decide

theorem hexValue_concat (cs : List Char) (c : Char) :
    hexValue (cs ++ [c]) = 16 * hexValue cs + hexDigit c := by
  simp [hexValue]

theorem toDigits_spec (n : Nat) : hexValue ((Nat.toDigits 16 n).map Char.toUpper) = n ∧
    ∀ c ∈ (Nat.toDigits 16 n).map Char.toUpper, isHex c = true ∧ c ≠ '-' := by
  induction n using Nat.strongRecOn with
  | _ n ih =>
    by_cases hn : n < 16
    · obtain ⟨hvalue, hhex⟩ := digitChar_spec n hn
      rw [Nat.toDigits_of_lt_base hn]
      refine ⟨by simpa [hexValue] using hvalue, fun c hc => ?_⟩
      rw [List.map_singleton, List.mem_singleton] at hc
      exact hc ▸ hhex
    · obtain ⟨hvalue, hhex⟩ := ih (n / 16) (by omega)
      obtain ⟨hlast, hlasthex⟩ := digitChar_spec (n % 16) (by omega)
      rw [Nat.toDigits_of_base_le (by omega) (by omega), List.map_append, List.map_singleton]
      refine ⟨?_, fun c hc => ?_⟩
      · rw [hexValue_concat, hvalue, hlast]
        omega
      · rcases List.mem_append.mp hc with hc | hc
        · exact hhex c hc
        · exact List.mem_singleton.mp hc ▸ hlasthex

theorem hexValue_padLeft (width : Nat) (cs : List Char) :
    hexValue (padLeft width '0' cs) = hexValue cs := by
  unfold padLeft
  generalize width - cs.length = k
  induction k with
  | zero => rfl
  | succ k ih =>
    rw [List.replicate_succ, List.cons_append]
    exact ih

theorem mem_padLeft {width : Nat} {cs : List Char} {c : Char} (h : c ∈ padLeft width '0' cs) :
    c = '0' ∨ c ∈ cs :=
  (List.mem_append.mp h).imp List.eq_of_mem_replicate id

theorem padLeft_spec (width n : Nat) :
    hexValue (padLeft width '0' ((Nat.toDigits 16 n).map Char.toUpper)) = n ∧
      ∀ c ∈ padLeft width '0' ((Nat.toDigits 16 n).map Char.toUpper), isHex c = true ∧ c ≠ '-' := by
  refine ⟨(hexValue_padLeft _ _).trans (toDigits_spec n).1, fun c hc => ?_⟩
  rcases mem_padLeft hc with rfl | hc
  · decide
  · exact (toDigits_spec n).2 c hc

theorem isHex_of_mem_upperHex {width : Nat} {a : Int} {c : Char}
    (h : c ∈ (upperHex width a).toList) : isHex c = true := by
  cases a with
  | ofNat n =>
    simp only [upperHex, String.toList_ofList] at h
    exact ((padLeft_spec width n).2 c h).1
  | negSucc n =>
    simp only [upperHex, String.toList_ofList] at h
    rcases List.mem_cons.mp h with rfl | h
    · decide
    · exact ((padLeft_spec (width - 1) (n + 1)).2 c h).1

theorem upperHex_injective {width : Nat} {a b : Int} (h : upperHex width a = upperHex width b) :
    a = b := by
  have hlist := congrArg String.toList h
  -- a minus sign is no digit, so it tells the two kinds apart
  have mixed : ∀ (n : Nat) (cs : List Char),
      padLeft width '0' ((Nat.toDigits 16 n).map Char.toUpper) ≠ '-' :: cs := by
    intro n cs heq
    exact ((padLeft_spec width n).2 '-' (by rw [heq]; simp)).2 rfl
  cases a with
  | ofNat n =>
    cases b with
    | ofNat m =>
      simp only [upperHex, String.toList_ofList] at hlist
      have hvalue := congrArg hexValue hlist
      rw [(padLeft_spec width n).1, (padLeft_spec width m).1] at hvalue
      rw [hvalue]
    | negSucc m =>
      simp only [upperHex, String.toList_ofList] at hlist
      exact absurd hlist (mixed n _)
  | negSucc n =>
    cases b with
    | ofNat m =>
      simp only [upperHex, String.toList_ofList] at hlist
      exact absurd hlist.symm (mixed m _)
    | negSucc m =>
      simp only [upperHex, String.toList_ofList, List.cons.injEq, true_and] at hlist
      have hvalue := congrArg hexValue hlist
      rw [(padLeft_spec (width - 1) (n + 1)).1, (padLeft_spec (width - 1) (m + 1)).1] at hvalue
      rw [Nat.succ.inj hvalue]

/-- An address is told by the text that starts with it, if no digit stands behind it. -/
theorem upperHex_append_injective {width : Nat} {a b : Int} {xs ys : List Char}
    (hx : ∀ c, xs.head? = some c → isHex c = false) (hy : ∀ c, ys.head? = some c → isHex c = false)
    (h : (upperHex width a).toList ++ xs = (upperHex width b).toList ++ ys) : a = b := by
  have digits : ∀ (a : Int) (zs : List Char), (∀ c, zs.head? = some c → isHex c = false) →
      ((upperHex width a).toList ++ zs).takeWhile isHex = (upperHex width a).toList := by
    intro a zs hz
    rw [List.takeWhile_append_of_pos (fun c hc => isHex_of_mem_upperHex hc)]
    cases zs with
    | nil => simp
    | cons c zs => rw [List.takeWhile_cons_of_neg (by simp [hz c rfl]), List.append_nil]
  have htake := congrArg (List.takeWhile isHex) h
  rw [digits a xs hx, digits b ys hy] at htake
  exact upperHex_injective (String.ext htake)

end ScriptFlow.Text
