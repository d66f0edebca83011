import ScriptFlow.Proofs.Engine.Entries
import Mathlib.Algebra.Group.Nat.Defs

/-! # Signature documents as tables

A document is read by reading its entries in order and putting their signatures into a table, one over
the other. So it is read exactly if every entry is, the last entry for a number counts however its key
is spelled, the first entry that is refused decides the error, and fields that are no entries do not
matter at all. -/

namespace ScriptFlow

namespace Engine

namespace Entry

/-- Of the entries whose keys read as the number, the last describes the signature. -/
def LastFor (entries : List Entry) (n : Int) (s : Signature) : Prop :=
  ∃ front e back, entries = front ++ e :: back ∧ e.Describes s ∧ e.Reads n ∧
    ∀ later ∈ back, ¬ later.Reads n

/-- The first of the entries that cannot be read is refused with the error. -/
def FirstRefused (entries : List Entry) (err : TableError) : Prop :=
  ∃ front e back, entries = front ++ e :: back ∧ (∀ earlier ∈ front, ∃ s, earlier.Describes s) ∧
    e.Refuses err

section
variable {e : Entry} {entries : List Entry} {n : Int} {s : Signature}

theorem lastFor_cons : LastFor (e :: entries) n s ↔
    LastFor entries n s ∨ e.Describes s ∧ e.Reads n ∧ ∀ later ∈ entries, ¬ later.Reads n := by
  constructor
  · rintro ⟨front, f, back, hsplit, hf⟩
    cases front with
    | nil =>
      cases hsplit
      exact .inr hf
    | cons g front =>
      cases hsplit
      exact .inl ⟨front, f, back, rfl, hf⟩
  · rintro (⟨front, f, back, rfl, hf⟩ | hlast)
    · exact ⟨e :: front, f, back, rfl, hf⟩
    · exact ⟨[], e, entries, rfl, hlast⟩

theorem exists_lastFor_iff (h : ∀ e ∈ entries, ∃ s, e.Describes s) :
    (∃ s, LastFor entries n s) ↔ ∃ e ∈ entries, e.Reads n := by
  constructor
  · rintro ⟨s, front, e, back, rfl, -, hreads, -⟩
    exact ⟨e, by simp, hreads⟩
  · intro hreads
    induction entries with
    | nil => simp at hreads
    | cons e entries ih =>
      obtain ⟨⟨s, hs⟩, hrest⟩ := List.forall_mem_cons.mp h
      by_cases hlater : ∃ later ∈ entries, later.Reads n
      · obtain ⟨s', hs'⟩ := ih hrest hlater
        exact ⟨s', lastFor_cons.mpr (.inl hs')⟩
      · have hnone : ∀ later ∈ entries, ¬ later.Reads n := fun later hmem hn =>
          hlater ⟨later, hmem, hn⟩
        have he : e.Reads n := by
          obtain ⟨f, hmem, hf⟩ := hreads
          rcases List.mem_cons.mp hmem with rfl | hmem
          · exact hf
          · exact absurd hf (hnone f hmem)
        exact ⟨s, lastFor_cons.mpr (.inr ⟨hs, he, hnone⟩)⟩

end

end Entry

namespace Table

/-- Put a signature into the table, under its own number. -/
def put (t : Table) (s : Signature) : Table := t.insert s.routine s

section
variable {t : Table} {n m : Int} {s : Signature} {fields : List (Text × Json)} {err : TableError}

/-! ## Looking up -/

theorem find?_insert : (t.insert n s).find? m = if m = n then some s else t.find? m := by
  unfold insert find?
  by_cases hany : (t.entries.any fun e => e.1 == n) = true
  · -- the number keeps its place, and what stands there is replaced
    have hkeys : (fun e : Int × Signature => e.1 == m) ∘
        (fun e => if e.1 = n then (n, s) else e) = fun e => e.1 == m := by
      funext e
      by_cases he : e.1 = n <;> simp [he]
    rw [if_pos hany, List.find?_map, hkeys]
    cases hfound : t.entries.find? fun e => e.1 == m with
    | none =>
      have hmn : m ≠ n := by
        rintro rfl
        obtain ⟨e, he, hem⟩ := List.any_eq_true.mp hany
        exact List.find?_eq_none.mp hfound e he hem
      rw [if_neg hmn]
      rfl
    | some e =>
      have hem : e.1 = m := by simpa using List.find?_some hfound
      by_cases hmn : m = n <;> simp [hem, hmn]
  · have hnone : (t.entries.find? fun e => e.1 == n) = none :=
      List.find?_eq_none.mpr fun e he hen => hany (List.any_eq_true.mpr ⟨e, he, hen⟩)
    rw [if_neg hany, List.find?_append]
    by_cases hmn : m = n
    · subst hmn
      simp [hnone]
    · have hlast : ([(n, s)].find? fun e => e.1 == m) = none := by simp [Ne.symm hmn]
      rw [if_neg hmn, hlast, Option.or_none]

/-- After signatures are put in, the last one for a number is found, or else what was there before. -/
theorem find?_foldl_put {entries : List Entry} {ss : List Signature}
    (h : List.Forall₂ Entry.Describes entries ss) : (ss.foldl put t).find? n = some s ↔
      Entry.LastFor entries n s ∨ (∀ e ∈ entries, ¬ e.Reads n) ∧ t.find? n = some s := by
  induction h generalizing t with
  | nil => simp [Entry.LastFor]
  | @cons e first entries ss hfirst _ ih =>
    have hdescribes : e.Describes s ↔ first = s :=
      ⟨hfirst.unique, fun heq => heq ▸ hfirst⟩
    rw [List.foldl_cons, ih, put, find?_insert, Entry.lastFor_cons, List.forall_mem_cons,
      hfirst.reads_iff, hdescribes]
    by_cases hn : n = first.routine
    · rw [if_pos hn, Option.some.injEq]
      have := hn.symm
      tauto
    · rw [if_neg hn]
      have := Ne.symm hn
      tauto

/-! ## Reading a document -/

theorem addField_eq (t : Table) (field : Text × Json) : t.addField field =
    match Entry.ofField? field with
    | some e => e.signature >>= fun s => .ok (t.put s)
    | none => .ok t := by
  obtain ⟨key, value⟩ := field
  cases value with
  | object inner =>
    show (routineOfKey key >>= fun n => Signature.ofFields n inner >>= fun s => .ok (t.insert n s)) =
      (Entry.mk key inner).signature >>= fun s => .ok (t.put s)
    cases hsignature : (Entry.mk key inner).signature with
    | error err =>
      rcases bind_eq_error.mp hsignature with hkey | ⟨n, hkey, hfields⟩
      · exact bind_eq_error.mpr (.inl hkey)
      · exact bind_eq_error.mpr (.inr ⟨n, hkey, bind_eq_error.mpr (.inl hfields)⟩)
    | ok s =>
      obtain ⟨n, hkey, hfields⟩ := bind_eq_ok.mp hsignature
      have hn : n = s.routine :=
        Except.ok.inj (hkey.symm.trans (Entry.signature_eq_ok.mp hsignature).routine)
      subst hn
      exact bind_eq_ok.mpr ⟨_, hkey, bind_eq_ok.mpr ⟨s, hfields, rfl⟩⟩
  | _ => rfl

/-- The entries are read first and put into the table then. -/
theorem foldlM_addField (t : Table) (fields : List (Text × Json)) : fields.foldlM addField t =
    (Entry.all fields).mapM Entry.signature >>= fun ss => .ok (ss.foldl put t) := by
  induction fields generalizing t with
  | nil => rfl
  | cons field fields ih =>
    rw [List.foldlM_cons, addField_eq, Entry.all, List.filterMap_cons]
    cases Entry.ofField? field with
    | none => exact ih t
    | some e =>
      dsimp only
      rw [List.mapM_cons]
      cases e.signature with
      | error err => rfl
      | ok s =>
        show fields.foldlM addField (t.put s) = _
        rw [ih, ← Entry.all]
        cases (Entry.all fields).mapM Entry.signature <;> rfl

theorem ofJson_eq (fields : List (Text × Json)) : ofJson (.object fields) =
    (Entry.all fields).mapM Entry.signature >>= fun ss => .ok (ss.foldl put {}) :=
  foldlM_addField {} fields

theorem ofJson_eq_ok : ofJson (.object fields) = .ok t ↔
    ∃ ss, List.Forall₂ Entry.Describes (Entry.all fields) ss ∧ ss.foldl put {} = t := by
  simp only [ofJson_eq, bind_eq_ok, mapM_eq_ok, Entry.signature_eq_ok, Except.ok.injEq]

theorem ofJson_succeeds :
    (∃ t, ofJson (.object fields) = .ok t) ↔ ∀ e ∈ Entry.all fields, ∃ s, e.Describes s := by
  simp only [← Entry.signature_eq_ok, ← mapM_succeeds, ofJson_eq, bind_eq_ok]
  constructor
  · rintro ⟨t, ss, hss, -⟩
    exact ⟨ss, hss⟩
  · rintro ⟨ss, hss⟩
    exact ⟨_, ss, hss, rfl⟩

theorem ofJson_eq_error :
    ofJson (.object fields) = .error err ↔ Entry.FirstRefused (Entry.all fields) err := by
  rw [ofJson_eq, bind_eq_error, mapM_eq_error]
  simp only [Entry.signature_eq_ok, Entry.signature_eq_error, reduceCtorEq, and_false, exists_false,
    or_false]
  rfl

theorem find?_ofJson (h : ofJson (.object fields) = .ok t) :
    t.find? n = some s ↔ Entry.LastFor (Entry.all fields) n s := by
  obtain ⟨ss, hss, rfl⟩ := ofJson_eq_ok.mp h
  rw [find?_foldl_put hss]
  simp [find?]

/-- A document gives a table exactly if all its entries can be read and named. The table has a signature
for the numbers that keys read as, each from the last entry with such a key; fields that are no entries
change nothing; and of entries that cannot be read the first decides the error. -/
theorem ofJson_folds (fields : List (Text × Json)) :
    ((∃ t, ofJson (.object fields) = .ok t) ↔ ∀ e ∈ Entry.all fields, e.Legible ∧ e.Nameable) ∧
    (∀ t, ofJson (.object fields) = .ok t → ∀ n,
      ((∃ s, t.find? n = some s) ↔ ∃ e ∈ Entry.all fields, e.Reads n) ∧
      ∀ s, t.find? n = some s ↔ Entry.LastFor (Entry.all fields) n s) ∧
    (∀ others, Entry.all others = Entry.all fields →
      ofJson (.object others) = ofJson (.object fields)) ∧
    ∀ err, ofJson (.object fields) = .error err ↔ Entry.FirstRefused (Entry.all fields) err := by
  refine ⟨?_, fun t ht n => ⟨?_, fun s => find?_ofJson ht⟩, fun others hsame => ?_,
    fun err => ofJson_eq_error⟩
  · simp only [ofJson_succeeds, Entry.exists_describes_iff]
  · simp only [find?_ofJson ht]
    exact Entry.exists_lastFor_iff (ofJson_succeeds.mp ⟨t, ht⟩)
  · rw [ofJson_eq, ofJson_eq, hsame]

end

/-- Two entries for routine 1, spelled differently, with a field between them that is no entry. -/
def spellings : List (Text × Json) :=
  [("1", .object [("name", .text "First")]), ("seven", .null),
    (" 0x1 ", .object [("returns", .text "int"), ("params", .list [.text "Vector"])]),
    ("2", .object [])]

/-- Two entries that cannot be read, the first for two reasons. -/
def faults : List (Text × Json) :=
  [("x", .int 1), ("3", .object [("returns", .text "bogus"), ("params", .null)]), ("y", .object [])]

theorem spellings_fold :
    let last : Signature := ⟨1, "action_1", .int, [.vector]⟩
    ofJson (.object spellings) = .ok ⟨[(1, last), (2, ⟨2, "action_2", .void, []⟩)]⟩ ∧
      Entry.LastFor (Entry.all spellings) 1 last ∧ (∀ e ∈ Entry.all spellings, ¬ e.Reads 7) ∧
      ofJson (.object faults) = .error (.unknownType "bogus") ∧
      Entry.FirstRefused (Entry.all faults) (.unknownType "bogus") := by
  have htable : ofJson (.object spellings) =
      .ok ⟨[(1, ⟨1, "action_1", .int, [.vector]⟩), (2, ⟨2, "action_2", .void, []⟩)]⟩ := by
    decide +kernel
  have herror : ofJson (.object faults) = .error (.unknownType "bogus") := by decide +kernel
  have hfind := (ofJson_folds spellings).2.1 _ htable
  refine ⟨htable, ((hfind 1).2 _).mp rfl, fun e he hreads => ?_, herror,
    ((ofJson_folds faults).2.2.2 _).mp herror⟩
  obtain ⟨s, hs⟩ := (hfind 7).1.mpr ⟨e, he, hreads⟩
  cases hs

end Table

end Engine

/-! ## A number too long to be a name -/

namespace Text

theorem shown_ofString (s : String) : (ofString s).shown = s := by
  unfold shown ofString
  rw [List.map_map]
  exact (congrArg String.ofList (List.map_id s.toList)).trans String.ofList_toList

namespace Numeral

theorem strip_eq_self {cs : List Char} (h : ∀ c ∈ cs, isSpace c = false) : strip cs = cs := by
  have hkeep : ∀ ds : List Char, (∀ c ∈ ds, isSpace c = false) → ds.dropWhile isSpace = ds := by
    intro ds hds
    cases ds with
    | nil => rfl
    | cons d ds => rw [List.dropWhile_cons_of_neg (by simp [hds d List.mem_cons_self])]
  rw [strip, hkeep cs h, hkeep _ fun c hc => h c (List.mem_reverse.mp hc), List.reverse_reverse]

/-- A zero multiplies by the base. -/
theorem digits?_zeros (k n : Nat) : digits? 16 (List.replicate k '0') n = some (n * 16 ^ k) := by
  induction k generalizing n with
  | zero => simp [digits?]
  | succ k ih =>
    have hzero : digitIn? 16 '0' = some 0 := by decide
    rw [List.replicate_succ, digits?.eq_def]
    simp only [hzero]
    rw [ih, Nat.add_zero, Nat.mul_assoc, Nat.pow_succ']

/-- A one and zeros behind the mark of base sixteen. -/
def power (k : Nat) : String := String.ofList ('0' :: 'x' :: '1' :: List.replicate k '0')

theorem parse_power (k : Nat) : parse (power k) = .ok (16 ^ k : Nat) := by
  have hspace : ∀ c ∈ '0' :: 'x' :: '1' :: List.replicate k '0', isSpace c = false := by
    intro c hc
    simp only [List.mem_cons, List.mem_replicate] at hc
    rcases hc with rfl | rfl | rfl | ⟨-, rfl⟩ <;> decide
  have hone : digitIn? 16 '1' = some 1 := by decide
  have hmarked : unsigned ('0' :: 'x' :: '1' :: List.replicate k '0') = .ok (16 ^ k) := by
    show inBase 16 ('1' :: List.replicate k '0') = _
    have hdigits : positive? 16 (skipMark ('1' :: List.replicate k '0')) = some (16 ^ k) := by
      show ((digitIn? 16 '1').bind fun d => digits? 16 (List.replicate k '0') d) = _
      rw [hone, Option.bind_some, digits?_zeros, Nat.one_mul]
    rw [inBase, hdigits]
  rw [parse, power, String.toList_ofList, strip_eq_self hspace]
  show (unsigned ('0' :: 'x' :: '1' :: List.replicate k '0')).map (fun n => (n : Int)) = _
  rw [hmarked]
  rfl

end Numeral

end Text

namespace Engine

/-- A document with one entry, for a power of sixteen and without a name. -/
def unnamedPower (k : Nat) : List (Text × Json) :=
  [(Text.ofString (Text.Numeral.power k), .object [])]

theorem reads_power (k : Nat) (fields : List (Text × Json)) :
    (Entry.mk (Text.ofString (Text.Numeral.power k)) fields).Reads (16 ^ k : Nat) := by
  rw [Entry.Reads, Table.routineOfKey, Text.shown_ofString, Text.Numeral.parse_power]

theorem not_writable_of_le {n : Nat} (h : 10 ^ Text.Numeral.digitLimit ≤ n) :
    ¬ Entry.Writable n := by
  rw [Entry.Writable, Int.natAbs_natCast, Nat.length_toDigits_le_iff (by decide) (by decide)]
  omega

theorem legible_of_mem_unnamedPower {k : Nat} {e : Entry} (h : e ∈ Entry.all (unnamedPower k)) :
    e.Legible := by
  obtain rfl := List.mem_singleton.mp h
  exact ⟨⟨_, reads_power k []⟩, ⟨_, Entry.parseType_void⟩, [], rfl, by simp⟩

theorem ofJson_unnamedPower {k : Nat} (h : 10 ^ Text.Numeral.digitLimit ≤ 16 ^ k) :
    Table.ofJson (.object (unnamedPower k)) = .error .longName := by
  refine Table.ofJson_eq_error.mpr ⟨[], _, [], rfl, by simp, .name (reads_power k []) ?_⟩
  intro name hname
  exact not_writable_of_le h hname.1

/-- Key and types of the entry can be read, but the document is refused: the number has 4302 digits and
cannot be written in place of the name. -/
theorem vastNumber_refused : (∀ e ∈ Entry.all (unnamedPower 3572), e.Legible) ∧
    Table.ofJson (.object (unnamedPower 3572)) = .error .longName :=
  ⟨fun _ => legible_of_mem_unnamedPower, ofJson_unnamedPower (by decide +kernel)⟩

end Engine

end ScriptFlow
