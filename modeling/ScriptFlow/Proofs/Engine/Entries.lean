import ScriptFlow.Engine.Table
import ScriptFlow.Proofs.Instruction.Decode
import Mathlib.Data.List.Forall2

/-! # Entries of a signature document

An entry is read in four steps: its key, the name of the routine, the type it returns, the types of its
parameters. `Entry.Describes` and `Entry.Refuses` say, without the steps, which signature an entry
stands for and with which error it is refused; every entry does one or the other. -/

namespace ScriptFlow

/-! ## Lists walked up to the first error -/

section
variable {ε α β : Type} {f : α → Except ε β} {xs : List α}

theorem mapM_eq_ok {ys : List β} :
    xs.mapM f = .ok ys ↔ List.Forall₂ (fun x y => f x = .ok y) xs ys := by
  induction xs generalizing ys with
  | nil =>
    rw [List.forall₂_nil_left_iff, List.mapM_nil]
    exact ⟨fun h => (Except.ok.inj h).symm, fun h => congrArg Except.ok h.symm⟩
  | cons x xs ih =>
    simp only [List.mapM_cons, bind_eq_ok, ih, List.forall₂_cons_left_iff]
    constructor
    · rintro ⟨y, hy, ys, hys, hok⟩
      exact ⟨y, ys, hy, hys, (Except.ok.inj hok).symm⟩
    · rintro ⟨y, ys, hy, hys, rfl⟩
      exact ⟨y, hy, ys, hys, rfl⟩

theorem mapM_succeeds : (∃ ys, xs.mapM f = .ok ys) ↔ ∀ x ∈ xs, ∃ y, f x = .ok y := by
  simp only [mapM_eq_ok]
  induction xs with
  | nil => simp
  | cons x xs ih =>
    simp only [List.forall_mem_cons, ← ih, List.forall₂_cons_left_iff]
    constructor
    · rintro ⟨_, y, ys, hy, hys, -⟩
      exact ⟨⟨y, hy⟩, ys, hys⟩
    · rintro ⟨⟨y, hy⟩, ys, hys⟩
      exact ⟨y :: ys, y, ys, hy, hys, rfl⟩

theorem mapM_eq_error {e : ε} : xs.mapM f = .error e ↔
    ∃ front x back, xs = front ++ x :: back ∧ (∀ y ∈ front, ∃ v, f y = .ok v) ∧ f x = .error e := by
  induction xs with
  | nil =>
    refine ⟨nofun, ?_⟩
    rintro ⟨front, x, back, h, -⟩
    cases front <;> cases h
  | cons x xs ih =>
    simp only [List.mapM_cons, bind_eq_error, ih]
    constructor
    · rintro (herror | ⟨v, hv, ⟨front, y, back, rfl, hfront, hy⟩ | ⟨_, -, hpure⟩⟩)
      · exact ⟨[], x, xs, rfl, by simp, herror⟩
      · exact ⟨x :: front, y, back, rfl, List.forall_mem_cons.mpr ⟨⟨v, hv⟩, hfront⟩, hy⟩
      · cases hpure
    · rintro ⟨front, y, back, hsplit, hfront, hy⟩
      cases front with
      | nil =>
        cases hsplit
        exact .inl hy
      | cons z front =>
        cases hsplit
        obtain ⟨⟨v, hv⟩, hfront⟩ := List.forall_mem_cons.mp hfront
        exact .inr ⟨v, hv, .inl ⟨front, y, back, rfl, hfront, hy⟩⟩

end

namespace Engine

/-- A field of a document whose value is an object: its key and the fields of the object. -/
structure Entry where
  key : Text
  fields : List (Text × Json)

namespace Entry

/-- The entry that a field of a document is, if its value is an object. -/
def ofField? (field : Text × Json) : Option Entry :=
  match field.2 with
  | .object fields => some ⟨field.1, fields⟩
  | _ => none

/-- The entries of a document, in its order. -/
def all (fields : List (Text × Json)) : List Entry := fields.filterMap ofField?

/-- The key reads as the number. -/
def Reads (e : Entry) (n : Int) : Prop := Table.routineOfKey e.key = .ok n

/-- The name in the entry, unless it is blank. -/
def givenName? (e : Entry) : Option Text :=
  match Json.field? e.fields "name" with
  | some v => if v.isBlank then none else some v.display
  | none => none

/-- The number has not too many decimal digits to be written. -/
def Writable (n : Int) : Prop := (Nat.toDigits 10 n.natAbs).length ≤ Text.Numeral.digitLimit

instance (n : Int) : Decidable (Writable n) := inferInstanceAs (Decidable (_ ≤ _))

/-- The name of the routine of a number: the one given, or else one made of the number. -/
def Named (e : Entry) (n : Int) (name : Text) : Prop :=
  match e.givenName? with
  | some given => name = given
  | none => Writable n ∧ name = "action_" ++ toString n

/-- What the entry says about the type returned. -/
def returnText (e : Entry) : Text := ((Json.field? e.fields "returns").map Json.display).getD "void"

/-- What the entry says about the parameters. -/
def params (e : Entry) : Json := (Json.field? e.fields "params").getD (.list [])

/-- The signature that the entry stands for. -/
structure Describes (e : Entry) (s : Signature) : Prop where
  routine : e.Reads s.routine
  name : e.Named s.routine s.name
  returns : parseType e.returnText = .ok s.returns
  params : ∃ texts, paramTexts e.params = .ok texts ∧
    List.Forall₂ (fun text t => parseType text = .ok t) texts s.params

/-- The error of an entry that cannot be read: that of the first step which fails. -/
inductive Refuses (e : Entry) : TableError → Prop where
  | key {err : TableError} (hkey : Table.routineOfKey e.key = .error err) : Refuses e err
  | name {n : Int} (hkey : e.Reads n) (hname : ∀ name, ¬ e.Named n name) : Refuses e .longName
  | returns {n : Int} {name : Text} {err : TableError} (hkey : e.Reads n) (hname : e.Named n name)
      (hreturns : parseType e.returnText = .error err) : Refuses e err
  | params {n : Int} {name : Text} {t : CellType} {err : TableError} (hkey : e.Reads n)
      (hname : e.Named n name) (hreturns : parseType e.returnText = .ok t)
      (hparams : paramTexts e.params = .error err) : Refuses e err
  | param {n : Int} {name : Text} {t : CellType} {front back : List Text} {text : Text}
      {err : TableError} (hkey : e.Reads n) (hname : e.Named n name)
      (hreturns : parseType e.returnText = .ok t)
      (hparams : paramTexts e.params = .ok (front ++ text :: back))
      (hfront : ∀ u ∈ front, ∃ t, parseType u = .ok t) (htext : parseType text = .error err) :
      Refuses e err

/-- Key and types can be read, and the parameters can be gone through. -/
structure Legible (e : Entry) : Prop where
  key : ∃ n, e.Reads n
  returns : ∃ t, parseType e.returnText = .ok t
  params : ∃ texts, paramTexts e.params = .ok texts ∧ ∀ text ∈ texts, ∃ t, parseType text = .ok t

/-- There is a name in the entry, or its number can be written in place of one. -/
def Nameable (e : Entry) : Prop := e.givenName? = none → ∀ n, e.Reads n → Writable n

/-- The signature read from the entry. -/
def signature (e : Entry) : Except TableError Signature := do
  let routine ← Table.routineOfKey e.key
  Signature.ofFields routine e.fields

section
variable {e : Entry} {n : Int} {name : Text} {s : Signature} {err : TableError}

/-! ## The steps -/

theorem routineName_eq : routineName n e.fields =
    match e.givenName? with
    | some given => .ok given
    | none => if Writable n then .ok ("action_" ++ toString n) else .error .longName := by
  have hlong : (Nat.toDigits 10 n.natAbs).length > Text.Numeral.digitLimit ↔ ¬ Writable n :=
    Nat.not_le.symm
  unfold routineName givenName?
  simp only [hlong, ite_not]
  cases Json.field? e.fields "name" with
  | none => rfl
  | some v => cases hblank : v.isBlank <;> simp [hblank]

theorem routineName_eq_ok : routineName n e.fields = .ok name ↔ e.Named n name := by
  rw [routineName_eq, Named]
  cases e.givenName? with
  | some given => simp [eq_comm]
  | none => by_cases h : Writable n <;> simp [h, eq_comm]

theorem routineName_eq_error :
    routineName n e.fields = .error err ↔ (∀ name, ¬ e.Named n name) ∧ err = .longName := by
  simp only [← routineName_eq_ok]
  rw [routineName_eq]
  cases e.givenName? with
  | some given => simp
  | none => by_cases h : Writable n <;> simp [h, eq_comm]

theorem parseType_void : parseType "void" = .ok .void := by decide +kernel

theorem signature_eq (e : Entry) : e.signature =
    Table.routineOfKey e.key >>= fun n => routineName n e.fields >>= fun name =>
      parseType e.returnText >>= fun t => paramTexts e.params >>= fun texts =>
        texts.mapM parseType >>= fun ts => .ok ⟨n, name, t, ts⟩ := by
  unfold signature Signature.ofFields returnText
  cases Json.field? e.fields "returns" with
  | some given => rfl
  | none =>
    show _ = Table.routineOfKey e.key >>= fun n => routineName n e.fields >>= fun name =>
      parseType "void" >>= _
    rw [parseType_void]
    rfl

theorem signature_eq_ok : e.signature = .ok s ↔ e.Describes s := by
  simp only [signature_eq, bind_eq_ok, routineName_eq_ok, mapM_eq_ok]
  constructor
  · rintro ⟨n, hkey, name, hname, t, hreturns, texts, htexts, ts, hts, hok⟩
    cases hok
    exact ⟨hkey, hname, hreturns, texts, htexts, hts⟩
  · rintro ⟨hkey, hname, hreturns, texts, htexts, hts⟩
    exact ⟨_, hkey, _, hname, _, hreturns, texts, htexts, _, hts, rfl⟩

theorem signature_eq_error : e.signature = .error err ↔ e.Refuses err := by
  simp only [signature_eq, bind_eq_error, routineName_eq_ok, routineName_eq_error, mapM_eq_error]
  constructor
  · rintro (hkey | ⟨n, hkey, ⟨hname, rfl⟩ | ⟨name, hname, hreturns | ⟨t, hreturns, hparams |
      ⟨texts, htexts, ⟨front, text, back, rfl, hfront, htext⟩ | ⟨_, -, hok⟩⟩⟩⟩⟩)
    · exact .key hkey
    · exact .name hkey hname
    · exact .returns hkey hname hreturns
    · exact .params hkey hname hreturns hparams
    · exact .param hkey hname hreturns htexts hfront htext
    · cases hok
  · intro h
    cases h with
    | key hkey => exact .inl hkey
    | name hkey hname => exact .inr ⟨_, hkey, .inl ⟨hname, rfl⟩⟩
    | returns hkey hname hreturns => exact .inr ⟨_, hkey, .inr ⟨_, hname, .inl hreturns⟩⟩
    | params hkey hname hreturns hparams =>
      exact .inr ⟨_, hkey, .inr ⟨_, hname, .inr ⟨_, hreturns, .inl hparams⟩⟩⟩
    | param hkey hname hreturns hparams hfront htext =>
      exact .inr ⟨_, hkey, .inr ⟨_, hname, .inr ⟨_, hreturns, .inr ⟨_, hparams,
        .inl ⟨_, _, _, rfl, hfront, htext⟩⟩⟩⟩⟩

/-! ## What an entry tells -/

theorem Describes.unique {s' : Signature} (h : e.Describes s) (h' : e.Describes s') : s = s' :=
  Except.ok.inj ((signature_eq_ok.mpr h).symm.trans (signature_eq_ok.mpr h'))

theorem Describes.reads_iff (h : e.Describes s) : e.Reads n ↔ s.routine = n := by
  rw [Reads, h.routine, Except.ok.injEq]

theorem exists_describes_iff : (∃ s, e.Describes s) ↔ e.Legible ∧ e.Nameable := by
  constructor
  · rintro ⟨s, hkey, hname, hreturns, texts, htexts, hts⟩
    have hparams := mapM_succeeds.mp ⟨_, mapM_eq_ok.mpr hts⟩
    refine ⟨⟨⟨_, hkey⟩, ⟨_, hreturns⟩, texts, htexts, hparams⟩, fun hnone n hn => ?_⟩
    rw [Named, hnone] at hname
    obtain rfl : s.routine = n := Except.ok.inj (hkey.symm.trans hn)
    exact hname.1
  · rintro ⟨⟨⟨n, hkey⟩, ⟨t, hreturns⟩, texts, htexts, hparams⟩, hnameable⟩
    obtain ⟨ts, hts⟩ := mapM_succeeds.mpr hparams
    have hname : ∃ name, e.Named n name := by
      unfold Named
      cases hgiven : e.givenName? with
      | some given => exact ⟨given, rfl⟩
      | none => exact ⟨_, hnameable hgiven n hkey, rfl⟩
    obtain ⟨name, hname⟩ := hname
    exact ⟨⟨n, name, t, ts⟩, hkey, hname, hreturns, texts, htexts, mapM_eq_ok.mp hts⟩

end

end Entry

end Engine

end ScriptFlow
