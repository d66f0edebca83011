import ScriptFlow.Proofs.Stack.Failures

/-! # The space of variables

Whatever an instruction does, and however it ends, the variables that were there stay, under the same
names. A variable takes one cell, and a type that it has settled on is kept. Only the instruction that
saves a base pointer marks variables as global; all others leave the marks and the globals alone. -/

namespace ScriptFlow.Stack

/-- Everything written takes one cell. -/
def Writes.OneCell (writes : Writes) : Prop := ∀ w ∈ writes, w.2.cells = 1

/-- Every variable takes one cell, and so does everything that calls write. -/
structure State.OneCell (s : State) : Prop where
  space : ∀ (v : Nat) x, s.space[v]? = some x → x.type.cells = 1
  effects : ∀ e ∈ s.effects, e.2.writes.OneCell

/-- The variable is still the same: a type is given up for another only if it was any. -/
structure Variable.Becomes (x y : Variable) : Prop where
  id : y.id = x.id
  creator : y.creator = x.creator
  type : x.type = .any ∨ y.type = x.type

/-- No variable is lost, and each is still the same. -/
def Grows (s t : State) : Prop :=
  ∀ (v : Nat) x, s.space[v]? = some x → ∃ y, t.space[v]? = some y ∧ x.Becomes y

/-- The space grows by variables that are no globals, and nothing else is new. -/
structure Widens (s t : State) : Prop where
  size : s.space.size ≤ t.space.size
  kept : ∀ (v : Nat) x, s.space[v]? = some x →
    ∃ y, t.space[v]? = some y ∧ x.Becomes y ∧ y.isGlobal = x.isGlobal
  fresh : ∀ (v : Nat) y, s.space.size ≤ v → t.space[v]? = some y → y.id = v ∧ y.isGlobal = false
  bases : ∀ cells ∈ t.bases, cells ∈ s.bases
  globals : t.globals = s.globals
  oneCell : s.OneCell → t.OneCell

section
variable {s t u : State} {x y z : Variable} {v : VarId} {type : CellType}

theorem Variable.Becomes.refl (x : Variable) : x.Becomes x := ⟨rfl, rfl, .inr rfl⟩

theorem Variable.Becomes.trans (hxy : x.Becomes y) (hyz : y.Becomes z) : x.Becomes z where
  id := hyz.id.trans hxy.id
  creator := hyz.creator.trans hxy.creator
  type := by
    rcases hxy.type with hx | hy
    · exact .inl hx
    · rcases hyz.type with hany | hz
      · exact .inl (hy.symm.trans hany)
      · exact .inr (hz.trans hy)

theorem Grows.refl (s : State) : Grows s s := fun _ x hx => ⟨x, hx, .refl x⟩

theorem Grows.trans (hst : Grows s t) (htu : Grows t u) : Grows s u := by
  intro v x hx
  obtain ⟨y, hy, hxy⟩ := hst v x hx
  obtain ⟨z, hz, hyz⟩ := htu v y hy
  exact ⟨z, hz, hxy.trans hyz⟩

/-! ## States -/

theorem Writes.oneCell_nil : Writes.OneCell [] := nofun

theorem Writes.OneCell.set {writes : Writes} {offset : Int} (h : writes.OneCell)
    (htype : type.cells = 1) : (writes.set offset type).OneCell := by
  induction writes with
  | nil => exact List.forall_mem_singleton.mpr htype
  | cons w ws ih =>
    obtain ⟨hw, hws⟩ := List.forall_mem_cons.mp h
    unfold Writes.set
    split
    · exact List.forall_mem_cons.mpr ⟨htype, hws⟩
    · exact List.forall_mem_cons.mpr ⟨hw, ih hws⟩

theorem State.typeOf_eq (h : s.space[v]? = some x) : s.typeOf v = x.type := by
  simp [State.typeOf, h]

/-- A name that is not in use stands for a variable of any type. -/
theorem State.OneCell.typeOf (h : s.OneCell) (v : VarId) : (s.typeOf v).cells = 1 := by
  cases hx : s.space[v]? with
  | none => simp [State.typeOf, hx, CellType.cells]
  | some x =>
    rw [State.typeOf_eq hx]
    exact h.space v x hx

theorem State.OneCell.effectOf? {a : Int} {e : Effect} (h : s.OneCell)
    (he : s.effectOf? a = some e) : e.writes.OneCell := by
  obtain ⟨r, hr, rfl⟩ := Option.map_eq_some_iff.mp he
  exact h.effects r (List.mem_of_find?_eq_some hr)

theorem lt_of_getElem?_space (h : s.space[v]? = some x) : v < s.space.size :=
  (Array.getElem?_eq_some_iff.mp h).1

namespace Widens

theorem refl (s : State) : Widens s s where
  size := Nat.le_refl _
  kept _ x hx := ⟨x, hx, .refl x, rfl⟩
  fresh _ _ hv hy := absurd (lt_of_getElem?_space hy) (Nat.not_lt.mpr hv)
  bases _ := id
  globals := rfl
  oneCell := id

/-- A variable of the wider space was there before, or is new. -/
theorem origin (h : Widens s t) (hy : t.space[v]? = some y) :
    (∃ x, s.space[v]? = some x ∧ x.Becomes y ∧ y.isGlobal = x.isGlobal) ∨
      s.space.size ≤ v ∧ y.id = v ∧ y.isGlobal = false := by
  by_cases hv : s.space.size ≤ v
  · exact .inr ⟨hv, h.fresh v y hv hy⟩
  · obtain ⟨x, hx⟩ : ∃ x, s.space[v]? = some x := ⟨_, Array.getElem?_eq_getElem (by omega)⟩
    obtain ⟨y', hy', hxy⟩ := h.kept v x hx
    rw [hy] at hy'
    cases hy'
    exact .inl ⟨x, hx, hxy⟩

theorem trans (hst : Widens s t) (htu : Widens t u) : Widens s u where
  size := Nat.le_trans hst.size htu.size
  kept v x hx := by
    obtain ⟨y, hy, hxy, hglobal⟩ := hst.kept v x hx
    obtain ⟨z, hz, hyz, hglobal'⟩ := htu.kept v y hy
    exact ⟨z, hz, hxy.trans hyz, hglobal'.trans hglobal⟩
  fresh v z hv hz := by
    rcases htu.origin hz with ⟨y, hy, hyz, hglobal'⟩ | ⟨-, hfresh⟩
    · obtain ⟨hid, hglobal⟩ := hst.fresh v y hv hy
      exact ⟨hyz.id.trans hid, hglobal'.trans hglobal⟩
    · exact hfresh
  bases cells h := hst.bases cells (htu.bases cells h)
  globals := htu.globals.trans hst.globals
  oneCell h := htu.oneCell (hst.oneCell h)

theorem grows (h : Widens s t) : Grows s t := fun v x hx => by
  obtain ⟨y, hy, hxy, -⟩ := h.kept v x hx
  exact ⟨y, hy, hxy⟩

/-- Records may change as they like, as long as the effects among them write single cells. -/
theorem of_space (hspace : t.space = s.space) (hglobals : t.globals = s.globals)
    (hbases : ∀ cells ∈ t.bases, cells ∈ s.bases)
    (heffects : ∀ e ∈ t.effects, e ∈ s.effects ∨ e.2.writes.OneCell) : Widens s t where
  size := Nat.le_of_eq (congrArg Array.size hspace.symm)
  kept _ x hx := ⟨x, by rw [hspace, hx], .refl x, rfl⟩
  fresh _ _ hv hy := by
    rw [hspace] at hy
    exact absurd (lt_of_getElem?_space hy) (Nat.not_lt.mpr hv)
  bases := hbases
  globals := hglobals
  oneCell h := ⟨by rw [hspace]; exact h.space, fun e he => (heffects e he).elim (h.effects e) id⟩

theorem updateVar {f : Variable → Variable} (hf : ∀ x, s.space[v]? = some x →
    x.Becomes (f x) ∧ (f x).isGlobal = x.isGlobal ∧ (x.type.cells = 1 → (f x).type.cells = 1)) :
    Widens s (s.updateVar v f) := by
  have hget : ∀ w : Nat, (s.updateVar v f).space[w]? =
      s.space[w]?.map fun x => if v = w then f x else x := by
    intro w
    rw [State.updateVar, Array.getElem?_modify]
    split <;> simp
  refine ⟨by simp [State.updateVar], fun w x hx => ?_, fun w y hw hy => ?_, fun _ => id, rfl,
    fun h => ⟨fun w y hy => ?_, h.effects⟩⟩
  · rw [hget, hx]
    refine ⟨_, rfl, ?_⟩
    split
    · rename_i hvw
      subst hvw
      exact ⟨(hf x hx).1, (hf x hx).2.1⟩
    · exact ⟨.refl x, rfl⟩
  · rw [hget, Array.getElem?_eq_none hw] at hy
    cases hy
  · rw [hget] at hy
    obtain ⟨x, hx, rfl⟩ := Option.map_eq_some_iff.mp hy
    split
    · rename_i hvw
      subst hvw
      exact (hf x hx).2.2 (h.space _ x hx)
    · exact h.space w x hx

theorem create (s : State) (creator : Int) (htype : type.cells = 1) :
    Widens s { s with space := s.space.push { id := s.space.size, type, creator } } := by
  refine ⟨by simp, fun v x hx => ⟨x, ?_, .refl x, rfl⟩, fun v y hv hy => ?_, fun _ => id, rfl,
    fun h => ⟨fun v y hy => ?_, h.effects⟩⟩
  · rw [Array.getElem?_push, if_neg (Nat.ne_of_lt (lt_of_getElem?_space hx)), hx]
  · rw [Array.getElem?_push] at hy
    split at hy
    · rename_i hvs
      cases hy
      exact ⟨hvs.symm, rfl⟩
    · exact absurd (lt_of_getElem?_space hy) (Nat.not_lt.mpr hv)
  · rw [Array.getElem?_push] at hy
    split at hy
    · cases hy
      exact htype
    · exact h.space v y hy

end Widens

/-! ## Types -/

theorem cells_eq_one_iff {type : CellType} :
    type.cells = 1 ↔ type ∉ [CellType.void, .vector, .action] := by
  cases type <;> simp [CellType.cells]

theorem cells_of_mem_cellsOf {type cell : CellType} (h : cell ∈ cellsOf type) : cell.cells = 1 := by
  cases type <;> simp [cellsOf, vectorCells, CellType.cells] at h <;> subst h <;> rfl

/-- A chain of cases one after the other: all that any of them gives has the property. -/
theorem of_dite_eq_some {α : Type} {P : α → Prop} {c : Prop} [Decidable c] {a : c → α}
    {rest : Option α} (ha : ∀ h, P (a h)) (hrest : ∀ b, rest = some b → P b) :
    ∀ b, (if h : c then some (a h) else rest) = some b → P b := by
  intro b h
  split at h
  · cases h
    exact ha _
  · exact hrest b h

theorem cells_of_singleType? {n : Nat} : ∀ type, singleType? n = some type → type.cells = 1 := by
  unfold singleType?
  exact of_dite_eq_some (fun _ => rfl) <| of_dite_eq_some (fun _ => rfl) <|
    of_dite_eq_some (fun _ => rfl) <| of_dite_eq_some (fun _ => rfl) <|
    of_dite_eq_some (fun _ => rfl) nofun

/-- All that an operator takes and yields takes one cell each. -/
structure Operands.OneCell (o : Operands) : Prop where
  left : ∀ type ∈ o.left, type.cells = 1
  right : ∀ type ∈ o.right, type.cells = 1
  result : ∀ type ∈ o.result, type.cells = 1

theorem oneCell_of_operands? {n : Nat} : ∀ o, operands? n = some o → o.OneCell := by
  unfold operands?
  refine of_dite_eq_some (fun _ => ?_) <| of_dite_eq_some (fun _ => ?_) <|
    of_dite_eq_some (fun _ => ?_) <| of_dite_eq_some (fun _ => ?_) <|
    of_dite_eq_some (fun _ => ?_) <| of_dite_eq_some (fun _ => ?_) <|
    of_dite_eq_some (fun _ => ?_) <| of_dite_eq_some (fun _ => ?_) <|
    of_dite_eq_some (fun _ => ?_) <| of_dite_eq_some (fun _ => ?_) nofun
  all_goals constructor <;> simp [vectorCells, CellType.cells]

end

namespace Sim

/-! ## Computations that widen the space -/

section
variable {α β : Type} {x : Sim α} {f : α → Sim β} {P Q : α → Prop} {R : β → Prop}
variable {i : Instruction} {halt : Halt}

/-- However the computation ends, the space has widened; success tells something of the result. -/
structure Widening (x : Sim α) (Q : α → Prop) : Prop where
  ok : ∀ {s a t}, s.OneCell → x s = .ok a t → Widens s t ∧ Q a
  error : ∀ {s halt t}, s.OneCell → x s = .error halt t → Widens s t

theorem widening_pure {a : α} (h : Q a) : Widening (pure a : Sim α) Q where
  ok _ ha := by
    obtain ⟨rfl, rfl⟩ := pure_eq_ok.mp ha
    exact ⟨.refl _, h⟩
  error := nofun

theorem widening_throw : Widening (throw halt : Sim α) Q where
  ok := nofun
  error _ h := by
    cases h
    exact .refl _

theorem widening_refuse {cause : Cause} : Widening (refuse i cause : Sim α) Q := widening_throw

theorem Widening.bind (hx : Widening x P) (hf : ∀ a, P a → Widening (f a) R) :
    Widening (x >>= f) R where
  ok hs h := by
    obtain ⟨a, u, ha, h⟩ := bind_eq_ok.mp h
    obtain ⟨hsu, hP⟩ := hx.ok hs ha
    obtain ⟨hut, hR⟩ := (hf a hP).ok (hsu.oneCell hs) h
    exact ⟨hsu.trans hut, hR⟩
  error hs h := by
    rcases bind_eq_error.mp h with h | ⟨a, u, ha, h⟩
    · exact hx.error hs h
    · obtain ⟨hsu, hP⟩ := hx.ok hs ha
      exact hsu.trans ((hf a hP).error (hsu.oneCell hs) h)

theorem widening_modify {g : State → State} (h : ∀ s, Widens s (g s)) :
    Widening (modify g : Sim Unit) fun _ => True where
  ok := by
    intro s a t _ ha
    cases ha
    exact ⟨h s, trivial⟩
  error := nofun

theorem widening_get : Widening (get : Sim State) State.OneCell where
  ok := by
    intro s a t hs ha
    cases ha
    exact ⟨.refl s, hs⟩
  error := nofun

theorem widening_forM {f : α → Sim Unit} {l : List α}
    (hf : ∀ a ∈ l, Widening (f a) fun _ => True) : Widening (l.forM f) fun _ => True := by
  induction l with
  | nil => exact widening_pure trivial
  | cons a l ih =>
    obtain ⟨ha, hl⟩ := List.forall_mem_cons.mp hf
    exact ha.bind fun _ _ => ih hl

end

section
variable {table : Engine.Table} {i : Instruction} {stack : Cells} {type : CellType}
variable {types : List CellType} {v : VarId} {source : Sim Cells} {offset : Int} {size : Nat}

theorem widening_addReader : Widening (addReader i v) fun _ => True :=
  widening_modify fun _ => .updateVar fun _ _ => ⟨⟨rfl, rfl, .inr rfl⟩, rfl, id⟩

theorem widening_addWriter : Widening (addWriter i v) fun _ => True :=
  widening_modify fun _ => .updateVar fun _ _ => ⟨⟨rfl, rfl, .inr rfl⟩, rfl, id⟩

/-- A type is given to a variable that has any, or it is the one it has. -/
theorem widening_unify (htype : type.cells = 1) : Widening (unify i type v) fun _ => True where
  ok := by
    intro s a t _ h
    rw [unify, get_bind_eq_ok] at h
    split at h
    · obtain ⟨-, rfl⟩ := pure_eq_ok.mp h
      exact ⟨.refl s, trivial⟩
    · split at h
      · rename_i hany
        cases h
        refine ⟨.updateVar fun x hx => ⟨⟨rfl, rfl, .inl ?_⟩, rfl, fun _ => htype⟩, trivial⟩
        rw [← State.typeOf_eq hx, hany]
      · cases h
  error := by
    intro s halt t _ h
    rw [unify, get_bind_eq_error] at h
    split at h
    · cases h
    · split at h <;> cases h
      exact .refl s

theorem widening_create (htype : type.cells = 1) : Widening (create i type) fun _ => True where
  ok := by
    intro s v t _ h
    cases h
    exact ⟨.create s i.address htype, trivial⟩
  error := nofun

theorem widening_createAll (htypes : ∀ type ∈ types, type.cells = 1) :
    Widening (createAll i types) fun _ => True := by
  induction types with
  | nil => exact widening_pure trivial
  | cons type types ih =>
    obtain ⟨htype, htypes⟩ := List.forall_mem_cons.mp htypes
    refine (widening_create htype).bind fun _ _ => (ih htypes).bind fun _ _ => ?_
    exact widening_pure trivial

theorem widening_push (htype : type.cells = 1) : Widening (push i type stack) fun _ => True :=
  (widening_create htype).bind fun _ _ => widening_pure trivial

theorem widening_pushAll (htypes : ∀ type ∈ types, type.cells = 1) :
    Widening (pushAll i types stack) fun _ => True :=
  (widening_createAll htypes).bind fun _ _ => widening_pure trivial

theorem widening_cut {height : Nat} : Widening (cut i height stack) fun _ => True :=
  (widening_forM fun _ _ => widening_addReader).bind fun _ _ => widening_pure trivial

theorem widening_pop {count : Nat} : Widening (pop i count stack) fun _ => True := by
  unfold pop
  split
  · exact widening_refuse
  · exact widening_cut

theorem widening_popTyped (htypes : ∀ type ∈ types, type.cells = 1) :
    Widening (popTyped i types stack) fun _ => True := by
  refine widening_pop.bind fun r _ => Widening.bind (widening_forM fun x hx => ?_) fun _ _ => ?_
  · exact widening_unify (htypes _ (List.of_mem_zip hx).2)
  · exact widening_pure trivial

theorem widening_cellsIn {value : Int} : Widening (cellsIn i value) fun _ => True := by
  unfold cellsIn
  split
  · exact widening_pure trivial
  · exact widening_refuse

theorem widening_slot {count : Int} : Widening (slot i offset count stack) fun _ => True := by
  refine widening_cellsIn.bind fun n _ => ?_
  dsimp only
  split
  · exact widening_refuse
  · exact widening_pure trivial

theorem widening_base : Widening (base i) fun _ => True := by
  refine widening_get.bind fun s _ => ?_
  split
  · exact widening_pure trivial
  · exact widening_refuse

theorem widening_single : Widening (single i) fun type => type.cells = 1 := by
  unfold single
  split
  · exact widening_pure (cells_of_singleType? _ (by assumption))
  · exact widening_refuse

theorem widening_operands : Widening (operands i) Operands.OneCell := by
  unfold operands
  split
  · exact widening_pure (oneCell_of_operands? _ (by assumption))
  · exact widening_refuse

theorem widening_copies {vs : Cells} : Widening (copies i vs) fun _ => True := by
  induction vs with
  | nil => exact widening_pure trivial
  | cons v vs ih =>
    refine widening_addReader.bind fun _ _ => widening_get.bind fun s hs => ?_
    refine (widening_create (hs.typeOf v)).bind fun _ _ => ih.bind fun _ _ => ?_
    exact widening_pure trivial

/-- The types noted are those of cells. -/
theorem widening_copyDown {note : Nat → CellType → Writes → Writes} {n : Nat}
    {pairs : List (VarId × VarId)} {writes : Writes} (hwrites : writes.OneCell)
    (hnote : ∀ n type writes, type.cells = 1 → writes.OneCell → (note n type writes).OneCell) :
    Widening (copyDown i note n pairs writes) Writes.OneCell := by
  induction pairs generalizing n writes with
  | nil => exact widening_pure hwrites
  | cons pair pairs ih =>
    refine widening_get.bind fun s hs => (widening_unify (hs.typeOf _)).bind fun _ _ => ?_
    refine widening_get.bind fun t ht => (widening_unify (ht.typeOf _)).bind fun _ _ => ?_
    refine widening_addWriter.bind fun _ _ => widening_get.bind fun u hu => ?_
    exact ih (hnote _ _ _ (hu.typeOf _) hwrites)

theorem widening_copySpan (hsource : Widening source fun _ => True) :
    Widening (copySpan i offset size stack source) fun _ => True := by
  refine widening_cellsIn.bind fun n _ => ?_
  dsimp only
  split
  · exact widening_refuse
  · exact hsource.bind fun _ _ => widening_slot.bind fun _ _ => widening_pure trivial

theorem widening_copyTop (hsource : Widening source fun _ => True) :
    Widening (copyTop i offset size stack source) fun _ => True :=
  (widening_copySpan hsource).bind fun _ _ => widening_copies.bind fun _ _ => widening_pure trivial

theorem widening_copyDownSP {height : Nat} {writes : Writes} (hwrites : writes.OneCell) :
    Widening (copyDownSP i offset size height stack writes) Writes.OneCell := by
  refine (widening_copySpan (widening_pure trivial)).bind fun span _ => ?_
  refine widening_copyDown hwrites fun n type writes htype hwrites => ?_
  split
  · exact hwrites.set htype
  · exact hwrites

theorem widening_copyDownBP : Widening (copyDownBP i offset size stack) fun _ => True := by
  refine (widening_copySpan widening_base).bind fun span _ => ?_
  refine (widening_copyDown Writes.oneCell_nil fun _ _ _ _ h => h).bind fun _ _ => ?_
  exact widening_pure trivial

theorem widening_popParams {params : List CellType} :
    Widening (popParams i params stack) fun _ => True := by
  induction params generalizing stack with
  | nil => exact widening_pure trivial
  | cons param params ih =>
    exact (widening_popTyped fun _ => cells_of_mem_cellsOf).bind fun _ _ => ih

theorem widening_engineCall {routine argc : Nat} :
    Widening (engineCall table i routine argc stack) fun _ => True := by
  unfold engineCall
  split
  · exact widening_refuse
  · split
    · exact widening_refuse
    · refine widening_popParams.bind fun _ _ => widening_pushAll fun _ => ?_
      exact cells_of_mem_cellsOf

theorem widening_binary {o : Operands} {result : List CellType} (ho : o.OneCell)
    (hresult : ∀ type ∈ result, type.cells = 1) :
    Widening (binary i o result stack) fun _ => True := by
  refine (widening_popTyped ho.right).bind fun _ _ => (widening_popTyped ho.left).bind fun _ _ => ?_
  exact widening_pushAll hresult

theorem widening_replace (htypes : ∀ type ∈ types, type.cells = 1) (htype : type.cells = 1) :
    Widening (do push i type (← popTyped i types stack)) fun _ => True :=
  (widening_popTyped htypes).bind fun _ _ => widening_push htype

theorem widening_destroy {size start keep : Int} :
    Widening (destroy i size start keep stack) fun _ => True := by
  refine widening_cellsIn.bind fun count _ => ?_
  split
  · exact widening_refuse
  · refine widening_cellsIn.bind fun _ _ => widening_cellsIn.bind fun _ _ => ?_
    exact widening_cut.bind fun _ _ => widening_pure trivial

theorem widening_adjust {cells : Cells} : Widening (adjust i offset cells) fun _ => True := by
  refine widening_slot.bind fun start _ => ?_
  split
  · refine (widening_unify rfl).bind fun _ _ => widening_addReader.bind fun _ _ => ?_
    exact widening_addWriter
  · exact widening_throw

theorem widening_restoreBase : Widening (restoreBase i stack) fun _ => True := by
  refine widening_base.bind fun _ _ => (widening_popTyped (by simp [CellType.cells])).bind fun r _ => ?_
  refine (widening_modify fun s => ?_).bind fun _ _ => widening_pure trivial
  exact .of_space rfl rfl (fun _ => List.mem_of_mem_tail) fun _ => .inl

/-! ## Instructions -/

theorem widening_keep {run : Sim Cells} {writes : Writes} (hwrites : writes.OneCell)
    (h : Widening run fun _ => True) :
    Widening (do return (← run, writes)) fun r => r.2.OneCell :=
  h.bind fun _ _ => widening_pure hwrites

/-- All instructions but the one that saves a base pointer widen the space. -/
theorem exec_widening {height : Nat} {writes : Writes} (hsave : i.opcode ≠ .savebp)
    (hwrites : writes.OneCell) :
    Widening (exec table height i stack writes) fun r => r.2.OneCell := by
  have hint : ∀ type ∈ [CellType.int], type.cells = 1 := by simp [CellType.cells]
  have hints : ∀ type ∈ [CellType.int, .int], type.cells = 1 := by simp [CellType.cells]
  unfold exec
  cases hop : i.opcode with
  | cpdownsp =>
    dsimp only
    split
    · exact (widening_copyDownSP hwrites).bind fun _ h => widening_pure h
    · exact widening_throw
  | cpdownbp =>
    dsimp only
    split
    · exact widening_copyDownBP.bind fun _ _ => widening_pure hwrites
    · exact widening_throw
  | cptopsp =>
    dsimp only
    split
    · exact widening_keep hwrites (widening_copyTop (widening_pure trivial))
    · exact widening_throw
  | cptopbp =>
    dsimp only
    split
    · exact widening_keep hwrites (widening_copyTop widening_base)
    · exact widening_throw
  | rsadd | const => exact widening_keep hwrites (widening_single.bind fun _ h => widening_push h)
  | action =>
    dsimp only
    split
    · exact widening_keep hwrites widening_engineCall
    · exact widening_throw
  | logand | logor | incor | excor | booland | shleft | shright | ushright | mod =>
    exact widening_keep hwrites (widening_replace hints rfl)
  | eq | neq | geq | gt | lt | leq =>
    dsimp only
    split
    · split
      · refine widening_keep hwrites (widening_cellsIn.bind fun _ _ => widening_pop.bind fun _ _ => ?_)
        exact widening_push rfl
      · exact widening_throw
    · exact widening_keep hwrites (widening_operands.bind fun _ ho => widening_binary ho hint)
  | add | sub | mul | div =>
    refine widening_keep hwrites (widening_operands.bind fun o ho => ?_)
    split
    · exact widening_refuse
    · exact widening_binary ho ho.result
  | neg =>
    refine widening_keep hwrites (widening_single.bind fun type h => ?_)
    exact widening_replace (List.forall_mem_singleton.mpr h) h
  | comp | noti => exact widening_keep hwrites (widening_replace hint rfl)
  | movsp =>
    dsimp only
    split
    · refine widening_keep hwrites ?_
      split
      · exact widening_refuse
      · refine widening_cellsIn.bind fun _ _ => widening_pop.bind fun _ _ => ?_
        exact widening_pure trivial
    · exact widening_throw
  | jz | jnz => exact widening_keep hwrites (widening_popTyped hint)
  | destruct =>
    dsimp only
    split
    · exact widening_keep hwrites widening_destroy
    · exact widening_throw
  | decisp | incisp =>
    dsimp only
    split
    · exact widening_adjust.bind fun _ _ => widening_pure hwrites
    · exact widening_throw
  | decibp | incibp =>
    dsimp only
    split
    · refine widening_base.bind fun _ _ => widening_adjust.bind fun _ _ => ?_
      exact widening_pure hwrites
    · exact widening_throw
  | savebp => exact absurd hop hsave
  | restorebp => exact widening_keep hwrites widening_restoreBase
  | jmp | jsr | retn | nop | storestate | storestateall => exact widening_pure hwrites

theorem widening_replayWrites {writes : Writes} (hwrites : writes.OneCell) :
    Widening (replayWrites i stack writes) fun _ => True := by
  induction writes with
  | nil => exact widening_pure trivial
  | cons w writes ih =>
    obtain ⟨hw, hrest⟩ := List.forall_mem_cons.mp hwrites
    unfold replayWrites
    dsimp only
    split
    · exact widening_refuse
    · split
      · refine (widening_unify hw).bind fun _ _ => widening_addWriter.bind fun _ _ => ?_
        exact ih hrest
      · exact widening_throw.bind (P := fun _ => True) fun _ _ => ih hrest

theorem replay_widening {effect : Effect} (hwrites : effect.writes.OneCell) :
    Widening (replay i effect stack) fun _ => True := by
  refine (widening_replayWrites hwrites).bind fun _ _ => ?_
  split
  · exact widening_pure trivial
  · split
    · exact widening_pop.bind fun _ _ => widening_pure trivial
    · refine widening_pushAll fun type htype => ?_
      rw [List.eq_of_mem_replicate htype]
      rfl

end

end Sim

end ScriptFlow.Stack
