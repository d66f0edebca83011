import ScriptFlow.Proofs.Stack.Deltas

/-! # Base pointers saved along paths

What is saved and not yet restored on a path through a subroutine, told by the instructions of its
blocks alone. Saves and restores may be nested on every path, and yet the paths part ways: an analysis
that walks each block once needs more, for which a map of what is open in front of each block is
enough. -/

namespace ScriptFlow.Stack

section
variable (p : Program)

/-- Where control goes on inside of a subroutine: along live edges, and over calls. -/
inductive Proceeds (b : BlockId) : BlockId → Prop
  | edge {e : Edge} : e ∈ p.graph.edges b → e.kind ≠ .dead → e.kind.crosses = false →
      Proceeds b e.child
  | behind {last : LinkedInstruction} {c : BlockId} : (p.graph.block b).last? = some last →
      last.opcode = .jsr → p.holder? last.follower = some c → Proceeds b c

theorem proceeds_iff {b c : BlockId} : Proceeds p b c ↔
    (∃ e ∈ p.graph.edges b, e.kind ≠ .dead ∧ e.kind.crosses = false ∧ e.child = c) ∨
      ∃ last ∈ (p.graph.block b).last?, last.opcode = .jsr ∧
        p.holder? last.follower = some c := by
  constructor
  · intro h
    cases h with
    | edge he hlive hlocal => exact .inl ⟨_, he, hlive, hlocal, rfl⟩
    | behind hlast hop hnext => exact .inr ⟨_, hlast, hop, hnext⟩
  · intro h
    rcases h with ⟨e, he, hlive, hlocal, rfl⟩ | ⟨last, hlast, hop, hnext⟩
    · exact .edge he hlive hlocal
    · exact .behind hlast hop hnext

instance {b c : BlockId} : Decidable (Proceeds p b c) := decidable_of_iff _ (proceeds_iff p).symm

end

/-- The saves open behind an instruction, by their addresses, the innermost first; none if there is
nothing to restore. -/
def openAfter (i : LinkedInstruction) (opens : List Int) : Option (List Int) :=
  match i.opcode with
  | .savebp => some (i.address :: opens)
  | .restorebp => opens.tail?
  | _ => some opens

/-- The saves open behind instructions executed one after the other. -/
def openThrough (is : List LinkedInstruction) (opens : List Int) : Option (List Int) :=
  is.foldlM (fun opens i => openAfter i opens) opens

section
variable (p : Program) (entry : BlockId)

/-- A path from the entry arrives at the block with the saves open. -/
inductive Arrives : BlockId → List Int → Prop
  | entry : Arrives entry []
  | on {b c : BlockId} {before opens : List Int} : Arrives b before →
      openThrough (p.graph.block b).instructions before = some opens → Proceeds p b c →
      Arrives c opens

/-- A path from the entry comes to the end of the block with the saves open. -/
def Leaves (b : BlockId) (opens : List Int) : Prop :=
  ∃ before, Arrives p entry b before ∧
    openThrough (p.graph.block b).instructions before = some opens

/-- A save stays open from one block to the next. -/
def StaysOpen : Prop := ∃ b opens, Leaves p entry b opens ∧ opens ≠ []

/-- On every path from the entry, a restore has a save to match, and a return finds none open. -/
structure Nested : Prop where
  matched : ∀ b opens, Arrives p entry b opens →
    ∃ after, openThrough (p.graph.block b).instructions opens = some after
  returned : ∀ b opens, Leaves p entry b opens → p.Returns b → opens = []

/-- A block is left with a save open over a call only, and nothing else leads to the block behind the
call. A subroutine with such a block is one line of blocks. -/
structure Tidy : Prop where
  calls : ∀ b opens, Leaves p entry b opens → opens ≠ [] →
    ∃ last, (p.graph.block b).last? = some last ∧ last.opcode = .jsr
  alone : ∀ b opens, Leaves p entry b opens → opens ≠ [] → ∀ c, Proceeds p b c →
    (∀ sub ∈ p.subroutines, sub.entry ≠ some c) ∧ ∀ b', Proceeds p b' c → b' = b
  line : StaysOpen p entry → ∀ b opens, Arrives p entry b opens → ∀ c c', Proceeds p b c →
    Proceeds p b c' → c = c'

end

section
variable {p : Program} {s : State} {entry b c : BlockId} {before opens opens' : List Int}
variable {i : LinkedInstruction} {is js : List LinkedInstruction} {sub : Subroutine}

theorem openThrough_append : openThrough (is ++ js) opens =
    (openThrough is opens).bind (openThrough js) := by
  unfold openThrough
  rw [List.foldlM_append]
  rfl

theorem openThrough_cons : openThrough (i :: is) opens =
    (openAfter i opens).bind (openThrough is) := rfl

/-- Saves are opened and closed by two instructions only. -/
theorem openAfter_eq (hsave : i.opcode ≠ .savebp) (hrestore : i.opcode ≠ .restorebp) :
    openAfter i opens = some opens := by
  unfold openAfter
  split
  · contradiction
  · contradiction
  · rfl

theorem Onward.proceeds (h : Onward p s b c) : Proceeds p b c := by
  cases h with
  | edge he hlive hlocal => exact .edge he hlive hlocal
  | behind hlast hop _ _ hnext => exact .behind hlast hop hnext

theorem Proceeds.lt (hp : p.WellFormed) (h : Proceeds p b c) : c < p.graph.size := by
  cases h with
  | edge he _ _ => exact hp.child_lt b _ he
  | behind _ _ hnext => exact lt_of_holder? hnext

theorem Arrives.on_of_leaves (h : Leaves p entry b opens) (hc : Proceeds p b c) :
    Arrives p entry c opens := by
  obtain ⟨before, hb, hthrough⟩ := h
  exact .on hb hthrough hc

/-- If no save stays open, none is open in front of a block. -/
theorem Arrives.eq_nil (h : Arrives p entry b opens) (hclosed : ¬ StaysOpen p entry) :
    opens = [] := by
  cases h with
  | entry => rfl
  | on hb hthrough _ =>
    by_contra hopens
    exact hclosed ⟨_, opens, ⟨_, hb, hthrough⟩, hopens⟩

/-- What a subroutine leads to is on a path. -/
theorem Nested.arrives (hn : Nested p entry) (h : LeadsOn p s entry b) :
    ∃ opens, Arrives p entry b opens := by
  induction h with
  | refl => exact ⟨[], .entry⟩
  | tail _ honward ih =>
    obtain ⟨opens, hb⟩ := ih
    obtain ⟨after, hthrough⟩ := hn.matched _ opens hb
    exact ⟨after, .on hb hthrough honward.proceeds⟩

/-- All paths arrive with the same saves open. -/
theorem Arrives.unique (ht : Tidy p entry) (hsub : sub ∈ p.subroutines)
    (hentry : sub.entry = some entry) (h : Arrives p entry b opens) (h' : Arrives p entry b opens') :
    opens = opens' := by
  induction h generalizing opens' with
  | entry =>
    cases h' with
    | entry => rfl
    | on hb hthrough hon =>
      by_contra hopens
      have halone := (ht.alone _ opens' ⟨_, hb, hthrough⟩ (Ne.symm hopens) _ hon).1
      exact halone sub hsub hentry
  | @on b c before opens hb hthrough hon ih =>
    have same : ∀ {b' before'}, Arrives p entry b' before' →
        openThrough (p.graph.block b').instructions before' = some opens' → b' = b →
          opens = opens' := by
      intro b' before' hb' hthrough' hbb
      cases hbb
      rw [ih hb', hthrough'] at hthrough
      exact (Option.some.inj hthrough).symm
    by_cases hopens : opens = []
    · subst hopens
      cases h' with
      | entry => rfl
      | @on b' _ before' _ hb' hthrough' hon' =>
        by_contra hopens'
        -- then nothing but the other block leads here
        have hbb := (ht.alone _ opens' ⟨_, hb', hthrough'⟩ (Ne.symm hopens') _ hon').2 b hon
        exact hopens' (same hb' hthrough' hbb.symm)
    · obtain ⟨hentry', honly⟩ := ht.alone b opens ⟨_, hb, hthrough⟩ hopens c hon
      cases h' with
      | entry => exact absurd hentry (hentry' sub hsub)
      | on hb' hthrough' hon' => exact same hb' hthrough' (honly _ hon')

end

/-! ## Maps -/

section
variable (p : Program) (entry : BlockId)

/-- What is open in front of each block, for every path. -/
structure Maps (chart : List (BlockId × List Int)) : Prop where
  entry : (entry, []) ∈ chart
  on : ∀ x ∈ chart, ∃ opens ∈ openThrough (p.graph.block x.1).instructions x.2,
    ∀ c < p.graph.size, Proceeds p x.1 c → (c, opens) ∈ chart

instance {chart : List (BlockId × List Int)} : Decidable (Maps p entry chart) :=
  decidable_of_iff ((entry, []) ∈ chart ∧ ∀ x ∈ chart,
    ∃ opens ∈ openThrough (p.graph.block x.1).instructions x.2,
      ∀ c < p.graph.size, Proceeds p x.1 c → (c, opens) ∈ chart)
    ⟨fun h => ⟨h.1, h.2⟩, fun h => ⟨h.entry, h.on⟩⟩

/-- On the map, returns find nothing open. -/
def MapsNested (chart : List (BlockId × List Int)) : Prop :=
  Maps p entry chart ∧ ∀ x ∈ chart, p.Returns x.1 →
    ∀ opens ∈ openThrough (p.graph.block x.1).instructions x.2, opens = []

instance {chart : List (BlockId × List Int)} : Decidable (MapsNested p entry chart) :=
  inferInstanceAs (Decidable (_ ∧ _))

/-- Control goes on to one block at most. -/
def OneWay (b : BlockId) : Prop :=
  ∀ c < p.graph.size, ∀ c' < p.graph.size, Proceeds p b c → Proceeds p b c' → c = c'

instance {b : BlockId} : Decidable (OneWay p b) :=
  inferInstanceAs (Decidable (∀ c < p.graph.size, _))

/-- Nothing else leads to where control goes on to. -/
def OnlyWay (b : BlockId) : Prop :=
  ∀ c < p.graph.size, Proceeds p b c → (∀ sub ∈ p.subroutines, sub.entry ≠ some c) ∧
    ∀ b' < p.graph.size, Proceeds p b' c → b' = b

instance {b : BlockId} : Decidable (OnlyWay p b) :=
  inferInstanceAs (Decidable (∀ c < p.graph.size, _))

/-- On the map, saves stay open over calls only, in one line of blocks. -/
def MapsTidy (chart : List (BlockId × List Int)) : Prop :=
  Maps p entry chart ∧ ∀ x ∈ chart, ∀ opens ∈ openThrough (p.graph.block x.1).instructions x.2,
    opens ≠ [] → (∃ last ∈ (p.graph.block x.1).last?, last.opcode = .jsr) ∧ OnlyWay p x.1 ∧
      ∀ y ∈ chart, OneWay p y.1

instance {chart : List (BlockId × List Int)} : Decidable (MapsTidy p entry chart) :=
  inferInstanceAs (Decidable (_ ∧ _))

end

section
variable {p : Program} {entry b c : BlockId} {opens : List Int} {chart : List (BlockId × List Int)}

theorem Maps.mem (h : Maps p entry chart) (hp : p.WellFormed) (hb : Arrives p entry b opens) :
    (b, opens) ∈ chart := by
  induction hb with
  | entry => exact h.entry
  | on _ hthrough hon ih =>
    obtain ⟨after, hafter, hnext⟩ := h.on _ ih
    rw [Option.mem_def, hthrough] at hafter
    cases hafter
    exact hnext _ (hon.lt hp) hon

theorem MapsNested.nested (h : MapsNested p entry chart) (hp : p.WellFormed) : Nested p entry where
  matched b opens hb := by
    obtain ⟨after, hafter, -⟩ := h.1.on _ (h.1.mem hp hb)
    exact ⟨after, hafter⟩
  returned b opens hleaves hreturns := by
    obtain ⟨before, hb, hthrough⟩ := hleaves
    exact h.2 _ (h.1.mem hp hb) hreturns opens hthrough

/-- A block that control leaves has instructions or edges, so it is one of the graph. -/
theorem Proceeds.source_lt (h : Proceeds p b c) : b < p.graph.size := by
  cases h with
  | edge he _ _ => exact Graph.lt_size_of_mem_edges he
  | behind hlast _ _ =>
    by_contra hb
    rw [Graph.block, Array.getD_eq_getD_getElem?,
      Array.getElem?_eq_none (Nat.not_lt.mp hb)] at hlast
    cases hlast

theorem MapsTidy.tidy (h : MapsTidy p entry chart) (hp : p.WellFormed) : Tidy p entry where
  calls b opens hleaves hopens := by
    obtain ⟨before, hb, hthrough⟩ := hleaves
    exact (h.2 _ (h.1.mem hp hb) opens hthrough hopens).1
  alone b opens hleaves hopens c hon := by
    obtain ⟨before, hb, hthrough⟩ := hleaves
    obtain ⟨-, honly, -⟩ := h.2 _ (h.1.mem hp hb) opens hthrough hopens
    obtain ⟨hentry, honly⟩ := honly c (hon.lt hp) hon
    exact ⟨hentry, fun b' hon' => honly b' hon'.source_lt hon'⟩
  line hopen b' opens' hb' c c' hc hc' := by
    obtain ⟨b, opens, ⟨before, hb, hthrough⟩, hopens⟩ := hopen
    obtain ⟨-, -, hone⟩ := h.2 _ (h.1.mem hp hb) opens hthrough hopens
    exact hone _ (h.1.mem hp hb') c (hc.lt hp) c' (hc'.lt hp) hc hc'

end

end ScriptFlow.Stack
