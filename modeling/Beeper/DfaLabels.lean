import Beeper.DfaPatterns
import Mathlib.Data.Set.Insert

namespace Beeper

variable {Label A : Type}

/-- What the states of a DFA stand for. An edge leads on to the same label whatever patterns put
it there, and a label other than that of a reserved state is numbered when the edge out of its
parent is pushed. -/
structure Shape (Label : Type) where
  goto : Label → Input → Label
  parent : Label → Option (Label × Input)
  root : Label → Option StateId

/-- The edge leads to a label of its own. -/
def Shape.Grows (S : Shape Label) (l : Label) (i : Input) : Prop :=
  S.parent (S.goto l i) = some (l, i) ∧ S.root (S.goto l i) = none

/-- The edges of `input`, and of its other case unless it is case sensitive. -/
def edgeSet (l : Label) (input : Input) (caseSensitive : Bool) : Set (Label × Input) :=
  {x | x.1 = l ∧ (x.2 = input ∨ caseSensitive = false ∧ otherCase input = some x.2)}

/-- The DFA has the edges `E`, which carry the actions `T`, between the states `num`. -/
structure Represents (S : Shape Label) (E : Set (Label × Input)) (T : Set (Label × Input × A))
    (num : Label → Option StateId) (dfa : Dfa A) : Prop where
  roots : ∀ l s, S.root l = some s → num l = some s
  lt : ∀ l (s : Nat), num l = some s → s < dfa.numStates
  inj : ∀ l l' s, num l = some s → num l' = some s → l = l'
  reached : ∀ l s, num l = some s → S.root l = some s ∨ ∃ x ∈ E, S.parent l = some x
  source_lt : ∀ (s : Nat) i e, dfa.lookup s i = some e → s < dfa.numStates
  edge : ∀ l s i e, num l = some s → dfa.lookup s i = some e →
    (l, i) ∈ E ∧ num (S.goto l i) = some e.target ∧ ∀ a, e.action = some a ↔ (l, i, a) ∈ T
  present : ∀ l i, (l, i) ∈ E → ∃ s e, num l = some s ∧ dfa.lookup s i = some e
  acts : ∀ l i a, (l, i, a) ∈ T → (l, i) ∈ E

/-- A numbering that keeps the numbers of another one. -/
def Renumbers (num num' : Label → Option StateId) : Prop :=
  ∀ l s, num l = some s → num' l = some s

theorem Renumbers.refl (num : Label → Option StateId) : Renumbers num num := fun _ _ h => h

theorem Renumbers.trans {num num' num'' : Label → Option StateId} (h : Renumbers num num')
    (h' : Renumbers num' num'') : Renumbers num num'' := fun l s hl => h' l s (h l s hl)

variable {S : Shape Label} {E : Set (Label × Input)} {T : Set (Label × Input × A)}
  {num : Label → Option StateId} {dfa dfa' : Dfa A} {l : Label} {s t : StateId} {i : Input}

theorem Represents.lookup_none (h : Represents S E T num dfa) (hs : num l = some s)
    (hn : (l, i) ∉ E) : dfa.lookup s i = none := by
  cases hl : dfa.lookup s i with
  | none => rfl
  | some e => exact absurd (h.edge l s i e hs hl).1 hn

theorem Represents.lookup_some (h : Represents S E T num dfa) (hs : num l = some s)
    (hm : (l, i) ∈ E) : ∃ e, dfa.lookup s i = some e ∧ num (S.goto l i) = some e.target ∧
      ∀ a, e.action = some a ↔ (l, i, a) ∈ T := by
  obtain ⟨s', e, hs', hl⟩ := h.present l i hm
  rw [hs] at hs'
  cases hs'
  exact ⟨e, hl, (h.edge l s i e hs hl).2⟩

theorem Represents.absent (h : Represents S E T num dfa) (hs : num l = some s)
    (hl : dfa.lookup s i = none) : (l, i) ∉ E := fun hm => by
  obtain ⟨e, he, -⟩ := h.lookup_some hs hm
  rw [hl] at he
  cases he

/-- An id that goes unused changes nothing. -/
theorem Represents.grow (h : Represents S E T num dfa)
    (hl : ∀ s i, dfa'.lookup s i = dfa.lookup s i) (hn : dfa.numStates ≤ dfa'.numStates) :
    Represents S E T num dfa' := by
  refine ⟨h.roots, fun l s hs => Nat.lt_of_lt_of_le (h.lt l s hs) hn, h.inj, h.reached,
    fun s i e he => ?_, fun l s i e hs he => ?_, fun l i hm => ?_, h.acts⟩
  · rw [hl] at he
    exact Nat.lt_of_lt_of_le (h.source_lt s i e he) hn
  · rw [hl] at he
    exact h.edge l s i e hs he
  · obtain ⟨s, e, hs, he⟩ := h.present l i hm
    exact ⟨s, e, hs, by rw [hl, he]⟩

/-- The action of an edge that was inserted without one. -/
theorem Represents.inserted_action (h : Represents S E T num dfa) (hs : num l = some s)
    (hi : dfa.EdgeInserted dfa' s i t none) :
    ∃ act, dfa'.lookup s i = some ⟨t, act⟩ ∧ ∀ a, act = some a ↔ (l, i, a) ∈ T := by
  obtain ⟨act, hact, hcases⟩ := hi.edge
  refine ⟨act, hact, ?_⟩
  cases hl : dfa.lookup s i with
  | none =>
    have hnone : act = none := by
      rcases hcases with heq | ⟨-, old, hold, -⟩
      · exact heq
      · rw [hl] at hold
        cases hold
    have habs := h.absent hs hl
    intro a
    rw [hnone]
    exact ⟨fun ha => absurd ha nofun, fun ha => absurd (h.acts l i a ha) habs⟩
  | some old =>
    have hold := (h.edge l s i old hs hl).2.2
    obtain ⟨e', he', -, hkeep⟩ := hi.ext.edge s i old hl
    rw [hact] at he'
    cases he'
    have heq : act = old.action := by
      rcases hcases with hnone | ⟨-, old', hold', heq⟩
      · cases ho : old.action with
        | none => exact hnone
        | some a => exact hkeep a ho
      · rw [hl] at hold'
        cases hold'
        exact heq.symm
    rw [heq]
    exact hold

/-- The label that an edge leads to is numbered along with it. -/
theorem Represents.fresh (h : Represents S E T num dfa) (hg : S.Grows l i) (habs : (l, i) ∉ E) :
    num (S.goto l i) = none := by
  obtain ⟨hpar, hroot⟩ := hg
  cases hf : num (S.goto l i) with
  | none => rfl
  | some s' =>
    rcases h.reached _ s' hf with hr | ⟨x, hx, hp⟩
    · rw [hroot] at hr
      cases hr
    · rw [hpar] at hp
      cases hp
      exact absurd hx habs

section Number

open Classical in
/-- Numbers one more label. -/
noncomputable def numberLabel (num : Label → Option StateId) (l : Label) (id : StateId) :
    Label → Option StateId := fun l' => if l' = l then some id else num l'

variable {l' : Label} {id : StateId}

theorem numberLabel_new : numberLabel num l id l = some id := if_pos rfl

theorem numberLabel_old (h : l' ≠ l) : numberLabel num l id l' = num l' := if_neg h

theorem numberLabel_some (h : numberLabel num l id l' = some s) :
    l' = l ∧ s = id ∨ l' ≠ l ∧ num l' = some s := by
  by_cases heq : l' = l
  · subst heq
    rw [numberLabel_new] at h
    exact .inl ⟨rfl, (Option.some.inj h).symm⟩
  · rw [numberLabel_old heq] at h
    exact .inr ⟨heq, h⟩

theorem renumbers_numberLabel (h : num l = none) : Renumbers num (numberLabel num l id) := by
  intro l' s' hs'
  have hne : l' ≠ l := by
    rintro rfl
    rw [h] at hs'
    cases hs'
  rw [numberLabel_old hne, hs']

/-- A number above all others is that of the new label alone. -/
theorem numberLabel_inj (hinj : ∀ l l' s, num l = some s → num l' = some s → l = l')
    (hlt : ∀ l (s : Nat), num l = some s → s < id) (l1 l2 : Label) (s : StateId)
    (h1 : numberLabel num l id l1 = some s) (h2 : numberLabel num l id l2 = some s) : l1 = l2 := by
  rcases numberLabel_some h1 with ⟨rfl, rfl⟩ | ⟨-, hold1⟩
  · rcases numberLabel_some h2 with ⟨rfl, -⟩ | ⟨-, hold2⟩
    · rfl
    · exact absurd (hlt l2 _ hold2) (Nat.lt_irrefl _)
  · rcases numberLabel_some h2 with ⟨rfl, rfl⟩ | ⟨-, hold2⟩
    · exact absurd (hlt l1 _ hold1) (Nat.lt_irrefl _)
    · exact hinj l1 l2 s hold1 hold2

end Number

/-- What an edge to the new label leaves of the edges: all those there were, and itself. -/
theorem Represents.insertNew_edge {dfa1 : Dfa A} (h : Represents S E T num dfa) (hs : num l = some s)
    (hl1 : ∀ s i, dfa1.lookup s i = dfa.lookup s i) (hn1 : dfa.numStates < dfa1.numStates)
    (hfresh : num (S.goto l i) = none) (hins : dfa1.EdgeInserted dfa' s i dfa.numStates none)
    {l' : Label} {s' : StateId} {i' : Input} {e : Edge A}
    (hs' : numberLabel num (S.goto l i) dfa.numStates l' = some s') (he : dfa'.lookup s' i' = some e) :
    (l', i') ∈ insert (l, i) E ∧
      numberLabel num (S.goto l i) dfa.numStates (S.goto l' i') = some e.target ∧
        ∀ a, e.action = some a ↔ (l', i', a) ∈ T := by
  have hlook : ∀ s' i', (s', i') ≠ (s, i) → dfa'.lookup s' i' = dfa.lookup s' i' :=
    fun s' i' hne => (hins.others s' i' hne).trans (hl1 s' i')
  have hlt := h.lt l s hs
  rcases numberLabel_some hs' with ⟨rfl, rfl⟩ | ⟨-, hs'⟩
  · -- nothing leads out of the new state yet
    have hne : (dfa.numStates, i') ≠ (s, i) := fun heq => by
      have := (Prod.mk.inj heq).1
      omega
    rw [hlook _ i' hne] at he
    exact absurd (h.source_lt _ i' e he) (Nat.lt_irrefl _)
  · by_cases heq : (s', i') = (s, i)
    · cases heq
      cases h.inj l' l s hs' hs
      obtain ⟨act, hact, hiff⟩ := (h.grow hl1 (by omega)).inserted_action hs hins
      rw [hact] at he
      cases he
      exact ⟨Set.mem_insert _ _, numberLabel_new, hiff⟩
    · rw [hlook s' i' heq] at he
      obtain ⟨hm, ht, ha⟩ := h.edge l' s' i' e hs' he
      exact ⟨Set.mem_insert_of_mem _ hm, renumbers_numberLabel hfresh _ _ ht, ha⟩

variable [DecidableEq A]

/-- Inserting an edge to a state that is numbered already. -/
theorem Represents.insertEdge (h : Represents S E T num dfa) (hs : num l = some s)
    (ht : num (S.goto l i) = some t) (hi : dfa.insertEdge s i t none = some dfa') :
    Represents S (insert (l, i) E) T num dfa' := by
  have hins := Dfa.insertEdge_some hi
  obtain ⟨act, hact, hiff⟩ := h.inserted_action hs hins
  have hn := hins.numStates
  refine ⟨h.roots, fun l s hs => by rw [hn]; exact h.lt l s hs, h.inj, fun l s hs => ?_,
    fun s' i' e he => ?_, fun l' s' i' e hs' he => ?_, fun l' i' hm => ?_,
    fun l i a ha => Set.mem_insert_of_mem _ (h.acts l i a ha)⟩
  · rcases h.reached l s hs with hroot | ⟨x, hx, hp⟩
    · exact .inl hroot
    · exact .inr ⟨x, Set.mem_insert_of_mem _ hx, hp⟩
  · rw [hn]
    by_cases heq : (s', i') = (s, i)
    · cases heq
      exact h.lt l s hs
    · rw [hins.others s' i' heq] at he
      exact h.source_lt s' i' e he
  · by_cases heq : (s', i') = (s, i)
    · cases heq
      cases h.inj l' l s hs' hs
      rw [hact] at he
      cases he
      exact ⟨Set.mem_insert _ _, ht, hiff⟩
    · rw [hins.others s' i' heq] at he
      obtain ⟨hm, hrest⟩ := h.edge l' s' i' e hs' he
      exact ⟨Set.mem_insert_of_mem _ hm, hrest⟩
  · rcases Set.mem_insert_iff.mp hm with heq | hm
    · cases heq
      exact ⟨s, _, hs, hact⟩
    · obtain ⟨s', e, hs', he⟩ := h.present l' i' hm
      obtain ⟨e', he', -⟩ := hins.ext.edge s' i' e he
      exact ⟨s', e', hs', he'⟩

/-- Inserting an edge to a new state, which is numbered by it. -/
theorem Represents.insertNew {dfa1 : Dfa A} (h : Represents S E T num dfa) (hs : num l = some s)
    (hg : S.Grows l i) (hl : dfa.lookup s i = none)
    (hl1 : ∀ s i, dfa1.lookup s i = dfa.lookup s i) (hn1 : dfa.numStates < dfa1.numStates)
    (hi : dfa1.insertEdge s i dfa.numStates none = some dfa') :
    Renumbers num (numberLabel num (S.goto l i) dfa.numStates) ∧
      Represents S (insert (l, i) E) T (numberLabel num (S.goto l i) dfa.numStates) dfa' := by
  have hins := Dfa.insertEdge_some hi
  have hfresh := h.fresh hg (h.absent hs hl)
  have hkeep : Renumbers num (numberLabel num (S.goto l i) dfa.numStates) :=
    renumbers_numberLabel hfresh
  have hlook : ∀ s' i', (s', i') ≠ (s, i) → dfa'.lookup s' i' = dfa.lookup s' i' :=
    fun s' i' hne => (hins.others s' i' hne).trans (hl1 s' i')
  have hn : dfa.numStates < dfa'.numStates := by rw [hins.numStates]; exact hn1
  refine ⟨hkeep, fun l' s' hr => hkeep l' s' (h.roots l' s' hr), fun l' s' hs' => ?_,
    numberLabel_inj h.inj h.lt, fun l' s' hs' => ?_, fun s' i' e he => ?_,
    fun l' s' i' e hs' he => h.insertNew_edge hs hl1 hn1 hfresh hins hs' he, fun l' i' hm => ?_,
    fun l i a ha => Set.mem_insert_of_mem _ (h.acts l i a ha)⟩
  · rcases numberLabel_some hs' with ⟨-, rfl⟩ | ⟨-, hs'⟩
    · exact hn
    · exact Nat.lt_trans (h.lt l' s' hs') hn
  · rcases numberLabel_some hs' with ⟨rfl, -⟩ | ⟨-, hs'⟩
    · exact .inr ⟨(l, i), Set.mem_insert _ _, hg.1⟩
    · rcases h.reached l' s' hs' with hr | ⟨x, hx, hp⟩
      · exact .inl hr
      · exact .inr ⟨x, Set.mem_insert_of_mem _ hx, hp⟩
  · by_cases heq : (s', i') = (s, i)
    · cases heq
      exact Nat.lt_trans (h.lt l s hs) hn
    · rw [hlook s' i' heq] at he
      exact Nat.lt_trans (h.source_lt s' i' e he) hn
  · rcases Set.mem_insert_iff.mp hm with heq | hm
    · cases heq
      obtain ⟨act, hact, -⟩ := hins.edge
      exact ⟨s, _, hkeep l s hs, hact⟩
    · obtain ⟨s', e, hs', he⟩ := h.present l' i' hm
      have hne : (s', i') ≠ (s, i) := by
        rintro heq
        cases heq
        rw [hl] at he
        cases he
      exact ⟨s', e, hkeep l' s' hs', by rw [hlook s' i' hne, he]⟩

/-- Every edge of a letter is one for its other case as well. -/
theorem Represents.insertOther {caseSensitive : Bool}
    (h : Represents S (insert (l, i) E) T num dfa) (hs : num l = some s)
    (ht : num (S.goto l i) = some t)
    (ho : caseSensitive = false → ∀ o, otherCase i = some o → S.goto l o = S.goto l i)
    (hi : dfa.insertOther s i t caseSensitive = some dfa') :
    Represents S (E ∪ edgeSet l i caseSensitive) T num dfa' := by
  unfold Dfa.insertOther at hi
  split at hi
  next hcs =>
    cases Option.some.inj hi
    have heq : E ∪ edgeSet l i caseSensitive = insert (l, i) E := by
      ext ⟨l', i'⟩
      simp [edgeSet, hcs, or_comm]
    rw [heq]
    exact h
  next hcs =>
    have hcs : caseSensitive = false := by simpa using hcs
    split at hi
    next o hoc =>
      have heq : E ∪ edgeSet l i caseSensitive = insert (l, o) (insert (l, i) E) := by
        ext ⟨l', i'⟩
        simp only [edgeSet, hcs, hoc, Set.mem_union, Set.mem_ofPred_eq, true_and, Option.some.injEq,
          Set.mem_insert_iff, Prod.mk.injEq]
        constructor
        · rintro (hm | ⟨rfl, rfl | rfl⟩) <;> simp_all
        · rintro (⟨rfl, rfl⟩ | ⟨rfl, rfl⟩ | hm) <;> simp_all
      rw [heq]
      exact h.insertEdge hs (by rw [ho hcs o hoc, ht]) hi
    next hoc =>
      cases Option.some.inj hi
      have heq : E ∪ edgeSet l i caseSensitive = insert (l, i) E := by
        ext ⟨l', i'⟩
        simp [edgeSet, hoc, or_comm]
      rw [heq]
      exact h

/-- What pushing an edge comes to, to a label of its own or to one that is numbered already. -/
theorem Represents.pushEdgeFrom {b b' : DfaBuilder A} {to? : Option StateId} {caseSensitive : Bool}
    (h : Represents S E T num dfa) (hs : num l = some s)
    (ht : ∀ x, to? = some x → num (S.goto l i) = some x) (hg : to? = none → S.Grows l i)
    (ho : caseSensitive = false → ∀ o, otherCase i = some o → S.goto l o = S.goto l i)
    (hp : b.pushEdgeFrom s i to? caseSensitive = some (t, b')) (hb : b.dfa = dfa) :
    ∃ num', Renumbers num num' ∧ num' (S.goto l i) = some t ∧
      Represents S (E ∪ edgeSet l i caseSensitive) T num' b'.dfa := by
  subst hb
  unfold DfaBuilder.pushEdgeFrom at hp
  simp only [Option.bind_eq_bind, Option.bind_eq_some_iff] at hp
  obtain ⟨⟨next, d1⟩, h1, d2, h2, d3, h3, h4⟩ := hp
  cases Option.some.inj h4
  cases to? with
  | some x =>
    have hx := ht x rfl
    have hd1 : Represents S E T num d1 := by
      rcases Dfa.nextState_some h1 with ⟨e, -, -, rfl⟩ | ⟨-, -, hl, hn⟩
      · exact h
      · exact h.grow hl (by omega)
    exact ⟨num, .refl _, hx, (hd1.insertEdge hs hx h2).insertOther hs hx ho h3⟩
  | none =>
    rcases Dfa.nextState_some h1 with ⟨e, hl, hid, rfl⟩ | ⟨hl, hid, hl', hn⟩
    · have hx : num (S.goto l i) = some next := by
        rw [hid]
        exact (h.edge l s i e hs hl).2.1
      exact ⟨num, .refl _, hx, (h.insertEdge hs hx h2).insertOther hs hx ho h3⟩
    · subst hid
      obtain ⟨hren, hrep⟩ := h.insertNew hs (hg rfl) hl hl' (by omega) h2
      have hx : numberLabel num (S.goto l i) b.dfa.numStates (S.goto l i) = some b.dfa.numStates :=
        if_pos rfl
      exact ⟨_, hren, hx, hrep.insertOther (hren l s hs) hx ho h3⟩

theorem Represents.addAction {a : A} (h : Represents S E T num dfa) (hs : num l = some s)
    (hi : dfa.addAction s i a = some dfa') : Represents S E (insert (l, i, a) T) num dfa' := by
  have hadd := Dfa.addAction_some hi
  obtain ⟨old, hold, ha, hnew⟩ := hadd.edge
  obtain ⟨hm, htarget, hact⟩ := h.edge l s i old hs hold
  have hn := hadd.numStates
  refine ⟨h.roots, fun l s hs => by rw [hn]; exact h.lt l s hs, h.inj, h.reached,
    fun s' i' e he => ?_, fun l' s' i' e hs' he => ?_, fun l' i' hm' => ?_, fun l' i' a' ha' => ?_⟩
  · rw [hn]
    by_cases heq : (s', i') = (s, i)
    · cases heq
      exact h.lt l s hs
    · rw [hadd.others s' i' heq] at he
      exact h.source_lt s' i' e he
  · by_cases heq : (s', i') = (s, i)
    · cases heq
      cases h.inj l' l s hs' hs
      rw [hnew] at he
      cases he
      refine ⟨hm, htarget, fun a' => ?_⟩
      rw [Set.mem_insert_iff, ← hact a', Option.some.injEq]
      constructor
      · rintro rfl
        exact .inl rfl
      · rintro (heq | ho)
        · cases heq
          rfl
        · exact (ha a' ho).symm
    · rw [hadd.others s' i' heq] at he
      obtain ⟨hm', ht, hact'⟩ := h.edge l' s' i' e hs' he
      refine ⟨hm', ht, fun a' => ?_⟩
      rw [Set.mem_insert_iff, ← hact' a']
      refine ⟨.inr, fun hcases => hcases.resolve_left fun hx => ?_⟩
      cases hx
      rw [hs] at hs'
      cases hs'
      exact heq rfl
  · obtain ⟨s', e, hs', he⟩ := h.present l' i' hm'
    obtain ⟨e', he', -⟩ := hadd.ext.edge s' i' e he
    exact ⟨s', e', hs', he'⟩
  · rcases Set.mem_insert_iff.mp ha' with heq | ha'
    · cases heq
      exact hm
    · exact h.acts l' i' a' ha'

/-- The actions `a` of the edges of `input`, in both cases unless it is case sensitive. -/
def actionSet (l : Label) (input : Input) (caseSensitive : Bool) (a : A) :
    Set (Label × Input × A) :=
  {x | (x.1, x.2.1) ∈ edgeSet l input caseSensitive ∧ x.2.2 = a}

theorem Represents.addOther {caseSensitive : Bool} {a : A}
    (h : Represents S E (insert (l, i, a) T) num dfa) (hs : num l = some s)
    (hi : dfa.addOther s i a caseSensitive = some dfa') :
    Represents S E (T ∪ actionSet l i caseSensitive a) num dfa' := by
  unfold Dfa.addOther at hi
  split at hi
  next hcs =>
    cases Option.some.inj hi
    have heq : T ∪ actionSet l i caseSensitive a = insert (l, i, a) T := by
      ext ⟨l', i', a'⟩
      simp [actionSet, edgeSet, hcs, or_comm, and_assoc]
    rw [heq]
    exact h
  next hcs =>
    have hcs : caseSensitive = false := by simpa using hcs
    split at hi
    next o hoc =>
      have heq : T ∪ actionSet l i caseSensitive a = insert (l, o, a) (insert (l, i, a) T) := by
        ext ⟨l', i', a'⟩
        simp only [actionSet, edgeSet, hcs, hoc, Set.mem_union, Set.mem_ofPred_eq, true_and,
          Option.some.injEq, Set.mem_insert_iff, Prod.mk.injEq]
        constructor
        · rintro (hm | ⟨⟨rfl, rfl | rfl⟩, rfl⟩) <;> simp_all
        · rintro (⟨rfl, rfl, rfl⟩ | ⟨rfl, rfl, rfl⟩ | hm) <;> simp_all
      rw [heq]
      exact h.addAction hs hi
    next hoc =>
      cases Option.some.inj hi
      have heq : T ∪ actionSet l i caseSensitive a = insert (l, i, a) T := by
        ext ⟨l', i', a'⟩
        simp [actionSet, edgeSet, hoc, or_comm, and_assoc]
      rw [heq]
      exact h

/-- What attaching an action to a list of edges comes to. -/
def lastActions (last : List (Label × Input × Bool)) (a : A) : Set (Label × Input × A) :=
  {x | ∃ e ∈ last, x ∈ actionSet e.1 e.2.1 e.2.2 a}

/-- The edges the builder keeps, under their labels. -/
def LastEdges (num : Label → Option StateId) (last : List (Label × Input × Bool))
    (edges : List (StateId × Input × Bool)) : Prop :=
  List.Forall₂ (fun x y => num x.1 = some y.1 ∧ x.2 = y.2) last edges

theorem Represents.addActions {a : A} {last : List (Label × Input × Bool)}
    {edges : List (StateId × Input × Bool)} (h : Represents S E T num dfa)
    (hlast : LastEdges num last edges) (hi : DfaBuilder.addActions a edges dfa = some dfa') :
    Represents S E (T ∪ lastActions last a) num dfa' := by
  induction hlast generalizing dfa T with
  | nil =>
    cases Option.some.inj hi
    have heq : T ∪ lastActions ([] : List (Label × Input × Bool)) a = T := by
      ext x
      simp [lastActions]
    rw [heq]
    exact h
  | @cons x y last edges hxy _ ih =>
    obtain ⟨source, input, caseSensitive⟩ := y
    obtain ⟨l, i, cs⟩ := x
    obtain ⟨hs, heq⟩ := hxy
    cases heq
    simp only [DfaBuilder.addActions, Option.bind_eq_bind, Option.bind_eq_some_iff] at hi
    obtain ⟨d1, h1, d2, h2, h3⟩ := hi
    have hstep := ih ((h.addAction hs h1).addOther hs h2) h3
    have heq : T ∪ lastActions ((l, input, caseSensitive) :: last) a =
        T ∪ actionSet l input caseSensitive a ∪ lastActions last a := by
      ext x
      simp only [lastActions, Set.mem_union, Set.mem_ofPred_eq, List.mem_cons, exists_eq_or_imp,
        or_assoc]
    rw [heq]
    exact hstep

end Beeper
