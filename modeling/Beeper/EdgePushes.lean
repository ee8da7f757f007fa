import Beeper.DfaPatterns

namespace Beeper

variable {A : Type} {dfa dfa' : Dfa A} {s t : StateId} {i : Input}

/-- The inputs an edge for `input` is inserted for. -/
def CaseOf (caseSensitive : Bool) (input i : Input) : Prop :=
  i = input ∨ caseSensitive = false ∧ otherCase input = some i

theorem CaseOf.refl (caseSensitive : Bool) (input : Input) : CaseOf caseSensitive input input :=
  .inl rfl

theorem otherCase_symm {i o : Nat} (h : otherCase i = some o) : otherCase o = some i := by
  rw [otherCase_iff] at h ⊢
  omega

theorem CaseOf.lt {cs : Bool} {i i' : Nat} (h : CaseOf cs i i') (hi : i < 256) : i' < 256 := by
  rcases h with rfl | ⟨-, ho⟩
  · exact hi
  · rw [otherCase_iff] at ho
    omega

variable [DecidableEq A]

/-- An edge without an action of its own is new, or was there before. -/
theorem Dfa.insertEdge_none (h : dfa.insertEdge s i t none = some dfa') :
    (∀ e, dfa.lookup s i = some e → e.target = t) ∧ dfa'.numStates = dfa.numStates ∧
      ∀ s' i', dfa'.lookup s' i' =
        if (s', i') = (s, i) ∧ dfa.lookup s i = none then some ⟨t, none⟩ else dfa.lookup s' i' := by
  unfold Dfa.insertEdge at h
  split at h
  next hn =>
    cases Option.some.inj h
    refine ⟨fun e he => absurd (hn.symm.trans he) nofun, rfl, fun s' i' => ?_⟩
    rw [Dfa.lookup_setEdge, hn]
    simp only [and_true]
  next old hold =>
    split at h
    · cases h
    next ht =>
    cases Option.some.inj h
    refine ⟨fun e he => ?_, rfl, fun s' i' => ?_⟩
    · cases Option.some.inj (hold.symm.trans he)
      exact not_not.mp ht
    · rw [if_neg]
      rintro ⟨-, hnone⟩
      rw [hold] at hnone
      cases hnone

/-- What pushing an edge comes to. -/
structure DfaBuilder.PushedTo (b b' : DfaBuilder A) (s : StateId) (i : Input)
    (to? : Option StateId) (caseSensitive : Bool) (t : StateId) : Prop where
  same : b.EdgePushed b'
  alloc : (∃ e, b.dfa.lookup s i = some e ∧ e.target = t ∧ (∀ x, to? = some x → x = t) ∧
      b'.dfa.numStates = b.dfa.numStates) ∨
    (b.dfa.lookup s i = none ∧ t = to?.getD b.dfa.numStates ∧
      b'.dfa.numStates = b.dfa.numStates + 1)
  back : ∀ s' i' e, b'.dfa.lookup s' i' = some e → b.dfa.lookup s' i' = some e ∨
    (e = ⟨t, none⟩ ∧ s' = s ∧ CaseOf caseSensitive i i' ∧ b.dfa.lookup s' i' = none)
  forth : ∀ s' i' e, b.dfa.lookup s' i' = some e → b'.dfa.lookup s' i' = some e
  edge : ∀ i', CaseOf caseSensitive i i' → ∃ e, b'.dfa.lookup s i' = some e ∧ e.target = t

theorem Dfa.insertOther_some {caseSensitive : Bool}
    (h : dfa.insertOther s i t caseSensitive = some dfa') : dfa'.numStates = dfa.numStates ∧
      (∀ s' i' e, dfa'.lookup s' i' = some e → dfa.lookup s' i' = some e ∨
        (e = ⟨t, none⟩ ∧ s' = s ∧ (caseSensitive = false ∧ otherCase i = some i') ∧
          dfa.lookup s' i' = none)) ∧
      (∀ s' i' e, dfa.lookup s' i' = some e → dfa'.lookup s' i' = some e) ∧
      ∀ o, caseSensitive = false → otherCase i = some o →
        ∃ e, dfa'.lookup s o = some e ∧ e.target = t := by
  unfold Dfa.insertOther at h
  split at h
  next hcs =>
    cases Option.some.inj h
    refine ⟨rfl, fun _ _ _ he => .inl he, fun _ _ _ he => he, fun o ho => ?_⟩
    rw [ho] at hcs
    cases hcs
  next hcs =>
    have hcs : caseSensitive = false := by simpa using hcs
    split at h
    next o ho =>
      obtain ⟨hsame, hn, hl⟩ := Dfa.insertEdge_none h
      refine ⟨hn, fun s' i' e he => ?_, fun s' i' e he => ?_, fun o' _ ho' => ?_⟩
      · rw [hl] at he
        split at he
        next hnew =>
          obtain ⟨hpair, hnone⟩ := hnew
          obtain ⟨rfl, rfl⟩ := Prod.mk.inj hpair
          exact .inr ⟨(Option.some.inj he).symm, rfl, ⟨hcs, ho⟩, hnone⟩
        next => exact .inl he
      · rw [hl, if_neg, he]
        rintro ⟨hpair, hnone⟩
        obtain ⟨rfl, rfl⟩ := Prod.mk.inj hpair
        rw [he] at hnone
        cases hnone
      · cases Option.some.inj (ho.symm.trans ho')
        cases hold : dfa.lookup s o with
        | none => exact ⟨⟨t, none⟩, by rw [hl, if_pos ⟨rfl, hold⟩], rfl⟩
        | some e =>
          refine ⟨e, ?_, hsame e hold⟩
          rw [hl, if_neg, hold]
          rintro ⟨-, hnone⟩
          rw [hold] at hnone
          cases hnone
    next ho =>
      cases Option.some.inj h
      refine ⟨rfl, fun _ _ _ he => .inl he, fun _ _ _ he => he, fun o _ ho' => ?_⟩
      rw [ho'] at ho
      cases ho

namespace DfaBuilder

variable {b b' : DfaBuilder A} {to? : Option StateId} {caseSensitive : Bool}

theorem pushEdgeFrom_some (h : b.pushEdgeFrom s i to? caseSensitive = some (t, b')) :
    b.PushedTo b' s i to? caseSensitive t := by
  have hpushed := pushEdgeFrom_pushed h
  unfold pushEdgeFrom at h
  simp only [Option.bind_eq_bind, Option.bind_eq_some_iff] at h
  obtain ⟨⟨next, d1⟩, hnext, d2, hins, d3, hother, heq⟩ := h
  obtain ⟨rfl, rfl⟩ := Prod.mk.inj (Option.some.inj heq)
  obtain ⟨hsame, hn2, hl2⟩ := Dfa.insertEdge_none hins
  obtain ⟨hn3, hback, hforth, hedge⟩ := Dfa.insertOther_some hother
  simp only at hins hother hsame hn2 hl2
  have hd1 : ∀ s i, d1.lookup s i = b.dfa.lookup s i := by
    rcases Dfa.nextState_some hnext with ⟨e, -, -, rfl⟩ | ⟨-, -, hl, -⟩
    · exact fun _ _ => rfl
    · exact hl
  have hkeep : ∀ s' i' e, b.dfa.lookup s' i' = some e → d2.lookup s' i' = some e := by
    intro s' i' e he
    rw [hl2, hd1, if_neg, hd1, he]
    rintro ⟨hpair, hnone⟩
    obtain ⟨rfl, rfl⟩ := Prod.mk.inj hpair
    rw [he] at hnone
    cases hnone
  have hfirst : ∃ e, d2.lookup s i = some e ∧ e.target = to?.getD next := by
    cases hold : b.dfa.lookup s i with
    | none => exact ⟨⟨to?.getD next, none⟩, by rw [hl2, if_pos ⟨rfl, by rw [hd1, hold]⟩], rfl⟩
    | some e => exact ⟨e, hkeep s i e hold, hsame e (by rw [hd1, hold])⟩
  refine ⟨hpushed, ?_, fun s' i' e he => ?_, fun s' i' e he => hforth s' i' e (hkeep s' i' e he), ?_⟩
  · rcases Dfa.nextState_some hnext with ⟨e, he, rfl, rfl⟩ | ⟨hn, rfl, -, hnum⟩
    · have ht := hsame e he
      refine .inl ⟨e, he, ht, fun x hx => ?_, hn3.trans hn2⟩
      rw [hx]
      rfl
    · exact .inr ⟨hn, rfl, by rw [hn3, hn2, hnum]⟩
  · rcases hback s' i' e he with he | ⟨rfl, rfl, hcase, hnone⟩
    · rw [hl2] at he
      split at he
      next hnew =>
        obtain ⟨hpair, hnone⟩ := hnew
        obtain ⟨rfl, rfl⟩ := Prod.mk.inj hpair
        exact .inr ⟨(Option.some.inj he).symm, rfl, .refl _ _, by rw [← hd1, hnone]⟩
      next => exact .inl (by rw [← hd1, he])
    · refine .inr ⟨rfl, rfl, .inr hcase, ?_⟩
      cases hold : b.dfa.lookup s' i' with
      | none => rfl
      | some e =>
        rw [hkeep s' i' e hold] at hnone
        cases hnone
  · rintro i' (rfl | ⟨hcs, ho⟩)
    · obtain ⟨e, he, ht⟩ := hfirst
      exact ⟨e, hforth s i' e he, ht⟩
    · exact hedge i' hcs ho

end DfaBuilder

end Beeper
