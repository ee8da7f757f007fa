import Beeper.Dfa

namespace Beeper

variable {A : Type} {dfa dfa' dfa'' : Dfa A} {source : StateId} {input : Input}

theorem otherCase_iff {n i : Nat} : otherCase n = some i ↔
    (0x61 ≤ n ∧ n ≤ 0x7a ∧ i = n - 0x20) ∨ (0x41 ≤ n ∧ n ≤ 0x5a ∧ i = n + 0x20) := by
  have hcase : otherCase n = if 0x61 ≤ n ∧ n ≤ 0x7a then some (n - 0x20)
      else if 0x41 ≤ n ∧ n ≤ 0x5a then some (n + 0x20) else (none : Option Nat) := rfl
  rw [hcase]
  split <;> [skip; split] <;> simp only [Option.some.injEq, reduceCtorEq, false_iff] <;> omega

/-- The transition a state takes for a byte, and the action it carries: its own, the one of any byte
if it has none, and back to the fallback state without either. -/
def Dfa.transition (dfa : Dfa A) (s : StateId) (i : Input) : StateId × Option A :=
  match dfa.lookup s i with
  | some e => (e.target, e.action)
  | none =>
    match dfa.lookup s anyInput with
    | some e => (e.target, e.action)
    | none => (anyState, none)

/-- Every edge of `dfa` is one of `dfa'` as well, where it may have got an action, and the states that
`dfa'` has more are ones that the counter holds. -/
structure Dfa.Extends (dfa dfa' : Dfa A) : Prop where
  numStates : dfa.numStates ≤ dfa'.numStates
  counted : dfa'.numStates = dfa.numStates ∨ dfa'.numStates < 2 ^ 16
  edge : ∀ s i e, dfa.lookup s i = some e →
    ∃ e', dfa'.lookup s i = some e' ∧ e'.target = e.target ∧ ∀ a ∈ e.action, e'.action = some a

theorem Dfa.Extends.refl (dfa : Dfa A) : dfa.Extends dfa :=
  ⟨Nat.le_refl _, .inl rfl, fun _ _ e h => ⟨e, h, rfl, fun _ ha => ha⟩⟩

theorem Dfa.Extends.trans (h : dfa.Extends dfa') (h' : dfa'.Extends dfa'') :
    dfa.Extends dfa'' := by
  have hcounted : dfa''.numStates = dfa.numStates ∨ dfa''.numStates < 2 ^ 16 := by
    have hfirst := h.counted
    have hsecond := h'.counted
    omega
  refine ⟨Nat.le_trans h.numStates h'.numStates, hcounted, fun s i e he => ?_⟩
  obtain ⟨e', he', ht, ha⟩ := h.edge s i e he
  obtain ⟨e'', he'', ht', ha'⟩ := h'.edge s i e' he'
  exact ⟨e'', he'', ht'.trans ht, fun a hm => ha' a (ha a hm)⟩

@[simp] theorem Dfa.lookup_empty (n : Nat) : (⟨n, ∅⟩ : Dfa A).lookup source input = none :=
  AList.lookup_empty _

theorem Dfa.lookup_setEdge (dfa : Dfa A) (source : StateId) (input : Input) (e : Edge A)
    (s : StateId) (i : Input) : (dfa.setEdge source input e).lookup s i =
      if (s, i) = (source, input) then some e else dfa.lookup s i := by
  unfold Dfa.lookup Dfa.setEdge
  split
  next h => rw [h, AList.lookup_insert]
  next h => exact AList.lookup_insert_ne h

@[simp] theorem Dfa.setEdge_numStates (dfa : Dfa A) (e : Edge A) :
    (dfa.setEdge source input e).numStates = dfa.numStates := rfl

theorem Dfa.newState_some {id : StateId} (h : dfa.newState = some (id, dfa')) :
    id = dfa.numStates ∧ dfa'.edges = dfa.edges ∧ dfa'.numStates = dfa.numStates + 1 := by
  unfold Dfa.newState at h
  split at h
  · cases Option.some.inj h
    exact ⟨rfl, rfl, rfl⟩
  · cases h

/-- What asking for the next state comes to: it is there, or a new one. -/
theorem Dfa.nextState_some {id : StateId} (h : dfa.nextState source input = some (id, dfa')) :
    (∃ e, dfa.lookup source input = some e ∧ id = e.target ∧ dfa' = dfa) ∨
      (dfa.lookup source input = none ∧ id = dfa.numStates ∧
        (∀ s i, dfa'.lookup s i = dfa.lookup s i) ∧ dfa'.numStates = dfa.numStates + 1) := by
  unfold Dfa.nextState at h
  split at h
  next e he =>
    cases Option.some.inj h
    exact .inl ⟨e, he, rfl, rfl⟩
  next hn =>
    obtain ⟨hid, hedges, hstates⟩ := Dfa.newState_some h
    exact .inr ⟨hn, hid, fun s i => by unfold Dfa.lookup; rw [hedges], hstates⟩

/-- The counter of the states does not overflow. -/
theorem Dfa.nextState_counted {id : StateId} (h : dfa.nextState source input = some (id, dfa')) :
    dfa'.numStates = dfa.numStates ∨ dfa'.numStates < 2 ^ 16 := by
  unfold Dfa.nextState Dfa.newState at h
  split at h
  · cases Option.some.inj h
    exact .inl rfl
  · split at h
    next hlt =>
      cases Option.some.inj h
      exact .inr hlt
    next => cases h

theorem Dfa.nextState_edge {e : Edge A} (h : dfa.lookup source input = some e) :
    dfa.nextState source input = some (e.target, dfa) := by
  unfold Dfa.nextState
  rw [h]

/-- An edge that was set carries on the one that was there. -/
theorem Dfa.Extends.setEdge {e : Edge A}
    (h : ∀ old, dfa.lookup source input = some old →
      e.target = old.target ∧ ∀ a ∈ old.action, e.action = some a) :
    dfa.Extends (dfa.setEdge source input e) := by
  refine ⟨Nat.le_refl _, .inl rfl, fun s i old hold => ?_⟩
  rw [Dfa.lookup_setEdge]
  split
  next heq =>
    obtain ⟨rfl, rfl⟩ := Prod.mk.inj heq
    exact ⟨e, rfl, h old hold⟩
  next => exact ⟨old, hold, rfl, fun _ ha => ha⟩

variable [DecidableEq A] {target : StateId}

/-- What inserting an edge comes to. -/
structure Dfa.EdgeInserted (dfa dfa' : Dfa A) (source : StateId) (input : Input)
    (target : StateId) (action : Option A) : Prop where
  same : ∀ old, dfa.lookup source input = some old → old.target = target
  numStates : dfa'.numStates = dfa.numStates
  edge : ∃ a, dfa'.lookup source input = some ⟨target, a⟩ ∧
    (a = action ∨ action = none ∧ ∃ old, dfa.lookup source input = some old ∧ old.action = a)
  others : ∀ s i, (s, i) ≠ (source, input) → dfa'.lookup s i = dfa.lookup s i
  ext : dfa.Extends dfa'

theorem Dfa.insertEdge_some {action : Option A}
    (h : dfa.insertEdge source input target action = some dfa') :
    dfa.EdgeInserted dfa' source input target action := by
  unfold Dfa.insertEdge at h
  split at h
  next hn =>
    cases Option.some.inj h
    have habs : ∀ old, dfa.lookup source input ≠ some old := fun old hold => by simp [hn] at hold
    refine ⟨fun old hold => absurd hold (habs old), rfl, ⟨action, ?_, .inl rfl⟩,
      fun s i hne => ?_, .setEdge fun old hold => absurd hold (habs old)⟩
    · rw [Dfa.lookup_setEdge, if_pos rfl]
    · rw [Dfa.lookup_setEdge, if_neg hne]
  next old hold =>
    split at h
    · cases h
    next ht =>
    have ht : old.target = target := by simpa using ht
    have htarget : ∀ e, dfa.lookup source input = some e → e.target = target := by
      intro e he
      rw [hold] at he
      cases he
      exact ht
    subst ht
    split at h
    next =>
      cases Option.some.inj h
      exact ⟨htarget, rfl, ⟨old.action, hold, .inr ⟨rfl, old, hold, rfl⟩⟩, fun _ _ _ => rfl,
        .refl _⟩
    next a ho =>
      cases Option.some.inj h
      refine ⟨htarget, rfl, ⟨some a, ?_, .inl rfl⟩, fun s i hne => ?_, .setEdge fun e he => ?_⟩
      · rw [Dfa.lookup_setEdge, if_pos rfl]
      · rw [Dfa.lookup_setEdge, if_neg hne]
      · rw [hold] at he
        cases he
        refine ⟨rfl, fun b hb => ?_⟩
        rw [ho] at hb
        cases hb
    next a b ho =>
      split at h
      next hab =>
        cases Option.some.inj h
        subst hab
        exact ⟨htarget, rfl, ⟨some a, by rw [hold, ← ho], .inl rfl⟩, fun _ _ _ => rfl, .refl _⟩
      next => cases h

/-- An edge that is not there yet can be inserted. -/
theorem Dfa.insertEdge_new (target : StateId) (action : Option A) (h : dfa.lookup source input = none) :
    dfa.insertEdge source input target action =
      some (dfa.setEdge source input ⟨target, action⟩) := by
  unfold Dfa.insertEdge
  rw [h]

/-- What adding an action comes to. -/
structure Dfa.ActionAdded (dfa dfa' : Dfa A) (source : StateId) (input : Input) (action : A) :
    Prop where
  edge : ∃ old, dfa.lookup source input = some old ∧ (∀ a ∈ old.action, a = action) ∧
    dfa'.lookup source input = some ⟨old.target, some action⟩
  numStates : dfa'.numStates = dfa.numStates
  others : ∀ s i, (s, i) ≠ (source, input) → dfa'.lookup s i = dfa.lookup s i
  ext : dfa.Extends dfa'

theorem Dfa.addAction_some {action : A} (h : dfa.addAction source input action = some dfa') :
    dfa.ActionAdded dfa' source input action := by
  have hset : ∀ old, dfa.lookup source input = some old → (∀ a ∈ old.action, a = action) →
      dfa.ActionAdded (dfa.setEdge source input ⟨old.target, some action⟩) source input action := by
    intro old hold ha
    refine ⟨⟨old, hold, ha, ?_⟩, rfl, fun s i hne => ?_, .setEdge fun e he => ?_⟩
    · rw [Dfa.lookup_setEdge, if_pos rfl]
    · rw [Dfa.lookup_setEdge, if_neg hne]
    · rw [hold] at he
      cases he
      exact ⟨rfl, fun a hm => by rw [ha a hm]⟩
  unfold Dfa.addAction at h
  split at h
  · cases h
  next old hold =>
  split at h
  next hn =>
    cases Option.some.inj h
    exact hset old hold fun a hm => by rw [hn] at hm; cases hm
  next a ha =>
    split at h
    next heq =>
      cases Option.some.inj h
      exact hset old hold fun b hm => by rw [ha] at hm; cases hm; exact heq
    next => cases h

/-- The inserts of a whole table of edges, one after the other. -/
def Dfa.insertEdges : List (StateId × Input × StateId × A) → Dfa A → Option (Dfa A)
  | [], dfa => some dfa
  | (source, input, target, action) :: edges, dfa => do
    let dfa ← dfa.insertEdge source input target (some action)
    Dfa.insertEdges edges dfa

theorem Dfa.insertEdges_append (xs ys : List (StateId × Input × StateId × A)) (dfa : Dfa A) :
    Dfa.insertEdges (xs ++ ys) dfa = (Dfa.insertEdges xs dfa).bind (Dfa.insertEdges ys) := by
  induction xs generalizing dfa with
  | nil => rfl
  | cons x xs ih =>
    obtain ⟨s, i, t, a⟩ := x
    simp only [List.cons_append, Dfa.insertEdges]
    cases dfa.insertEdge s i t (some a) with
    | none => rfl
    | some dfa => exact ih dfa

/-- All edges of a table are there once it was inserted, and nothing else is new. -/
theorem Dfa.insertEdges_some {edges : List (StateId × Input × StateId × A)}
    (h : Dfa.insertEdges edges dfa = some dfa') :
    dfa.Extends dfa' ∧ dfa'.numStates = dfa.numStates ∧
      (∀ s i t a, (s, i, t, a) ∈ edges → dfa'.lookup s i = some ⟨t, some a⟩) ∧
      ∀ s i, (∀ t a, (s, i, t, a) ∉ edges) → dfa'.lookup s i = dfa.lookup s i := by
  induction edges generalizing dfa with
  | nil =>
    cases Option.some.inj h
    exact ⟨.refl _, rfl, fun _ _ _ _ hm => absurd hm List.not_mem_nil, fun _ _ _ => rfl⟩
  | cons x edges ih =>
    obtain ⟨s, i, t, a⟩ := x
    simp only [Dfa.insertEdges, Option.bind_eq_bind] at h
    obtain ⟨d, hd, h⟩ := Option.bind_eq_some_iff.mp h
    have hi := Dfa.insertEdge_some hd
    obtain ⟨hext, hn, hmem, hother⟩ := ih h
    refine ⟨hi.ext.trans hext, hn.trans hi.numStates, ?_, ?_⟩
    · intro s' i' t' a' hm
      rcases List.mem_cons.mp hm with heq | hm
      · cases heq
        obtain ⟨b, hb, hab⟩ := hi.edge
        have hb' : b = some a := by
          rcases hab with hab | ⟨hab, -⟩
          · exact hab
          · cases hab
        subst hb'
        obtain ⟨e', he', ht, ha⟩ := hext.edge _ _ _ hb
        rw [he']
        obtain ⟨t', a'⟩ := e'
        simp only at ht ha
        rw [ht, ha a rfl]
      · exact hmem s' i' t' a' hm
    · intro s' i' hnone
      rw [hother s' i' fun t' a' hm => hnone t' a' (List.mem_cons_of_mem _ hm)]
      refine hi.others s' i' fun heq => ?_
      obtain ⟨rfl, rfl⟩ := Prod.mk.inj heq
      exact hnone t a List.mem_cons_self

/-- A table whose edges are all new and distinct can be inserted. -/
theorem Dfa.insertEdges_exists {edges : List (StateId × Input × StateId × A)}
    (hn : (edges.map fun x => (x.1, x.2.1)).Nodup)
    (hnew : ∀ x ∈ edges, dfa.lookup x.1 x.2.1 = none) :
    ∃ dfa', Dfa.insertEdges edges dfa = some dfa' := by
  induction edges generalizing dfa with
  | nil => exact ⟨dfa, rfl⟩
  | cons x edges ih =>
    obtain ⟨s, i, t, a⟩ := x
    simp only [List.map_cons, List.nodup_cons] at hn
    have hi := Dfa.insertEdge_new t (some a) (hnew _ List.mem_cons_self)
    simp only [Dfa.insertEdges, hi, Option.bind_eq_bind, Option.bind_some]
    refine ih hn.2 fun x hx => ?_
    rw [Dfa.lookup_setEdge, if_neg, hnew x (List.mem_cons_of_mem _ hx)]
    intro heq
    exact hn.1 (List.mem_map.mpr ⟨x, hx, heq⟩)

end Beeper
