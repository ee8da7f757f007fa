import Beeper.Http1Parser

namespace Beeper.Http1

variable {rd : Rodata} {dfa : Dfa Action} {s c : Nat} {e : Edge Action}

/-- The program follows every edge of the DFA, other than one that cannot be told from an empty
slot, and falls back where there is none. -/
structure Runs (dfa : Dfa Action) (rd : Rodata) : Prop where
  numStates : dfa.numStates ≤ maxStates
  input_lt : ∀ s i e, dfa.lookup s i = some e → i < maxEdges
  edge : ∀ s c e, s < maxStates → dfa.lookup s c = some e → (e.target = 0 → e.action ≠ none) →
    (rd.next s c).1 = e.target ∧ rd.action (rd.next s c).2 = readAction e.action
  anyEdge : ∀ s c e, s < maxStates → dfa.lookup s c = none → dfa.lookup s anyInput = some e →
    (e.target = 0 → e.action ≠ none) →
    (rd.next s c).1 = e.target ∧ rd.action (rd.next s c).2 = readAction e.action
  fallback : ∀ s c, s < maxStates → dfa.lookup s c = none → dfa.lookup s anyInput = none →
    (rd.next s c).1 = sAny ∧ rd.action (rd.next s c).2 = noAction

theorem Injects.runs (h : Injects dfa rd) : Runs dfa rd := by
  obtain ⟨order, hp, hi⟩ := h
  unfold injectDfa at hi
  simp only [bind, Except.bind] at hi
  split at hi
  · cases hi
  next inj hinj =>
  cases hi
  have hr := inject_realises hp hinj
  -- a slot that was written is never mistaken for an empty one
  have hslot : ∀ s c e, dfa.lookup s c = some e → (e.target = 0 → e.action ≠ none) →
      ∃ id, inj.states s c = ⟨e.target, id⟩ ∧ ¬(e.target = 0 ∧ id = 0) ∧
        readAction (inj.action (id % maxActions)) = readAction e.action := by
    intro s c e he hz
    obtain ⟨id, hid, hst, hact, hnone⟩ := hr.edge s c e he
    simp only [limits] at hid
    refine ⟨id, hst, fun hzero => hz hzero.1 (hnone hzero.2), ?_⟩
    rw [Nat.mod_eq_of_lt hid, hact]
  refine ⟨hr.numStates, hr.input_lt, fun s c e hs he hz => ?_, fun s c e hs hc he hz => ?_,
    fun s c hs hc he => ?_⟩
  · obtain ⟨id, hst, hne, hact⟩ := hslot s c e he hz
    have hn : (⟨inj.states, fun id => readAction (inj.action id)⟩ : Rodata).next s c =
        (e.target, id) := by
      unfold Rodata.next
      rw [Nat.mod_eq_of_lt hs]
      simp only [hst, if_neg hne]
    rw [hn]
    exact ⟨rfl, hact⟩
  · obtain ⟨id, hst, hne, hact⟩ := hslot s anyInput e he hz
    have hn : (⟨inj.states, fun id => readAction (inj.action id)⟩ : Rodata).next s c =
        (e.target, id) := by
      have habs := hr.absent s c hc
      have hany : inj.states s Http1.anyEdge = ⟨e.target, id⟩ := hst
      unfold Rodata.next
      rw [Nat.mod_eq_of_lt hs]
      simp only [habs, hany, and_self, if_true, if_neg hne]
    rw [hn]
    exact ⟨rfl, hact⟩
  · have hn : (⟨inj.states, fun id => readAction (inj.action id)⟩ : Rodata).next s c = (sAny, 0) := by
      have habs := hr.absent s c hc
      have hany : inj.states s Http1.anyEdge = ⟨0, 0⟩ := hr.absent s anyInput he
      unfold Rodata.next
      rw [Nat.mod_eq_of_lt hs]
      simp only [habs, hany, and_self, if_true]
    rw [hn]
    refine ⟨rfl, ?_⟩
    have hzero := hr.noop
    unfold Rodata.action
    simp only [Nat.zero_mod, hzero]
    rfl

/-- A DFA that is small enough can be injected. -/
theorem injects_exists (acts : List Action) (hs : dfa.numStates ≤ maxStates)
    (hle : acts.length + 1 ≤ maxActions)
    (h : ∀ s i e, dfa.lookup s i = some e → (∀ a ∈ e.action, a ∈ acts) ∧ i < maxEdges) :
    ∃ rd, Injects dfa rd := by
  have hexists : ∃ inj, inject limits dfa dfa.transitions = .ok inj :=
    inject_exists acts hs hle h (List.Perm.refl _)
  obtain ⟨inj, hinj⟩ := hexists
  refine ⟨⟨inj.states, fun id => readAction (inj.action id)⟩, _, List.Perm.refl _, ?_⟩
  simp only [injectDfa, hinj, bind, Except.bind]

end Beeper.Http1
