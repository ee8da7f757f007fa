import Beeper.DfaEdges

namespace Beeper

/-- The errors of user space, and its panics. -/
inductive Error
  | matchLimitExceeded (limit : Nat)
  | invalidEncoding
  | parserExceedsStateLimit
  | panic
deriving DecidableEq, Repr

def orPanic {α : Type} : Option α → Except Error α
  | some a => .ok a
  | none => .error .panic

/-- The sizes of the arrays a parser program holds its DFA in. -/
structure Limits where
  maxStates : Nat
  maxEdges : Nat
  maxActions : Nat

/-- What `inject` writes into the read-only data of a parser program: the edges, and the actions
in the order of their indices. -/
structure Injected (A : Type) where
  states : Nat → Nat → Trans
  actionIdx : List (Option A)

variable {A : Type}

/-- The transitions of the DFA. They are iterated over in an arbitrary order. -/
def Dfa.transitions (dfa : Dfa A) : List (StateId × Input × Edge A) :=
  dfa.edges.entries.map fun x => (x.1.1, x.1.2, x.2)

/-- The action with the index `id`. -/
def Injected.action (inj : Injected A) (id : Nat) : Option A := (inj.actionIdx[id]?).join

theorem Dfa.transitions_nodup (dfa : Dfa A) :
    (dfa.transitions.map fun x => (x.1, x.2.1)).Nodup := by
  unfold Dfa.transitions
  rw [List.map_map]
  exact dfa.edges.nodupKeys

theorem Dfa.mem_transitions {dfa : Dfa A} {s : StateId} {i : Input} {e : Edge A} :
    (s, i, e) ∈ dfa.transitions ↔ dfa.lookup s i = some e := by
  unfold Dfa.transitions Dfa.lookup
  rw [← Option.mem_def, AList.mem_lookup_iff]
  constructor
  · intro h
    obtain ⟨⟨⟨s', i'⟩, e'⟩, hm, heq⟩ := List.mem_map.mp h
    cases heq
    exact hm
  · intro h
    exact List.mem_map.mpr ⟨_, h, rfl⟩

variable [DecidableEq A]

/-- Writes the transitions one by one, numbering the actions as they come. -/
def injectLoop (lim : Limits) :
    List (StateId × Input × Edge A) → Injected A → Except Error (Injected A)
  | [], inj => .ok inj
  | (source, input, e) :: rest, inj =>
    let actionIdx :=
      if e.action ∈ inj.actionIdx then inj.actionIdx else inj.actionIdx ++ [e.action]
    let action := actionIdx.idxOf e.action
    if lim.maxActions ≤ action then .error .parserExceedsStateLimit
    else if lim.maxEdges ≤ input then .error .parserExceedsStateLimit
    else injectLoop lim rest
      ⟨fun s i => if (s, i) = (source, input) then ⟨e.target, action⟩ else inj.states s i,
        actionIdx⟩

/-- Writes the DFA into the read-only data of the parser program. The action index 0 is reserved
for the noop action. -/
def inject (lim : Limits) (dfa : Dfa A) (order : List (StateId × Input × Edge A)) :
    Except Error (Injected A) :=
  if lim.maxStates < dfa.numStates then .error .parserExceedsStateLimit
  else injectLoop lim order ⟨fun _ _ => ⟨0, 0⟩, [none]⟩

/-- What the loop leaves of the transitions it wrote. -/
structure InjectedAll (lim : Limits) (order : List (StateId × Input × Edge A))
    (inj inj' : Injected A) : Prop where
  actions : inj.actionIdx <+: inj'.actionIdx
  others : ∀ s i, (∀ e, (s, i, e) ∉ order) → inj'.states s i = inj.states s i
  edge : ∀ s i e, (s, i, e) ∈ order →
    inj'.states s i = ⟨e.target, inj'.actionIdx.idxOf e.action⟩ ∧ e.action ∈ inj'.actionIdx ∧
      inj'.actionIdx.idxOf e.action < lim.maxActions ∧ i < lim.maxEdges

theorem injectLoop_ok {lim : Limits} {order : List (StateId × Input × Edge A)}
    {inj inj' : Injected A} (hn : (order.map fun x => (x.1, x.2.1)).Nodup)
    (h : injectLoop lim order inj = .ok inj') : InjectedAll lim order inj inj' := by
  induction order generalizing inj with
  | nil =>
    cases h
    exact ⟨List.prefix_refl _, fun _ _ _ => rfl, fun _ _ _ hm => absurd hm List.not_mem_nil⟩
  | cons x order ih =>
    obtain ⟨source, input, e⟩ := x
    simp only [List.map_cons, List.nodup_cons] at hn
    unfold injectLoop at h
    simp only at h
    generalize hacts : (if e.action ∈ inj.actionIdx then inj.actionIdx
      else inj.actionIdx ++ [e.action]) = acts at h
    split at h
    · cases h
    next hact =>
    split at h
    · cases h
    next hinput =>
    have hr := ih hn.2 h
    have hpre : inj.actionIdx <+: acts := by
      rw [← hacts]
      split
      · exact List.prefix_refl _
      · exact List.prefix_append _ _
    have hmem : e.action ∈ acts := by
      rw [← hacts]
      split
      next hm => exact hm
      next => exact List.mem_append_right _ List.mem_cons_self
    obtain ⟨more, hmore⟩ := hr.actions
    simp only at hmore
    have hidx : inj'.actionIdx.idxOf e.action = acts.idxOf e.action := by
      rw [← hmore, List.idxOf_append_of_mem hmem]
    have hnot : ∀ e', (source, input, e') ∉ order := fun e' hm =>
      hn.1 (List.mem_map.mpr ⟨_, hm, rfl⟩)
    refine ⟨hpre.trans ⟨more, hmore⟩, fun s i hnone => ?_, fun s i e' hm => ?_⟩
    · rw [hr.others s i fun e' hm => hnone e' (List.mem_cons_of_mem _ hm)]
      refine if_neg fun heq => ?_
      obtain ⟨rfl, rfl⟩ := Prod.mk.inj heq
      exact hnone e List.mem_cons_self
    · rcases List.mem_cons.mp hm with heq | hm
      · cases heq
        rw [hr.others source input hnot]
        simp only [if_true, hidx]
        exact ⟨trivial, hmore ▸ List.mem_append_left _ hmem, Nat.not_le.mp hact,
          Nat.not_le.mp hinput⟩
      · exact hr.edge s i e' hm

/-- What the parser program reads out of the data it was loaded with. -/
structure Realises (lim : Limits) (dfa : Dfa A) (inj : Injected A) : Prop where
  numStates : dfa.numStates ≤ lim.maxStates
  absent : ∀ s i, dfa.lookup s i = none → inj.states s i = ⟨0, 0⟩
  edge : ∀ s i e, dfa.lookup s i = some e →
    ∃ id < lim.maxActions, inj.states s i = ⟨e.target, id⟩ ∧ inj.action id = e.action ∧
      (id = 0 → e.action = none)
  input_lt : ∀ s i e, dfa.lookup s i = some e → i < lim.maxEdges
  noop : inj.action 0 = none

theorem inject_realises {lim : Limits} {dfa : Dfa A} {order : List (StateId × Input × Edge A)}
    {inj : Injected A} (hp : order.Perm dfa.transitions) (h : inject lim dfa order = .ok inj) :
    Realises lim dfa inj := by
  unfold inject at h
  split at h
  · cases h
  next hstates =>
  have hmem : ∀ s i e, (s, i, e) ∈ order ↔ dfa.lookup s i = some e := fun s i e =>
    hp.mem_iff.trans Dfa.mem_transitions
  have hr := injectLoop_ok ((hp.map _).nodup_iff.mpr dfa.transitions_nodup) h
  obtain ⟨more, hmore⟩ := hr.actions
  have hzero : inj.actionIdx[0]? = some none := by
    rw [← hmore]
    rfl
  refine ⟨Nat.not_lt.mp hstates, fun s i hn => ?_, fun s i e he => ?_, fun s i e he =>
    (hr.edge s i e ((hmem s i e).mpr he)).2.2.2, by simp [Injected.action, hzero]⟩
  · rw [hr.others s i]
    intro e hm
    rw [hmem, hn] at hm
    cases hm
  · obtain ⟨hs, hin, hlt, -⟩ := hr.edge s i e ((hmem s i e).mpr he)
    have hget : inj.actionIdx[inj.actionIdx.idxOf e.action]? = some e.action := by
      rw [List.getElem?_eq_getElem (List.idxOf_lt_length_of_mem hin), List.getElem_idxOf]
    refine ⟨_, hlt, hs, ?_, fun hz => ?_⟩
    · simp [Injected.action, hget]
    · rw [hz, hzero] at hget
      exact (Option.some.inj hget).symm

/-- A DFA that is small enough can be injected, in whatever order. -/
theorem injectLoop_exists {lim : Limits} {order : List (StateId × Input × Edge A)}
    {inj : Injected A} (acts : List (Option A)) (hle : acts.length ≤ lim.maxActions)
    (hin : ∀ a ∈ inj.actionIdx, a ∈ acts) (hnodup : inj.actionIdx.Nodup)
    (h : ∀ x ∈ order, x.2.2.action ∈ acts ∧ x.2.1 < lim.maxEdges) :
    ∃ inj', injectLoop lim order inj = .ok inj' := by
  induction order generalizing inj with
  | nil => exact ⟨inj, rfl⟩
  | cons x order ih =>
    obtain ⟨source, input, e⟩ := x
    obtain ⟨ha, hi⟩ := h _ List.mem_cons_self
    simp only at ha hi
    unfold injectLoop
    simp only
    generalize hacts : (if e.action ∈ inj.actionIdx then inj.actionIdx
      else inj.actionIdx ++ [e.action]) = ids
    have hids : (∀ a ∈ ids, a ∈ acts) ∧ ids.Nodup ∧ e.action ∈ ids := by
      rw [← hacts]
      split
      next hm => exact ⟨hin, hnodup, hm⟩
      next hm =>
        refine ⟨fun a hma => ?_, ?_, List.mem_append_right _ List.mem_cons_self⟩
        · rcases List.mem_append.mp hma with hma | hma
          · exact hin a hma
          · rw [List.mem_singleton.mp hma]
            exact ha
        · rw [List.nodup_append]
          refine ⟨hnodup, List.nodup_singleton _, fun a hma b hb hab => hm ?_⟩
          rw [← List.mem_singleton.mp hb, ← hab]
          exact hma
    have hlen := (List.subperm_of_subset hids.2.1 hids.1).length_le
    have hlt := List.idxOf_lt_length_of_mem hids.2.2
    have hact : ¬lim.maxActions ≤ ids.idxOf e.action := by omega
    rw [if_neg hact, if_neg (Nat.not_le.mpr hi)]
    exact ih hids.1 hids.2.1 fun x hx => h x (List.mem_cons_of_mem _ hx)

theorem inject_exists {lim : Limits} {dfa : Dfa A} (acts : List A)
    (hs : dfa.numStates ≤ lim.maxStates) (hle : acts.length + 1 ≤ lim.maxActions)
    (h : ∀ s i e, dfa.lookup s i = some e → (∀ a ∈ e.action, a ∈ acts) ∧ i < lim.maxEdges)
    {order : List (StateId × Input × Edge A)} (hp : order.Perm dfa.transitions) :
    ∃ inj, inject lim dfa order = .ok inj := by
  unfold inject
  rw [if_neg (Nat.not_lt.mpr hs)]
  refine injectLoop_exists (none :: acts.map some) (by simpa using hle) (by simp)
    (List.nodup_singleton _) ?_
  rintro ⟨s, i, e⟩ hx
  obtain ⟨ha, hi⟩ := h s i e (Dfa.mem_transitions.mp (hp.mem_iff.mp hx))
  refine ⟨?_, hi⟩
  cases hact : e.action with
  | none => exact List.mem_cons_self
  | some a => exact List.mem_cons_of_mem _ (List.mem_map.mpr ⟨a, ha a hact, rfl⟩)

end Beeper
