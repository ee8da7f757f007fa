import Beeper.DfaEdges

namespace Beeper

namespace DfaBuilder

variable {A : Type} {b b' : DfaBuilder A}

theorem nextState_extends {dfa dfa' : Dfa A} {source : StateId} {input : Input} {id : StateId}
    (h : dfa.nextState source input = some (id, dfa')) : dfa.Extends dfa' := by
  rcases Dfa.nextState_some h with ⟨e, -, -, rfl⟩ | ⟨-, -, hl, hn⟩
  · exact .refl _
  · exact ⟨by omega, Dfa.nextState_counted h, fun s i e he => ⟨e, by rw [hl, he], rfl, fun _ ha => ha⟩⟩

variable [DecidableEq A]

theorem insertOther_extends {dfa dfa' : Dfa A} {source target : StateId} {input : Input}
    {caseSensitive : Bool} (h : dfa.insertOther source input target caseSensitive = some dfa') :
    dfa.Extends dfa' := by
  unfold Dfa.insertOther at h
  split at h
  · cases Option.some.inj h
    exact .refl _
  · split at h
    · exact (Dfa.insertEdge_some h).ext
    · cases Option.some.inj h
      exact .refl _

theorem addOther_extends {dfa dfa' : Dfa A} {source : StateId} {input : Input} {action : A}
    {caseSensitive : Bool} (h : dfa.addOther source input action caseSensitive = some dfa') :
    dfa.Extends dfa' := by
  unfold Dfa.addOther at h
  split at h
  · cases Option.some.inj h
    exact .refl _
  · split at h
    · exact (Dfa.addAction_some h).ext
    · cases Option.some.inj h
      exact .refl _

/-- What a step of the builder leaves of the fields of its own. -/
structure EdgePushed (b b' : DfaBuilder A) : Prop where
  ext : b.dfa.Extends b'.dfa
  state : b'.state = b.state
  optionalPrefixes : b'.optionalPrefixes = b.optionalPrefixes
  optionalStates : b'.optionalStates = b.optionalStates
  lastEdges : b'.lastEdges = b.lastEdges

theorem pushEdgeFrom_pushed {source target : StateId} {input : Input}
    {to? : Option StateId} {caseSensitive : Bool}
    (h : b.pushEdgeFrom source input to? caseSensitive = some (target, b')) :
    b.EdgePushed b' := by
  unfold pushEdgeFrom at h
  simp only [Option.bind_eq_bind, Option.bind_eq_some_iff] at h
  obtain ⟨⟨next, d1⟩, h1, d2, h2, d3, h3, h4⟩ := h
  cases Option.some.inj h4
  exact ⟨(nextState_extends h1).trans ((Dfa.insertEdge_some h2).ext.trans
    (insertOther_extends h3)), rfl, rfl, rfl, rfl⟩

theorem pushPrefixInputs_extends {source state target : StateId} {p : OptionalPrefix}
    {inputs : List Input} (h : pushPrefixInputs source p inputs state b = some (target, b')) :
    b.dfa.Extends b'.dfa := by
  induction inputs generalizing state b with
  | nil =>
    cases Option.some.inj h
    exact .refl _
  | cons input inputs ih =>
    cases inputs with
    | nil => exact (pushEdgeFrom_pushed h).ext
    | cons input' inputs =>
      simp only [pushPrefixInputs, Option.bind_eq_bind, Option.bind_eq_some_iff] at h
      obtain ⟨⟨s, b1⟩, h1, h2⟩ := h
      exact (pushEdgeFrom_pushed h1).ext.trans (ih h2)

theorem pushPrefixSources_extends {p : OptionalPrefix} {sources : List StateId}
    (h : pushPrefixSources p sources b = some b') : b.dfa.Extends b'.dfa := by
  induction sources generalizing b with
  | nil =>
    cases Option.some.inj h
    exact .refl _
  | cons source sources ih =>
    simp only [pushPrefixSources, Option.bind_eq_bind, Option.bind_eq_some_iff] at h
    obtain ⟨⟨s, b1⟩, h1, h2⟩ := h
    have hext := ih h2
    refine (pushPrefixInputs_extends h1).trans ?_
    split at hext
    · exact hext
    · exact hext

theorem pushPrefixes_extends {ps : List OptionalPrefix} (h : pushPrefixes ps b = some b') :
    b.dfa.Extends b'.dfa := by
  induction ps generalizing b with
  | nil =>
    cases Option.some.inj h
    exact .refl _
  | cons p ps ih =>
    simp only [pushPrefixes, Option.bind_eq_bind, Option.bind_eq_some_iff] at h
    obtain ⟨b1, h1, h2⟩ := h
    exact (pushPrefixSources_extends h1).trans (ih h2)

theorem pushStates_extends {input : Input} {target : StateId} {caseSensitive : Bool}
    {states : List StateId} (h : pushStates input target caseSensitive states b = some b') :
    b.dfa.Extends b'.dfa := by
  induction states generalizing b with
  | nil =>
    cases Option.some.inj h
    exact .refl _
  | cons state states ih =>
    simp only [pushStates, Option.bind_eq_bind, Option.bind_eq_some_iff] at h
    obtain ⟨⟨s, b1⟩, h1, h2⟩ := h
    have hext := ih h2
    exact (pushEdgeFrom_pushed h1).ext.trans hext

theorem pushEdge_extends {input : Input} {to? : Option StateId} {caseSensitive : Bool}
    (h : b.pushEdge input to? caseSensitive = some b') : b.dfa.Extends b'.dfa := by
  simp only [pushEdge, Option.bind_eq_bind, Option.bind_eq_some_iff] at h
  obtain ⟨b1, h1, ⟨s, b2⟩, h2, b3, h3, h4⟩ := h
  cases Option.some.inj h4
  have hext := pushStates_extends h3
  exact (pushPrefixes_extends h1).trans ((pushEdgeFrom_pushed h2).ext.trans hext)

theorem addActions_extends {action : A} {edges : List (StateId × Input × Bool)} {dfa dfa' : Dfa A}
    (h : addActions action edges dfa = some dfa') : dfa.Extends dfa' := by
  induction edges generalizing dfa with
  | nil =>
    cases Option.some.inj h
    exact .refl _
  | cons e edges ih =>
    obtain ⟨source, input, caseSensitive⟩ := e
    simp only [addActions, Option.bind_eq_bind, Option.bind_eq_some_iff] at h
    obtain ⟨d1, h1, d2, h2, h3⟩ := h
    exact (Dfa.addAction_some h1).ext.trans ((addOther_extends h2).trans (ih h3))

theorem withAction_extends {action : A} (h : b.withAction action = some b') :
    b.dfa.Extends b'.dfa := by
  simp only [withAction, Option.bind_eq_bind, Option.bind_eq_some_iff] at h
  obtain ⟨b1, h1, d, h2, h3⟩ := h
  cases Option.some.inj h3
  exact (pushPrefixes_extends h1).trans (addActions_extends h2)

theorem pushInner_extends {input : Bytes} {caseSensitive : Bool}
    (h : pushInner input caseSensitive b = some b') : b.dfa.Extends b'.dfa := by
  induction input generalizing b with
  | nil =>
    cases Option.some.inj h
    exact .refl _
  | cons c cs ih =>
    simp only [pushInner, Option.bind_eq_bind, Option.bind_eq_some_iff] at h
    obtain ⟨b1, h1, h2⟩ := h
    exact (pushEdge_extends h1).trans (ih h2)

theorem pushTo_extends {last : StateId} {input : Bytes} {caseSensitive : Bool}
    (h : pushTo last caseSensitive input b = some b') : b.dfa.Extends b'.dfa := by
  induction input generalizing b with
  | nil =>
    cases Option.some.inj h
    exact .refl _
  | cons c cs ih =>
    simp only [pushTo, Option.bind_eq_bind, Option.bind_eq_some_iff] at h
    obtain ⟨b1, h1, h2⟩ := h
    exact (pushEdge_extends h1).trans (ih h2)

theorem pushAnys_extends {n : Nat} (h : pushAnys n b = some b') : b.dfa.Extends b'.dfa := by
  induction n generalizing b with
  | zero =>
    cases Option.some.inj h
    exact .refl _
  | succ n ih =>
    simp only [pushAnys, Option.bind_eq_bind, Option.bind_eq_some_iff] at h
    obtain ⟨b1, h1, h2⟩ := h
    exact (pushEdge_extends h1).trans (ih h2)

theorem pushAny_extends {minLen : Nat} {maxLen : Option Nat} (h : b.pushAny minLen maxLen = some b') :
    b.dfa.Extends b'.dfa := by
  unfold pushAny at h
  simp only [Option.bind_eq_bind] at h
  split at h
  · cases h
  obtain ⟨-, -, h⟩ := Option.bind_eq_some_iff.mp h
  obtain ⟨b1, h1, h2⟩ := Option.bind_eq_some_iff.mp h
  cases maxLen with
  | some maxLen =>
    cases Option.some.inj h2
    have hext := pushAnys_extends h1
    exact hext
  | none =>
    obtain ⟨⟨u, b2⟩, h3, heq⟩ := Option.bind_eq_some_iff.mp h2
    cases Option.some.inj heq
    have hext := (pushEdgeFrom_pushed h3).ext
    exact (pushAnys_extends h1).trans hext

theorem pushOthers_extends {start last : StateId} {inputs : List Bytes}
    {edges : List (StateId × Input × Bool)}
    (h : pushOthers start last inputs edges b = some b') : b.dfa.Extends b'.dfa := by
  induction inputs generalizing b edges with
  | nil =>
    cases Option.some.inj h
    exact .refl _
  | cons x inputs ih =>
    simp only [pushOthers, Option.bind_eq_bind] at h
    split at h
    · cases h
    obtain ⟨-, -, h⟩ := Option.bind_eq_some_iff.mp h
    obtain ⟨b1, h1, h2⟩ := Option.bind_eq_some_iff.mp h
    have hext := pushTo_extends h1
    have hext' := ih h2
    exact hext.trans hext'

theorem pushOptionsCi_extends {inputs : List Bytes} (h : b.pushOptionsCi inputs = some b') :
    b.dfa.Extends b'.dfa := by
  unfold pushOptionsCi at h
  split at h
  next =>
    cases Option.some.inj h
    exact .refl _
  next =>
    simp only [Option.bind_eq_bind, Option.bind_eq_some_iff] at h
    obtain ⟨b1, h1, h2⟩ := h
    have hext := pushOthers_extends h2
    exact (pushInner_extends h1).trans hext

theorem restartStates_extends {state last : StateId} {input : Bytes}
    (h : restartStates input state b = some (last, b')) : b.dfa.Extends b'.dfa := by
  induction input generalizing state b with
  | nil =>
    cases Option.some.inj h
    exact .refl _
  | cons c cs ih =>
    simp only [restartStates, Option.bind_eq_bind, Option.bind_eq_some_iff] at h
    obtain ⟨⟨next, d⟩, hnext, ⟨u, b1⟩, h1, h2⟩ := h
    exact (nextState_extends hnext).trans ((pushEdgeFrom_pushed h1).ext.trans (ih h2))

theorem restartWith_extends {input : Bytes} (h : b.restartWith input = some b') :
    b.dfa.Extends b'.dfa := by
  simp only [restartWith, Option.bind_eq_bind, Option.bind_eq_some_iff] at h
  obtain ⟨⟨last, b1⟩, h1, h2⟩ := h
  exact (restartStates_extends h1).trans (pushTo_extends h2)

end DfaBuilder

theorem pushEdgeFrom_target {A : Type} [DecidableEq A] {b b' : DfaBuilder A} {s t x : StateId}
    {i : Input} {cs : Bool}
    (h : b.pushEdgeFrom s i (some x) cs = some (t, b')) : t = x := by
  unfold DfaBuilder.pushEdgeFrom at h
  simp only [Option.bind_eq_bind, Option.bind_eq_some_iff] at h
  obtain ⟨⟨next, d1⟩, -, d2, -, d3, -, h4⟩ := h
  cases Option.some.inj h4
  rfl

/-- Without any prefixes there is nothing to build first. -/
theorem pushOptionalPrefixes_nil {A : Type} [DecidableEq A] {b : DfaBuilder A}
    (h : b.optionalPrefixes = []) :
    b.pushOptionalPrefixes = some b := by
  unfold DfaBuilder.pushOptionalPrefixes
  rw [h]
  obtain ⟨dfa, state, prefixes, states, edges⟩ := b
  cases h
  rfl

end Beeper
