import Beeper.EdgePushes

namespace Beeper

variable {A : Type}

/-- No edge leads to the state `t`. -/
structure Dfa.Avoids (dfa : Dfa A) (t : Nat) : Prop where
  lt : t < dfa.numStates
  target : ∀ s i e, dfa.lookup s i = some e → e.target ≠ t

/-- No edge leads to the state `t`, nor do the prefixes that are still to be built in front of the
next input. -/
structure DfaBuilder.Avoids (b : DfaBuilder A) (t : Nat) : Prop where
  dfa : b.dfa.Avoids t
  options : t ∉ b.optionalStates
  loops : b.state = t → ∀ p ∈ b.optionalPrefixes, p.repeats = false

namespace DfaBuilder

variable {b b' : DfaBuilder A} {s u source state last : StateId} {t : Nat} {i : Input}
  {to? : Option StateId} {caseSensitive : Bool} {p : OptionalPrefix} {bytes : Bytes} {action : A}

theorem pushOptional_avoids {repeats : Bool} (hb : b.Avoids t)
    (hs : b.state = t → repeats = false) : (b.pushOptional bytes repeats).Avoids t := by
  refine ⟨hb.dfa, hb.options, fun heq p hp => ?_⟩
  rcases List.mem_append.mp hp with hp | hp
  · exact hb.loops heq p hp
  · rw [List.mem_singleton.mp hp]
    exact hs heq

variable [DecidableEq A]

theorem pushEdgeFrom_avoids (hb : b.dfa.Avoids t) (hx : to? ≠ some t)
    (h : b.pushEdgeFrom s i to? caseSensitive = some (u, b')) : b'.dfa.Avoids t ∧ u ≠ t := by
  have hp := pushEdgeFrom_some h
  have hlt := hb.lt
  have hu : u ≠ t ∧ b.dfa.numStates ≤ b'.dfa.numStates := by
    rcases hp.alloc with ⟨e, he, rfl, -, hn⟩ | ⟨-, rfl, hn⟩
    · exact ⟨hb.target _ _ _ he, Nat.le_of_eq hn.symm⟩
    · refine ⟨?_, by omega⟩
      cases to? with
      | none => exact Nat.ne_of_gt hlt
      | some x => exact fun heq => hx (congrArg some heq)
  refine ⟨⟨Nat.lt_of_lt_of_le hlt hu.2, fun s' i' e he => ?_⟩, hu.1⟩
  rcases hp.back s' i' e he with he | ⟨rfl, -⟩
  · exact hb.target _ _ _ he
  · exact hu.1

theorem pushPrefixInputs_same {inputs : List Input}
    (h : pushPrefixInputs source p inputs state b = some (u, b')) : b'.state = b.state ∧
      b'.optionalStates = b.optionalStates ∧ b'.optionalPrefixes = b.optionalPrefixes := by
  induction inputs generalizing state b with
  | nil =>
    obtain ⟨rfl, rfl⟩ := Prod.mk.inj (Option.some.inj h)
    exact ⟨rfl, rfl, rfl⟩
  | cons i inputs ih =>
    cases inputs with
    | nil =>
      have hpushed := pushEdgeFrom_pushed h
      exact ⟨hpushed.state, hpushed.optionalStates, hpushed.optionalPrefixes⟩
    | cons j inputs =>
      simp only [pushPrefixInputs, Option.bind_eq_bind, Option.bind_eq_some_iff] at h
      obtain ⟨⟨s1, b1⟩, h1, h2⟩ := h
      have hpushed := pushEdgeFrom_pushed h1
      obtain ⟨hstate, hopts, hpre⟩ := ih h2
      exact ⟨hstate.trans hpushed.state, hopts.trans hpushed.optionalStates,
        hpre.trans hpushed.optionalPrefixes⟩

theorem pushPrefixInputs_avoids {inputs : List Input} (hb : b.dfa.Avoids t)
    (hs : p.repeats = true → source ≠ t)
    (h : pushPrefixInputs source p inputs state b = some (u, b')) :
    b'.dfa.Avoids t ∧ (inputs = [] ∧ u = state ∨ u ≠ t) := by
  induction inputs generalizing state b with
  | nil =>
    obtain ⟨rfl, rfl⟩ := Prod.mk.inj (Option.some.inj h)
    exact ⟨hb, .inl ⟨rfl, rfl⟩⟩
  | cons i inputs ih =>
    cases inputs with
    | nil =>
      have hne : (if p.repeats then some source else none) ≠ some t := by
        split
        next hr => exact fun heq => hs hr (Option.some.inj heq)
        next => exact (Option.some_ne_none t).symm
      obtain ⟨hd, hu⟩ := pushEdgeFrom_avoids
        (b := { b with lastEdges := b.lastEdges ++ [(state, i, p.caseSensitive)] }) hb hne h
      exact ⟨hd, .inr hu⟩
    | cons j inputs =>
      simp only [pushPrefixInputs, Option.bind_eq_bind, Option.bind_eq_some_iff] at h
      obtain ⟨⟨s1, b1⟩, h1, h2⟩ := h
      obtain ⟨hd, -⟩ := pushEdgeFrom_avoids hb (Option.some_ne_none t).symm h1
      obtain ⟨hd', hu⟩ := ih hd h2
      refine ⟨hd', .inr ?_⟩
      exact hu.resolve_left fun hnil => absurd hnil.1 (List.cons_ne_nil _ _)

theorem pushPrefixSources_same {sources : List StateId}
    (h : pushPrefixSources p sources b = some b') :
    b'.state = b.state ∧ b'.optionalPrefixes = b.optionalPrefixes := by
  induction sources generalizing b with
  | nil =>
    cases Option.some.inj h
    exact ⟨rfl, rfl⟩
  | cons source sources ih =>
    simp only [pushPrefixSources, Option.bind_eq_bind, Option.bind_eq_some_iff] at h
    obtain ⟨⟨u, b1⟩, h1, h2⟩ := h
    obtain ⟨hstate, -, hpre⟩ := pushPrefixInputs_same h1
    obtain ⟨hstate', hpre'⟩ := ih h2
    split at hstate' <;> split at hpre'
    all_goals exact ⟨hstate'.trans hstate, hpre'.trans hpre⟩

theorem pushPrefixes_same {ps : List OptionalPrefix} (h : pushPrefixes ps b = some b') :
    b'.state = b.state ∧ b'.optionalPrefixes = b.optionalPrefixes := by
  induction ps generalizing b with
  | nil =>
    cases Option.some.inj h
    exact ⟨rfl, rfl⟩
  | cons p ps ih =>
    simp only [pushPrefixes, Option.bind_eq_bind, Option.bind_eq_some_iff] at h
    obtain ⟨b1, h1, h2⟩ := h
    obtain ⟨hstate, hpre⟩ := pushPrefixSources_same h1
    obtain ⟨hstate', hpre'⟩ := ih h2
    exact ⟨hstate'.trans hstate, hpre'.trans hpre⟩

theorem pushPrefixSources_avoids {sources : List StateId} (hb : b.dfa.Avoids t)
    (ho : t ∉ b.optionalStates) (hl : ∀ s ∈ sources, s = t → b.state = t ∧ p.repeats = false)
    (h : pushPrefixSources p sources b = some b') : b'.dfa.Avoids t ∧ t ∉ b'.optionalStates := by
  induction sources generalizing b with
  | nil =>
    cases Option.some.inj h
    exact ⟨hb, ho⟩
  | cons source sources ih =>
    simp only [pushPrefixSources, Option.bind_eq_bind, Option.bind_eq_some_iff] at h
    obtain ⟨⟨u, b1⟩, h1, h2⟩ := h
    obtain ⟨hstate, hopts, -⟩ := pushPrefixInputs_same h1
    obtain ⟨hd, hu⟩ := pushPrefixInputs_avoids hb
      (fun hr heq => by
        rw [(hl source List.mem_cons_self heq).2] at hr
        cases hr) h1
    have hrest : ∀ s ∈ sources, s = t → b1.state = t ∧ p.repeats = false := fun s hs heq => by
      rw [hstate]
      exact hl s (List.mem_cons_of_mem _ hs) heq
    have ho1 : t ∉ b1.optionalStates := by
      rw [hopts]
      exact ho
    split at h2
    next hnew =>
      obtain ⟨-, hne, -⟩ := hnew
      have hut : u ≠ t := by
        rcases hu with ⟨-, rfl⟩ | hu
        · intro heq
          exact hne (heq.trans (hstate.trans (hl u List.mem_cons_self heq).1).symm)
        · exact hu
      have hopt2 : t ∉ b1.optionalStates ++ [u] := by
        intro hm
        rcases List.mem_append.mp hm with hm | hm
        · exact ho1 hm
        · exact hut (List.mem_singleton.mp hm).symm
      exact ih (b := { b1 with optionalStates := b1.optionalStates ++ [u] }) hd hopt2 hrest h2
    next => exact ih hd ho1 hrest h2

theorem pushPrefixes_avoids {ps : List OptionalPrefix} (hb : b.dfa.Avoids t)
    (ho : t ∉ b.optionalStates) (hl : b.state = t → ∀ p ∈ ps, p.repeats = false)
    (h : pushPrefixes ps b = some b') : b'.dfa.Avoids t ∧ t ∉ b'.optionalStates := by
  induction ps generalizing b with
  | nil =>
    cases Option.some.inj h
    exact ⟨hb, ho⟩
  | cons p ps ih =>
    simp only [pushPrefixes, Option.bind_eq_bind, Option.bind_eq_some_iff] at h
    obtain ⟨b1, h1, h2⟩ := h
    have hstate := (pushPrefixSources_same h1).1
    obtain ⟨hd, ho1⟩ := pushPrefixSources_avoids hb ho (fun s hs heq => by
      rcases List.mem_cons.mp hs with rfl | hs
      · exact ⟨heq, hl heq p List.mem_cons_self⟩
      · exact absurd (heq ▸ hs) ho) h1
    exact ih hd ho1
      (fun heq q hq => hl (hstate.symm.trans heq) q (List.mem_cons_of_mem _ hq)) h2

theorem pushOptionalPrefixes_avoids (hb : b.Avoids t) (h : b.pushOptionalPrefixes = some b') :
    b'.Avoids t := by
  obtain ⟨hd, ho⟩ := pushPrefixes_avoids
    (b := { b with optionalPrefixes := [] }) hb.dfa hb.options hb.loops h
  refine ⟨hd, ho, fun _ p hp => ?_⟩
  rw [(pushPrefixes_same h).2] at hp
  exact absurd hp List.not_mem_nil

theorem pushStates_avoids {states : List StateId} (hb : b.dfa.Avoids t) (hu : u ≠ t)
    (h : pushStates i u caseSensitive states b = some b') : b'.dfa.Avoids t ∧
      b'.optionalStates = b.optionalStates ∧ b'.optionalPrefixes = b.optionalPrefixes := by
  induction states generalizing b with
  | nil =>
    cases Option.some.inj h
    exact ⟨hb, rfl, rfl⟩
  | cons s states ih =>
    simp only [pushStates, Option.bind_eq_bind, Option.bind_eq_some_iff] at h
    obtain ⟨⟨x, b1⟩, h1, h2⟩ := h
    have hpushed := pushEdgeFrom_pushed h1
    obtain ⟨hd, -⟩ := pushEdgeFrom_avoids hb (fun heq => hu (Option.some.inj heq)) h1
    obtain ⟨hd', hopts, hpre⟩ := ih
      (b := { b1 with lastEdges := b1.lastEdges ++ [(s, i, caseSensitive)] }) hd h2
    exact ⟨hd', hopts.trans hpushed.optionalStates, hpre.trans hpushed.optionalPrefixes⟩

theorem pushEdge_avoids (hb : b.Avoids t) (hx : to? ≠ some t)
    (h : b.pushEdge i to? caseSensitive = some b') :
    b'.Avoids t ∧ b'.state ≠ t ∧ b'.optionalPrefixes = [] := by
  simp only [pushEdge, Option.bind_eq_bind, Option.bind_eq_some_iff] at h
  obtain ⟨b1, h1, ⟨u, b2⟩, h2, b3, h3, heq⟩ := h
  cases Option.some.inj heq
  have hb1 := pushOptionalPrefixes_avoids hb h1
  have hpre1 : b1.optionalPrefixes = [] := (pushPrefixes_same h1).2
  have hpushed := pushEdgeFrom_pushed h2
  obtain ⟨hd2, hu⟩ := pushEdgeFrom_avoids hb1.dfa hx h2
  obtain ⟨hd3, hopts, hpre⟩ := pushStates_avoids
    (b := { b2 with lastEdges := [(b2.state, i, caseSensitive)], optionalStates := [] }) hd2 hu h3
  have hpre3 : b3.optionalPrefixes = [] := hpre.trans (hpushed.optionalPrefixes.trans hpre1)
  refine ⟨⟨hd3, ?_, fun heq => absurd heq hu⟩, hu, hpre3⟩
  rw [hopts]
  exact List.not_mem_nil

theorem addAction_targets {dfa dfa' : Dfa A} {s : StateId}
    (h : dfa.addAction s i action = some dfa') : dfa'.numStates = dfa.numStates ∧
      ∀ s i, (dfa'.lookup s i).map Edge.target = (dfa.lookup s i).map Edge.target := by
  have hadded := Dfa.addAction_some h
  refine ⟨hadded.numStates, fun s' i' => ?_⟩
  by_cases heq : (s', i') = (s, i)
  · obtain ⟨rfl, rfl⟩ := Prod.mk.inj heq
    obtain ⟨old, hold, -, hnew⟩ := hadded.edge
    rw [hold, hnew]
    rfl
  · rw [hadded.others s' i' heq]

/-- Actions do not change where the edges lead. -/
theorem addActions_targets {edges : List (StateId × Input × Bool)} {dfa dfa' : Dfa A}
    (h : addActions action edges dfa = some dfa') : dfa'.numStates = dfa.numStates ∧
      ∀ s i, (dfa'.lookup s i).map Edge.target = (dfa.lookup s i).map Edge.target := by
  induction edges generalizing dfa with
  | nil =>
    cases Option.some.inj h
    exact ⟨rfl, fun _ _ => rfl⟩
  | cons e edges ih =>
    obtain ⟨s, i, cs⟩ := e
    simp only [addActions, Option.bind_eq_bind, Option.bind_eq_some_iff] at h
    obtain ⟨d1, h1, d2, h2, h3⟩ := h
    obtain ⟨hn1, hl1⟩ := addAction_targets h1
    obtain ⟨hn3, hl3⟩ := ih h3
    have hother : d2.numStates = d1.numStates ∧
        ∀ s i, (d2.lookup s i).map Edge.target = (d1.lookup s i).map Edge.target := by
      unfold Dfa.addOther at h2
      split at h2
      · cases Option.some.inj h2
        exact ⟨rfl, fun _ _ => rfl⟩
      · split at h2
        · exact addAction_targets h2
        · cases Option.some.inj h2
          exact ⟨rfl, fun _ _ => rfl⟩
    exact ⟨hn3.trans (hother.1.trans hn1),
      fun s i => (hl3 s i).trans ((hother.2 s i).trans (hl1 s i))⟩

theorem addActions_avoids {edges : List (StateId × Input × Bool)} {dfa dfa' : Dfa A}
    (hd : dfa.Avoids t) (h : addActions action edges dfa = some dfa') : dfa'.Avoids t := by
  obtain ⟨hn, hl⟩ := addActions_targets h
  refine ⟨hn ▸ hd.lt, fun s i e he heq => ?_⟩
  have htarget := hl s i
  rw [he] at htarget
  obtain ⟨old, hold, hsame⟩ := Option.map_eq_some_iff.mp htarget.symm
  exact hd.target s i old hold (hsame.trans heq)

theorem withAction_avoids (hb : b.Avoids t) (h : b.withAction action = some b') :
    b'.Avoids t ∧ b'.state = b.state := by
  simp only [withAction, Option.bind_eq_bind, Option.bind_eq_some_iff] at h
  obtain ⟨b1, h1, d, h2, heq⟩ := h
  cases Option.some.inj heq
  have hb1 := pushOptionalPrefixes_avoids hb h1
  exact ⟨⟨addActions_avoids hb1.dfa h2, hb1.options, hb1.loops⟩, (pushPrefixes_same h1).1⟩

theorem pushInner_avoids (hb : b.Avoids t) (h : pushInner bytes caseSensitive b = some b') :
    b'.Avoids t ∧ (bytes = [] ∧ b' = b ∨ b'.state ≠ t ∧ b'.optionalPrefixes = []) := by
  induction bytes generalizing b with
  | nil =>
    cases Option.some.inj h
    exact ⟨hb, .inl ⟨rfl, rfl⟩⟩
  | cons c bytes ih =>
    simp only [pushInner, Option.bind_eq_bind, Option.bind_eq_some_iff] at h
    obtain ⟨b1, h1, h2⟩ := h
    obtain ⟨hb1, hs1⟩ := pushEdge_avoids hb (Option.some_ne_none t).symm h1
    obtain ⟨hb2, hs2⟩ := ih hb1 h2
    refine ⟨hb2, .inr ?_⟩
    rcases hs2 with ⟨-, rfl⟩ | hs2
    · exact hs1
    · exact hs2

theorem pushTo_avoids (hb : b.Avoids t) (hlast : bytes ≠ [] → last ≠ t)
    (h : pushTo last caseSensitive bytes b = some b') :
    b'.Avoids t ∧ (bytes = [] ∧ b' = b ∨ b'.state ≠ t ∧ b'.optionalPrefixes = []) := by
  induction bytes generalizing b with
  | nil =>
    cases Option.some.inj h
    exact ⟨hb, .inl ⟨rfl, rfl⟩⟩
  | cons c bytes ih =>
    simp only [pushTo, Option.bind_eq_bind, Option.bind_eq_some_iff] at h
    obtain ⟨b1, h1, h2⟩ := h
    have hne : last ≠ t := hlast (List.cons_ne_nil _ _)
    obtain ⟨hb1, hs1⟩ := pushEdge_avoids hb (fun heq => by
      split at heq
      · exact hne (Option.some.inj heq)
      · cases heq) h1
    obtain ⟨hb2, hs2⟩ := ih hb1 (fun _ => hne) h2
    refine ⟨hb2, .inr ?_⟩
    rcases hs2 with ⟨-, rfl⟩ | hs2
    · exact hs1
    · exact hs2

theorem pushAnys_avoids {n : Nat} (hb : b.Avoids t) (h : pushAnys n b = some b') :
    b'.Avoids t ∧ (n = 0 ∧ b' = b ∨ b'.state ≠ t ∧ b'.optionalPrefixes = []) := by
  induction n generalizing b with
  | zero =>
    cases Option.some.inj h
    exact ⟨hb, .inl ⟨rfl, rfl⟩⟩
  | succ n ih =>
    simp only [pushAnys, Option.bind_eq_bind, Option.bind_eq_some_iff] at h
    obtain ⟨b1, h1, h2⟩ := h
    obtain ⟨hb1, hs1⟩ := pushEdge_avoids hb (Option.some_ne_none t).symm h1
    obtain ⟨hb2, hs2⟩ := ih hb1 h2
    refine ⟨hb2, .inr ?_⟩
    rcases hs2 with ⟨-, rfl⟩ | hs2
    · exact hs1
    · exact hs2

theorem pushAny_avoids {minLen : Nat} {maxLen : Option Nat} (hb : b.Avoids t)
    (hs : maxLen = none → minLen = 0 → b.state ≠ t) (h : b.pushAny minLen maxLen = some b') :
    b'.Avoids t ∧ (minLen = 0 ∧ b'.state = b.state ∨ b'.state ≠ t) := by
  unfold pushAny at h
  simp only [Option.bind_eq_bind] at h
  split at h
  · cases h
  obtain ⟨-, -, h⟩ := Option.bind_eq_some_iff.mp h
  obtain ⟨b1, h1, h⟩ := Option.bind_eq_some_iff.mp h
  obtain ⟨hb1, hs1⟩ := pushAnys_avoids hb h1
  have hstate : minLen = 0 ∧ b1.state = b.state ∨ b1.state ≠ t :=
    hs1.imp (fun hz => ⟨hz.1, congrArg DfaBuilder.state hz.2⟩) fun hz => hz.1
  cases maxLen with
  | some maxLen =>
    cases Option.some.inj h
    refine ⟨⟨hb1.dfa, hb1.options, fun heq p hp => ?_⟩, hstate⟩
    rcases List.mem_append.mp hp with hp | hp
    · exact hb1.loops heq p hp
    · rw [(List.mem_replicate.mp hp).2]
  | none =>
    obtain ⟨⟨u, b2⟩, h2, h⟩ := Option.bind_eq_some_iff.mp h
    cases Option.some.inj h
    have hne : b1.state ≠ t := by
      rcases hstate with ⟨hz, heq⟩ | hne
      · rw [heq]
        exact hs rfl hz
      · exact hne
    have hpushed := pushEdgeFrom_pushed h2
    obtain ⟨hd, -⟩ := pushEdgeFrom_avoids (by exact hb1.dfa)
      (fun heq => hne (Option.some.inj heq)) h2
    have hs2 : b2.state ≠ t := fun heq => hne (hpushed.state.symm.trans heq)
    refine ⟨⟨hd, ?_, fun heq => absurd heq hs2⟩, .inr hs2⟩
    rw [hpushed.optionalStates]
    exact hb1.options

theorem pushOthers_avoids {start : StateId} {inputs : List Bytes}
    {edges : List (StateId × Input × Bool)} (hb : b.Avoids t)
    (hpre : start = t → b.optionalPrefixes = []) (hlast : last ≠ t)
    (h : pushOthers start last inputs edges b = some b') :
    b'.Avoids t ∧ (inputs = [] ∧ b'.state = b.state ∨ b'.state ≠ t) := by
  induction inputs generalizing b edges with
  | nil =>
    cases Option.some.inj h
    exact ⟨⟨hb.dfa, hb.options, hb.loops⟩, .inl ⟨rfl, rfl⟩⟩
  | cons x inputs ih =>
    simp only [pushOthers, Option.bind_eq_bind] at h
    split at h
    · cases h
    next hx =>
    obtain ⟨-, -, h⟩ := Option.bind_eq_some_iff.mp h
    obtain ⟨b1, h1, h2⟩ := Option.bind_eq_some_iff.mp h
    have hb0 : ({ b with state := start } : DfaBuilder A).Avoids t := by
      refine ⟨hb.dfa, hb.options, fun hs p hp => ?_⟩
      have hp' : p ∈ b.optionalPrefixes := hp
      rw [hpre hs] at hp'
      exact absurd hp' List.not_mem_nil
    obtain ⟨hb1, hs1⟩ := pushTo_avoids hb0 (fun _ => hlast) h1
    obtain ⟨hne, hpre1⟩ := hs1.resolve_left fun hnil => hx hnil.1
    obtain ⟨hb2, hs2⟩ := ih (b := { b1 with lastEdges := [] }) ⟨hb1.dfa, hb1.options, hb1.loops⟩
      (fun _ => hpre1) h2
    refine ⟨hb2, .inr ?_⟩
    rcases hs2 with ⟨-, heq⟩ | hs2
    · rw [heq]
      exact hne
    · exact hs2

theorem longest_none {inputs : List Bytes} (h : longest inputs = none) : inputs = [] := by
  cases inputs with
  | nil => rfl
  | cons x inputs =>
    unfold longest at h
    split at h
    · cases h
    · split at h <;> cases h

theorem longest_mem {inputs : List Bytes} {l : Bytes} (h : longest inputs = some l) :
    l ∈ inputs ∧ ∀ x ∈ inputs, x.length ≤ l.length := by
  induction inputs generalizing l with
  | nil => cases h
  | cons x inputs ih =>
    unfold longest at h
    split at h
    next hn =>
      cases Option.some.inj h
      refine ⟨List.mem_cons_self, fun y hy => ?_⟩
      rcases List.mem_cons.mp hy with rfl | hy
      · exact Nat.le_refl _
      · rw [longest_none hn] at hy
        exact absurd hy List.not_mem_nil
    next m hm =>
      obtain ⟨hin, hle⟩ := ih hm
      split at h
      next hlt =>
        cases Option.some.inj h
        refine ⟨List.mem_cons_self, fun y hy => ?_⟩
        rcases List.mem_cons.mp hy with rfl | hy
        · exact Nat.le_refl _
        · exact Nat.le_of_lt (Nat.lt_of_le_of_lt (hle y hy) hlt)
      next hlt =>
        cases Option.some.inj h
        refine ⟨List.mem_cons_of_mem _ hin, fun y hy => ?_⟩
        rcases List.mem_cons.mp hy with rfl | hy
        · exact Nat.not_lt.mp hlt
        · exact hle y hy

theorem pushOptionsCi_avoids {inputs : List Bytes} (hb : b.Avoids t)
    (h : b.pushOptionsCi inputs = some b') :
    b'.Avoids t ∧ ((∀ x ∈ inputs, x = []) ∧ b'.state = b.state ∨ b'.state ≠ t) := by
  unfold pushOptionsCi at h
  split at h
  next hn =>
    cases Option.some.inj h
    refine ⟨hb, .inl ⟨fun x hx => ?_, rfl⟩⟩
    rw [longest_none hn] at hx
    exact absurd hx List.not_mem_nil
  next l hl =>
    simp only [Option.bind_eq_bind, Option.bind_eq_some_iff] at h
    obtain ⟨b1, h1, h2⟩ := h
    obtain ⟨hmem, hle⟩ := longest_mem hl
    obtain ⟨hb1, hs1⟩ := pushInner_avoids hb h1
    rcases hs1 with ⟨rfl, rfl⟩ | ⟨hs1, hpre⟩
    · have hall : ∀ x ∈ inputs, x = [] := fun x hx =>
        List.length_eq_zero_iff.mp (Nat.le_zero.mp (hle x hx))
      have hnone : inputs.filter (· ≠ []) = [] := by
        rw [List.filter_eq_nil_iff]
        intro x hx
        simp [hall x hx]
      rw [hnone] at h2
      cases Option.some.inj h2
      exact ⟨⟨hb1.dfa, hb1.options, hb1.loops⟩, .inl ⟨hall, rfl⟩⟩
    · obtain ⟨hb2, hs2⟩ := pushOthers_avoids (b := { b1 with lastEdges := [] })
        ⟨hb1.dfa, hb1.options, hb1.loops⟩ (fun _ => hpre) hs1 h2
      refine ⟨hb2, .inr ?_⟩
      rcases hs2 with ⟨-, heq⟩ | hs2
      · rw [heq]
        exact hs1
      · exact hs2

theorem restartStates_avoids (hb : b.Avoids t) (hs : state ≠ t)
    (h : restartStates bytes state b = some (last, b')) :
    b'.Avoids t ∧ last ≠ t ∧ b'.state = b.state := by
  induction bytes generalizing state b with
  | nil =>
    obtain ⟨rfl, rfl⟩ := Prod.mk.inj (Option.some.inj h)
    exact ⟨hb, hs, rfl⟩
  | cons c bytes ih =>
    simp only [restartStates, Option.bind_eq_bind, Option.bind_eq_some_iff] at h
    obtain ⟨⟨next, d⟩, hnext, ⟨u, b1⟩, hedge, hrest⟩ := h
    have hlt := hb.dfa.lt
    have hd : d.Avoids t ∧ next ≠ t := by
      rcases Dfa.nextState_some hnext with ⟨e, he, rfl, rfl⟩ | ⟨-, rfl, hl, hn⟩
      · exact ⟨hb.dfa, hb.dfa.target _ _ _ he⟩
      · refine ⟨⟨by omega, fun s i e he => ?_⟩, Nat.ne_of_gt hlt⟩
        rw [hl] at he
        exact hb.dfa.target s i e he
    have hpushed := pushEdgeFrom_pushed hedge
    obtain ⟨hd1, -⟩ := pushEdgeFrom_avoids (b := { b with dfa := d }) hd.1
      (fun heq => hd.2 (Option.some.inj heq)) hedge
    have hb1 : b1.Avoids t := by
      refine ⟨hd1, ?_, fun heq p hp => ?_⟩
      · rw [hpushed.optionalStates]
        exact hb.options
      · rw [hpushed.optionalPrefixes] at hp
        exact hb.loops (hpushed.state.symm.trans heq) p hp
    obtain ⟨hb', hlast, hstate⟩ := ih hb1 hd.2 hrest
    exact ⟨hb', hlast, hstate.trans hpushed.state⟩

theorem restartWith_avoids (hb : b.Avoids t) (ht : t ≠ anyState)
    (h : b.restartWith bytes = some b') :
    b'.Avoids t ∧ (b.state ≠ t → b'.state ≠ t) := by
  simp only [restartWith, Option.bind_eq_bind, Option.bind_eq_some_iff] at h
  obtain ⟨⟨last, b1⟩, h1, h2⟩ := h
  obtain ⟨hb1, hlast, hstate⟩ := restartStates_avoids hb ht.symm h1
  obtain ⟨hb2, hs2⟩ := pushTo_avoids hb1 (fun _ => hlast) h2
  refine ⟨hb2, fun hne => ?_⟩
  rcases hs2 with ⟨-, rfl⟩ | hs2
  · rw [hstate]
    exact hne
  · exact hs2.1

end DfaBuilder

end Beeper
