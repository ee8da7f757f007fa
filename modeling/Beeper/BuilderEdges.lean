import Beeper.BuilderTrees

namespace Beeper

namespace DfaBuilder

variable {A : Type} [DecidableEq A] {b b' : DfaBuilder A} {r : Nat} {i : Input} {cs : Bool}
  {to? : Option StateId} {p : OptionalPrefix} {ps : List OptionalPrefix} {bytes : Bytes}

/-- Prefixes without any inputs do not change anything. -/
theorem pushPrefixSources_nil {sources : List StateId} (hp : p.inputs = [])
    (hs : ∀ s ∈ sources, s = b.state ∨ s ∈ b.optionalStates) :
    pushPrefixSources p sources b = some b := by
  induction sources with
  | nil => rfl
  | cons s sources ih =>
    simp only [pushPrefixSources, hp, pushPrefixInputs, Option.bind_eq_bind, Option.bind_some]
    rw [if_neg]
    · exact ih fun x hx => hs x (List.mem_cons_of_mem _ hx)
    · rintro ⟨-, hne, hnot⟩
      exact (hs s List.mem_cons_self).elim hne hnot

theorem pushPrefixes_nil (hp : ∀ p ∈ ps, p.inputs = []) : pushPrefixes ps b = some b := by
  induction ps with
  | nil => rfl
  | cons p ps ih =>
    rw [pushPrefixes, pushPrefixSources_nil (hp p List.mem_cons_self)
      fun s hs => List.mem_cons.mp hs]
    exact ih fun q hq => hp q (List.mem_cons_of_mem _ hq)

omit [DecidableEq A] in
theorem Tidy.sources (hb : b.Tidy r) :
    ∀ s ∈ b.state :: b.optionalStates, b.state ≤ s ∧ (s : Nat) < b.dfa.numStates := by
  intro s hs
  rcases List.mem_cons.mp hs with rfl | hs
  · exact ⟨Nat.le_refl _, hb.state_lt⟩
  · exact ⟨Nat.le_of_lt (hb.options s hs).1, (hb.options s hs).2⟩

/-- A prefix that does not repeat is a branch of the forest at each of its sources. -/
theorem pushPrefixSources_tidy {sources : List StateId} (hb : b.Tidy r) (hr : p.repeats = false)
    (hs : ∀ s ∈ sources, b.state ≤ s ∧ (s : Nat) < b.dfa.numStates)
    (h : pushPrefixSources p sources b = some b') : b'.Tidy r ∧
      (b.optionalStates ≠ [] ∨ p.inputs ≠ [] ∧ sources ≠ [] → b'.optionalStates ≠ []) := by
  induction sources generalizing b with
  | nil =>
    cases Option.some.inj h
    exact ⟨hb, fun hne => hne.resolve_right fun hnil => hnil.2 rfl⟩
  | cons s sources ih =>
    simp only [pushPrefixSources, Option.bind_eq_bind, Option.bind_eq_some_iff] at h
    obtain ⟨⟨u, b1⟩, h1, h2⟩ := h
    obtain ⟨hle, hlt⟩ := hs s List.mem_cons_self
    obtain ⟨hstate, hopts, -⟩ := pushPrefixInputs_same h1
    obtain ⟨htree, hsu, hgt, hu, hn⟩ := pushPrefixInputs_grows hb.tree hlt hr h1
    have hb1 : b1.Tidy r := by
      refine ⟨htree, ?_, fun o ho => ?_⟩
      · rw [hstate]
        exact Nat.lt_of_lt_of_le hb.state_lt hn
      · rw [hopts] at ho
        rw [hstate]
        obtain ⟨hlow, hhigh⟩ := hb.options o ho
        exact ⟨hlow, Nat.lt_of_lt_of_le hhigh hn⟩
    have hs1 : ∀ x ∈ sources, b1.state ≤ x ∧ (x : Nat) < b1.dfa.numStates := by
      intro x hx
      rw [hstate]
      obtain ⟨hlow, hhigh⟩ := hs x (List.mem_cons_of_mem _ hx)
      exact ⟨hlow, Nat.lt_of_lt_of_le hhigh hn⟩
    split at h2
    next hnew =>
      have hb2 : ({ b1 with optionalStates := b1.optionalStates ++ [u] } : DfaBuilder A).Tidy r := by
        refine ⟨hb1.tree, hb1.state_lt, fun o ho => ?_⟩
        rcases List.mem_append.mp ho with ho | ho
        · exact hb1.options o ho
        · rw [List.mem_singleton.mp ho]
          refine ⟨Nat.lt_of_le_of_ne ?_ (Ne.symm hnew.2.1), hu⟩
          rw [hstate]
          exact Nat.le_trans hle hsu
      obtain ⟨htidy, hne⟩ := ih hb2 hs1 h2
      exact ⟨htidy, fun _ =>
        hne (.inl (List.append_ne_nil_of_right_ne_nil _ (List.cons_ne_nil _ _)))⟩
    next hold =>
      obtain ⟨htidy, hne⟩ := ih hb1 hs1 h2
      refine ⟨htidy, fun hnonempty => hne (.inl ?_)⟩
      rcases hnonempty with hnonempty | ⟨hinputs, -⟩
      · rw [hopts]
        exact hnonempty
      · -- the branch ends in another state, which has to be there already
        intro hnil
        refine hold ⟨by simp [hr], ?_, by simp [hnil]⟩
        rw [hstate]
        exact Nat.ne_of_gt (Nat.lt_of_le_of_lt hle (hgt hinputs))

theorem pushPrefixSources_wasted {source : StateId} {sources : List StateId} (hb : b.Tidy r)
    (hr : p.repeats = true) (hne : p.inputs ≠ [])
    (hs : ∀ s ∈ source :: sources, (s : Nat) < b.dfa.numStates)
    (h : pushPrefixSources p (source :: sources) b = some b') :
    ∃ t, b.dfa.numStates ≤ t ∧ b'.dfa.Avoids t ∧ t ∉ b'.optionalStates := by
  simp only [pushPrefixSources, hr, Option.bind_eq_bind, Option.bind_eq_some_iff,
    not_true_eq_false, false_and, if_false] at h
  obtain ⟨⟨u, b1⟩, h1, h2⟩ := h
  obtain ⟨t, ht, havoids⟩ := pushPrefixInputs_wasted hb.tree (hs source List.mem_cons_self)
    (Nat.le_refl _) hr hne h1
  obtain ⟨-, hopts1, -⟩ := pushPrefixInputs_same h1
  have ho : t ∉ b1.optionalStates := by
    rw [hopts1]
    exact fun hm => absurd (hb.options t hm).2 (Nat.not_lt_of_le ht)
  obtain ⟨hd, ho'⟩ := pushPrefixSources_avoids havoids ho
    (fun s hm heq => by
      have hlt := hs s (List.mem_cons_of_mem _ hm)
      rw [heq] at hlt
      exact absurd hlt (Nat.not_lt_of_le ht)) h2
  exact ⟨t, ht, hd, ho'⟩

theorem pushPrefixes_tidy (hb : b.Tidy r) (hp : ∀ p ∈ ps, p.repeats = true → p.inputs = [])
    (h : pushPrefixes ps b = some b') : b'.Tidy r ∧
      (b.optionalStates ≠ [] ∨ (∃ p ∈ ps, p.inputs ≠ []) → b'.optionalStates ≠ []) := by
  induction ps generalizing b with
  | nil =>
    cases Option.some.inj h
    refine ⟨hb, ?_⟩
    rintro (hne | ⟨p, hm, -⟩)
    · exact hne
    · exact absurd hm List.not_mem_nil
  | cons p ps ih =>
    simp only [pushPrefixes, Option.bind_eq_bind, Option.bind_eq_some_iff] at h
    obtain ⟨b1, h1, h2⟩ := h
    have hstep : b1.Tidy r ∧ (b.optionalStates ≠ [] ∨ p.inputs ≠ [] → b1.optionalStates ≠ []) := by
      by_cases hnil : p.inputs = []
      · rw [pushPrefixSources_nil hnil fun s hs => List.mem_cons.mp hs] at h1
        cases Option.some.inj h1
        exact ⟨hb, fun hne => hne.resolve_right fun hne => hne hnil⟩
      · have hr : p.repeats = false := by
          by_contra hr
          exact hnil (hp p List.mem_cons_self (by simpa using hr))
        obtain ⟨htidy, hne⟩ := pushPrefixSources_tidy hb hr hb.sources h1
        exact ⟨htidy, fun hone =>
          hne (hone.imp_right fun hinputs => ⟨hinputs, List.cons_ne_nil _ _⟩)⟩
    obtain ⟨htidy, hne⟩ := hstep
    obtain ⟨htidy', hne'⟩ := ih htidy (fun q hq => hp q (List.mem_cons_of_mem _ hq)) h2
    refine ⟨htidy', ?_⟩
    rintro (hopts | ⟨q, hq, hinputs⟩)
    · exact hne' (.inl (hne (.inl hopts)))
    · rcases List.mem_cons.mp hq with rfl | hq
      · exact hne' (.inl (hne (.inr hinputs)))
      · exact hne' (.inr ⟨q, hq, hinputs⟩)

theorem pushPrefixes_wasted (hb : b.Tidy r) (hp : ∃ p ∈ ps, p.repeats = true ∧ p.inputs ≠ [])
    (h : pushPrefixes ps b = some b') :
    ∃ t, b.dfa.numStates ≤ t ∧ b'.dfa.Avoids t ∧ t ∉ b'.optionalStates := by
  induction ps generalizing b with
  | nil =>
    obtain ⟨p, hm, -⟩ := hp
    exact absurd hm List.not_mem_nil
  | cons p ps ih =>
    simp only [pushPrefixes, Option.bind_eq_bind, Option.bind_eq_some_iff] at h
    obtain ⟨b1, h1, h2⟩ := h
    by_cases hloop : p.repeats = true ∧ p.inputs ≠ []
    · obtain ⟨t, ht, havoids, ho⟩ := pushPrefixSources_wasted hb hloop.1 hloop.2
        (fun s hs => (hb.sources s hs).2) h1
      have hne : b1.state ≠ t := by
        rw [(pushPrefixSources_same h1).1]
        exact Nat.ne_of_lt (Nat.lt_of_lt_of_le hb.state_lt ht)
      obtain ⟨havoids', ho'⟩ := pushPrefixes_avoids havoids ho (fun heq => absurd heq hne) h2
      exact ⟨t, ht, havoids', ho'⟩
    · have hone : ∀ q ∈ [p], q.repeats = true → q.inputs = [] := by
        intro q hq hr
        rw [List.mem_singleton.mp hq] at hr ⊢
        by_contra hne
        exact hloop ⟨hr, hne⟩
      have h1' : pushPrefixes [p] b = some b1 := by
        simp only [pushPrefixes, h1, Option.bind_eq_bind, Option.bind_some]
      have htidy := (pushPrefixes_tidy hb hone h1').1
      have hn := (pushPrefixes_extends h1').numStates
      obtain ⟨q, hq, hloops⟩ := hp
      rcases List.mem_cons.mp hq with rfl | hq
      · exact absurd hloops hloop
      obtain ⟨t, ht, havoids, ho⟩ := ih htidy ⟨q, hq, hloops⟩ h2
      exact ⟨t, Nat.le_trans hn ht, havoids, ho⟩

theorem pushOptionalPrefixes_idle (h : b.Idle) :
    b.pushOptionalPrefixes = some { b with optionalPrefixes := [] } :=
  pushPrefixes_nil h.1

theorem pushOptionalPrefixes_tidy (hb : b.Tidy r)
    (hp : ∀ p ∈ b.optionalPrefixes, p.repeats = true → p.inputs = [])
    (h : b.pushOptionalPrefixes = some b') :
    b'.Tidy r ∧ (¬b.Idle → b'.optionalStates ≠ []) := by
  have hb0 : ({ b with optionalPrefixes := [] } : DfaBuilder A).Tidy r :=
    ⟨hb.tree, hb.state_lt, hb.options⟩
  obtain ⟨htidy, hne⟩ := pushPrefixes_tidy hb0 hp h
  refine ⟨htidy, fun hidle => hne ?_⟩
  by_contra hnone
  push Not at hnone
  exact hidle ⟨hnone.2, hnone.1⟩

theorem pushOptionalPrefixes_wasted (hb : b.Tidy r)
    (hp : ∃ p ∈ b.optionalPrefixes, p.repeats = true ∧ p.inputs ≠ [])
    (h : b.pushOptionalPrefixes = some b') : b'.Wasted b.dfa.numStates := by
  have hb0 : ({ b with optionalPrefixes := [] } : DfaBuilder A).Tidy r :=
    ⟨hb.tree, hb.state_lt, hb.options⟩
  obtain ⟨t, ht, havoids, ho⟩ := pushPrefixes_wasted hb0 hp h
  have hne : b'.state ≠ t := by
    rw [(pushPrefixes_same h).1]
    exact Nat.ne_of_lt (Nat.lt_of_lt_of_le hb.state_lt ht)
  exact ⟨t, ht, ⟨havoids, ho, fun heq => absurd heq hne⟩, hne⟩

/-- The prefixes are built first, and then the input. -/
theorem pushEdge_built {b1 : DfaBuilder A} (h1 : b.pushOptionalPrefixes = some b1)
    (h : b.pushEdge i to? cs = some b') : b1.pushEdge i to? cs = some b' := by
  have hpre := pushOptionalPrefixes_nil (pushPrefixes_same h1).2
  unfold pushEdge at h ⊢
  rw [hpre]
  rw [h1] at h
  exact h

/-- Another state cannot lead on to where the pattern leads, so that a state is lost for it. -/
theorem pushStates_wasted {s u : Nat} {e : Edge A} {states : List StateId} (h : b.dfa.Tree r)
    (he : b.dfa.lookup s i = some e) (hu : e.target = u) (hne : states ≠ [])
    (hs : ∀ o ∈ states, o ≠ s ∧ (o : Nat) < b.dfa.numStates)
    (hp : pushStates i u cs states b = some b') :
    ∃ t, b.dfa.numStates ≤ t ∧ b'.dfa.Avoids t ∧ b'.optionalStates = b.optionalStates := by
  cases states with
  | nil => exact absurd rfl hne
  | cons o states =>
    simp only [pushStates, Option.bind_eq_bind, Option.bind_eq_some_iff] at hp
    obtain ⟨⟨x, b1⟩, h1, h2⟩ := hp
    obtain ⟨hos, ho⟩ := hs o List.mem_cons_self
    have hlt := (h.grows s i e he).2.2
    rw [hu] at hlt
    have hpushed := pushEdgeFrom_pushed h1
    obtain ⟨-, ⟨⟨e', he', htarget⟩, -⟩ | ⟨-, havoids⟩⟩ := pushEdgeFrom_given h ho hlt h1
    · exact absurd (h.unique _ _ _ _ _ _ he' he (htarget.trans hu.symm)).1 hos
    · obtain ⟨havoids', hopts, -⟩ := pushStates_avoids
        (b := { b1 with lastEdges := b1.lastEdges ++ [(o, i, cs)] }) havoids (Nat.ne_of_lt hlt) h2
      exact ⟨_, Nat.le_refl _, havoids', hopts.trans hpushed.optionalStates⟩

/-- What an edge to `to?` needs, so that no state is lost for it. -/
def Fits (b : DfaBuilder A) (i : Input) (to? : Option StateId) : Prop :=
  b.Idle ∧ ∀ x, to? = some x → ∃ e, b.dfa.lookup b.state i = some e ∧ e.target = x

/-- The edge of an input keeps the forest, or it leads to a state that is there already. -/
theorem pushEdgeFrom_tidy {s u : Nat} (hb : b.dfa.Tree r) (hs : s < b.dfa.numStates)
    (hx : ∀ x, to? = some x → (x : Nat) < b.dfa.numStates)
    (h : b.pushEdgeFrom s i to? cs = some (u, b')) :
    (∀ x, to? = some x → ∃ e, b.dfa.lookup s i = some e ∧ e.target = x) ∧ b'.dfa.Tree r ∧
        s < u ∧ u < b'.dfa.numStates ∨
      (∃ x, to? = some x ∧ b.dfa.lookup s i = none) ∧ b'.dfa.Avoids b.dfa.numStates := by
  cases to? with
  | none =>
    obtain ⟨htree, hlt, hu, -⟩ := pushEdgeFrom_grows hb hs h
    refine .inl ⟨?_, htree, hlt, hu⟩
    intro x hx
    cases hx
  | some x =>
    obtain ⟨rfl, ⟨⟨e, he, htarget⟩, htree, hn⟩ | ⟨hnone, havoids⟩⟩ :=
      pushEdgeFrom_given hb hs (hx x rfl) h
    · obtain ⟨-, hlt, hu⟩ := hb.grows s i e he
      rw [htarget] at hlt hu
      refine .inl ⟨fun y hy => ⟨e, he, htarget.trans (Option.some.inj hy)⟩, htree, hlt, ?_⟩
      rw [hn]
      exact hu
    · exact .inr ⟨⟨u, rfl, hnone⟩, havoids⟩

theorem pushEdge_tidy (hb : b.Tidy r) (hx : ∀ x, to? = some x → (x : Nat) < b.dfa.numStates)
    (hfits : b.Fits i to?) (h : b.pushEdge i to? cs = some b') :
    b'.Tidy r ∧ b'.Idle ∧ (∀ x, to? = some x → b'.state = x) ∧
      ∀ i', CaseOf cs i i' → ∃ e, b'.dfa.lookup b.state i' = some e ∧ e.target = b'.state := by
  obtain ⟨hidle, hedge⟩ := hfits
  unfold pushEdge at h
  rw [pushOptionalPrefixes_idle hidle] at h
  simp only [Option.bind_eq_bind, Option.bind_some, Option.bind_eq_some_iff] at h
  obtain ⟨⟨u, b1⟩, h1, b2, h2, heq⟩ := h
  have hpushed := pushEdgeFrom_pushed h1
  rw [hpushed.optionalStates, hidle.2] at h2
  cases Option.some.inj h2
  cases Option.some.inj heq
  have hsome := pushEdgeFrom_some h1
  rcases pushEdgeFrom_tidy (b := { b with optionalPrefixes := [] }) hb.tree hb.state_lt hx h1 with
    ⟨hto, htree, -, hu⟩ | ⟨⟨x, hx', hnone⟩, -⟩
  · refine ⟨⟨htree, hu, fun o ho => absurd ho List.not_mem_nil⟩, ⟨fun p hp => ?_, rfl⟩,
      fun x hx => ?_, hsome.edge⟩
    · rw [show b1.optionalPrefixes = [] from hpushed.optionalPrefixes] at hp
      exact absurd hp List.not_mem_nil
    · obtain ⟨e, he, htarget⟩ := hto x hx
      obtain ⟨e', he', htarget'⟩ := hsome.edge i (.refl _ _)
      cases Option.some.inj ((hsome.forth _ _ _ he).symm.trans he')
      exact htarget'.symm.trans htarget
  · obtain ⟨e, he, -⟩ := hedge x hx'
    cases hnone.symm.trans he

theorem pushEdge_wasted (hb : b.Tidy r) (hx : ∀ x, to? = some x → (x : Nat) < b.dfa.numStates)
    (hfits : ¬b.Fits i to?) (h : b.pushEdge i to? cs = some b') :
    b'.Wasted b.dfa.numStates := by
  have hne : ∀ {t : Nat}, b.dfa.numStates ≤ t → to? ≠ some t := by
    intro t ht heq
    exact absurd (hx t heq) (Nat.not_lt_of_le ht)
  by_cases hloop : ∃ p ∈ b.optionalPrefixes, p.repeats = true ∧ p.inputs ≠ []
  · obtain ⟨b1, h1, -⟩ := Option.bind_eq_some_iff.mp h
    obtain ⟨t, ht, havoids, -⟩ := pushOptionalPrefixes_wasted hb hloop h1
    obtain ⟨havoids', hstate, -⟩ := pushEdge_avoids havoids (hne ht) (pushEdge_built h1 h)
    exact ⟨t, ht, havoids', hstate⟩
  push Not at hloop
  obtain ⟨b1, h1, h2⟩ := Option.bind_eq_some_iff.mp h
  obtain ⟨⟨u, b2⟩, hedge, h3⟩ := Option.bind_eq_some_iff.mp h2
  obtain ⟨b3, hstates, heq⟩ := Option.bind_eq_some_iff.mp h3
  cases Option.some.inj heq
  obtain ⟨htidy, hopts⟩ := pushOptionalPrefixes_tidy hb hloop h1
  have hn := (pushPrefixes_extends h1).numStates
  have hpushed := pushEdgeFrom_pushed hedge
  -- a state that neither the edge nor the joins behind it lead to
  have hlost : ∃ t, b.dfa.numStates ≤ t ∧ b3.dfa.Avoids t ∧ u ≠ t ∧ b3.optionalStates = [] := by
    rcases pushEdgeFrom_tidy htidy.tree htidy.state_lt
      (fun x hto => Nat.lt_of_lt_of_le (hx x hto) hn) hedge with
      ⟨hto, htree, hlt, hu⟩ | ⟨⟨x, rfl, -⟩, havoids⟩
    · obtain ⟨e, he, htarget⟩ := (pushEdgeFrom_some hedge).edge i (.refl _ _)
      have hjoins : b1.optionalStates ≠ [] := by
        refine hopts fun hidle => hfits ⟨hidle, fun x hx => ?_⟩
        rw [pushOptionalPrefixes_idle hidle] at h1
        cases Option.some.inj h1
        exact hto x hx
      rw [hpushed.optionalStates] at hstates
      obtain ⟨t, ht, havoids, hnil⟩ := pushStates_wasted
        (b := { b2 with lastEdges := [(b2.state, i, cs)], optionalStates := [] }) htree he htarget
        hjoins (fun o ho => ⟨Nat.ne_of_gt (htidy.options o ho).1, Nat.lt_of_lt_of_le
          (htidy.options o ho).2 hpushed.ext.numStates⟩) hstates
      exact ⟨t, Nat.le_trans hn (Nat.le_trans hpushed.ext.numStates ht), havoids,
        Nat.ne_of_lt (Nat.lt_of_lt_of_le hu ht), hnil⟩
    · obtain rfl := pushEdgeFrom_target hedge
      have hu : u ≠ b1.dfa.numStates := Nat.ne_of_lt (Nat.lt_of_lt_of_le (hx u rfl) hn)
      obtain ⟨havoids', hnil, -⟩ := pushStates_avoids
        (b := { b2 with lastEdges := [(b2.state, i, cs)], optionalStates := [] }) havoids hu hstates
      exact ⟨_, hn, havoids', hu, hnil⟩
  obtain ⟨t, ht, havoids, hu, hnil⟩ := hlost
  refine ⟨t, ht, ⟨havoids, ?_, fun heq => absurd heq hu⟩, hu⟩
  show t ∉ b3.optionalStates
  rw [hnil]
  exact List.not_mem_nil

end DfaBuilder

end Beeper
