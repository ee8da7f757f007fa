import Beeper.DfaLabels

namespace Beeper

variable {Label A : Type} {S : Shape Label} {E : Set (Label × Input)}
  {T : Set (Label × Input × A)} {num num' : Label → Option StateId} {b b' b0 : DfaBuilder A}
  {l : Label} {i : Input} {opts : List Label} {last : List (Label × Input × Bool)}

/-- The builder has got to the label `l` of its pattern. The prefixes that may be skipped in front
of the next input end in `opts`, and the edges that lead here are `last`. -/
structure BuilderAt (S : Shape Label) (E : Set (Label × Input)) (T : Set (Label × Input × A))
    (num : Label → Option StateId) (b : DfaBuilder A) (l : Label) (opts : List Label)
    (last : List (Label × Input × Bool)) : Prop where
  rep : Represents S E T num b.dfa
  state : num l = some b.state
  optionalStates : List.Forall₂ (fun l s => num l = some s) opts b.optionalStates
  lastEdges : LastEdges num last b.lastEdges

theorem LastEdges.renumber {edges : List (StateId × Input × Bool)} (h : LastEdges num last edges)
    (hn : Renumbers num num') : LastEdges num' last edges :=
  h.imp fun _ _ hxy => ⟨hn _ _ hxy.1, hxy.2⟩

theorem LastEdges.append {edges : List (StateId × Input × Bool)} {s : StateId} {cs : Bool}
    (h : LastEdges num last edges) (hs : num l = some s) :
    LastEdges num (last ++ [(l, i, cs)]) (edges ++ [(s, i, cs)]) :=
  List.rel_append h (.cons ⟨hs, rfl⟩ .nil)

theorem Represents.startPattern {dfa : Dfa A} {s : StateId} (h : Represents S E T num dfa)
    (hs : num l = some s) : BuilderAt S E T num (dfa.startPattern s) l [] [] :=
  ⟨h, hs, .nil, .nil⟩

variable [DecidableEq A]

/-- Other cases lead where the letter leads. -/
def Shape.FoldsCase (S : Shape Label) (l : Label) (i : Input) (caseSensitive : Bool) : Prop :=
  caseSensitive = false → ∀ o, otherCase i = some o → S.goto l o = S.goto l i

theorem Shape.foldsCase_true (S : Shape Label) (l : Label) (i : Input) : S.FoldsCase l i true :=
  fun h => absurd h Bool.noConfusion

/-- Inputs that may repeat in front of the next one lead back to where they start. -/
theorem BuilderAt.pushLoops {inputs : List Input} (h : BuilderAt S E T num b l [] last)
    (hl : ∀ i ∈ inputs, S.goto l i = l)
    (hp : DfaBuilder.pushPrefixes (inputs.map fun i => ⟨[i], true, true⟩) b = some b') :
    ∃ num', Renumbers num num' ∧
      BuilderAt S (E ∪ {x | x.1 = l ∧ x.2 ∈ inputs}) T num' b' l []
        (last ++ inputs.map fun i => (l, i, true)) ∧ b'.optionalPrefixes = b.optionalPrefixes := by
  induction inputs generalizing b num E last with
  | nil =>
    cases Option.some.inj hp
    have heq : E ∪ {x : Label × Input | x.1 = l ∧ x.2 ∈ ([] : List Input)} = E := by
      ext x
      simp
    exact ⟨num, .refl _, by rw [heq]; simpa using h, rfl⟩
  | cons i inputs ih =>
    have hnil : b.optionalStates = [] := List.forall₂_nil_left_iff.mp h.optionalStates
    simp only [List.map_cons, DfaBuilder.pushPrefixes, hnil, DfaBuilder.pushPrefixSources,
      DfaBuilder.pushPrefixInputs, Option.bind_eq_bind, Option.bind_eq_some_iff, if_true] at hp
    obtain ⟨b2, ⟨⟨t, b1⟩, hedge, hb2⟩, hrest⟩ := hp
    simp only [not_true_eq_false, false_and, if_false] at hb2
    cases Option.some.inj hb2
    have hloop : S.goto l i = l := hl i List.mem_cons_self
    have hpushed := DfaBuilder.pushEdgeFrom_pushed hedge
    obtain ⟨num1, hren, -, hrep⟩ := h.rep.pushEdgeFrom h.state
      (fun x hx => by rw [hloop, ← Option.some.inj hx]; exact h.state) (fun hx => by cases hx)
      (S.foldsCase_true l i) hedge rfl
    have hat : BuilderAt S (E ∪ edgeSet l i true) T num1 b2 l [] (last ++ [(l, i, true)]) := by
      refine ⟨hrep, by rw [hpushed.state]; exact hren _ _ h.state, ?_, ?_⟩
      · rw [hpushed.optionalStates]
        exact .nil
      · rw [hpushed.lastEdges]
        exact (h.lastEdges.append h.state).renumber hren
    obtain ⟨num2, hren2, hat2, hpre⟩ := ih hat (fun i hi => hl i (List.mem_cons_of_mem _ hi)) hrest
    refine ⟨num2, hren.trans hren2, ?_, hpre.trans hpushed.optionalPrefixes⟩
    have heq : E ∪ {x : Label × Input | x.1 = l ∧ x.2 ∈ i :: inputs} =
        E ∪ edgeSet l i true ∪ {x | x.1 = l ∧ x.2 ∈ inputs} := by
      ext ⟨l', i'⟩
      simp only [edgeSet, Set.mem_union, Set.mem_ofPred_eq, List.mem_cons, Bool.true_eq_false,
        false_and, or_false, or_assoc, and_or_left]
    rw [heq, List.map_cons, List.append_cons]
    exact hat2

/-- An input that does not repeat ends in a state of its own. -/
theorem BuilderAt.pushSkipped (h : BuilderAt S E T num b l [] last) (hg : S.Grows l i)
    (hne : S.goto l i ≠ l) (hp : DfaBuilder.pushPrefixes [⟨[i], true, false⟩] b = some b') :
    ∃ num', Renumbers num num' ∧
      BuilderAt S (E ∪ edgeSet l i true) T num' b' l [S.goto l i] (last ++ [(l, i, true)]) ∧
        b'.optionalPrefixes = b.optionalPrefixes := by
  have hnil : b.optionalStates = [] := List.forall₂_nil_left_iff.mp h.optionalStates
  simp only [DfaBuilder.pushPrefixes, hnil, DfaBuilder.pushPrefixSources,
    DfaBuilder.pushPrefixInputs, Option.bind_eq_bind, Option.bind_eq_some_iff, Bool.false_eq_true,
    if_false] at hp
  obtain ⟨b2, ⟨⟨t, b1⟩, hedge, hb2⟩, hrest⟩ := hp
  obtain rfl := Option.some.inj hrest
  have hpushed := DfaBuilder.pushEdgeFrom_pushed hedge
  obtain ⟨num1, hren, ht, hrep⟩ := h.rep.pushEdgeFrom h.state (fun _ hx => by cases hx)
    (fun _ => hg) (S.foldsCase_true l i) hedge rfl
  have hstate : num1 l = some b1.state := by
    rw [hpushed.state]
    exact hren _ _ h.state
  have htne : t ≠ b1.state := by
    rintro rfl
    exact hne (hrep.inj _ _ _ ht hstate)
  have hos : b1.optionalStates = [] := hpushed.optionalStates
  simp only [hos, List.not_mem_nil, not_false_eq_true, and_true, htne, ne_eq,
    if_true, List.nil_append] at hb2
  obtain rfl := Option.some.inj hb2
  refine ⟨num1, hren, ⟨hrep, hstate, .cons ht .nil, ?_⟩, hpushed.optionalPrefixes⟩
  show LastEdges num1 _ b1.lastEdges
  rw [hpushed.lastEdges]
  exact (h.lastEdges.append h.state).renumber hren

/-- The edges that let `input` follow each of `labels`. -/
def edgeSets (labels : List Label) (input : Input) (cs : Bool) : Set (Label × Input) :=
  {x | ∃ l ∈ labels, x ∈ edgeSet l input cs}

theorem Represents.pushStates {t : StateId} {cs : Bool} {states : List StateId}
    (h : Represents S E T num b.dfa)
    (hs : List.Forall₂ (fun l s => num l = some s) opts states)
    (ht : ∀ l ∈ opts, num (S.goto l i) = some t) (ho : ∀ l ∈ opts, S.FoldsCase l i cs)
    (hlast : LastEdges num last b.lastEdges)
    (hp : DfaBuilder.pushStates i t cs states b = some b') :
    ∃ num', Renumbers num num' ∧ Represents S (E ∪ edgeSets opts i cs) T num' b'.dfa ∧
      LastEdges num' (last ++ opts.map fun l => (l, i, cs)) b'.lastEdges ∧
      b'.optionalPrefixes = b.optionalPrefixes ∧ b'.optionalStates = b.optionalStates := by
  induction opts generalizing b num E last states with
  | nil =>
    cases List.forall₂_nil_left_iff.mp hs
    cases Option.some.inj hp
    have heq : E ∪ edgeSets ([] : List Label) i cs = E := by
      ext x
      simp [edgeSets]
    exact ⟨num, .refl _, by rw [heq]; exact h, by simpa using hlast, rfl, rfl⟩
  | cons l opts ih =>
    obtain ⟨s, states, hl, hopts, rfl⟩ := List.forall₂_cons_left_iff.mp hs
    simp only [DfaBuilder.pushStates, Option.bind_eq_bind, Option.bind_eq_some_iff] at hp
    obtain ⟨⟨x, b1⟩, hedge, hrest⟩ := hp
    have hpushed := DfaBuilder.pushEdgeFrom_pushed hedge
    obtain ⟨num1, hren, -, hrep⟩ := h.pushEdgeFrom hl
      (fun x hx => by rw [← Option.some.inj hx]; exact ht l List.mem_cons_self)
      (fun hx => by cases hx) (ho l List.mem_cons_self) hedge rfl
    have hlast1 : LastEdges num1 (last ++ [(l, i, cs)]) (b1.lastEdges ++ [(s, i, cs)]) := by
      rw [hpushed.lastEdges]
      exact (hlast.append hl).renumber hren
    obtain ⟨num2, hren2, hrep2, hlast2, hpre, hos⟩ := ih
      (b := { b1 with lastEdges := b1.lastEdges ++ [(s, i, cs)] }) hrep
      (hopts.imp fun _ _ hx => hren _ _ hx)
      (fun l hl => hren _ _ (ht l (List.mem_cons_of_mem _ hl)))
      (fun l hl => ho l (List.mem_cons_of_mem _ hl)) hlast1 hrest
    have heq : E ∪ edgeSets (l :: opts) i cs = E ∪ edgeSet l i cs ∪ edgeSets opts i cs := by
      ext x
      simp only [edgeSets, Set.mem_union, Set.mem_ofPred_eq, List.mem_cons, exists_eq_or_imp,
        or_assoc]
    rw [heq, List.map_cons, List.append_cons]
    exact ⟨num2, hren.trans hren2, hrep2, hlast2, hpre.trans hpushed.optionalPrefixes,
      hos.trans hpushed.optionalStates⟩

/-- Appending an input, once the prefixes in front of it were built. -/
theorem BuilderAt.pushEdge {to? : Option StateId} {cs : Bool}
    (h : BuilderAt S E T num b0 l opts last) (hb : b.pushOptionalPrefixes = some b0)
    (hb0 : b0.optionalPrefixes = [])
    (ht : ∀ x, to? = some x → num (S.goto l i) = some x) (hg : to? = none → S.Grows l i)
    (ho : S.FoldsCase l i cs) (hos : ∀ o ∈ opts, S.goto o i = S.goto l i ∧ S.FoldsCase o i cs)
    (hp : b.pushEdge i to? cs = some b') :
    ∃ num', Renumbers num num' ∧
      BuilderAt S (E ∪ edgeSet l i cs ∪ edgeSets opts i cs) T num' b' (S.goto l i) []
        ((l, i, cs) :: opts.map fun l => (l, i, cs)) ∧ b'.optionalPrefixes = [] := by
  unfold DfaBuilder.pushEdge at hp
  simp only [hb, Option.bind_eq_bind, Option.bind_some, Option.bind_eq_some_iff] at hp
  obtain ⟨⟨t, b1⟩, hedge, b2, hstates, heq⟩ := hp
  cases Option.some.inj heq
  have hpushed := DfaBuilder.pushEdgeFrom_pushed hedge
  obtain ⟨num1, hren, htarget, hrep⟩ := h.rep.pushEdgeFrom h.state ht hg ho hedge rfl
  simp only [hpushed.state, hpushed.optionalStates, hpushed.optionalPrefixes] at hstates
  have hlast1 : LastEdges num1 [(l, i, cs)] [(b0.state, i, cs)] := .cons ⟨hren _ _ h.state, rfl⟩ .nil
  obtain ⟨num2, hren2, hrep2, hlast2, hpre, hos2⟩ := Represents.pushStates
    (b := ⟨b1.dfa, b0.state, b0.optionalPrefixes, [], [(b0.state, i, cs)]⟩)
    hrep (h.optionalStates.imp fun _ _ hx => hren _ _ hx)
    (fun o hm => by rw [(hos o hm).1]; exact htarget) (fun o hm => (hos o hm).2) hlast1 hstates
  refine ⟨num2, hren.trans hren2, ⟨hrep2, hren2 _ _ htarget, ?_, hlast2⟩, hpre.trans hb0⟩
  show List.Forall₂ _ [] b2.optionalStates
  rw [hos2]
  exact .nil

/-- Attaching an action, once the prefixes in front of the next input were built. -/
theorem BuilderAt.withAction {a : A} (h : BuilderAt S E T num b0 l opts last)
    (hb : b.pushOptionalPrefixes = some b0) (hb0 : b0.optionalPrefixes = [])
    (hp : b.withAction a = some b') :
    BuilderAt S E (T ∪ lastActions last a) num b' l opts last ∧ b'.optionalPrefixes = [] := by
  unfold DfaBuilder.withAction at hp
  simp only [hb, Option.bind_eq_bind, Option.bind_some, Option.bind_eq_some_iff] at hp
  obtain ⟨dfa, hadd, heq⟩ := hp
  cases Option.some.inj heq
  exact ⟨⟨h.rep.addActions h.lastEdges hadd, h.state, h.optionalStates, h.lastEdges⟩, hb0⟩

end Beeper
