import Beeper.BuilderPaths

namespace Beeper

variable {Label A : Type} {S : Shape Label} {E E' : Set (Label × Input)}
  {T : Set (Label × Input × A)} {num : Label → Option StateId} {dfa dfa' : Dfa A}
  {b b' b0 : DfaBuilder A} {l : Label} {s t : StateId} {i : Input} {opts : List Label}
  {last : List (Label × Input × Bool)} {L : List (Label × Input)} {k : Nat}

open Classical in
/-- There are ids for the states that pushing the edges of `L` still takes, and for `k` more. -/
def Room (dfa : Dfa A) (E : Set (Label × Input)) (L : List (Label × Input)) (k : Nat) : Prop :=
  dfa.numStates + L.countP (fun x => x ∉ E) + k < 2 ^ 16

theorem Room.mono (h : Room dfa E L k) (hE : E ⊆ E') (hn : dfa'.numStates = dfa.numStates) :
    Room dfa' E' L k := by
  classical
  have hle : L.countP (fun x => x ∉ E') ≤ L.countP (fun x => x ∉ E) :=
    List.countP_mono_left fun x _ hx => by
      simp only [decide_eq_true_eq] at hx ⊢
      exact fun hm => hx (hE hm)
  unfold Room at h ⊢
  rw [hn]
  omega

theorem Room.slack (h : Room dfa E L k) : Room dfa E L 0 := by
  unfold Room at h ⊢
  omega

theorem Room.lt (h : Room dfa E L k) (hm : (l, i) ∈ L) (hn : (l, i) ∉ E) :
    dfa.numStates + k + 1 < 2 ^ 16 := by
  classical
  have hpos : 0 < L.countP (fun x => x ∉ E) := List.countP_pos_iff.mpr ⟨_, hm, decide_eq_true hn⟩
  unfold Room at h
  omega

/-- A state was taken for an edge that was missing. -/
theorem Room.push (h : Room dfa E L k) (hm : (l, i) ∈ L) (hn : (l, i) ∉ E) (hE : E ⊆ E')
    (hi : (l, i) ∈ E') (hnum : dfa'.numStates = dfa.numStates + 1) : Room dfa' E' L k := by
  classical
  have hle : ∀ L : List (Label × Input), L.countP (fun x => x ∉ E') ≤ L.countP (fun x => x ∉ E) :=
    fun L => List.countP_mono_left fun x _ hx => by
      simp only [decide_eq_true_eq] at hx ⊢
      exact fun hm => hx (hE hm)
  have hlt : L.countP (fun x => x ∉ E') < L.countP (fun x => x ∉ E) := by
    obtain ⟨xs, ys, rfl⟩ := List.append_of_mem hm
    have hxs := hle xs
    have hys := hle ys
    simp only [List.countP_append, List.countP_cons, hi, hn, not_true_eq_false, not_false_eq_true,
      decide_true, decide_false, Bool.false_eq_true, if_true, if_false]
    omega
  unfold Room at h ⊢
  omega

theorem edgeSet_self (l : Label) (i : Input) (cs : Bool) : (l, i) ∈ edgeSet l i cs :=
  ⟨rfl, .inl rfl⟩

/-- Without the edge its label was numbered with, no other edge leads there. -/
theorem Represents.other_none {o : Input} (h : Represents S E T num dfa) (hs : num l = some s)
    (hg : S.Grows l i) (hE : (l, i) ∉ E) (ho : S.goto l o = S.goto l i) :
    dfa.lookup s o = none := by
  cases he : dfa.lookup s o with
  | none => rfl
  | some e =>
    have hnum := (h.edge l s o e hs he).2.1
    rw [ho] at hnum
    obtain ⟨hparent, hroot⟩ := hg
    rcases h.reached _ _ hnum with hroot' | ⟨x, hx, hparent'⟩
    · rw [hroot] at hroot'
      cases hroot'
    · rw [hparent] at hparent'
      cases hparent'
      exact absurd hx hE

theorem Dfa.nextState_new (h : dfa.lookup s i = none) (hn : dfa.numStates + 1 < 2 ^ 16) :
    dfa.nextState s i = some (dfa.numStates, { dfa with numStates := dfa.numStates + 1 }) := by
  unfold Dfa.nextState Dfa.newState
  rw [h]
  exact if_pos hn

section Edges

variable [DecidableEq A]

theorem Dfa.insertEdge_same {e : Edge A} (h : dfa.lookup s i = some e) (ht : e.target = t) :
    dfa.insertEdge s i t none = some dfa := by
  unfold Dfa.insertEdge
  rw [h]
  simp only [ht, ne_eq, not_true_eq_false, if_false]

/-- Neither the edge of a letter nor that of its other case leads somewhere else yet. -/
theorem Dfa.insertOther_exists {cs : Bool}
    (h : cs = false → ∀ o e, otherCase i = some o → dfa.lookup s o = some e → e.target = t) :
    ∃ dfa', dfa.insertOther s i t cs = some dfa' ∧ dfa'.numStates = dfa.numStates := by
  unfold Dfa.insertOther
  split
  next => exact ⟨dfa, rfl, rfl⟩
  next hcs =>
    split
    next o ho =>
      cases he : dfa.lookup s o with
      | some e => exact ⟨dfa, Dfa.insertEdge_same he (h (by simpa using hcs) o e ho he), rfl⟩
      | none => exact ⟨_, Dfa.insertEdge_new t none he, rfl⟩
    next => exact ⟨dfa, rfl, rfl⟩

/-- A missing edge takes an id, whether or not it leads there. -/
theorem pushEdgeFrom_new (to? : Option StateId) (cs : Bool) (hnone : b.dfa.lookup s i = none)
    (hn : b.dfa.numStates + 1 < 2 ^ 16)
    (ho : cs = false → ∀ o e, otherCase i = some o → b.dfa.lookup s o = some e →
      e.target = to?.getD b.dfa.numStates) :
    ∃ b', b.pushEdgeFrom s i to? cs = some (to?.getD b.dfa.numStates, b') ∧
      b'.dfa.numStates = b.dfa.numStates + 1 := by
  have hother : cs = false → ∀ o e, otherCase i = some o →
      (Dfa.setEdge { b.dfa with numStates := b.dfa.numStates + 1 } s i
        ⟨to?.getD b.dfa.numStates, none⟩).lookup s o = some e →
      e.target = to?.getD b.dfa.numStates := by
    intro hcs o e hoc he
    rw [Dfa.lookup_setEdge] at he
    split at he
    next => exact congrArg Edge.target (Option.some.inj he).symm
    next => exact ho hcs o e hoc he
  obtain ⟨d, hd, hnum⟩ := Dfa.insertOther_exists hother
  refine ⟨{ b with dfa := d }, ?_, hnum⟩
  unfold DfaBuilder.pushEdgeFrom
  simp only [Option.bind_eq_bind]
  rw [Dfa.nextState_new hnone hn, Option.bind_some]
  simp only [Dfa.insertEdge_new _ none (show Dfa.lookup
    { b.dfa with numStates := b.dfa.numStates + 1 } s i = none from hnone), Option.bind_some, hd]

/-- An edge can be pushed if it agrees with those that are there and an id is left for it. -/
theorem Represents.pushEdgeFrom_runs (to? : Option StateId) (cs : Bool)
    (h : Represents S E T num b.dfa) (hs : num l = some s)
    (ht : ∀ x, to? = some x → num (S.goto l i) = some x) (hg : to? = none → S.Grows l i)
    (ho : S.FoldsCase l i cs) (hm : (l, i) ∈ L) (hr : Room b.dfa E L k) :
    ∃ t b', b.pushEdgeFrom s i to? cs = some (t, b') ∧
      Room b'.dfa (E ∪ edgeSet l i cs) L k := by
  by_cases hE : (l, i) ∈ E
  · obtain ⟨e, he, htarget, -⟩ := h.lookup_some hs hE
    have hto : to?.getD e.target = e.target := by
      cases to? with
      | none => rfl
      | some x => exact Option.some.inj ((ht x rfl).symm.trans htarget)
    have hother : cs = false → ∀ o e', otherCase i = some o → b.dfa.lookup s o = some e' →
        e'.target = e.target := by
      intro hcs o e' hoc he'
      have hnum := (h.edge l s o e' hs he').2.1
      rw [ho hcs o hoc, htarget] at hnum
      exact (Option.some.inj hnum).symm
    obtain ⟨d, hd, hn⟩ := Dfa.insertOther_exists hother
    refine ⟨e.target, { b with dfa := d }, ?_, hr.mono Set.subset_union_left hn⟩
    unfold DfaBuilder.pushEdgeFrom
    simp only [Option.bind_eq_bind]
    rw [Dfa.nextState_edge he, Option.bind_some]
    simp only [hto, Dfa.insertEdge_same he rfl, Option.bind_some, hd]
  · have hlt := hr.lt hm hE
    obtain ⟨b', hpush, hn⟩ := pushEdgeFrom_new to? cs (h.lookup_none hs hE)
      (by omega) (fun hcs o e hoc he => by
        have hnum := (h.edge l s o e hs he).2.1
        rw [ho hcs o hoc] at hnum
        cases to? with
        | some x => exact Option.some.inj (hnum.symm.trans (ht x rfl))
        | none =>
          have habs := h.other_none hs (hg rfl) hE (ho hcs o hoc)
          cases habs.symm.trans he)
    exact ⟨_, b', hpush, hr.push hm hE Set.subset_union_left (.inr (edgeSet_self l i cs)) hn⟩

/-- The edges are there, and they carry no other action. -/
def Allows (E : Set (Label × Input)) (T : Set (Label × Input × A))
    (last : List (Label × Input × Bool)) (a : A) : Prop :=
  ∀ l i, (l, i, a) ∈ lastActions last a → (l, i) ∈ E ∧ ∀ a', (l, i, a') ∈ T → a' = a

theorem Represents.addAction_runs {a : A} (h : Represents S E T num dfa) (hs : num l = some s)
    (hm : (l, i) ∈ E) (ha : ∀ a', (l, i, a') ∈ T → a' = a) :
    ∃ dfa', dfa.addAction s i a = some dfa' ∧ dfa'.numStates = dfa.numStates := by
  obtain ⟨e, he, -, hact⟩ := h.lookup_some hs hm
  unfold Dfa.addAction
  simp only [he]
  cases hea : e.action with
  | none => exact ⟨_, rfl, rfl⟩
  | some a' => exact ⟨_, if_pos (ha a' ((hact a').mp hea)), rfl⟩

theorem Represents.addActions_runs {a : A} {edges : List (StateId × Input × Bool)}
    (h : Represents S E T num dfa) (hlast : LastEdges num last edges) (ha : Allows E T last a) :
    ∃ dfa', DfaBuilder.addActions a edges dfa = some dfa' ∧ dfa'.numStates = dfa.numStates := by
  induction hlast generalizing dfa T with
  | nil => exact ⟨dfa, rfl, rfl⟩
  | @cons x y last edges hxy _ ih =>
    obtain ⟨source, input, cs⟩ := y
    obtain ⟨l, i, cs'⟩ := x
    obtain ⟨hs, heq⟩ := hxy
    cases heq
    have hhead : ∀ j, (l, j) ∈ edgeSet l input cs → (l, j) ∈ E ∧ ∀ a', (l, j, a') ∈ T → a' = a :=
      fun j hj => ha l j ⟨_, List.mem_cons_self, hj, rfl⟩
    obtain ⟨hm, hact⟩ := hhead input (edgeSet_self _ _ _)
    obtain ⟨d1, h1, hn1⟩ := h.addAction_runs hs hm hact
    have hrep1 := h.addAction hs h1
    have hother : ∃ d2, d1.addOther source input a cs = some d2 ∧ d2.numStates = d1.numStates := by
      unfold Dfa.addOther
      split
      next => exact ⟨d1, rfl, rfl⟩
      next hcs =>
        split
        next o ho =>
          obtain ⟨hm', hact'⟩ := hhead o ⟨rfl, .inr ⟨by simpa using hcs, ho⟩⟩
          refine hrep1.addAction_runs hs hm' fun a' ha' => ?_
          rcases Set.mem_insert_iff.mp ha' with heq | ha'
          · exact (Prod.mk.inj (Prod.mk.inj heq).2).2
          · exact hact' a' ha'
        next => exact ⟨d1, rfl, rfl⟩
    obtain ⟨d2, h2, hn2⟩ := hother
    have hrest : Allows E (T ∪ actionSet l input cs a) last a := by
      rintro l' j ⟨e, he, hx⟩
      obtain ⟨hm', hact'⟩ := ha l' j ⟨e, List.mem_cons_of_mem _ he, hx⟩
      refine ⟨hm', fun a' ha' => ?_⟩
      rcases ha' with ha' | ha'
      · exact hact' a' ha'
      · exact ha'.2
    obtain ⟨d3, h3, hn3⟩ := ih (hrep1.addOther hs h2) hrest
    refine ⟨d3, ?_, hn3.trans (hn2.trans hn1)⟩
    simp only [DfaBuilder.addActions, h1, h2, h3, Option.bind_eq_bind, Option.bind_some]

theorem BuilderAt.withAction_runs {a : A} (h : BuilderAt S E T num b0 l opts last)
    (hb : b.pushOptionalPrefixes = some b0) (ha : Allows E T last a) (hr : Room b0.dfa E L k) :
    ∃ b', b.withAction a = some b' ∧ Room b'.dfa E L k := by
  obtain ⟨dfa, hadd, hn⟩ := h.rep.addActions_runs h.lastEdges ha
  refine ⟨{ b0 with dfa := dfa }, ?_, hr.mono (Set.Subset.refl E) hn⟩
  unfold DfaBuilder.withAction
  simp only [hb, hadd, Option.bind_eq_bind, Option.bind_some]

theorem pushPrefixes_cons {p : OptionalPrefix} {ps : List OptionalPrefix}
    (h : DfaBuilder.pushPrefixes [p] b = some b') :
    DfaBuilder.pushPrefixes (p :: ps) b = DfaBuilder.pushPrefixes ps b' := by
  simp only [DfaBuilder.pushPrefixes, Option.bind_eq_bind, Option.bind_eq_some_iff] at h ⊢
  obtain ⟨b1, h1, heq⟩ := h
  rw [h1, Option.bind_some, Option.some.inj heq]

theorem BuilderAt.pushLoops_runs {inputs : List Input} (h : BuilderAt S E T num b l [] last)
    (hl : ∀ i ∈ inputs, S.goto l i = l) (hm : ∀ i ∈ inputs, (l, i) ∈ L)
    (hr : Room b.dfa E L k) :
    ∃ b', DfaBuilder.pushPrefixes (inputs.map fun i => ⟨[i], true, true⟩) b = some b' ∧
      Room b'.dfa (E ∪ {x | x.1 = l ∧ x.2 ∈ inputs}) L k := by
  induction inputs generalizing b num E last with
  | nil => exact ⟨b, rfl, hr.mono Set.subset_union_left rfl⟩
  | cons i inputs ih =>
    have hloop : S.goto l i = l := hl i List.mem_cons_self
    have hnil : b.optionalStates = [] := List.forall₂_nil_left_iff.mp h.optionalStates
    obtain ⟨t, b1, hedge, hr1⟩ := Represents.pushEdgeFrom_runs (some b.state) true
      (b := { b with lastEdges := b.lastEdges ++ [(b.state, i, true)] }) h.rep h.state
      (fun x hx => by rw [hloop, ← Option.some.inj hx]; exact h.state) (fun hx => by cases hx)
      (S.foldsCase_true l i) (hm i List.mem_cons_self) hr
    have hone : DfaBuilder.pushPrefixes ([i].map fun i => ⟨[i], true, true⟩) b = some b1 := by
      simp only [List.map_cons, List.map_nil, DfaBuilder.pushPrefixes, hnil,
        DfaBuilder.pushPrefixSources, DfaBuilder.pushPrefixInputs, Option.bind_eq_bind,
        if_true, not_true_eq_false, false_and, if_false]
      rw [← hnil, hedge]
      rfl
    have hloops : ∀ j ∈ [i], S.goto l j = l := fun j hj => by rw [List.mem_singleton.mp hj, hloop]
    obtain ⟨num1, -, hat1, -⟩ := h.pushLoops hloops hone
    have heq : E ∪ edgeSet l i true = E ∪ {x : Label × Input | x.1 = l ∧ x.2 ∈ [i]} := by
      ext ⟨l', i'⟩
      simp [edgeSet]
    rw [heq] at hr1
    obtain ⟨b2, h2, hr2⟩ := ih hat1 (fun j hj => hl j (List.mem_cons_of_mem _ hj))
      (fun j hj => hm j (List.mem_cons_of_mem _ hj)) hr1
    refine ⟨b2, ?_, hr2.mono ?_ rfl⟩
    · rw [List.map_cons, pushPrefixes_cons hone, h2]
    · intro x hx
      simp only [Set.mem_union, Set.mem_ofPred_eq, List.mem_cons, List.not_mem_nil, or_false] at hx ⊢
      tauto

theorem BuilderAt.pushSkipped_runs (h : BuilderAt S E T num b l [] last) (hg : S.Grows l i)
    (hm : (l, i) ∈ L) (hr : Room b.dfa E L k) :
    ∃ b', DfaBuilder.pushPrefixes [⟨[i], true, false⟩] b = some b' ∧
      Room b'.dfa (E ∪ edgeSet l i true) L k := by
  have hnil : b.optionalStates = [] := List.forall₂_nil_left_iff.mp h.optionalStates
  obtain ⟨t, b1, hedge, hr1⟩ := Represents.pushEdgeFrom_runs none true
    (b := { b with lastEdges := b.lastEdges ++ [(b.state, i, true)] }) h.rep h.state
    (fun x hx => by cases hx) (fun _ => hg) (S.foldsCase_true l i) hm hr
  simp only [DfaBuilder.pushPrefixes, hnil, DfaBuilder.pushPrefixSources,
    DfaBuilder.pushPrefixInputs, Option.bind_eq_bind, Bool.false_eq_true, if_false]
  rw [← hnil, hedge]
  refine ⟨_, rfl, ?_⟩
  split
  · exact hr1
  · exact hr1

theorem Represents.pushStates_runs {cs : Bool} {states : List StateId}
    (h : Represents S E T num b.dfa)
    (hs : List.Forall₂ (fun l s => num l = some s) opts states)
    (ht : ∀ l ∈ opts, num (S.goto l i) = some t) (ho : ∀ l ∈ opts, S.FoldsCase l i cs)
    (hm : ∀ l ∈ opts, (l, i) ∈ L) (hr : Room b.dfa E L k) :
    ∃ b', DfaBuilder.pushStates i t cs states b = some b' ∧
      Room b'.dfa (E ∪ edgeSets opts i cs) L k := by
  induction opts generalizing b num E states with
  | nil =>
    cases List.forall₂_nil_left_iff.mp hs
    exact ⟨b, rfl, hr.mono Set.subset_union_left rfl⟩
  | cons l opts ih =>
    obtain ⟨s, states, hl, hopts, rfl⟩ := List.forall₂_cons_left_iff.mp hs
    have hto : ∀ x, some t = some x → num (S.goto l i) = some x := fun x hx => by
      rw [← Option.some.inj hx]
      exact ht l List.mem_cons_self
    have hfold := ho l List.mem_cons_self
    obtain ⟨u, b1, hedge, hr1⟩ := h.pushEdgeFrom_runs (some t) cs hl hto (fun hx => by cases hx) hfold
      (hm l List.mem_cons_self) hr
    obtain ⟨num1, hren, -, hrep⟩ := h.pushEdgeFrom hl hto (fun hx => by cases hx) hfold hedge rfl
    obtain ⟨b2, h2, hr2⟩ := ih (b := { b1 with lastEdges := b1.lastEdges ++ [(s, i, cs)] }) hrep
      (hopts.imp fun _ _ hx => hren _ _ hx)
      (fun l hl => hren _ _ (ht l (List.mem_cons_of_mem _ hl)))
      (fun l hl => ho l (List.mem_cons_of_mem _ hl)) (fun l hl => hm l (List.mem_cons_of_mem _ hl)) hr1
    refine ⟨b2, ?_, hr2.mono ?_ rfl⟩
    · simp only [DfaBuilder.pushStates, hedge, Option.bind_eq_bind, Option.bind_some, h2]
    · intro x hx
      simp only [edgeSets, Set.mem_union, Set.mem_ofPred_eq, List.mem_cons, exists_eq_or_imp] at hx ⊢
      tauto

theorem BuilderAt.pushEdge_runs (to? : Option StateId) (cs : Bool)
    (h : BuilderAt S E T num b0 l opts last) (hb : b.pushOptionalPrefixes = some b0)
    (ht : ∀ x, to? = some x → num (S.goto l i) = some x) (hg : to? = none → S.Grows l i)
    (ho : S.FoldsCase l i cs) (hos : ∀ o ∈ opts, S.goto o i = S.goto l i ∧ S.FoldsCase o i cs)
    (hm : (l, i) ∈ L) (hmo : ∀ o ∈ opts, (o, i) ∈ L) (hr : Room b0.dfa E L k) :
    ∃ b', b.pushEdge i to? cs = some b' ∧
      Room b'.dfa (E ∪ edgeSet l i cs ∪ edgeSets opts i cs) L k := by
  obtain ⟨t, b1, hedge, hr1⟩ := h.rep.pushEdgeFrom_runs to? cs h.state ht hg ho hm hr
  obtain ⟨num1, hren, htarget, hrep⟩ := h.rep.pushEdgeFrom h.state ht hg ho hedge rfl
  have hpushed := DfaBuilder.pushEdgeFrom_pushed hedge
  obtain ⟨b2, h2, hr2⟩ := Represents.pushStates_runs
    (b := { b1 with lastEdges := [(b1.state, i, cs)], optionalStates := [] })
    hrep (h.optionalStates.imp fun _ _ hx => hren _ _ hx)
    (fun o hm => by rw [(hos o hm).1]; exact htarget) (fun o hm => (hos o hm).2) hmo hr1
  refine ⟨{ b2 with state := t }, ?_, hr2⟩
  unfold DfaBuilder.pushEdge
  simp only [hb, Option.bind_eq_bind, Option.bind_some, hedge, hpushed.optionalStates, h2]

/-- The edges that are pushed along a path, without those for the other case. -/
def Shape.pushes (S : Shape Label) : Label → Bytes → List (Label × Input)
  | _, [] => []
  | l, c :: cs => (l, c.toNat) :: S.pushes (S.goto l c.toNat) cs

theorem edgeSets_nil (i : Input) (cs : Bool) : edgeSets ([] : List Label) i cs = ∅ := by
  ext x
  simp [edgeSets]

theorem BuilderAt.pushTo_runs {target : StateId} {bytes : Bytes} {cs : Bool}
    (h : BuilderAt S E T num b l [] last) (hb : b.optionalPrefixes = [])
    (ht : num (S.path l bytes) = some target) (hg : S.GrowsPath cs true l bytes)
    (hm : S.pushes l bytes ⊆ L) (hr : Room b.dfa E L k) :
    ∃ b', DfaBuilder.pushTo target cs bytes b = some b' ∧
      Room b'.dfa (E ∪ S.pathSet cs l bytes) L k := by
  induction bytes generalizing b num E l last with
  | nil => exact ⟨b, rfl, hr.mono Set.subset_union_left rfl⟩
  | cons c bytes ih =>
    obtain ⟨hgrows, hfolds, hpath⟩ := hg
    obtain ⟨hmc, hms⟩ := List.cons_subset.mp hm
    have hto : ∀ x, (if bytes = [] then some target else none) = some x →
        num (S.goto l c.toNat) = some x := by
      intro x hx
      split at hx
      next hnil =>
        subst hnil
        rw [← Option.some.inj hx]
        exact ht
      next => cases hx
    have hnew : (if bytes = [] then some target else none) = none → S.Grows l c.toNat := by
      intro hx
      split at hx
      next => cases hx
      next hne => exact hgrows.resolve_right fun hend => hne hend.2
    have hnone : ∀ o ∈ ([] : List Label), S.goto o c.toNat = S.goto l c.toNat ∧
        S.FoldsCase o c.toNat cs := fun o ho => absurd ho List.not_mem_nil
    obtain ⟨b1, hedge, hr1⟩ := h.pushEdge_runs _ cs (pushOptionalPrefixes_nil hb) hto hnew hfolds hnone
      hmc (fun o ho => absurd ho List.not_mem_nil) hr
    obtain ⟨num1, hren, hat, hb1⟩ := h.pushEdge (pushOptionalPrefixes_nil hb) hb hto hnew hfolds
      hnone hedge
    obtain ⟨b2, h2, hr2⟩ := ih hat hb1 (hren _ _ ht) hpath hms hr1
    rw [edgeSets_nil, Set.union_empty] at hr2
    refine ⟨b2, ?_, ?_⟩
    · simp only [DfaBuilder.pushTo, hedge, Option.bind_eq_bind, Option.bind_some, h2]
    · rw [Shape.pathSet, ← Set.union_assoc]
      exact hr2

theorem BuilderAt.pushInner_runs {bytes : Bytes} {cs : Bool} (h : BuilderAt S E T num b l [] last)
    (hb : b.optionalPrefixes = []) (hg : S.GrowsPath cs false l bytes) (hm : S.pushes l bytes ⊆ L)
    (hr : Room b.dfa E L k) :
    ∃ b', DfaBuilder.pushInner bytes cs b = some b' ∧
      Room b'.dfa (E ∪ S.pathSet cs l bytes) L k := by
  induction bytes generalizing b num E l last with
  | nil => exact ⟨b, rfl, hr.mono Set.subset_union_left rfl⟩
  | cons c bytes ih =>
    obtain ⟨hgrows, hfolds, hpath⟩ := hg
    obtain ⟨hmc, hms⟩ := List.cons_subset.mp hm
    have hgrows : S.Grows l c.toNat := hgrows.resolve_right fun hend => Bool.false_ne_true hend.1
    have hnone : ∀ o ∈ ([] : List Label), S.goto o c.toNat = S.goto l c.toNat ∧
        S.FoldsCase o c.toNat cs := fun o ho => absurd ho List.not_mem_nil
    obtain ⟨b1, hedge, hr1⟩ := h.pushEdge_runs none cs (pushOptionalPrefixes_nil hb)
      (fun x hx => by cases hx) (fun _ => hgrows) hfolds hnone hmc
      (fun o ho => absurd ho List.not_mem_nil) hr
    obtain ⟨num1, hren, hat, hb1⟩ := h.pushEdge (pushOptionalPrefixes_nil hb) hb
      (fun x hx => by cases hx) (fun _ => hgrows) hfolds hnone hedge
    obtain ⟨b2, h2, hr2⟩ := ih hat hb1 hpath hms hr1
    rw [edgeSets_nil, Set.union_empty] at hr2
    refine ⟨b2, ?_, ?_⟩
    · simp only [DfaBuilder.pushInner, hedge, Option.bind_eq_bind, Option.bind_some, h2]
    · rw [Shape.pathSet, ← Set.union_assoc]
      exact hr2

theorem BuilderAt.pushAnyEdge_runs (h : BuilderAt S E T num b l [] last)
    (hb : b.optionalPrefixes = []) (hg : S.Grows l anyInput) (hm : (l, anyInput) ∈ L)
    (hr : Room b.dfa E L k) :
    ∃ b', b.pushEdge anyInput none true = some b' ∧ Room b'.dfa (insert (l, anyInput) E) L k := by
  obtain ⟨b1, hedge, hr1⟩ := h.pushEdge_runs none true (pushOptionalPrefixes_nil hb)
    (fun x hx => by cases hx) (fun _ => hg) (S.foldsCase_true _ _)
    (fun o ho => absurd ho List.not_mem_nil) hm (fun o ho => absurd ho List.not_mem_nil) hr
  refine ⟨b1, hedge, hr1.mono ?_ rfl⟩
  rintro ⟨l', i'⟩ hx
  simp only [edgeSets_nil, Set.union_empty, edgeSet, Bool.true_eq_false, false_and, or_false,
    Set.mem_union, Set.mem_ofPred_eq, Set.mem_insert_iff, Prod.mk.injEq] at hx ⊢
  exact hx.symm

theorem BuilderAt.pushAny_loop_runs (h : BuilderAt S E T num b l [] last)
    (hb : b.optionalPrefixes = []) (hg : S.Grows l anyInput)
    (hloop : S.goto (S.goto l anyInput) anyInput = S.goto l anyInput) (hm : (l, anyInput) ∈ L)
    (hml : (S.goto l anyInput, anyInput) ∈ L) (hr : Room b.dfa E L k) :
    ∃ b', b.pushAny 1 none = some b' ∧
      Room b'.dfa (insert (S.goto l anyInput, anyInput) (insert (l, anyInput) E)) L k := by
  obtain ⟨b1, hedge, hr1⟩ := h.pushAnyEdge_runs hb hg hm hr
  obtain ⟨num1, hren, hat, hb1⟩ := h.pushAnyEdge hb hg hedge
  have hsame : ∀ b : DfaBuilder A, { b with optionalPrefixes := b.optionalPrefixes ++ [] } = b :=
    fun b => by rw [List.append_nil]
  obtain ⟨t, b2, hself, hr2⟩ := hat.rep.pushEdgeFrom_runs (some b1.state) true hat.state
    (fun x hx => by rw [hloop, ← Option.some.inj hx]; exact hat.state) (fun hx => by cases hx)
    (S.foldsCase_true _ _) hml hr1
  refine ⟨{ b2 with lastEdges := b2.lastEdges ++ [(b2.state, anyInput, true)] }, ?_, hr2.mono ?_ rfl⟩
  · unfold DfaBuilder.pushAny
    simp only [Option.getD_none, Nat.lt_irrefl, if_false, DfaBuilder.pushAnys,
      Option.bind_eq_bind, Nat.sub_self, List.replicate_zero, hedge, Option.bind_some, hsame, hself]
  · rintro ⟨l', i'⟩ hx
    simp only [edgeSet, Bool.true_eq_false, false_and, or_false, Set.mem_union, Set.mem_ofPred_eq,
      Set.mem_insert_iff, Prod.mk.injEq] at hx ⊢
    exact hx.symm

/-- Two ids are taken for an edge that is missing where a string restarts. -/
theorem BuilderAt.restartStates_runs {c : UInt8} {a : Label}
    (h : BuilderAt S E T num b l opts last) (ha : num a = some anyState) (hg : S.Grows a c.toNat)
    (hf : S.FoldsCase a c.toNat false) (hm : (a, c.toNat) ∈ L) (hk : (a, c.toNat) ∉ E → 0 < k)
    (hr : Room b.dfa E L k) :
    ∃ target b', DfaBuilder.restartStates [c] anyState b = some (target, b') ∧
      Room b'.dfa (E ∪ edgeSet a c.toNat false) L 0 := by
  simp only [DfaBuilder.restartStates, Option.bind_eq_bind]
  by_cases hE : (a, c.toNat) ∈ E
  · obtain ⟨e, he, htarget, -⟩ := h.rep.lookup_some ha hE
    obtain ⟨t, b1, hedge, hr1⟩ := h.rep.pushEdgeFrom_runs (some e.target) false ha
      (fun x hx => by rw [← Option.some.inj hx]; exact htarget) (fun hx => by cases hx) hf hm hr
    rw [Dfa.nextState_edge he]
    refine ⟨e.target, b1, ?_, hr1.slack⟩
    rw [Option.bind_some]
    simp only [hedge, Option.bind_some]
  · have hlt := hr.lt hm hE
    have hk := hk hE
    have hnone := h.rep.lookup_none ha hE
    obtain ⟨b1, hpush, hn⟩ := pushEdgeFrom_new (some b.dfa.numStates) false
      (b := { b with dfa := { b.dfa with numStates := b.dfa.numStates + 1 } }) hnone
      (show b.dfa.numStates + 1 + 1 < 2 ^ 16 by omega) (fun _ o e hoc he => by
        have habs := h.rep.other_none ha hg hE (hf rfl o hoc)
        cases habs.symm.trans he)
    refine ⟨b.dfa.numStates, b1, ?_, ?_⟩
    · rw [Dfa.nextState_new hnone (by omega), Option.bind_some]
      simp only [hpush, Option.bind_some]
    · have hr' : Room { b.dfa with numStates := b.dfa.numStates + 1 } E L 0 := by
        unfold Room at hr ⊢
        show b.dfa.numStates + 1 + _ + 0 < 2 ^ 16
        omega
      exact hr'.push hm hE Set.subset_union_left (.inr (edgeSet_self _ _ _)) hn

/-- The end of a line, with the `c` that may be skipped. -/
theorem BuilderAt.restartLine_runs {c d : UInt8} {a : Label} (h : BuilderAt S E T num b l [] last)
    (hb : b.optionalPrefixes = []) (ha : num a = some anyState) (hd : otherCase d.toNat = none)
    (hga : S.Grows a d.toNat) (hgl : S.Grows l c.toNat) (hne : S.goto l c.toNat ≠ l)
    (hl : S.goto l d.toNat = S.goto a d.toNat)
    (hc : S.goto (S.goto l c.toNat) d.toNat = S.goto a d.toNat)
    (hm : ∀ x ∈ [(a, d.toNat), (l, c.toNat), (l, d.toNat), (S.goto l c.toNat, d.toNat)], x ∈ L)
    (hk : (a, d.toNat) ∉ E → 0 < k) (hr : Room b.dfa E L k) :
    ∃ b', (b.pushOptional [c] false).restartWith [d] = some b' ∧ Room b'.dfa
      (E ∪ {(a, d.toNat), (l, c.toNat), (l, d.toNat), (S.goto l c.toNat, d.toNat)}) L 0 := by
  simp only [List.forall_mem_cons] at hm
  obtain ⟨hma, hmc, hml, hmcd, -⟩ := hm
  have hfold : ∀ l', S.FoldsCase l' d.toNat false := fun l' _ o ho => by
    rw [hd] at ho
    cases ho
  have h' : BuilderAt S E T num (b.pushOptional [c] false) l [] last :=
    ⟨h.rep, h.state, h.optionalStates, h.lastEdges⟩
  obtain ⟨target, b1, hrestart, hr1⟩ := h'.restartStates_runs ha hga (hfold a) hma hk hr
  obtain ⟨num1, hren1, ht, hat1, hpre1⟩ := h'.restartStates ha hga (hfold a) hrestart
  have hpre1 : b1.optionalPrefixes = [⟨[c.toNat], true, false⟩] := by
    rw [hpre1, DfaBuilder.pushOptional, hb]
    rfl
  have hat1' : BuilderAt S (E ∪ edgeSet a d.toNat false) T num1 { b1 with optionalPrefixes := [] }
      l [] last := ⟨hat1.rep, hat1.state, hat1.optionalStates, hat1.lastEdges⟩
  obtain ⟨b3, hskip, hr3⟩ := hat1'.pushSkipped_runs hgl hmc hr1
  obtain ⟨num3, hren3, hat3, hpre3⟩ := hat1'.pushSkipped hgl hne hskip
  have hprefix : b1.pushOptionalPrefixes = some b3 := by
    unfold DfaBuilder.pushOptionalPrefixes
    rw [hpre1]
    exact hskip
  obtain ⟨b4, hedge, hr4⟩ := hat3.pushEdge_runs (some target) false hprefix
    (fun x hx => by
      rw [hl, ← Option.some.inj hx]
      exact hren3 _ _ ht)
    (fun hx => by cases hx) (hfold l)
    (fun o ho => by
      obtain rfl := List.mem_singleton.mp ho
      exact ⟨hc.trans hl.symm, hfold _⟩)
    hml (fun o ho => by rw [List.mem_singleton.mp ho]; exact hmcd) hr3
  refine ⟨b4, ?_, hr4.mono ?_ rfl⟩
  · unfold DfaBuilder.restartWith
    simp only [hrestart, DfaBuilder.pushTo, hedge, Option.bind_eq_bind, Option.bind_some, if_true]
  · rintro ⟨l', i'⟩ hx
    simp only [edgeSet, edgeSets, hd, Set.mem_union, Set.mem_insert_iff, Set.mem_singleton_iff,
      Set.mem_ofPred_eq, Prod.mk.injEq, List.mem_singleton, exists_eq_left, reduceCtorEq,
      and_false, false_and, or_false, or_assoc] at hx ⊢
    exact hx

theorem BuilderAt.pushOthers_runs {start f : Label} {inputs : List Bytes}
    (edges : List (StateId × Input × Bool)) (h : BuilderAt S E T num b f [] [])
    (hb : b.optionalPrefixes = []) (hs : num start = some s) (ht : num f = some t)
    (hin : ∀ x ∈ inputs, S.path start x = f ∧ S.GrowsPath false true start x)
    (hne : ∀ x ∈ inputs, x ≠ []) (hm : ∀ x ∈ inputs, S.pushes start x ⊆ L) (hr : Room b.dfa E L k) :
    ∃ b', DfaBuilder.pushOthers s t inputs edges b = some b' ∧
      Room b'.dfa (E ∪ S.optionSet start inputs) L k := by
  induction inputs generalizing b num E edges with
  | nil => exact ⟨_, rfl, hr.mono Set.subset_union_left rfl⟩
  | cons x inputs ih =>
    obtain ⟨hpath, hgrows⟩ := hin x List.mem_cons_self
    have hat0 : BuilderAt S E T num { b with state := s } start [] [] :=
      ⟨h.rep, hs, h.optionalStates, h.lastEdges⟩
    obtain ⟨b1, hto, hr1⟩ := hat0.pushTo_runs hb (by rw [hpath]; exact ht) hgrows
      (hm x List.mem_cons_self) hr
    obtain ⟨num1, hren1, hat1, hb1⟩ := hat0.pushTo hb (by rw [hpath]; exact ht) hgrows hto
    rw [hpath] at hat1
    have hat1' : BuilderAt S (E ∪ S.pathSet false start x) T num1 { b1 with lastEdges := [] } f []
        [] := ⟨hat1.rep, hat1.state, hat1.optionalStates, .nil⟩
    obtain ⟨b2, h2, hr2⟩ := ih (edges ++ b1.lastEdges) hat1' hb1 (hren1 _ _ hs)
      (hren1 _ _ ht) (fun y hy => hin y (List.mem_cons_of_mem _ hy))
      (fun y hy => hne y (List.mem_cons_of_mem _ hy))
      (fun y hy => hm y (List.mem_cons_of_mem _ hy)) hr1
    refine ⟨b2, ?_, hr2.mono ?_ rfl⟩
    · simp only [DfaBuilder.pushOthers, if_neg (hne x List.mem_cons_self), Option.bind_eq_bind, hto,
        Option.bind_some, h2]
    · intro y hy
      simp only [Shape.optionSet, Set.mem_union, Set.mem_ofPred_eq, List.mem_cons,
        exists_eq_or_imp] at hy ⊢
      tauto

theorem BuilderAt.pushOptionsCi_runs {inputs : List Bytes} {x : Bytes}
    (h : BuilderAt S E T num b l [] last) (hb : b.optionalPrefixes = [])
    (hx : DfaBuilder.longest inputs = some x) (hg : S.GrowsPath false false l x)
    (hin : ∀ y ∈ inputs.filter (· ≠ x), S.path l y = S.path l x ∧ S.GrowsPath false true l y)
    (hne : ∀ y ∈ inputs, y ≠ []) (hmx : S.pushes l x ⊆ L) (hm : ∀ y ∈ inputs, S.pushes l y ⊆ L)
    (hr : Room b.dfa E L k) :
    ∃ b', b.pushOptionsCi inputs = some b' ∧
      Room b'.dfa (E ∪ S.optionSet l (x :: inputs.filter (· ≠ x))) L k := by
  obtain ⟨b1, hinner, hr1⟩ := h.pushInner_runs hb hg hmx hr
  obtain ⟨num1, hren1, hat1, hb1⟩ := h.pushInner hb hg hinner
  have hat1' : BuilderAt S (E ∪ S.pathSet false l x) T num1 { b1 with lastEdges := [] }
      (S.path l x) [] [] := ⟨hat1.rep, hat1.state, hat1.optionalStates, .nil⟩
  obtain ⟨b2, hothers, hr2⟩ := hat1'.pushOthers_runs b1.lastEdges hb1
    (hren1 _ _ h.state) hat1.state hin (fun y hy => hne y (List.mem_filter.mp hy).1)
    (fun y hy => hm y (List.mem_filter.mp hy).1) hr1
  refine ⟨b2, ?_, hr2.mono ?_ rfl⟩
  · simp only [DfaBuilder.pushOptionsCi, hx, hinner, Option.bind_eq_bind, Option.bind_some, hothers]
  · intro y hy
    simp only [Shape.optionSet, Set.mem_union, Set.mem_ofPred_eq, List.mem_cons,
      exists_eq_or_imp] at hy ⊢
    tauto

end Edges

end Beeper
