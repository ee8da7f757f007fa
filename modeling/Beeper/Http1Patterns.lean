import Beeper.Http1Labels

namespace Beeper.Http1

variable {E : Set (Label × Input)} {T : Set (Label × Input × Action)}
  {num num' : Label → Option StateId} {dfa dfa' : Dfa Action} {b b' b0 : DfaBuilder Action}
  {l : Label} {last : List (Label × Input × Bool)} {mid : MatchId}

/-- The pattern adds the edges `edge`, which carry the actions `act`. -/
def Adds (dfa dfa' : Dfa Action) (edge : Label → Nat → Prop)
    (act : Label → Nat → Action → Prop) : Prop :=
  ∀ E T num, Represents shape E T num dfa → ∃ num', Renumbers num num' ∧
    Represents shape (E ∪ {x | edge x.1 x.2}) (T ∪ {x | act x.1 x.2.1 x.2.2}) num' dfa'

theorem pushEdge_prefixes {i : Input} {to? : Option StateId} {cs : Bool}
    (h : b.pushEdge i to? cs = some b') : ∃ b0, b.pushOptionalPrefixes = some b0 := by
  unfold DfaBuilder.pushEdge at h
  simp only [Option.bind_eq_bind, Option.bind_eq_some_iff] at h
  obtain ⟨b0, h0, -⟩ := h
  exact ⟨b0, h0⟩

theorem withAction_prefixes {a : Action} (h : b.withAction a = some b') :
    ∃ b0, b.pushOptionalPrefixes = some b0 := by
  unfold DfaBuilder.withAction at h
  simp only [Option.bind_eq_bind, Option.bind_eq_some_iff] at h
  obtain ⟨b0, h0, -⟩ := h
  exact ⟨b0, h0⟩

/-- Whitespace that may be skipped. -/
theorem pushBlanks (h : BuilderAt shape E T num b l [] last) (hb : b.optionalPrefixes = [])
    (ht : l.goto tabInput = l) (hs : l.goto spaceInput = l)
    (hp : ((b.pushOptional tab true).pushOptional space true).pushOptionalPrefixes = some b0) :
    ∃ num', Renumbers num num' ∧
      BuilderAt shape (E ∪ {x | x.1 = l ∧ x.2 ∈ [tabInput, spaceInput]}) T num' b0 l []
        (last ++ [(l, tabInput, true), (l, spaceInput, true)]) ∧ b0.optionalPrefixes = [] := by
  unfold DfaBuilder.pushOptionalPrefixes at hp
  have hpre : ((b.pushOptional tab true).pushOptional space true).optionalPrefixes =
      [tabInput, spaceInput].map fun i => ⟨[i], true, true⟩ := by
    simp only [DfaBuilder.pushOptional, hb]
    rfl
  rw [hpre] at hp
  have h' : BuilderAt shape E T num
      { (b.pushOptional tab true).pushOptional space true with optionalPrefixes := [] } l [] last :=
    ⟨h.rep, h.state, h.optionalStates, h.lastEdges⟩
  refine h'.pushLoops (fun i hi => ?_) hp
  rcases List.mem_cons.mp hi with rfl | hi
  · exact ht
  · rw [List.mem_singleton.mp hi]
    exact hs

/-- The names a header field can be captured under. -/
structure HeaderName (n : Bytes) : Prop where
  ne_nil : n ≠ []
  lower : ∀ c ∈ n, lowerByte c = c
  byte : ∀ c ∈ n, c.toNat ∉ [tabInput, lfInput, crInput, spaceInput]
  colon : ∀ c ∈ n.tail, c.toNat ≠ colonInput

variable {n : Bytes}

theorem HeaderName.char (h : HeaderName n) {t : Bytes} {c : UInt8} (hp : t ++ [c] <+: n) :
    lowerByte c = c ∧ c.toNat ∉ [tabInput, lfInput, crInput, spaceInput] ∧
      (c.toNat = colonInput → t = []) := by
  obtain ⟨rest, rfl⟩ := hp
  have hmem : c ∈ t ++ [c] ++ rest := by simp
  refine ⟨h.lower c hmem, h.byte c hmem, fun hc => ?_⟩
  cases t with
  | nil => rfl
  | cons d t => exact absurd hc (h.colon c (by simp))

/-- Neither case of a letter is a separator. -/
theorem otherCase_not_mem {c i : Nat} (h : otherCase c = some i) :
    i ∉ [tabInput, lfInput, crInput, spaceInput, colonInput] ∧ i < 256 := by
  rw [otherCase_iff] at h
  simp only [List.mem_cons, List.not_mem_nil, or_false, tabInput, lfInput, crInput, spaceInput,
    colonInput]
  omega

theorem goto_name {t : Bytes} {c : UInt8} (hl : lowerByte c = c)
    (hc : c.toNat ∉ [tabInput, lfInput, crInput, spaceInput])
    (hcolon : c.toNat = colonInput → t = []) {i : Nat}
    (hi : i = c.toNat ∨ otherCase c.toNat = some i) : (Label.name t).goto i = .name (t ++ [c]) := by
  have hcase := (lower_cases hl i).mp hi
  have hne : i ∉ [tabInput, lfInput, crInput, spaceInput] ∧ ¬(i = colonInput ∧ t ≠ []) := by
    rcases hi with rfl | hi
    · exact ⟨hc, fun h => h.2 (hcolon h.1)⟩
    · have hsep := (otherCase_not_mem hi).1
      simp only [List.mem_cons, not_or] at hsep ⊢
      exact ⟨⟨hsep.1, hsep.2.1, hsep.2.2.1, hsep.2.2.2.1, List.not_mem_nil⟩, fun h => hsep.2.2.2.2.1 h.1⟩
  simp only [List.mem_cons, List.not_mem_nil, or_false, not_or] at hne
  obtain ⟨⟨htab, hlf, hcr, hspace⟩, hnc⟩ := hne
  unfold Label.goto
  simp only [htab, hlf, hcr, hspace, hnc, or_self, if_false, hcase.2]

/-- A name is spelt along the labels of its front. -/
theorem HeaderName.chain (h : HeaderName n) : shape.Chain .name [] n := by
  intro t c _ hp
  obtain ⟨hl, hc, hcolon⟩ := h.char hp
  exact goto_name hl hc hcolon (.inl rfl)

theorem parent_name (t : Bytes) (c : UInt8) :
    (Label.name (t ++ [c])).parent = some (.name t, c.toNat) := by
  simp [Label.parent, lastInput]

theorem HeaderName.grows (h : HeaderName n) : shape.GrowsPath false false (.name []) n := by
  refine shape.growsPath_chain h.chain fun t c _ hp => ?_
  obtain ⟨hl, hc, hcolon⟩ := h.char hp
  have hgoto := goto_name hl hc hcolon (.inl rfl)
  refine ⟨.inl ⟨?_, ?_⟩, fun _ o ho => ?_⟩
  · show (Label.parent ((Label.name t).goto c.toNat)) = _
    rw [hgoto]
    exact parent_name t c
  · show (Label.root ((Label.name t).goto c.toNat)) = _
    rw [hgoto]
    rfl
  · exact (goto_name hl hc hcolon (.inr ho)).trans hgoto.symm

/-- The edges the name itself adds. -/
theorem HeaderName.mem_pathSet (h : HeaderName n) {x : Label × Input} :
    x ∈ shape.pathSet false (.name []) n ↔
      ∃ t, x.1 = .name t ∧ x.2 < 256 ∧ t ++ [lowerByte (UInt8.ofNat x.2)] <+: n := by
  rw [shape.mem_pathSet_chain h.chain]
  simp only [List.nil_append, List.nil_prefix, true_and]
  constructor
  · rintro ⟨t, c, hp, hx, hcase⟩
    obtain ⟨hi, hlow⟩ := (lower_cases (h.char hp).1 x.2).mp (hcase.imp id fun h => h.2)
    exact ⟨t, hx, hi, by rw [hlow]; exact hp⟩
  · rintro ⟨t, hx, hi, hp⟩
    refine ⟨t, _, hp, hx, ?_⟩
    exact ((lower_cases (h.char hp).1 x.2).mpr ⟨hi, rfl⟩).imp id fun h => ⟨rfl, h⟩

theorem anyState_num (h : Represents shape E T num dfa) : num .any = some anyState :=
  h.roots _ _ rfl

/-- The end of a line, with the CR that may be missing in front of it. -/
theorem endLine {c : Label} (h : BuilderAt shape E T num b l [] last)
    (hb : b.optionalPrefixes = []) (hc : l.goto crInput = c) (hg : shape.Grows l crInput)
    (hne : c ≠ l) (hl : l.goto lfInput = .name []) (hcl : c.goto lfInput = .name [])
    (hp : (b.pushOptional cr false).restartWith lf = some b') :
    ∃ num', Renumbers num num' ∧ Represents shape
      (E ∪ {(.any, lfInput), (l, crInput), (l, lfInput), (c, lfInput)}) T num' b'.dfa := by
  subst hc
  exact h.restartLine (c := 0x0d) (d := 0x0a) (a := Label.any) hb (anyState_num h.rep) rfl ⟨rfl, rfl⟩ hg
    hne hl hcl hp

/-- A pattern that starts with a new line. -/
theorem pushLine (h : Represents shape E T num dfa)
    (hp : (dfa.startPattern anyState).push lf = some b') :
    ∃ num', Renumbers num num' ∧ BuilderAt shape (E ∪ edgeSet .any lfInput true) T num' b' (.name [])
      [] [(.any, lfInput, true)] ∧ b'.optionalPrefixes = [] := by
  have hat := h.startPattern (anyState_num h)
  have hgrows : shape.GrowsPath true false .any lf :=
    ⟨.inl ⟨rfl, rfl⟩, shape.foldsCase_true _ _, trivial⟩
  obtain ⟨num', hren, hat', hpre⟩ := hat.pushInner rfl hgrows hp
  refine ⟨num', hren, ?_, hpre⟩
  have hset : shape.pathSet true .any lf = edgeSet .any lfInput true := Set.union_empty _
  rw [hset] at hat'
  exact hat'

/-- The colon behind a name, which may stand behind whitespace. -/
theorem pushColon (h : BuilderAt shape E T num b (.name n) [] last) (hb : b.optionalPrefixes = [])
    (hn : n ≠ [])
    (hp : ((b.pushOptional tab true).pushOptional space true).pushCi (ascii ":") = some b') :
    ∃ num', Renumbers num num' ∧ BuilderAt shape
      (E ∪ {x | x.1 = .name n ∧ x.2 ∈ [tabInput, spaceInput]} ∪ edgeSet (.name n) colonInput false)
      T num' b' (.colon n) [] [(.name n, colonInput, false)] ∧ b'.optionalPrefixes = [] := by
  have hascii : ascii ":" = [0x3a] := rfl
  have hgoto : (Label.name n).goto colonInput = .colon n := by
    simp [Label.goto, colonInput, lfInput, crInput, tabInput, spaceInput, hn]
  rw [DfaBuilder.pushCi, hascii] at hp
  simp only [DfaBuilder.pushInner, Option.bind_eq_bind, Option.bind_eq_some_iff] at hp
  obtain ⟨b1, hedge, heq⟩ := hp
  cases Option.some.inj heq
  obtain ⟨b0, h0⟩ := pushEdge_prefixes hedge
  obtain ⟨num0, hren0, hat0, hpre0⟩ := pushBlanks h hb rfl rfl h0
  obtain ⟨num1, hren1, hat1, hpre1⟩ := hat0.pushEdge h0 hpre0 (fun _ hx => by cases hx)
    (fun _ => ⟨by
      show Label.parent ((Label.name n).goto colonInput) = _
      rw [hgoto]
      rfl, by
      show Label.root ((Label.name n).goto colonInput) = _
      rw [hgoto]
      rfl⟩)
    (fun _ o ho => by cases ho) (fun o ho => absurd ho List.not_mem_nil) hedge
  refine ⟨num1, hren0.trans hren1, ?_, hpre1⟩
  have hempty : edgeSets ([] : List Label) colonInput false = ∅ := by
    ext x
    simp [edgeSets]
  have hat1 : BuilderAt shape _ T num1 b' ((Label.name n).goto colonInput) [] _ := hat1
  rw [hgoto] at hat1
  have hset : ∀ X : Set (Label × Input), X ∪ edgeSets ([] : List Label) colonInput false = X :=
    fun X => by rw [hempty, Set.union_empty]
  rw [← hset (_ ∪ edgeSet (.name n) colonInput false)]
  exact hat1

/-- The value starts behind the colon, and behind the whitespace that follows it. -/
theorem startValue (h : BuilderAt shape E T num b (.colon n) [] last)
    (hb : b.optionalPrefixes = [])
    (hp : ((b.pushOptional tab true).pushOptional space true).withAction (.startCapture mid) =
      some b') :
    ∃ num', Renumbers num num' ∧ BuilderAt shape
      (E ∪ {x | x.1 = .colon n ∧ x.2 ∈ [tabInput, spaceInput]})
      (T ∪ lastActions (last ++ [(.colon n, tabInput, true), (.colon n, spaceInput, true)])
        (.startCapture mid)) num' b' (.colon n) []
      (last ++ [(.colon n, tabInput, true), (.colon n, spaceInput, true)]) ∧
      b'.optionalPrefixes = [] := by
  obtain ⟨b0, h0⟩ := withAction_prefixes hp
  obtain ⟨num0, hren0, hat0, hpre0⟩ := pushBlanks h hb rfl rfl h0
  obtain ⟨hat1, hpre1⟩ := hat0.withAction h0 hpre0 hp
  exact ⟨num0, hren0, hat1, hpre1⟩

theorem headerPattern_adds (hn : HeaderName n) (hp : headerPattern dfa n mid = some dfa') :
    Adds dfa dfa' (headerEdge n) (headerAct n mid) := by
  intro E T num h
  unfold headerPattern at hp
  simp only [Option.bind_eq_bind, Option.bind_eq_some_iff] at hp
  obtain ⟨b1, h1, b2, h2, b3, h3, b4, h4, b5, h5, b6, h6, b7, h7, b8, h8, h9⟩ := hp
  cases Option.some.inj h9
  obtain ⟨num1, hren1, hat1, hpre1⟩ := pushLine h h1
  obtain ⟨num2, hren2, hat2, hpre2⟩ := hat1.pushInner hpre1 hn.grows h2
  have hpath : shape.path (.name []) n = .name n := shape.path_chain hn.chain
  rw [hpath] at hat2
  obtain ⟨num3, hren3, hat3, hpre3⟩ := pushColon hat2 hpre2 hn.ne_nil h3
  obtain ⟨num4, hren4, hat4, hpre4⟩ := startValue hat3 hpre3 h4
  obtain ⟨num5, hren5, hat5, hpre5⟩ := hat4.pushAny_loop hpre4 ⟨rfl, rfl⟩ rfl h5
  have hvalue : shape.goto (.colon n) anyInput = .value n := rfl
  rw [hvalue] at hat5
  obtain ⟨hat6, hpre6⟩ := hat5.withAction (pushOptionalPrefixes_nil hpre5) hpre5 h6
  obtain ⟨num7, hren7, hrep7⟩ := endLine (c := .valueCr n) hat6 hpre6 rfl ⟨rfl, rfl⟩ (fun h => by cases h) rfl rfl
    h7
  -- a value may also be missing
  have hcolon : num7 (.colon n) = some b4.state :=
    hren7 _ _ (hren5 _ _ hat4.state)
  obtain ⟨num8, hren8, hrep8⟩ := endLine (c := .colonCr n) (hrep7.startPattern hcolon) rfl rfl
    ⟨rfl, rfl⟩ (fun h => by cases h) rfl rfl h8
  refine ⟨num8, (((((hren1.trans hren2).trans hren3).trans hren4).trans hren5).trans hren7).trans
    hren8, ?_⟩
  have hnocase : otherCase colonInput = none := rfl
  convert hrep8 using 1
  · ext ⟨l, i⟩
    simp only [Set.mem_union, Set.mem_insert_iff, hn.mem_pathSet, edgeSet, Set.mem_ofPred_eq,
      Set.mem_singleton_iff, Prod.mk.injEq]
    cases l <;> simp [headerEdge, hnocase] <;> tauto
  · ext ⟨l, i, a⟩
    simp only [Set.mem_union, lastActions, actionSet, edgeSet, Set.mem_ofPred_eq]
    cases l <;> simp [headerAct, hnocase] <;> tauto

/-- A line feed, with the CR that may be missing in front of it. -/
theorem pushLineFeed {c d : Label} (h : BuilderAt shape E T num b l [] last)
    (hb : b.optionalPrefixes = []) (hc : l.goto crInput = c) (hd : l.goto lfInput = d)
    (hgc : shape.Grows l crInput) (hgd : shape.Grows l lfInput) (hne : c ≠ l)
    (hcd : c.goto lfInput = d) (hp : (b.pushOptional cr false).push lf = some b') :
    ∃ num', Renumbers num num' ∧ BuilderAt shape (E ∪ {(l, crInput), (l, lfInput), (c, lfInput)}) T
      num' b' d [] [(l, lfInput, true), (c, lfInput, true)] ∧ b'.optionalPrefixes = [] := by
  subst hc
  subst hd
  have hlf : lf = [0x0a] := rfl
  rw [DfaBuilder.push, hlf] at hp
  simp only [DfaBuilder.pushInner, Option.bind_eq_bind, Option.bind_eq_some_iff] at hp
  obtain ⟨b1, hedge, heq⟩ := hp
  cases Option.some.inj heq
  obtain ⟨b0, h0⟩ := pushEdge_prefixes hedge
  have hskip := h0
  unfold DfaBuilder.pushOptionalPrefixes at hskip
  have hpre : (b.pushOptional cr false).optionalPrefixes = [⟨[crInput], true, false⟩] := by
    simp only [DfaBuilder.pushOptional, hb]
    rfl
  rw [hpre] at hskip
  have h' : BuilderAt shape E T num { b.pushOptional cr false with optionalPrefixes := [] } l []
      last := ⟨h.rep, h.state, h.optionalStates, h.lastEdges⟩
  obtain ⟨num1, hren1, hat1, hpre1⟩ := h'.pushSkipped hgc hne hskip
  obtain ⟨num2, hren2, hat2, hpre2⟩ := hat1.pushEdge h0 hpre1 (fun _ hx => by cases hx) (fun _ => hgd)
    (shape.foldsCase_true _ _) (fun o ho => by
      obtain rfl := List.mem_singleton.mp ho
      exact ⟨hcd, shape.foldsCase_true _ _⟩) hedge
  refine ⟨num2, hren1.trans hren2, ?_, hpre2⟩
  have heq : E ∪ {(l, crInput), (l, lfInput), (l.goto crInput, lfInput)} =
      E ∪ edgeSet l crInput true ∪ edgeSet l lfInput true ∪
        edgeSets [l.goto crInput] lfInput true := by
    ext ⟨l', i'⟩
    simp only [edgeSet, edgeSets, Set.mem_union, Set.mem_insert_iff, Set.mem_singleton_iff,
      Set.mem_ofPred_eq, Prod.mk.injEq, List.mem_singleton, exists_eq_left, reduceCtorEq,
      false_and, or_false, or_assoc]
  rw [heq]
  exact hat2

theorem donePattern_adds (hp : donePattern dfa = some dfa') : Adds dfa dfa' doneEdge doneAct := by
  intro E T num h
  unfold donePattern at hp
  simp only [Option.bind_eq_bind, Option.bind_eq_some_iff] at hp
  obtain ⟨b1, h1, b2, h2, b3, h3, h4⟩ := hp
  cases Option.some.inj h4
  have hat := h.startPattern (anyState_num h)
  obtain ⟨num1, hren1, hat1, hpre1⟩ := pushLineFeed hat rfl rfl rfl ⟨rfl, rfl⟩ ⟨rfl, rfl⟩ (fun h => by cases h) rfl h1
  obtain ⟨num2, hren2, hat2, hpre2⟩ := pushLineFeed hat1 hpre1 rfl rfl ⟨rfl, rfl⟩ ⟨rfl, rfl⟩ (fun h => by cases h)
    rfl h2
  obtain ⟨hat3, -⟩ := hat2.withAction (pushOptionalPrefixes_nil hpre2) hpre2 h3
  refine ⟨num2, hren1.trans hren2, ?_⟩
  convert hat3.rep using 1
  · ext ⟨l, i⟩
    simp only [Set.mem_union, Set.mem_insert_iff, Set.mem_ofPred_eq, Set.mem_singleton_iff,
      Prod.mk.injEq]
    cases l <;> simp [doneEdge, Label.goto, lfInput, crInput]
    tauto
  · ext ⟨l, i, a⟩
    simp only [Set.mem_union, lastActions, actionSet, edgeSet, Set.mem_ofPred_eq]
    cases l <;> simp [doneAct, Label.goto, lfInput, crInput]
    tauto

end Beeper.Http1
