import Beeper.BuilderRoom
import Beeper.Http1Loaded
import Mathlib.Data.List.Dedup

namespace Beeper.Http1

variable {E : Set (Label × Input)} {T : Set (Label × Input × Action)}
  {num : Label → Option StateId} {dfa : Dfa Action} {b : DfaBuilder Action} {l : Label}
  {last : List (Label × Input × Bool)} {L : List (Label × Input)} {k : Nat} {mid : MatchId}
  {n : Bytes}

theorem pushBlanks_runs (h : BuilderAt shape E T num b l [] last) (hb : b.optionalPrefixes = [])
    (ht : l.goto tabInput = l) (hs : l.goto spaceInput = l) (hmt : (l, tabInput) ∈ L)
    (hms : (l, spaceInput) ∈ L) (hr : Room b.dfa E L k) :
    ∃ b0, ((b.pushOptional tab true).pushOptional space true).pushOptionalPrefixes = some b0 ∧
      Room b0.dfa (E ∪ {x | x.1 = l ∧ x.2 ∈ [tabInput, spaceInput]}) L k := by
  unfold DfaBuilder.pushOptionalPrefixes
  have hpre : ((b.pushOptional tab true).pushOptional space true).optionalPrefixes =
      [tabInput, spaceInput].map fun i => ⟨[i], true, true⟩ := by
    simp only [DfaBuilder.pushOptional, hb]
    rfl
  rw [hpre]
  have h' : BuilderAt shape E T num
      { (b.pushOptional tab true).pushOptional space true with optionalPrefixes := [] } l [] last :=
    ⟨h.rep, h.state, h.optionalStates, h.lastEdges⟩
  refine h'.pushLoops_runs (fun i hi => ?_) (fun i hi => ?_) hr
  · rcases List.mem_cons.mp hi with rfl | hi
    · exact ht
    · rw [List.mem_singleton.mp hi]
      exact hs
  · rcases List.mem_cons.mp hi with rfl | hi
    · exact hmt
    · rw [List.mem_singleton.mp hi]
      exact hms

theorem pushColon_runs (h : BuilderAt shape E T num b (.name n) [] last)
    (hb : b.optionalPrefixes = []) (hn : n ≠ [])
    (hm : [(.name n, tabInput), (.name n, spaceInput), (.name n, colonInput)] ⊆ L)
    (hr : Room b.dfa E L k) :
    ∃ b', ((b.pushOptional tab true).pushOptional space true).pushCi (ascii ":") = some b' ∧
      Room b'.dfa (E ∪ {x | x.1 = .name n ∧ x.2 ∈ [tabInput, spaceInput]} ∪
        edgeSet (.name n) colonInput false) L k := by
  simp only [List.cons_subset] at hm
  have hascii : ascii ":" = [0x3a] := rfl
  have hgoto : (Label.name n).goto colonInput = .colon n := by
    simp [Label.goto, colonInput, lfInput, crInput, tabInput, spaceInput, hn]
  have hgrows : shape.Grows (.name n) colonInput := by
    refine ⟨?_, ?_⟩
    · show Label.parent ((Label.name n).goto colonInput) = _
      rw [hgoto]
      rfl
    · show Label.root ((Label.name n).goto colonInput) = _
      rw [hgoto]
      rfl
  obtain ⟨b0, h0, hr0⟩ := pushBlanks_runs h hb rfl rfl hm.1 hm.2.1 hr
  obtain ⟨num0, hren0, hat0, hpre0⟩ := pushBlanks h hb rfl rfl h0
  obtain ⟨b1, hedge, hr1⟩ := hat0.pushEdge_runs none false h0
    (fun _ hx => by cases hx) (fun _ => hgrows) (fun _ o ho => by cases ho)
    (fun o ho => absurd ho List.not_mem_nil) hm.2.2.1 (fun o ho => absurd ho List.not_mem_nil) hr0
  refine ⟨b1, ?_, ?_⟩
  · rw [DfaBuilder.pushCi, hascii]
    have hcolon : (0x3a : UInt8).toNat = colonInput := rfl
    simp only [DfaBuilder.pushInner, hcolon, hedge, Option.bind_eq_bind, Option.bind_some]
  · rw [edgeSets_nil, Set.union_empty] at hr1
    exact hr1

theorem startValue_runs (h : BuilderAt shape E T num b (.colon n) [] last)
    (hb : b.optionalPrefixes = [])
    (ha : Allows (E ∪ {x | x.1 = .colon n ∧ x.2 ∈ [tabInput, spaceInput]}) T
      (last ++ [(.colon n, tabInput, true), (.colon n, spaceInput, true)]) (.startCapture mid))
    (hm : [(.colon n, tabInput), (.colon n, spaceInput)] ⊆ L) (hr : Room b.dfa E L k) :
    ∃ b', ((b.pushOptional tab true).pushOptional space true).withAction (.startCapture mid) =
        some b' ∧
      Room b'.dfa (E ∪ {x | x.1 = .colon n ∧ x.2 ∈ [tabInput, spaceInput]}) L k := by
  simp only [List.cons_subset] at hm
  obtain ⟨b0, h0, hr0⟩ := pushBlanks_runs h hb rfl rfl hm.1 hm.2.1 hr
  obtain ⟨num0, hren0, hat0, hpre0⟩ := pushBlanks h hb rfl rfl h0
  exact hat0.withAction_runs h0 ha hr0

theorem endLine_runs {c : Label} (h : BuilderAt shape E T num b l [] last)
    (hb : b.optionalPrefixes = []) (hc : l.goto crInput = c) (hg : shape.Grows l crInput)
    (hne : c ≠ l) (hl : l.goto lfInput = .name []) (hcl : c.goto lfInput = .name [])
    (hm : [(.any, lfInput), (l, crInput), (l, lfInput), (c, lfInput)] ⊆ L)
    (hk : (.any, lfInput) ∉ E → 0 < k) (hr : Room b.dfa E L k) :
    ∃ b', (b.pushOptional cr false).restartWith lf = some b' ∧
      Room b'.dfa (E ∪ {(.any, lfInput), (l, crInput), (l, lfInput), (c, lfInput)}) L 0 := by
  subst hc
  exact h.restartLine_runs (c := 0x0d) (d := 0x0a) (a := Label.any) hb (anyState_num h.rep) rfl
    ⟨rfl, rfl⟩ hg hne hl hcl (fun x hx => hm hx) hk hr

theorem pushLine_runs (h : Represents shape E T num dfa) (hm : (.any, lfInput) ∈ L)
    (hr : Room dfa E L k) :
    ∃ b', (dfa.startPattern anyState).push lf = some b' ∧
      Room b'.dfa (E ∪ edgeSet .any lfInput true) L k := by
  have hgrows : shape.GrowsPath true false .any lf :=
    ⟨.inl ⟨rfl, rfl⟩, shape.foldsCase_true _ _, trivial⟩
  obtain ⟨b', hpush, hr'⟩ := (h.startPattern (anyState_num h)).pushInner_runs rfl hgrows
    (List.cons_subset.mpr ⟨hm, List.nil_subset _⟩) hr
  have hset : shape.pathSet true .any lf = edgeSet .any lfInput true := Set.union_empty _
  rw [hset] at hr'
  exact ⟨b', hpush, hr'⟩

/-- The edges behind the name of a header field. -/
def valuePushes (n : Bytes) : List (Label × Nat) :=
  [(.name n, tabInput), (.name n, spaceInput), (.name n, colonInput), (.colon n, tabInput),
   (.colon n, spaceInput), (.colon n, anyInput), (.value n, anyInput), (.value n, crInput),
   (.value n, lfInput), (.valueCr n, lfInput), (.colon n, crInput), (.colon n, lfInput),
   (.colonCr n, lfInput)]

/-- The edges the pattern of a header field pushes. -/
def headerPushes (n : Bytes) : List (Label × Nat) :=
  (.any, lfInput) :: (shape.pushes (.name []) n ++ valuePushes n)

/-- No action is in the way of those the pattern attaches. -/
def Free (T : Set (Label × Nat × Action)) (act : Label → Nat → Action → Prop) : Prop :=
  ∀ l i a a', act l i a → (l, i, a') ∉ T

/-- An action on an edge any byte takes, and on the loop behind it. -/
theorem mem_lastActions_loop {l1 l2 : Label} {i j : Nat} {a : Action}
    (h : (l, i, a) ∈ lastActions [(l1, j, true), (l2, j, true)] a) : (l = l1 ∨ l = l2) ∧ i = j := by
  obtain ⟨e, he, ⟨hl, hi⟩, -⟩ := h
  have hi : i = e.2.1 := hi.resolve_right fun hcase => by
    rcases List.mem_cons.mp he with rfl | he
    · cases hcase.1
    · rw [List.mem_singleton.mp he] at hcase
      cases hcase.1
  rcases List.mem_cons.mp he with rfl | he
  · exact ⟨.inl hl, hi⟩
  · rw [List.mem_singleton.mp he] at hl hi
    exact ⟨.inr hl, hi⟩

/-- The edges a value starts behind carry the start of its capture. -/
def startEdges (n : Bytes) : List (Label × Nat × Bool) :=
  [(.name n, colonInput, false)] ++ [(.colon n, tabInput, true), (.colon n, spaceInput, true)]

theorem mem_startEdges {i : Nat} {a a' : Action} :
    (l, i, a') ∈ lastActions (startEdges n) a ↔
      (l = .name n ∧ i = colonInput ∨ l = .colon n ∧ (i = tabInput ∨ i = spaceInput)) ∧ a' = a := by
  have hnocase : otherCase colonInput = none := rfl
  simp only [lastActions, startEdges, List.cons_append, List.nil_append, List.mem_cons,
    List.not_mem_nil, or_false, exists_eq_or_imp, exists_eq_left, actionSet, edgeSet, hnocase,
    reduceCtorEq, and_false, false_and, Bool.true_eq_false, Set.mem_ofPred_eq]
  rw [or_and_right, and_or_left, or_and_right]

theorem start_allows (hfree : Free T (headerAct n mid)) (hn : (.name n, colonInput) ∈ E)
    (ht : (.colon n, tabInput) ∈ E) (hs : (.colon n, spaceInput) ∈ E) :
    Allows E T (startEdges n) (.startCapture mid) := by
  intro l i hx
  rcases (mem_startEdges.mp hx).1 with ⟨rfl, rfl⟩ | ⟨rfl, hi⟩
  · exact ⟨hn, fun _ ha => absurd ha (hfree _ _ _ _ ⟨rfl, rfl, rfl⟩)⟩
  · refine ⟨?_, fun _ ha => absurd ha (hfree _ _ _ _ ⟨rfl, .inl ⟨hi, rfl⟩⟩)⟩
    rcases hi with rfl | rfl
    · exact ht
    · exact hs

theorem end_allows (hfree : Free T (headerAct n mid)) (hc : (.colon n, anyInput) ∈ E)
    (hv : (.value n, anyInput) ∈ E) :
    Allows E (T ∪ lastActions (startEdges n) (.startCapture mid))
      [(.colon n, anyInput, true), (.value n, anyInput, true)] (.endCapture mid) := by
  intro l i hx
  obtain ⟨hl, rfl⟩ := mem_lastActions_loop hx
  have hact : (l, anyInput) ∈ E ∧ headerAct n mid l anyInput (.endCapture mid) := by
    rcases hl with rfl | rfl
    · exact ⟨hc, rfl, .inr ⟨rfl, rfl⟩⟩
    · exact ⟨hv, rfl, rfl, rfl⟩
  refine ⟨hact.1, fun a' ha => ?_⟩
  rcases ha with ha | ha
  · exact absurd ha (hfree _ _ _ _ hact.2)
  · -- the value starts in front of the first of its bytes
    rcases (mem_startEdges.mp ha).1 with ⟨-, hi⟩ | ⟨-, hi | hi⟩
    · exact absurd hi (by decide)
    · exact absurd hi (by decide)
    · exact absurd hi (by decide)

theorem headerPattern_runs (hn : HeaderName n) (h : Represents shape E T num dfa)
    (hfree : Free T (headerAct n mid)) (hr : Room dfa E (headerPushes n) 0) :
    ∃ dfa', headerPattern dfa n mid = some dfa' := by
  have hpath : shape.path (.name []) n = .name n := shape.path_chain hn.chain
  have hvalue : shape.goto (.colon n) anyInput = .value n := rfl
  obtain ⟨hmlf, hm⟩ := List.cons_subset.mp (List.Subset.refl (headerPushes n))
  obtain ⟨hmn, hmv⟩ := List.append_subset.mp hm
  simp only [valuePushes, List.cons_subset] at hmv
  obtain ⟨hnt, hns, hnc, hct, hcs, hca, hva, hvc, hvl, hvcl, hcc, hcl, hccl, hnil⟩ := hmv
  obtain ⟨b1, h1, hr1⟩ := pushLine_runs h hmlf hr
  obtain ⟨num1, hren1, hat1, hpre1⟩ := pushLine h h1
  obtain ⟨b2, h2, hr2⟩ := hat1.pushInner_runs hpre1 hn.grows hmn hr1
  obtain ⟨num2, hren2, hat2, hpre2⟩ := hat1.pushInner hpre1 hn.grows h2
  rw [hpath] at hat2
  have h2 : b1.pushCi n = some b2 := h2
  obtain ⟨b3, h3, hr3⟩ := pushColon_runs hat2 hpre2 hn.ne_nil
    (by simp only [List.cons_subset]; exact ⟨hnt, hns, hnc, hnil⟩) hr2
  obtain ⟨num3, hren3, hat3, hpre3⟩ := pushColon hat2 hpre2 hn.ne_nil h3
  obtain ⟨b4, h4, hr4⟩ := startValue_runs hat3 hpre3
    (start_allows hfree (.inl (.inr (edgeSet_self _ _ _))) (.inr ⟨rfl, List.mem_cons_self⟩)
      (.inr ⟨rfl, List.mem_cons_of_mem _ List.mem_cons_self⟩))
    (by simp only [List.cons_subset]; exact ⟨hct, hcs, hnil⟩) hr3
  obtain ⟨num4, hren4, hat4, hpre4⟩ := startValue hat3 hpre3 h4
  obtain ⟨b5, h5, hr5⟩ := hat4.pushAny_loop_runs hpre4 ⟨rfl, rfl⟩ rfl hca hva hr4
  obtain ⟨num5, hren5, hat5, hpre5⟩ := hat4.pushAny_loop hpre4 ⟨rfl, rfl⟩ rfl h5
  rw [hvalue] at hat5 hr5
  obtain ⟨b6, h6, hr6⟩ := hat5.withAction_runs (pushOptionalPrefixes_nil hpre5)
    (end_allows hfree (Set.mem_insert_of_mem _ (Set.mem_insert _ _)) (Set.mem_insert _ _)) hr5
  obtain ⟨hat6, hpre6⟩ := hat5.withAction (pushOptionalPrefixes_nil hpre5) hpre5 h6
  obtain ⟨b7, h7, hr7⟩ := endLine_runs (c := .valueCr n) hat6 hpre6 rfl ⟨rfl, rfl⟩
    (fun h => by cases h) rfl rfl
    (by simp only [List.cons_subset]; exact ⟨hmlf, hvc, hvl, hvcl, hnil⟩)
    (fun hE => absurd (by simp [edgeSet]) hE) hr6
  obtain ⟨num7, hren7, hrep7⟩ := endLine (c := .valueCr n) hat6 hpre6 rfl ⟨rfl, rfl⟩
    (fun h => by cases h) rfl rfl h7
  have hcolon : num7 (.colon n) = some b4.state := hren7 _ _ (hren5 _ _ hat4.state)
  obtain ⟨b8, h8, -⟩ := endLine_runs (c := .colonCr n) (hrep7.startPattern hcolon) rfl rfl
    ⟨rfl, rfl⟩ (fun h => by cases h) rfl rfl
    (by simp only [List.cons_subset]; exact ⟨hmlf, hcc, hcl, hccl, hnil⟩)
    (fun hE => absurd (by simp [edgeSet]) hE) hr7
  refine ⟨b8.dfa, ?_⟩
  unfold headerPattern
  simp only [h1, h2, h3, h4, h5, h6, h7, h8, Option.bind_eq_bind, Option.bind_some]

/-- The edges the pattern of the preface pushes. -/
def prefacePushes : List (Label × Nat) := shape.pushes (.start []) http2Preface

theorem allows_nil (a : Action) : Allows E T [] a :=
  fun _ _ ⟨_, he, _⟩ => absurd he List.not_mem_nil

theorem prefacePattern_runs (h : Represents shape E T num dfa) (hfree : Free T (prefaceAct mid))
    (hr : Room dfa E prefacePushes 0) : ∃ dfa', prefacePattern dfa mid = some dfa' := by
  have htext : StartText http2Preface := ⟨by decide +kernel, by decide +kernel⟩
  have hat := h.startPattern (h.roots (.start []) initState rfl)
  obtain ⟨b1, h1, hr1⟩ := hat.withAction_runs (a := .startCapture mid)
    (pushOptionalPrefixes_nil rfl) (allows_nil _) hr
  obtain ⟨hat1, hpre1⟩ := hat.withAction (pushOptionalPrefixes_nil rfl) rfl h1
  obtain ⟨b2, h2, hr2⟩ := hat1.pushInner_runs hpre1 (htext.grows true false) (List.Subset.refl _) hr1
  obtain ⟨num2, hren2, hat2, hpre2⟩ := hat1.pushInner hpre1 (htext.grows true false) h2
  have hsplit : http2Preface = http2Preface.dropLast ++ [0x0a] := by decide
  have hlast : shape.pathLast true (.start []) http2Preface [] =
      [(.start http2Preface.dropLast, (0x0a : UInt8).toNat, true)] := by
    conv_lhs => rw [hsplit]
    exact StartText.pathLast (by rw [← hsplit]; exact htext) true
  rw [hlast] at hat2
  obtain ⟨b3, h3, -⟩ := hat2.withAction_runs (a := .endCaptureAndDone mid)
    (pushOptionalPrefixes_nil hpre2) (fun l i hx => by
      rw [lastActions_singleton, mem_actionSet_start_true, ← hsplit] at hx
      obtain ⟨t, rfl, hi, ht, -⟩ := hx
      refine ⟨.inr (htext.mem_pathSet_true.mpr ⟨t, rfl, hi, ht ▸ List.prefix_refl _⟩), fun a' ha => ?_⟩
      rcases ha with ha | ⟨_, he, _⟩
      · exact absurd ha (hfree _ _ _ _ ⟨hi, ht, rfl⟩)
      · exact absurd he List.not_mem_nil) hr2
  refine ⟨b3.dfa, ?_⟩
  have h2 : b1.push http2Preface = some b2 := h2
  unfold prefacePattern
  simp only [h1, h2, h3, Option.bind_eq_bind, Option.bind_some]

/-- The edges the pattern of the status code pushes. -/
def statusPushes : List (Label × Nat) :=
  shape.pushes (.start []) statusStart ++
    [(.start statusStart, anyInput), (.code 1, anyInput), (.code 2, anyInput), (.code 3, anyInput),
     (.code 4, anyInput), (.any, lfInput), (.code 4, crInput), (.code 4, lfInput),
     (.codeCr, lfInput)]

theorem statusPattern_runs (h : Represents shape E T num dfa) (hfree : Free T (statusAct mid))
    (hk : (.any, lfInput) ∉ E → 0 < k) (hr : Room dfa E statusPushes k) :
    ∃ dfa', statusPattern dfa mid = some dfa' := by
  have htext : StartText statusStart := ⟨by decide +kernel, by decide +kernel⟩
  have hsplit : statusStart = statusStart.dropLast ++ [0x20] := by decide
  have hlast : shape.pathLast false (.start []) statusStart [] =
      [(.start statusStart.dropLast, (0x20 : UInt8).toNat, false)] := by
    conv_lhs => rw [hsplit]
    exact StartText.pathLast (by rw [← hsplit]; exact htext) false
  have hup : upperByte 0x20 = 0x20 := rfl
  have hm : ∀ x ∈ [(Label.start statusStart, anyInput), (.code 1, anyInput), (.code 2, anyInput),
      (.code 3, anyInput), (.code 4, anyInput), (.any, lfInput), (.code 4, crInput),
      (.code 4, lfInput), (.codeCr, lfInput)], x ∈ statusPushes :=
    fun x hx => List.mem_append_right _ hx
  simp only [List.forall_mem_cons] at hm
  obtain ⟨hm0, hm1, hm2, hm3, hm4, hmlf, hmcr, hml, hmc, -⟩ := hm
  have hat := h.startPattern (h.roots (.start []) initState rfl)
  obtain ⟨b1, h1, hr1⟩ := hat.pushInner_runs rfl (htext.grows false false)
    (List.subset_append_left _ _) hr
  obtain ⟨num1, hren1, hat1, hpre1⟩ := hat.pushInner rfl (htext.grows false false) h1
  rw [htext.path, hlast] at hat1
  obtain ⟨b2, h2, hr2⟩ := hat1.withAction_runs (a := .startCapture mid)
    (pushOptionalPrefixes_nil hpre1) (fun l i hx => by
      rw [lastActions_singleton, mem_actionSet_start hup, ← hsplit] at hx
      obtain ⟨t, rfl, hi, ht, -⟩ := hx
      refine ⟨.inr (htext.mem_pathSet.mpr ⟨t, rfl, hi, ht ▸ List.prefix_refl _⟩), fun a' ha => ?_⟩
      exact absurd ha (hfree _ _ _ _ ⟨hi, ht, rfl⟩)) hr1
  obtain ⟨hat2, hpre2⟩ := hat1.withAction (pushOptionalPrefixes_nil hpre1) hpre1 h2
  obtain ⟨b3, h3, hr3⟩ := hat2.pushAnyEdge_runs hpre2 ⟨rfl, rfl⟩ hm0 hr2
  obtain ⟨num3, hren3, hat3, hpre3⟩ := hat2.pushAnyEdge hpre2 ⟨rfl, rfl⟩ h3
  obtain ⟨b4, h4, hr4⟩ := hat3.pushAnyEdge_runs hpre3 ⟨rfl, rfl⟩ hm1 hr3
  obtain ⟨num4, hren4, hat4, hpre4⟩ := hat3.pushAnyEdge hpre3 ⟨rfl, rfl⟩ h4
  obtain ⟨b5, h5, hr5⟩ := hat4.pushAnyEdge_runs hpre4 ⟨rfl, rfl⟩ hm2 hr4
  obtain ⟨num5, hren5, hat5, hpre5⟩ := hat4.pushAnyEdge hpre4 ⟨rfl, rfl⟩ h5
  obtain ⟨b6, h6, hr6⟩ := hat5.withAction_runs (a := .endCapture mid)
    (pushOptionalPrefixes_nil hpre5) (fun l i hx => by
      rw [lastActions_singleton] at hx
      obtain ⟨⟨rfl, hi⟩, -⟩ := hx
      obtain rfl := hi.resolve_right fun h => Bool.noConfusion h.1
      refine ⟨Set.mem_insert _ _, fun a' ha => ?_⟩
      rw [lastActions_singleton] at ha
      rcases ha with ha | ⟨⟨heq, -⟩, -⟩
      · exact absurd ha (hfree _ _ _ _ ⟨rfl, rfl, rfl⟩)
      · cases heq) hr5
  obtain ⟨hat6, hpre6⟩ := hat5.withAction (pushOptionalPrefixes_nil hpre5) hpre5 h6
  obtain ⟨b7, h7, hr7⟩ := hat6.pushAny_loop_runs hpre6 ⟨rfl, rfl⟩ rfl hm3 hm4 hr6
  obtain ⟨num7, hren7, hat7, hpre7⟩ := hat6.pushAny_loop hpre6 ⟨rfl, rfl⟩ rfl h7
  obtain ⟨b8, h8, -⟩ := endLine_runs (c := .codeCr) hat7 hpre7 rfl ⟨rfl, rfl⟩
    (fun h => by cases h) rfl rfl (by simp only [List.cons_subset]; exact ⟨hmlf, hmcr, hml, hmc, List.nil_subset _⟩)
    (fun hE => hk fun hm => hE (by simp [hm])) hr7
  refine ⟨b8.dfa, ?_⟩
  have h1 : (dfa.startPattern initState).pushCi (ascii "HTTP/1.1 ") = some b1 := h1
  unfold statusPattern
  simp only [h1, h2, h6, h7, h8, pushAny_fixed, DfaBuilder.pushAnys, h3, h4, h5, Option.bind_eq_bind,
    Option.bind_some]

/-- The edges of the methods, most of which share their first letters with another one. -/
def methodPushes : List (Label × Nat) := (methods.flatMap (shape.pushes (.start []))).dedup

theorem pushMethods_runs (h : BuilderAt shape E T num b (.start []) [] last)
    (hb : b.optionalPrefixes = []) (hm : methodPushes ⊆ L) (hr : Room b.dfa E L k) :
    ∃ b', b.pushOptionsCi methods = some b' ∧ Room b'.dfa (E ∪ methodEdges) L k := by
  have hlongest : DfaBuilder.longest methods = some options := by decide +kernel
  have htext : StartText options := ⟨by decide +kernel, by decide +kernel⟩
  have hpath := htext.path
  have hpushes : ∀ m ∈ methods, shape.pushes (.start []) m ⊆ L := fun m hmem x hx =>
    hm (List.mem_dedup.mpr (List.mem_flatMap.mpr ⟨m, hmem, hx⟩))
  obtain ⟨b', hpush, hr'⟩ := h.pushOptionsCi_runs hb hlongest (htext.grows false false)
    (fun y hy => by
      rw [hpath]
      exact methods_path (List.mem_filter.mp hy).1)
    (by decide) (hpushes options (by decide)) hpushes hr
  refine ⟨b', hpush, hr'.mono ?_ rfl⟩
  rintro y (hy | ⟨m, hmem, hy⟩)
  · exact .inl hy
  · have hmem := mem_methods_iff.mp hmem
    obtain ⟨t, hl, hi, hpre⟩ := (methods_mem_pathSet hmem).mp hy
    exact .inr ⟨t, hl, hi, m, hmem, hpre⟩

/-- The edges of the end of a request line. -/
def endOfRequestLinePushes : List (Label × Nat) :=
  shape.pushes .target httpVersion ++
    [(.any, lfInput), (.version httpVersion, crInput), (.version httpVersion, lfInput),
     (.versionCr, lfInput)]

theorem endOfRequestLine_runs (h : BuilderAt shape E T num b .target [] last)
    (hb : b.optionalPrefixes = []) (hm : endOfRequestLinePushes ⊆ L)
    (hk : (.any, lfInput) ∉ E → 0 < k) (hr : Room b.dfa E L k) :
    ∃ dfa', endOfRequestLine b = some dfa' := by
  obtain ⟨hmv, hml⟩ := List.append_subset.mp hm
  have hpath : shape.path .target httpVersion = .version httpVersion :=
    shape.path_chain (f := versionLabel) (t := []) version_chain
  obtain ⟨b1, h1, hr1⟩ := h.pushInner_runs hb version_grows hmv hr
  obtain ⟨num1, hren1, hat1, hpre1⟩ := h.pushInner hb version_grows h1
  rw [hpath] at hat1
  obtain ⟨b2, h2, -⟩ := endLine_runs (c := .versionCr) hat1 hpre1 rfl ⟨rfl, rfl⟩
    (fun h => by cases h) rfl rfl hml (fun hE => hk fun hm => hE (.inl hm)) hr1
  refine ⟨b2.dfa, ?_⟩
  have h1 : b.pushCi httpVersion = some b1 := h1
  unfold endOfRequestLine
  simp only [h1, h2, Option.bind_eq_bind, Option.bind_some]

theorem pushSpace_runs (h : BuilderAt shape E T num b (.start options) [] last)
    (hb : b.optionalPrefixes = []) (hm : (.start options, spaceInput) ∈ L)
    (hr : Room b.dfa E L k) :
    ∃ b', b.push space = some b' ∧ Room b'.dfa (insert (.start options, spaceInput) E) L k := by
  have htext : StartText afterMethod := ⟨by decide +kernel, by decide +kernel⟩
  have hstep := @StartText.step _ options 0x20 htext true (by decide)
  have hgrows : shape.GrowsPath true false (.start options) space :=
    ⟨.inl hstep.1, hstep.2, trivial⟩
  obtain ⟨b', hpush, hr'⟩ := h.pushInner_runs hb hgrows
    (List.cons_subset.mpr ⟨hm, List.nil_subset _⟩) hr
  refine ⟨b', hpush, hr'.mono ?_ rfl⟩
  rintro y (hy | hy | hy)
  · exact .inr hy
  · obtain ⟨hl, hi⟩ := hy
    exact .inl (Prod.ext hl (hi.resolve_right fun h => Bool.noConfusion h.1))
  · exact absurd hy (Set.notMem_empty y)

/-- The edges the patterns of a request line push. -/
def requestPushes : List (Label × Nat) :=
  methodPushes ++ [(.start options, spaceInput), (.start afterMethod, anyInput),
    (.target, anyInput)] ++ endOfRequestLinePushes

theorem methodPattern_runs (h : Represents shape E T num dfa) (hfree : Free T (methodAct mid))
    (hk : (.any, lfInput) ∉ E → 0 < k) (hr : Room dfa E requestPushes k) :
    ∃ dfa', methodPattern dfa mid = some dfa' := by
  obtain ⟨hm, hme⟩ := List.append_subset.mp (List.Subset.refl requestPushes)
  obtain ⟨hmm, hms⟩ := List.append_subset.mp hm
  simp only [List.cons_subset] at hms
  have hat := h.startPattern (h.roots (.start []) initState rfl)
  obtain ⟨b1, h1, hr1⟩ := hat.withAction_runs (a := .startCapture mid)
    (pushOptionalPrefixes_nil rfl) (allows_nil _) hr
  obtain ⟨hat1, hpre1⟩ := hat.withAction (pushOptionalPrefixes_nil rfl) rfl h1
  obtain ⟨b2, h2, hr2⟩ := pushMethods_runs hat1 hpre1 hmm hr1
  obtain ⟨num2, last2, hren2, hat2, hpre2, hlast2⟩ := pushMethods hat1 hpre1 h2
  obtain ⟨b3, h3, hr3⟩ := hat2.withAction_runs (a := .endCapture mid)
    (pushOptionalPrefixes_nil hpre2) (fun l i hx => by
      rw [hlast2] at hx
      obtain ⟨t, rfl, hi, hmem, -⟩ := hx
      refine ⟨.inr ⟨t, rfl, hi, _, hmem, List.prefix_refl _⟩, fun a' ha => ?_⟩
      rcases ha with ha | ⟨_, he, _⟩
      · exact absurd ha (hfree _ _ _ _ ⟨hi, hmem, rfl⟩)
      · exact absurd he List.not_mem_nil) hr2
  obtain ⟨hat3, hpre3⟩ := hat2.withAction (pushOptionalPrefixes_nil hpre2) hpre2 h3
  obtain ⟨b4, h4, hr4⟩ := pushSpace_runs hat3 hpre3 hms.1 hr3
  obtain ⟨num4, hren4, hat4, hpre4⟩ := pushSpace hat3 hpre3 h4
  have hg1 : shape.goto (.start afterMethod) anyInput = .target := rfl
  obtain ⟨b5, h5, hr5⟩ := hat4.pushAny_loop_runs hpre4 ⟨rfl, rfl⟩ rfl hms.2.1
    (by rw [hg1]; exact hms.2.2.1) hr4
  obtain ⟨num5, hren5, hat5, hpre5⟩ := hat4.pushAny_loop hpre4 ⟨rfl, rfl⟩ rfl h5
  rw [hg1] at hat5 hr5
  obtain ⟨dfa', h6⟩ := endOfRequestLine_runs hat5 hpre5 hme (fun hE => hk fun hm => hE (by simp [hm])) hr5
  refine ⟨dfa', ?_⟩
  unfold methodPattern
  simp only [h1, h2, h3, h4, h5, h6, Option.bind_eq_bind, Option.bind_some]

theorem pathPattern_runs (h : Represents shape E T num dfa) (hfree : Free T (pathAct mid))
    (hk : (.any, lfInput) ∉ E → 0 < k) (hr : Room dfa E requestPushes k) :
    ∃ dfa', pathPattern dfa mid = some dfa' := by
  obtain ⟨hm, hme⟩ := List.append_subset.mp (List.Subset.refl requestPushes)
  obtain ⟨hmm, hms⟩ := List.append_subset.mp hm
  simp only [List.cons_subset] at hms
  have hat := h.startPattern (h.roots (.start []) initState rfl)
  obtain ⟨b2, h2, hr2⟩ := pushMethods_runs hat rfl hmm hr
  obtain ⟨num2, last2, hren2, hat2, hpre2, -⟩ := pushMethods hat rfl h2
  obtain ⟨b3, h3, hr3⟩ := pushSpace_runs hat2 hpre2 hms.1 hr2
  obtain ⟨num3, hren3, hat3, hpre3⟩ := pushSpace hat2 hpre2 h3
  obtain ⟨b4, h4, hr4⟩ := hat3.withAction_runs (a := .startCapture mid)
    (pushOptionalPrefixes_nil hpre3) (fun l i hx => by
      rw [lastActions_singleton] at hx
      obtain ⟨⟨rfl, hi⟩, -⟩ := hx
      obtain rfl := hi.resolve_right fun h => Bool.noConfusion h.1
      refine ⟨Set.mem_insert _ _, fun a' ha => ?_⟩
      exact absurd ha (hfree _ _ _ _ (.inl ⟨rfl, rfl, rfl⟩))) hr3
  obtain ⟨hat4, hpre4⟩ := hat3.withAction (pushOptionalPrefixes_nil hpre3) hpre3 h4
  have hg1 : shape.goto (.start afterMethod) anyInput = .target := rfl
  obtain ⟨b5, h5, hr5⟩ := hat4.pushAny_loop_runs hpre4 ⟨rfl, rfl⟩ rfl hms.2.1
    (by rw [hg1]; exact hms.2.2.1) hr4
  obtain ⟨num5, hren5, hat5, hpre5⟩ := hat4.pushAny_loop hpre4 ⟨rfl, rfl⟩ rfl h5
  rw [hg1] at hat5 hr5
  obtain ⟨b6, h6, hr6⟩ := hat5.withAction_runs (a := .endCapture mid)
    (pushOptionalPrefixes_nil hpre5) (fun l i hx => by
      obtain ⟨hl, rfl⟩ := mem_lastActions_loop hx
      have hact : pathAct mid l anyInput (.endCapture mid) := by
        rcases hl with rfl | rfl
        · exact .inr ⟨rfl, rfl, rfl⟩
        · exact ⟨rfl, rfl⟩
      refine ⟨by rcases hl with rfl | rfl <;> simp, fun a' ha => ?_⟩
      rw [lastActions_singleton] at ha
      rcases ha with ha | ⟨⟨-, hi⟩, -⟩
      · exact absurd ha (hfree _ _ _ _ hact)
      · have hi : anyInput = spaceInput := hi.resolve_right fun h => Bool.noConfusion h.1
        exact absurd hi (by decide)) hr5
  obtain ⟨hat6, hpre6⟩ := hat5.withAction (pushOptionalPrefixes_nil hpre5) hpre5 h6
  obtain ⟨dfa', h7⟩ := endOfRequestLine_runs hat6 hpre6 hme (fun hE => hk fun hm => hE (by simp [hm])) hr6
  refine ⟨dfa', ?_⟩
  unfold pathPattern
  simp only [h2, h3, h4, h5, h6, h7, Option.bind_eq_bind, Option.bind_some]

def Item.pushes : Item → List (Label × Nat)
  | .header n => headerPushes n
  | .method => requestPushes
  | .path => requestPushes
  | .status => statusPushes
  | .preface => prefacePushes

/-- Whether the first newline of the pattern is one it restarts at. -/
def Item.Restarts : Item → Prop
  | .header _ => False
  | .method => True
  | .path => True
  | .status => True
  | .preface => False

theorem Item.pattern_runs {it : Item} (mid : MatchId) (hn : it.Named) (h : Represents shape E T num dfa)
    (hfree : Free T (it.act mid)) (hk : it.Restarts → (.any, lfInput) ∉ E → 0 < k)
    (hr : Room dfa E it.pushes k) : ∃ dfa', it.pattern dfa mid = some dfa' := by
  cases it with
  | header name => exact headerPattern_runs hn h hfree hr.slack
  | method => exact methodPattern_runs h hfree (hk trivial) hr
  | path => exact pathPattern_runs h hfree (hk trivial) hr
  | status => exact statusPattern_runs h hfree (hk trivial) hr
  | preface => exact prefacePattern_runs h hfree hr.slack

/-- The item whose actions an edge may carry. -/
def actItem : Label → Nat → Item
  | .start t, i =>
    if t.length ≤ 6 then .method
    else if t.length = 7 ∨ i = anyInput then .path
    else if t.length = 8 then .status
    else .preface
  | .target, _ => .path
  | .code _, _ => .status
  | .name n, _ => .header n
  | .colon n, _ => .header n
  | .value n, _ => .header n
  | _, _ => .preface

theorem length_of_concat {t x : Bytes} {c : UInt8} (h : t ++ [c] = x) : t.length + 1 = x.length := by
  rw [← h, List.length_append, List.length_singleton]

theorem item_of_act {it : Item} {i : Nat} {a : Action} (h : it.act mid l i a) :
    it = actItem l i := by
  cases it with
  | header n =>
    cases l with
    | name t => exact congrArg Item.header h.1.symm
    | colon m => exact congrArg Item.header h.1.symm
    | value m => exact congrArg Item.header h.1.symm
    | _ => exact h.elim
  | method =>
    cases l with
    | start t =>
      have hall : ∀ m ∈ methods, m.length ≤ 7 := by decide
      have hle := hall _ h.2.1
      rw [List.length_append, List.length_singleton] at hle
      exact (if_pos (by omega)).symm
    | _ => exact h.elim
  | path =>
    cases l with
    | start t =>
      rcases h with ⟨rfl, rfl, -⟩ | ⟨rfl, rfl, -⟩
      · rfl
      · rfl
    | target => rfl
    | _ => exact h.elim
  | status =>
    cases l with
    | start t =>
      obtain ⟨hi, ht, -⟩ := h
      have hlen := length_of_concat ht
      have hs : statusStart.length = 9 := rfl
      have hany := ne_anyInput hi
      simp only [actItem]
      rw [if_neg (by omega), if_neg (by omega), if_pos (by omega)]
    | code n => rfl
    | _ => exact h.elim
  | preface =>
    cases l with
    | start t =>
      obtain ⟨hi, ht, -⟩ := h
      have hlen := length_of_concat ht
      have hs : http2Preface.length = 24 := rfl
      have hany := ne_anyInput hi
      simp only [actItem]
      rw [if_neg (by omega), if_neg (by omega), if_neg (by omega)]
    | _ => exact h.elim

/-- The actions of an item that is not captured yet are in nobody's way. -/
theorem free_of_new {items : List (Item × MatchId)} {it : Item} (h : it ∉ items.map Prod.fst) :
    Free (itemActs items) (it.act mid) := by
  rintro l i a a' ha ⟨y, hy, ha'⟩
  apply h
  rw [item_of_act ha, ← item_of_act ha']
  exact List.mem_map_of_mem hy

end Beeper.Http1
