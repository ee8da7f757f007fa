import Beeper.Http1Patterns

namespace Beeper.Http1

variable {E : Set (Label × Input)} {T : Set (Label × Input × Action)}
  {num num' : Label → Option StateId} {dfa dfa' : Dfa Action} {b b' b0 : DfaBuilder Action}
  {l : Label} {last : List (Label × Input × Bool)} {mid : MatchId}

/-- A text whose characters are pushed in upper case, and which does not go on behind a method,
other than behind the one all methods end in. -/
structure StartText (x : Bytes) : Prop where
  upper : ∀ c ∈ x, upperByte c = c
  free : ∀ m ∈ methods, m <+: x → m = options

variable {x t : Bytes} {c : UInt8}

theorem StartText.char (h : StartText x) (hp : t ++ [c] <+: x) :
    upperByte c = c ∧ (t ++ [c] ∈ methods → t ++ [c] = options) := by
  refine ⟨?_, fun hm => h.free _ hm hp⟩
  obtain ⟨rest, rfl⟩ := hp
  exact h.upper c (by simp)

theorem ne_anyInput {i : Nat} (h : i < 256) : i ≠ anyInput := Nat.ne_of_lt h

/-- Where a byte leads at the start of a message. -/
theorem goto_start_of_lt {i : Nat} (h : i < 256) : (Label.start t).goto i =
    if t ++ [upperByte (UInt8.ofNat i)] ∈ methods then .start options
    else .start (t ++ [upperByte (UInt8.ofNat i)]) := if_neg (ne_anyInput h)

theorem goto_start (hu : upperByte c = c) (hm : t ++ [c] ∈ methods → t ++ [c] = options) {i : Nat}
    (hi : i = c.toNat ∨ otherCase c.toNat = some i) :
    (Label.start t).goto i = .start (t ++ [c]) := by
  obtain ⟨hlt, hup⟩ := (upper_cases hu i).mp hi
  rw [goto_start_of_lt hlt, hup]
  split
  next hmem => rw [hm hmem]
  next => rfl

theorem parent_start (t : Bytes) (c : UInt8) :
    (Label.start (t ++ [c])).parent = some (.start t, c.toNat) := by
  simp [Label.parent, lastInput]

theorem root_start (t : Bytes) (c : UInt8) : (Label.start (t ++ [c])).root = none := by
  cases t <;> rfl

theorem StartText.chain (h : StartText x) : shape.Chain .start [] x := by
  intro t c _ hp
  obtain ⟨hu, hm⟩ := h.char hp
  exact goto_start hu hm (.inl rfl)

theorem StartText.step (h : StartText x) {cs : Bool} (hp : t ++ [c] <+: x) :
    shape.Grows (.start t) c.toNat ∧ shape.FoldsCase (.start t) c.toNat cs := by
  obtain ⟨hu, hm⟩ := h.char hp
  have hgoto := goto_start hu hm (.inl rfl)
  refine ⟨⟨?_, ?_⟩, fun _ o ho => (goto_start hu hm (.inr ho)).trans hgoto.symm⟩
  · show Label.parent ((Label.start t).goto c.toNat) = _
    rw [hgoto]
    exact parent_start t c
  · show Label.root ((Label.start t).goto c.toNat) = _
    rw [hgoto]
    exact root_start t c

theorem StartText.grows (h : StartText x) (cs ends : Bool) :
    shape.GrowsPath cs ends (.start []) x := by
  refine shape.growsPath_chain h.chain fun t c _ hp => ?_
  obtain ⟨hg, hf⟩ := h.step hp
  exact ⟨.inl hg, hf⟩

theorem StartText.path (h : StartText x) : shape.path (.start []) x = .start x :=
  shape.path_chain h.chain

/-- The edges of a text that is matched in either case. -/
theorem StartText.mem_pathSet (h : StartText x) {y : Label × Input} :
    y ∈ shape.pathSet false (.start []) x ↔
      ∃ t, y.1 = .start t ∧ y.2 < 256 ∧ t ++ [upperByte (UInt8.ofNat y.2)] <+: x := by
  rw [shape.mem_pathSet_chain h.chain]
  simp only [List.nil_append, List.nil_prefix, true_and]
  constructor
  · rintro ⟨t, c, hp, hy, hcase⟩
    obtain ⟨hi, hup⟩ := (upper_cases (h.char hp).1 y.2).mp (hcase.imp id fun h => h.2)
    exact ⟨t, hy, hi, by rw [hup]; exact hp⟩
  · rintro ⟨t, hy, hi, hp⟩
    refine ⟨t, _, hp, hy, ?_⟩
    exact ((upper_cases (h.char hp).1 y.2).mpr ⟨hi, rfl⟩).imp id fun h => ⟨rfl, h⟩

/-- The edges of a text that is matched as it is. -/
theorem StartText.mem_pathSet_true (h : StartText x) {y : Label × Input} :
    y ∈ shape.pathSet true (.start []) x ↔
      ∃ t, y.1 = .start t ∧ y.2 < 256 ∧ t ++ [UInt8.ofNat y.2] <+: x := by
  rw [shape.mem_pathSet_chain h.chain]
  simp only [List.nil_append, List.nil_prefix, true_and]
  constructor
  · rintro ⟨t, c, hp, hy, hcase⟩
    have hi : y.2 = c.toNat := hcase.resolve_right fun h => Bool.noConfusion h.1
    refine ⟨t, hy, by rw [hi]; exact c.toNat_lt, ?_⟩
    rw [hi, UInt8.ofNat_toNat]
    exact hp
  · rintro ⟨t, hy, hi, hp⟩
    exact ⟨t, _, hp, hy, .inl (ofNat_toNat_of_lt hi).symm⟩

/-- The last edge of a text. -/
theorem StartText.pathLast (h : StartText (t ++ [c])) (cs : Bool) :
    shape.pathLast cs (.start []) (t ++ [c]) last = [(.start t, c.toNat, cs)] := by
  rw [shape.pathLast_concat]
  have ht : StartText t := ⟨fun d hd => h.upper d (List.mem_append_left _ hd),
    fun m hm hp => h.free m hm (hp.trans (List.prefix_append _ _))⟩
  rw [ht.path]

/-- The actions of the last edge of a text, in either case. -/
theorem mem_actionSet_start (hu : upperByte c = c) {a : Action} {y : Label × Input × Action} :
    y ∈ actionSet (.start t) c.toNat false a ↔
      ∃ t', y.1 = .start t' ∧ y.2.1 < 256 ∧ t' ++ [upperByte (UInt8.ofNat y.2.1)] = t ++ [c] ∧
        y.2.2 = a := by
  obtain ⟨l, i, a'⟩ := y
  show (l = .start t ∧ (i = c.toNat ∨ false = false ∧ otherCase c.toNat = some i)) ∧ a' = a ↔ _
  simp only [true_and]
  rw [upper_cases hu i]
  constructor
  · rintro ⟨⟨rfl, hi, hup⟩, rfl⟩
    exact ⟨t, rfl, hi, by rw [hup], rfl⟩
  · rintro ⟨t', rfl, hi, heq, rfl⟩
    obtain ⟨rfl, hup⟩ := List.append_inj' heq rfl
    exact ⟨⟨rfl, hi, (List.cons.inj hup).1⟩, rfl⟩

/-- The action of the last edge of a text that is matched as it is. -/
theorem mem_actionSet_start_true {a : Action} {y : Label × Input × Action} :
    y ∈ actionSet (.start t) c.toNat true a ↔
      ∃ t', y.1 = .start t' ∧ y.2.1 < 256 ∧ t' ++ [UInt8.ofNat y.2.1] = t ++ [c] ∧ y.2.2 = a := by
  obtain ⟨l, i, a'⟩ := y
  show (l = .start t ∧ (i = c.toNat ∨ true = false ∧ otherCase c.toNat = some i)) ∧ a' = a ↔ _
  simp only [Bool.true_eq_false, false_and, or_false]
  constructor
  · rintro ⟨⟨rfl, rfl⟩, rfl⟩
    exact ⟨t, rfl, c.toNat_lt, by rw [UInt8.ofNat_toNat], rfl⟩
  · rintro ⟨t', rfl, hi, heq, rfl⟩
    obtain ⟨rfl, hc⟩ := List.append_inj' heq rfl
    exact ⟨⟨rfl, by rw [← (List.cons.inj hc).1]; exact (ofNat_toNat_of_lt hi).symm⟩, rfl⟩

theorem lastActions_singleton (e : Label × Input × Bool) (a : Action) :
    lastActions [e] a = actionSet e.1 e.2.1 e.2.2 a := by
  ext y
  simp [lastActions]

theorem prefacePattern_adds (hp : prefacePattern dfa mid = some dfa') :
    Adds dfa dfa' prefaceEdge (prefaceAct mid) := by
  intro E T num h
  unfold prefacePattern at hp
  simp only [Option.bind_eq_bind, Option.bind_eq_some_iff] at hp
  obtain ⟨b1, h1, b2, h2, b3, h3, h4⟩ := hp
  cases Option.some.inj h4
  have htext : StartText http2Preface := ⟨by decide +kernel, by decide +kernel⟩
  have hat := h.startPattern (h.roots (.start []) initState rfl)
  obtain ⟨hat1, hpre1⟩ := hat.withAction (pushOptionalPrefixes_nil rfl) rfl h1
  obtain ⟨num2, hren2, hat2, hpre2⟩ := hat1.pushInner hpre1 (htext.grows true false) h2
  obtain ⟨hat3, -⟩ := hat2.withAction (pushOptionalPrefixes_nil hpre2) hpre2 h3
  have hsplit : http2Preface = http2Preface.dropLast ++ [0x0a] := by decide
  have hlast : shape.pathLast true (.start []) http2Preface [] =
      [(.start http2Preface.dropLast, (0x0a : UInt8).toNat, true)] := by
    conv_lhs => rw [hsplit]
    exact StartText.pathLast (by rw [← hsplit]; exact htext) true
  rw [hlast, lastActions_singleton] at hat3
  refine ⟨num2, hren2, ?_⟩
  convert hat3.rep using 1
  · ext ⟨l, i⟩
    simp only [Set.mem_union, htext.mem_pathSet_true, Set.mem_ofPred_eq]
    cases l <;> simp [prefaceEdge]
  · ext ⟨l, i, a⟩
    simp only [Set.mem_union, mem_actionSet_start_true, Set.mem_ofPred_eq, ← hsplit]
    cases l <;> simp [prefaceAct, lastActions]

theorem pushAny_fixed (b : DfaBuilder Action) (n : Nat) :
    b.pushAny n (some n) = DfaBuilder.pushAnys n b := by
  unfold DfaBuilder.pushAny
  simp only [Option.getD_some, Nat.lt_irrefl, if_false, Nat.sub_self, List.replicate_zero,
    List.append_nil, Option.bind_eq_bind]
  cases DfaBuilder.pushAnys n b <;> rfl

theorem statusPattern_adds (hp : statusPattern dfa mid = some dfa') :
    Adds dfa dfa' statusEdge (statusAct mid) := by
  intro E T num h
  unfold statusPattern at hp
  simp only [Option.bind_eq_bind, Option.bind_eq_some_iff, pushAny_fixed, DfaBuilder.pushAnys] at hp
  obtain ⟨b1, h1, b2, h2, b5, ⟨b3, h3, b4, h4, b5', h5, h5'⟩, b6, h6, b7, h7, b8, h8, h9⟩ := hp
  cases Option.some.inj h5'
  cases Option.some.inj h9
  have htext : StartText statusStart := ⟨by decide +kernel, by decide +kernel⟩
  have hat := h.startPattern (h.roots (.start []) initState rfl)
  obtain ⟨num1, hren1, hat1, hpre1⟩ := hat.pushInner rfl (htext.grows false false) h1
  rw [htext.path] at hat1
  obtain ⟨hat2, hpre2⟩ := hat1.withAction (pushOptionalPrefixes_nil hpre1) hpre1 h2
  obtain ⟨num3, hren3, hat3, hpre3⟩ := hat2.pushAnyEdge hpre2 ⟨rfl, rfl⟩ h3
  obtain ⟨num4, hren4, hat4, hpre4⟩ := hat3.pushAnyEdge hpre3 ⟨rfl, rfl⟩ h4
  obtain ⟨num5, hren5, hat5, hpre5⟩ := hat4.pushAnyEdge hpre4 ⟨rfl, rfl⟩ h5
  obtain ⟨hat6, hpre6⟩ := hat5.withAction (pushOptionalPrefixes_nil hpre5) hpre5 h6
  obtain ⟨num7, hren7, hat7, hpre7⟩ := hat6.pushAny_loop hpre6 ⟨rfl, rfl⟩ rfl h7
  obtain ⟨num8, hren8, hrep8⟩ := endLine (c := .codeCr) hat7 hpre7 rfl ⟨rfl, rfl⟩ (fun h => by cases h) rfl rfl h8
  have hsplit : statusStart = statusStart.dropLast ++ [0x20] := by decide
  have hlast : shape.pathLast false (.start []) statusStart [] =
      [(.start statusStart.dropLast, (0x20 : UInt8).toNat, false)] := by
    conv_lhs => rw [hsplit]
    exact StartText.pathLast (by rw [← hsplit]; exact htext) false
  rw [hlast, lastActions_singleton, lastActions_singleton] at hrep8
  refine ⟨num8, ((((hren1.trans hren3).trans hren4).trans hren5).trans hren7).trans hren8, ?_⟩
  have hg1 : shape.goto (.start statusStart) anyInput = .code 1 := rfl
  have hg2 : shape.goto (.code 1) anyInput = .code 2 := rfl
  have hg3 : shape.goto (.code 2) anyInput = .code 3 := rfl
  have hg4 : shape.goto (.code 3) anyInput = .code 4 := rfl
  convert hrep8 using 1
  · ext ⟨l, i⟩
    simp only [Set.mem_union, Set.mem_insert_iff, htext.mem_pathSet, Set.mem_ofPred_eq,
      Set.mem_singleton_iff, Prod.mk.injEq]
    cases l <;> simp [statusEdge, hg1, hg2, hg3, hg4]
    case start => rw [← or_assoc, or_comm]
    case code => grind
  · ext ⟨l, i, a⟩
    have hup : upperByte 0x20 = 0x20 := rfl
    simp only [Set.mem_union, mem_actionSet_start hup, Set.mem_ofPred_eq, ← hsplit]
    cases l <;> simp [statusAct, actionSet, edgeSet, hg1, hg2, and_assoc]

/-- The methods are pushed from the start, and end in the state of the longest. -/
theorem methods_text {m : Bytes} (hm : m ∈ methods) : m = m.dropLast ++ [m.getLast?.getD 0] ∧
    StartText m.dropLast ∧ upperByte (m.getLast?.getD 0) = m.getLast?.getD 0 := by
  have hall : ∀ m ∈ methods, m = m.dropLast ++ [m.getLast?.getD 0] ∧
      ((∀ c ∈ m.dropLast, upperByte c = c) ∧ ∀ m' ∈ methods, m' <+: m.dropLast → m' = options) ∧
        upperByte (m.getLast?.getD 0) = m.getLast?.getD 0 := by
    decide +kernel
  obtain ⟨hsplit, htext, hup⟩ := hall m hm
  exact ⟨hsplit, ⟨htext.1, htext.2⟩, hup⟩

theorem goto_method {m : Bytes} (hm : m ∈ methods) (ht : m = t ++ [c]) (hu : upperByte c = c)
    {i : Nat} (hi : i = c.toNat ∨ otherCase c.toNat = some i) :
    (Label.start t).goto i = .start options := by
  obtain ⟨hlt, hup⟩ := (upper_cases hu i).mp hi
  rw [goto_start_of_lt hlt, hup, if_pos (by rw [← ht]; exact hm)]

theorem methods_path {m : Bytes} (hm : m ∈ methods) :
    shape.path (.start []) m = .start options ∧ shape.GrowsPath false true (.start []) m := by
  obtain ⟨hsplit, htext, hup⟩ := methods_text hm
  have hgoto : ∀ i, (i = (m.getLast?.getD 0).toNat ∨
      otherCase (m.getLast?.getD 0).toNat = some i) →
      (Label.start m.dropLast).goto i = .start options :=
    fun i hi => goto_method hm hsplit hup hi
  constructor
  · rw [hsplit, shape.path_append, htext.path]
    exact hgoto _ (.inl rfl)
  · rw [hsplit]
    refine (htext.grows false false).concat ?_
    rw [htext.path]
    exact fun _ o ho => (hgoto o (.inr ho)).trans (hgoto _ (.inl rfl)).symm

theorem methods_mem_pathSet {m : Bytes} (hm : m ∈ methods) {y : Label × Input} :
    y ∈ shape.pathSet false (.start []) m ↔
      ∃ t, y.1 = .start t ∧ y.2 < 256 ∧ t ++ [upperByte (UInt8.ofNat y.2)] <+: m := by
  obtain ⟨hsplit, htext, hup⟩ := methods_text hm
  conv_lhs => rw [hsplit]
  rw [shape.pathSet_append, htext.path, Set.mem_union, htext.mem_pathSet]
  have hlast : y ∈ shape.pathSet false (.start m.dropLast) [m.getLast?.getD 0] ↔
      ∃ t, y.1 = .start t ∧ y.2 < 256 ∧ t ++ [upperByte (UInt8.ofNat y.2)] = m := by
    have hset : shape.pathSet false (.start m.dropLast) [m.getLast?.getD 0] =
        edgeSet (.start m.dropLast) (m.getLast?.getD 0).toNat false := Set.union_empty _
    have h := mem_actionSet_start (t := m.dropLast) hup (a := Action.done)
      (y := (y.1, y.2, Action.done))
    rw [← hsplit] at h
    rw [hset]
    simpa [actionSet] using h
  rw [hlast]
  have hfront : ∀ t : Bytes, ∀ d, t ++ [d] <+: m ↔ t ++ [d] <+: m.dropLast ∨ t ++ [d] = m := by
    intro t d
    conv_lhs => rw [hsplit, List.prefix_concat_iff, ← hsplit]
    exact or_comm
  simp only [hfront]
  constructor
  · rintro (⟨t, hy, hi, hp⟩ | ⟨t, hy, hi, hp⟩)
    · exact ⟨t, hy, hi, .inl hp⟩
    · exact ⟨t, hy, hi, .inr hp⟩
  · rintro ⟨t, hy, hi, hp | hp⟩
    · exact .inl ⟨t, hy, hi, hp⟩
    · exact .inr ⟨t, hy, hi, hp⟩

theorem methods_pathLast {m : Bytes} (hm : m ∈ methods) :
    shape.pathLast false (.start []) m last =
      [(.start m.dropLast, (m.getLast?.getD 0).toNat, false)] := by
  obtain ⟨hsplit, htext, -⟩ := methods_text hm
  conv_lhs => rw [hsplit]
  rw [shape.pathLast_concat, htext.path]

/-- The edges of the methods, and the actions of the edges they end with. -/
def methodEdges : Set (Label × Input) :=
  {x | ∃ t, x.1 = .start t ∧ x.2 < 256 ∧ ∃ m ∈ methods, t ++ [upperByte (UInt8.ofNat x.2)] <+: m}

def methodActions (a : Action) : Set (Label × Input × Action) :=
  {x | ∃ t, x.1 = .start t ∧ x.2.1 < 256 ∧ t ++ [upperByte (UInt8.ofNat x.2.1)] ∈ methods ∧
    x.2.2 = a}

theorem mem_methods_iff {m : Bytes} :
    m ∈ options :: methods.filter (· ≠ options) ↔ m ∈ methods := by
  simp only [List.mem_cons, List.mem_filter, decide_eq_true_eq]
  constructor
  · rintro (rfl | ⟨hm, -⟩)
    · decide
    · exact hm
  · intro hm
    by_cases h : m = options
    · exact .inl h
    · exact .inr ⟨hm, h⟩

theorem pushMethods (h : BuilderAt shape E T num b (.start []) [] last)
    (hb : b.optionalPrefixes = []) (hp : b.pushOptionsCi methods = some b') :
    ∃ num' last', Renumbers num num' ∧
      BuilderAt shape (E ∪ methodEdges) T num' b' (.start options) [] last' ∧
      b'.optionalPrefixes = [] ∧ ∀ a, lastActions last' a = methodActions a := by
  have hlongest : DfaBuilder.longest methods = some options := by decide
  have htext : StartText options := ⟨by decide +kernel, by decide +kernel⟩
  have hpath := htext.path
  obtain ⟨num', hren, hat, hpre⟩ := h.pushOptionsCi hb hlongest (htext.grows false false)
    (fun y hy => by
      rw [hpath]
      exact methods_path (List.mem_filter.mp hy).1) hp
  rw [hpath] at hat
  have hset : shape.optionSet (.start []) (options :: methods.filter (· ≠ options)) =
      methodEdges := by
    ext y
    constructor
    · rintro ⟨m, hm, hy⟩
      have hm := mem_methods_iff.mp hm
      obtain ⟨t, hl, hi, hpre⟩ := (methods_mem_pathSet hm).mp hy
      exact ⟨t, hl, hi, m, hm, hpre⟩
    · rintro ⟨t, hl, hi, m, hm, hpre⟩
      exact ⟨m, mem_methods_iff.mpr hm, (methods_mem_pathSet hm).mpr ⟨t, hl, hi, hpre⟩⟩
  rw [hset] at hat
  refine ⟨num', _, hren, hat, hpre, fun a => ?_⟩
  have hlast : ∀ e, e ∈ (shape.pathLast false (.start []) options last ++
      (methods.filter (· ≠ options)).flatMap fun y => shape.pathLast false (.start []) y []) ↔
      ∃ m ∈ methods, e = (.start m.dropLast, (m.getLast?.getD 0).toNat, false) := by
    intro e
    rw [methods_pathLast (by decide : options ∈ methods)]
    simp only [List.mem_append, List.mem_singleton, List.mem_flatMap]
    constructor
    · rintro (rfl | ⟨m, hm, he⟩)
      · exact ⟨options, by decide, rfl⟩
      · have hm := (List.mem_filter.mp hm).1
        rw [methods_pathLast hm] at he
        exact ⟨m, hm, List.mem_singleton.mp he⟩
    · rintro ⟨m, hm, rfl⟩
      by_cases hopt : m = options
      · exact .inl (by rw [hopt])
      · refine .inr ⟨m, List.mem_filter.mpr ⟨hm, decide_eq_true hopt⟩, ?_⟩
        rw [methods_pathLast hm]
        exact List.mem_singleton_self _
  ext y
  constructor
  · rintro ⟨e, he, hy⟩
    obtain ⟨m, hm, rfl⟩ := (hlast e).mp he
    obtain ⟨hsplit, -, hup⟩ := methods_text hm
    obtain ⟨t, hl, hi, heq, ha⟩ := (mem_actionSet_start hup).mp hy
    rw [← hsplit] at heq
    exact ⟨t, hl, hi, by rw [heq]; exact hm, ha⟩
  · rintro ⟨t, hl, hi, hm, ha⟩
    obtain ⟨hsplit, -, hup⟩ := methods_text hm
    exact ⟨_, (hlast _).mpr ⟨_, hm, rfl⟩, (mem_actionSet_start hup).mpr ⟨t, hl, hi, hsplit, ha⟩⟩

/-- The labels of the version, the first of which is the one of the target. -/
def versionLabel (t : Bytes) : Label := if t = [] then .target else .version t

theorem version_char (hp : t ++ [c] <+: httpVersion) :
    upperByte c = c ∧ c.toNat ∉ [lfInput, crInput] ∧ (t = [] → c = 0x20) ∧ t ++ [c] ≠ [] ∧
      (t ≠ [] → t ++ [c] ≠ space) := by
  have hmem : ∀ c ∈ httpVersion, upperByte c = c ∧ c.toNat ∉ [lfInput, crInput] := by decide +kernel
  obtain ⟨rest, hrest⟩ := hp
  have hc := hmem c (by rw [← hrest]; simp)
  refine ⟨hc.1, hc.2, ?_, by simp, fun hne heq => ?_⟩
  · rintro rfl
    exact (List.cons.inj hrest).1
  · have hlen := congrArg List.length heq
    have hpos := List.length_pos_iff.mpr hne
    rw [List.length_append] at hlen
    have hspace : space.length = 1 := rfl
    rw [hspace, List.length_singleton] at hlen
    omega

theorem goto_version (hp : t ++ [c] <+: httpVersion) {i : Nat}
    (hi : i = c.toNat ∨ otherCase c.toNat = some i) :
    (versionLabel t).goto i = versionLabel (t ++ [c]) := by
  obtain ⟨hu, hc, hfirst, hne, -⟩ := version_char hp
  obtain ⟨hlt, hup⟩ := (upper_cases hu i).mp hi
  rw [versionLabel, versionLabel, if_neg hne]
  by_cases ht : t = []
  · subst ht
    rw [if_pos rfl, hfirst rfl]
    exact if_neg (ne_anyInput hlt)
  · rw [if_neg ht]
    have hsep : i ≠ lfInput ∧ i ≠ crInput := by
      rcases hi with rfl | hi
      · simpa only [List.mem_cons, List.not_mem_nil, or_false, not_or] using hc
      · have hs := (otherCase_not_mem hi).1
        simp only [List.mem_cons, not_or] at hs
        exact ⟨hs.2.1, hs.2.2.1⟩
    show (if i = lfInput then _ else if i = crInput then _ else Label.version _) = _
    rw [if_neg hsep.1, if_neg hsep.2, hup]

theorem version_chain : shape.Chain versionLabel [] httpVersion :=
  fun _ _ _ hp => goto_version hp (.inl rfl)

theorem version_grows : shape.GrowsPath false false .target httpVersion := by
  refine shape.growsPath_chain (f := versionLabel) (t := []) version_chain fun t c _ hp => ?_
  have hp : t ++ [c] <+: httpVersion := hp
  obtain ⟨-, -, hfirst, hne, hlong⟩ := version_char hp
  have hgoto := goto_version hp (.inl rfl)
  refine ⟨.inl ⟨?_, ?_⟩, fun _ o ho => (goto_version hp (.inr ho)).trans hgoto.symm⟩
  · show Label.parent ((versionLabel t).goto c.toNat) = _
    rw [hgoto, versionLabel, if_neg hne]
    by_cases ht : t = []
    · subst ht
      rw [hfirst rfl]
      rfl
    · rw [versionLabel, if_neg ht]
      simp [Label.parent, lastInput, hlong ht]
  · show Label.root ((versionLabel t).goto c.toNat) = _
    rw [hgoto, versionLabel, if_neg hne]
    rfl

theorem version_mem_pathSet {y : Label × Input} :
    y ∈ shape.pathSet false .target httpVersion ↔
      ∃ t, y.1 = versionLabel t ∧ y.2 < 256 ∧
        t ++ [upperByte (UInt8.ofNat y.2)] <+: httpVersion := by
  have h : y ∈ shape.pathSet false (versionLabel []) httpVersion ↔ _ :=
    shape.mem_pathSet_chain version_chain
  have htarget : versionLabel [] = .target := rfl
  rw [htarget] at h
  rw [h]
  simp only [List.nil_append, List.nil_prefix, true_and]
  constructor
  · rintro ⟨t, c, hp, hy, hcase⟩
    obtain ⟨hi, hup⟩ := (upper_cases (version_char hp).1 y.2).mp (hcase.imp id fun h => h.2)
    exact ⟨t, hy, hi, by rw [hup]; exact hp⟩
  · rintro ⟨t, hy, hi, hp⟩
    refine ⟨t, _, hp, hy, ?_⟩
    exact ((upper_cases (version_char hp).1 y.2).mpr ⟨hi, rfl⟩).imp id fun h => ⟨rfl, h⟩

/-- The edges of the version, and of the end of the line. -/
def versionEdges : Set (Label × Input) :=
  {x | (∃ t, x.1 = versionLabel t ∧ x.2 < 256 ∧
    t ++ [upperByte (UInt8.ofNat x.2)] <+: httpVersion) ∨
    x ∈ ({(.any, lfInput), (.version httpVersion, crInput), (.version httpVersion, lfInput),
      (.versionCr, lfInput)} : Set (Label × Input))}

theorem endOfRequestLine_adds (h : BuilderAt shape E T num b .target [] last)
    (hb : b.optionalPrefixes = []) (hp : endOfRequestLine b = some dfa') :
    ∃ num', Renumbers num num' ∧ Represents shape (E ∪ versionEdges) T num' dfa' := by
  unfold endOfRequestLine at hp
  simp only [Option.bind_eq_bind, Option.bind_eq_some_iff] at hp
  obtain ⟨b1, h1, b2, h2, h3⟩ := hp
  cases Option.some.inj h3
  obtain ⟨num1, hren1, hat1, hpre1⟩ := h.pushInner hb version_grows h1
  have hpath : shape.path .target httpVersion = .version httpVersion :=
    shape.path_chain (f := versionLabel) (t := []) version_chain
  rw [hpath] at hat1
  obtain ⟨num2, hren2, hrep2⟩ := endLine (c := .versionCr) hat1 hpre1 rfl ⟨rfl, rfl⟩ (fun h => by cases h) rfl rfl h2
  refine ⟨num2, hren1.trans hren2, ?_⟩
  convert hrep2 using 1
  ext y
  simp only [versionEdges, Set.mem_union, Set.mem_ofPred_eq, version_mem_pathSet, or_assoc]

/-- The space behind a method. -/
theorem pushSpace (h : BuilderAt shape E T num b (.start options) [] last)
    (hb : b.optionalPrefixes = []) (hp : b.push space = some b') :
    ∃ num', Renumbers num num' ∧ BuilderAt shape (insert (.start options, spaceInput) E) T num' b'
      (.start afterMethod) [] [(.start options, spaceInput, true)] ∧ b'.optionalPrefixes = [] := by
  have htext : StartText afterMethod := ⟨by decide +kernel, by decide +kernel⟩
  have hstep := @StartText.step _ options 0x20 htext true (by decide)
  have hgrows : shape.GrowsPath true false (.start options) space :=
    ⟨.inl hstep.1, hstep.2, trivial⟩
  obtain ⟨num', hren, hat, hpre⟩ := h.pushInner hb hgrows hp
  have hpath : shape.path (.start options) space = .start afterMethod := by decide
  rw [hpath] at hat
  refine ⟨num', hren, ?_, hpre⟩
  have hset : insert (.start options, spaceInput) E =
      E ∪ shape.pathSet true (.start options) space := by
    ext ⟨l, i⟩
    have hmem : (l, i) ∈ shape.pathSet true (.start options) space ↔
        l = .start options ∧ i = spaceInput := by
      show (l, i) ∈ edgeSet (.start options) spaceInput true ∪ ∅ ↔ _
      simp [edgeSet]
    rw [Set.mem_union, hmem, Set.mem_insert_iff, Prod.mk.injEq, or_comm]
  rw [hset]
  exact hat

/-- The edges of a request line taken together. -/
theorem requestEdge_iff (x : Label × Input) : requestEdge x.1 x.2 ↔
    x ∈ methodEdges ∨ x ∈ ({(.start options, spaceInput), (.start afterMethod, anyInput),
      (.target, anyInput)} : Set (Label × Input)) ∨ x ∈ versionEdges := by
  obtain ⟨l, i⟩ := x
  have hspace : space <+: httpVersion := by decide
  have hfirst : ∀ t : Bytes, .target = versionLabel t ↔ t = [] := fun t => by
    unfold versionLabel
    split <;> simp [*]
  have hmore : ∀ t u : Bytes, .version t = versionLabel u ↔ t = u ∧ u ≠ [] := fun t u => by
    unfold versionLabel
    split <;> simp [*]
  have hnot : ∀ l, (∀ u, l ≠ .version u) → l ≠ .target → ∀ u, l ≠ versionLabel u := by
    intro l h1 h2 u
    unfold versionLabel
    split
    · exact h2
    · exact h1 u
  have htarget : i < 256 ∧ [upperByte (UInt8.ofNat i)] <+: httpVersion ↔ i = spaceInput := by
    have hcases := upper_cases (c := 0x20) rfl i
    have hcons : httpVersion = 0x20 :: httpVersion.tail := by decide
    rw [hcons, List.cons_prefix_cons, and_iff_left List.nil_prefix, ← hcases]
    exact ⟨fun h => h.resolve_right nofun, .inl⟩
  simp only [methodEdges, versionEdges, Set.mem_ofPred_eq, Set.mem_insert_iff,
    Set.mem_singleton_iff, Prod.mk.injEq]
  cases l
  case target => simp [requestEdge, hfirst, htarget]
  case version t =>
    simp [requestEdge, hmore]
    tauto
  all_goals simp [requestEdge, hnot]

theorem methodPattern_adds (hp : methodPattern dfa mid = some dfa') :
    Adds dfa dfa' requestEdge (methodAct mid) := by
  intro E T num h
  unfold methodPattern at hp
  simp only [Option.bind_eq_bind, Option.bind_eq_some_iff] at hp
  obtain ⟨b1, h1, b2, h2, b3, h3, b4, h4, b5, h5, h6⟩ := hp
  have hat := h.startPattern (h.roots (.start []) initState rfl)
  obtain ⟨hat1, hpre1⟩ := hat.withAction (pushOptionalPrefixes_nil rfl) rfl h1
  obtain ⟨num2, last2, hren2, hat2, hpre2, hlast2⟩ := pushMethods hat1 hpre1 h2
  obtain ⟨hat3, hpre3⟩ := hat2.withAction (pushOptionalPrefixes_nil hpre2) hpre2 h3
  obtain ⟨num4, hren4, hat4, hpre4⟩ := pushSpace hat3 hpre3 h4
  have hg1 : shape.goto (.start afterMethod) anyInput = .target := rfl
  obtain ⟨num5, hren5, hat5, hpre5⟩ := hat4.pushAny_loop hpre4 ⟨rfl, rfl⟩ rfl h5
  rw [hg1] at hat5
  obtain ⟨num6, hren6, hrep6⟩ := endOfRequestLine_adds hat5 hpre5 h6
  refine ⟨num6, ((hren2.trans hren4).trans hren5).trans hren6, ?_⟩
  rw [hlast2] at hrep6
  convert hrep6 using 1
  · ext x
    simp only [Set.mem_union, Set.mem_ofPred_eq, requestEdge_iff, Set.mem_insert_iff,
      Set.mem_singleton_iff]
    tauto
  · ext ⟨l, i, a⟩
    simp only [Set.mem_union, Set.mem_ofPred_eq, methodActions, lastActions]
    cases l <;> simp [methodAct]

theorem pathPattern_adds (hp : pathPattern dfa mid = some dfa') :
    Adds dfa dfa' requestEdge (pathAct mid) := by
  intro E T num h
  unfold pathPattern at hp
  simp only [Option.bind_eq_bind, Option.bind_eq_some_iff] at hp
  obtain ⟨b2, h2, b3, h3, b4, h4, b5, h5, b6, h6, h7⟩ := hp
  have hat := h.startPattern (h.roots (.start []) initState rfl)
  obtain ⟨num2, last2, hren2, hat2, hpre2, -⟩ := pushMethods hat rfl h2
  obtain ⟨num3, hren3, hat3, hpre3⟩ := pushSpace hat2 hpre2 h3
  obtain ⟨hat4, hpre4⟩ := hat3.withAction (pushOptionalPrefixes_nil hpre3) hpre3 h4
  have hg1 : shape.goto (.start afterMethod) anyInput = .target := rfl
  obtain ⟨num5, hren5, hat5, hpre5⟩ := hat4.pushAny_loop hpre4 ⟨rfl, rfl⟩ rfl h5
  rw [hg1] at hat5
  obtain ⟨hat6, hpre6⟩ := hat5.withAction (pushOptionalPrefixes_nil hpre5) hpre5 h6
  obtain ⟨num7, hren7, hrep7⟩ := endOfRequestLine_adds hat6 hpre6 h7
  refine ⟨num7, ((hren2.trans hren3).trans hren5).trans hren7, ?_⟩
  convert hrep7 using 1
  · ext x
    simp only [Set.mem_union, Set.mem_ofPred_eq, requestEdge_iff, Set.mem_insert_iff,
      Set.mem_singleton_iff]
    tauto
  · ext ⟨l, i, a⟩
    simp only [Set.mem_union, Set.mem_ofPred_eq, lastActions, actionSet, edgeSet]
    cases l <;> simp [pathAct]
    tauto

end Beeper.Http1
