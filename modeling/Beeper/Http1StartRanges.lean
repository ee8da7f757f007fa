import Beeper.Http1FirstLine
import Mathlib.Data.List.TakeWhile

namespace Beeper.Http1

variable {items : List (Item × MatchId)} {l : Label} {t w bytes front : Bytes} {c : UInt8} {i o : Nat}
  {x : Label × Nat} {v : View}

/-- The range of the method that a message starts with. -/
def methodRange (o : Nat) (bytes : Bytes) : HttpMatch :=
  match methods.find? fun m => decide (m <+: upper bytes) with
  | some m => rangeTo 0 (o + m.length - 1)
  | none => .zero

theorem methods_free : ∀ m ∈ methods, ∀ m' ∈ methods, m <+: m' → m = m' := by decide +kernel

theorem methods_eq {m m' : Bytes} (hm : m ∈ methods) (hm' : m' ∈ methods) (h : m <+: w)
    (h' : m' <+: w) : m = m' :=
  (List.prefix_or_prefix_of_prefix h h').elim (methods_free m hm m' hm')
    fun hp => (methods_free m' hm' m hm hp).symm

theorem find_method {p : Bytes → Bool} {m : Bytes} (hm : m ∈ methods) (hp : p m = true)
    (hu : ∀ m' ∈ methods, p m' = true → m' = m) : methods.find? p = some m := by
  cases hf : methods.find? p with
  | none => exact absurd hp (List.find?_eq_none.mp hf m hm)
  | some m' =>
    rw [hu m' (List.mem_of_find?_eq_some hf) (List.find?_some hf)]

theorem methodRange_of {m : Bytes} (hm : m ∈ methods) (h : m <+: upper bytes) :
    methodRange o bytes = rangeTo 0 (o + m.length - 1) := by
  have hfind := find_method (p := fun m => decide (m <+: upper bytes)) hm (decide_eq_true h)
    fun m' hm' h' => methods_eq hm' hm (of_decide_eq_true h') h
  rw [methodRange, hfind]

theorem methodRange_none (h : ∀ m ∈ methods, ¬m <+: upper bytes) : methodRange o bytes = .zero := by
  have hfind : (methods.find? fun m => decide (m <+: upper bytes)) = none :=
    List.find?_eq_none.mpr fun m hm => by simpa using h m hm
  rw [methodRange, hfind]

/-- A text that more is needed of for a method. -/
def MethodFront (t : Bytes) : Prop := ∃ m ∈ methods, t <+: m ∧ t ≠ m

theorem MethodFront.no_method (h : MethodFront t) : ∀ m ∈ methods, ¬m <+: t := by
  obtain ⟨m', hm', hp, hne⟩ := h
  intro m hm hpre
  have heq := methods_free m hm m' hm' (hpre.trans hp)
  subst heq
  exact hne (hp.eq_of_length_le hpre.length_le)

/-- The labels that no method ends behind. -/
def PastMethod (l : Label) : Prop := ∀ t, l = .start t → ¬MethodFront t

theorem not_methodFront_options : ¬MethodFront options := by
  rintro ⟨m, hm, hp, hne⟩
  exact hne (methods_free options (by decide) m hm hp)

theorem methodFront_of_concat {d : UInt8} {m : Bytes} (hm : m ∈ methods) (h : t ++ [d] <+: m) :
    MethodFront t := by
  refine ⟨m, hm, (List.prefix_append _ _).trans h, ?_⟩
  rintro rfl
  have hle := h.length_le
  rw [List.length_append, List.length_singleton] at hle
  omega

theorem pastMethod_started (h : l.Started) : PastMethod l := fun t ht => absurd ht (h t)

theorem pastMethod_startWith (h : ¬MethodFront t) : PastMethod (startWith t c) := by
  rintro t' ht' ⟨m, hm, hp, hne⟩
  unfold startWith at ht'
  split at ht'
  next hmem => exact h (methodFront_of_concat (List.contains_iff_mem.mp hmem) (List.prefix_refl _))
  next =>
    cases ht'
    exact h (methodFront_of_concat hm hp)

theorem pastMethod_readLabel (h : PastMethod l) (c : UInt8) :
    PastMethod (readLabel items l c.toNat) := by
  by_cases hl : l.Started
  · exact pastMethod_started (started_readLabel hl _)
  · obtain ⟨t, rfl⟩ := not_forall_not.mp hl
    rcases readLabel_start_cases items t c with ⟨-, heq⟩ | hs
    · rw [heq]
      exact pastMethod_startWith (h t rfl)
    · exact pastMethod_started hs

theorem behindMethod : Behind items .method PastMethod where
  next _ c h := pastMethod_readLabel h c
  open_ l c h x hx hcl := by
    obtain ⟨t, ht, -, hm⟩ := method_closes_iff.mp hcl
    rcases edgeOf_fst hx with heq | heq
    · exact h t (heq.symm.trans ht) (methodFront_of_concat hm (List.prefix_refl _))
    · rw [heq] at ht
      cases ht

/-- A walk that has not read a method so far. -/
structure ReadingMethod (front : Bytes) (v : View) : Prop where
  label : v.label = .start (upper front)
  more : MethodFront (upper front)
  start : v.start = 0
  range : v.range = .zero

theorem upper_concat (front : Bytes) (c : UInt8) : upper (front ++ [c]) = upper front ++ [upperByte c] :=
  upper_append front [c]

/-- The text of a method cannot be the preface. -/
theorem MethodFront.not_stops (h : MethodFront t) :
    ¬∃ x, edgeOf items (.start t) c.toNat = some x ∧ stops items x := by
  intro hstop
  obtain ⟨m, hm, hp, -⟩ := h
  have hlen : ∀ m ∈ methods, m.length ≤ 7 := by decide
  rcases stops_cases hstop with heq | heq | ⟨t', heq, hpre, -⟩
  · cases heq
  · cases heq
  · cases heq
    have hle := hp.length_le
    have hpl := congrArg List.length hpre
    rw [List.length_append, List.length_singleton] at hpl
    have h24 : http2Preface.length = 24 := by decide
    have := hlen m hm
    omega

/-- The edge of a byte that a method goes on with. -/
theorem edge_method (hr : ReadsRequests items) {m : Bytes} (hm : m ∈ methods)
    (h : t ++ [upperByte c] <+: m) : (.start t, c.toNat) ∈ edges items := by
  rw [edge_start, UInt8.ofNat_toNat]
  exact .inl ⟨hr, .inl ⟨c.toNat_lt, m, hm, h⟩⟩

theorem startWith_method (h : MethodFront (t ++ [upperByte c])) :
    startWith t c = .start (t ++ [upperByte c]) := by
  refine startWith_not_mem fun hm => ?_
  exact h.no_method _ hm (List.prefix_refl _)

/-- What a byte makes of a text that could have become a method. -/
theorem methodFront_cases (h : MethodFront t) (c : UInt8) :
    t ++ [upperByte c] ∈ methods ∨ MethodFront (t ++ [upperByte c]) ∨
      ∀ m ∈ methods, ∀ rest, ¬m <+: t ++ [upperByte c] ++ rest := by
  by_cases hm : t ++ [upperByte c] ∈ methods
  · exact .inl hm
  by_cases hf : MethodFront (t ++ [upperByte c])
  · exact .inr (.inl hf)
  right
  right
  intro m hmem rest hp
  rcases List.prefix_or_prefix_of_prefix hp (List.prefix_append _ _) with hle | hle
  · rcases List.prefix_concat_iff.mp hle with heq | hle
    · exact hm (heq ▸ hmem)
    · exact h.no_method m hmem hle
  · exact hf ⟨m, hmem, hle, fun heq => hm (heq ▸ hmem)⟩

/-- An edge that ends a method is the byte's own. -/
theorem edgeOf_method {n : Nat} (hx : edgeOf items (.start t) n = some x)
    (hcl : Item.method.closes x) : n < 256 ∧ t ++ [upperByte (UInt8.ofNat n)] ∈ methods := by
  obtain ⟨t', ht, hlt, hm⟩ := method_closes_iff.mp hcl
  rcases edgeOf_fst hx with heq | heq
  · rw [heq] at ht
    cases ht
    rcases edgeOf_snd hx with hn | hn
    · rw [hn] at hlt hm
      exact ⟨hlt, hm⟩
    · rw [hn] at hlt
      exact absurd hlt (Nat.lt_irrefl 256)
  · rw [heq] at ht
    cases ht

theorem ReadingMethod.step (h : ReadingMethod front v) (hr : ReadsRequests items) :
    (viewStep items .method (o + front.length) c v).2 = false ∧
        ReadingMethod (front ++ [c]) (viewStep items .method (o + front.length) c v).1 ∨
      Settled PastMethod (methodRange o) (front ++ [c])
        (viewStep items .method (o + front.length) c v).1 := by
  obtain ⟨l, s, r⟩ := v
  obtain ⟨rfl, hmore, rfl, rfl⟩ := h
  have hup : ∀ rest, upper (front ++ [c] ++ rest) = upper front ++ [upperByte c] ++ upper rest := by
    intro rest
    rw [upper_append, upper_concat]
  -- a byte that no method ends with
  have hidle : upper front ++ [upperByte c] ∉ methods →
      (viewStep items .method (o + front.length) c ⟨.start (upper front), 0, .zero⟩).1 =
        ⟨readLabel items (.start (upper front)) c.toNat, 0, .zero⟩ := by
    intro hm
    apply viewStep_idle
    intro x hx
    refine ⟨not_opens_method, fun hcl => hm ?_⟩
    have hmem := (edgeOf_method hx hcl).2
    rwa [UInt8.ofNat_toNat] at hmem
  rcases methodFront_cases hmore c with hm | hf | hno
  · right
    have hedge := edge_method hr hm (List.prefix_refl _)
    have hcl : Item.method.closes (.start (upper front), c.toNat) :=
      method_closes_iff.mpr ⟨_, rfl, c.toNat_lt, by rwa [UInt8.ofNat_toNat]⟩
    rw [viewStep_closes (edgeOf_own hedge) not_opens_method hcl]
    refine ⟨?_, fun rest => ?_⟩
    · show PastMethod (readLabel items (.start (upper front)) c.toNat)
      rw [readLabel_startWith hedge, startWith_mem hm]
      rintro t ht
      cases ht
      exact not_methodFront_options
    · have hp : upper front ++ [upperByte c] <+: upper (front ++ [c] ++ rest) := by
        rw [hup]
        exact List.prefix_append _ _
      rw [methodRange_of hm hp, List.length_append, List.length_singleton, upper_length]
      rfl
  · left
    obtain ⟨m, hm, hp, -⟩ := id hf
    have hedge := edge_method hr hm hp
    refine ⟨Bool.eq_false_iff.mpr (mt viewStep_done.mp hmore.not_stops), ?_⟩
    rw [hidle fun hmem => hf.no_method _ hmem (List.prefix_refl _), readLabel_startWith hedge,
      startWith_method hf]
    exact ⟨by rw [upper_concat], by rwa [upper_concat], rfl, rfl⟩
  · right
    have hmem : upper front ++ [upperByte c] ∉ methods := fun hm => by
      exact hno _ hm [] (List.prefix_append _ _)
    rw [hidle hmem]
    refine ⟨?_, fun rest => ?_⟩
    · show PastMethod (readLabel items (.start (upper front)) c.toNat)
      rcases readLabel_start_cases items (upper front) c with ⟨-, heq⟩ | hs
      · rw [heq, startWith_not_mem hmem]
        rintro t ht ⟨m, hm, ⟨rest, hp⟩, -⟩
        cases ht
        exact hno m hm rest ⟨[], by rw [hp, List.append_nil]⟩
      · exact pastMethod_started hs
    · rw [methodRange_none fun m hm => ?_]
      rw [hup]
      exact hno m hm _

theorem method_run (hr : ReadsRequests items) (o : Nat) (bytes : Bytes) :
    (Scan.run (viewStep items .method) o bytes .init).2.range = methodRange o bytes := by
  apply run_settles (R := ReadingMethod) behindMethod (fun front c v h => h.step hr)
  · intro front v h
    rw [h.range, methodRange_none h.more.no_method]
  · exact ⟨rfl, ⟨options, by decide, by decide, by decide⟩, rfl, rfl⟩

/-- The range of the target of a request, as far as the message goes. -/
def pathRange (o : Nat) (bytes : Bytes) : HttpMatch :=
  match methods.find? fun m => decide (m ++ space <+: upper bytes) with
  | some m =>
    match bytes.drop (m.length + 1) with
    | _ :: target => rangeTo (o + m.length + 1)
        (o + m.length + 1 + (target.takeWhile fun c => decide (c ≠ 0x20)).length)
    | [] => .zero
  | none => .zero

variable {mt tgt rest : Bytes}

theorem upper_space_prefix (mt rest : Bytes) : upper mt ++ space <+: upper (mt ++ 0x20 :: rest) := by
  rw [List.append_cons, upper_append, upper_append]
  exact ⟨upper rest, rfl⟩

theorem find_space (h : upper mt ∈ methods) : (methods.find? fun m =>
    decide (m ++ space <+: upper (mt ++ 0x20 :: rest))) = some (upper mt) := by
  have hp := upper_space_prefix mt rest
  refine find_method h (decide_eq_true hp) fun m hm h' => ?_
  exact methods_eq hm h ((List.prefix_append _ _).trans (of_decide_eq_true h'))
    ((List.prefix_append _ _).trans hp)

theorem drop_space (mt rest : Bytes) : (mt ++ 0x20 :: rest).drop (mt.length + 1) = rest := by
  rw [List.append_cons]
  exact List.drop_left' (by rw [List.length_append, List.length_singleton])

theorem pathRange_space (h : upper mt ∈ methods) : pathRange o (mt ++ [0x20]) = .zero := by
  simp only [pathRange, find_space h, upper_length, drop_space]

theorem pathRange_target (h : upper mt ∈ methods) : pathRange o (mt ++ 0x20 :: c :: tgt) =
    rangeTo (o + mt.length + 1)
      (o + mt.length + 1 + (tgt.takeWhile fun c => decide (c ≠ 0x20)).length) := by
  simp only [pathRange, find_space h, upper_length, drop_space]

theorem pathRange_none (h : ∀ m ∈ methods, ¬m ++ space <+: upper bytes) :
    pathRange o bytes = .zero := by
  have hfind : (methods.find? fun m => decide (m ++ space <+: upper bytes)) = none :=
    List.find?_eq_none.mpr fun m hm => by simpa using h m hm
  simp only [pathRange, hfind]

theorem takeWhile_target (h : ∀ d ∈ tgt, d ≠ 0x20) :
    (tgt.takeWhile fun c => decide (c ≠ 0x20)) = tgt :=
  List.takeWhile_eq_self_iff.mpr fun d hd => decide_eq_true (h d hd)

/-- A walk that has not read the target of a request to its end so far. -/
inductive ReadingPath (o : Nat) : Bytes → View → Prop
  | text {front : Bytes} (h : MethodFront (upper front)) :
      ReadingPath o front ⟨.start (upper front), 0, .zero⟩
  | method {mt : Bytes} (h : upper mt ∈ methods) : ReadingPath o mt ⟨.start options, 0, .zero⟩
  | space {mt : Bytes} (h : upper mt ∈ methods) :
      ReadingPath o (mt ++ [0x20]) ⟨.start afterMethod, o + mt.length + 1, .zero⟩
  | target {mt tgt : Bytes} {c : UInt8} (h : upper mt ∈ methods) (ht : ∀ d ∈ tgt, d ≠ 0x20) :
      ReadingPath o (mt ++ 0x20 :: c :: tgt)
        ⟨.target, o + mt.length + 1, rangeTo (o + mt.length + 1) (o + mt.length + 1 + tgt.length)⟩

/-- The labels that no target is read behind. -/
structure PastPath (l : Label) : Prop where
  target : l ≠ .target
  start : ∀ t, l = .start t → t ≠ options ∧ t ≠ afterMethod ∧ ¬MethodFront t

theorem again_ne_target (c : Nat) : again c ≠ .target := by
  unfold again
  split <;> [skip; split] <;> simp

theorem readLabel_ne_target (hs : l.Started) (h : l ≠ .target) (c : Nat) :
    readLabel items l c ≠ .target := by
  have hgoto : ∀ i, l.goto i ≠ .target := by
    intro i
    cases l with
    | start t => exact absurd rfl (hs t)
    | target => exact absurd rfl h
    | _ =>
      simp only [Label.goto]
      repeat' split
      all_goals simp
  by_cases hown : (l, c) ∈ edges items
  · rw [readLabel_own hown]
    exact hgoto c
  by_cases hany : (l, anyInput) ∈ edges items
  · rw [readLabel_any hown hany]
    exact hgoto anyInput
  · rw [readLabel_again hown hany]
    exact again_ne_target c

theorem pastPath_started (hs : l.Started) (h : l ≠ .target) : PastPath l :=
  ⟨h, fun t ht => absurd ht (hs t)⟩

/-- A byte that a start text does not go on with, and which is not part of a target. -/
theorem readLabel_start_pastPath (h : t ≠ afterMethod)
    (hw : PastPath (startWith t c)) : PastPath (readLabel items (.start t) c.toNat) := by
  by_cases hown : (.start t, c.toNat) ∈ edges items
  · rw [readLabel_startWith hown]
    exact hw
  · rcases readLabel_start_lost hown with ⟨-, heq, -⟩ | ⟨heq, -⟩ | heq
    · exact absurd heq h
    · rw [heq]
      exact pastPath_started (fun t => by simp) (by simp)
    · rw [heq]
      exact pastPath_started (started_again _) (again_ne_target _)

theorem options_not_methodFront_concat {d : UInt8} (h : ¬MethodFront t) : t ++ [d] ∉ methods :=
  fun hm => h (methodFront_of_concat hm (List.prefix_refl _))

theorem pastPath_startWith (h1 : t ≠ options) (h2 : ¬MethodFront t) : PastPath (startWith t c) := by
  have hm := options_not_methodFront_concat (d := upperByte c) h2
  rw [startWith_not_mem hm]
  refine ⟨by simp, fun t' ht' => ?_⟩
  cases ht'
  refine ⟨fun heq => hm (by rw [heq]; decide), fun heq => h1 ?_, fun hf => h2 ?_⟩
  · have hsplit : afterMethod = options ++ [0x20] := by decide
    rw [hsplit] at heq
    exact (List.append_inj' heq rfl).1
  · obtain ⟨m, hmem, hp, -⟩ := hf
    exact methodFront_of_concat hmem hp

theorem pastPath_readLabel (h : PastPath l) (c : UInt8) : PastPath (readLabel items l c.toNat) := by
  by_cases hl : l.Started
  · exact pastPath_started (started_readLabel hl _) (readLabel_ne_target hl h.target _)
  · obtain ⟨t, ht⟩ := not_forall_not.mp hl
    obtain ⟨h1, h2, h3⟩ := h.start t ht
    rw [ht]
    exact readLabel_start_pastPath h2 (pastPath_startWith h1 h3)

theorem behindPath : Behind items .path PastPath where
  next _ c h := pastPath_readLabel h c
  open_ l c h x hx hcl := by
    rcases path_closes_iff.mp hcl with rfl | rfl
    · rcases edgeOf_fst hx with heq | heq
      · exact (h.start afterMethod heq.symm).2.1 rfl
      · cases heq
    · rcases edgeOf_fst hx with heq | heq
      · exact h.target heq.symm
      · cases heq

/-- The edges of a text that nothing goes on with, other than a method that was read. -/
theorem edge_start_end (hm : ¬MethodFront t) (hs : ¬t <+: statusStart) (hp : ¬t <+: http2Preface) :
    (.start t, i) ∈ edges items ↔ ReadsRequests items ∧
      (t = options ∧ i = spaceInput ∨ t = afterMethod ∧ i = anyInput) := by
  rw [edge_start]
  constructor
  · rintro (⟨hr, ⟨-, m, hmem, h⟩ | h⟩ | ⟨-, ⟨-, h⟩ | ⟨rfl, -⟩⟩ | ⟨-, -, h⟩)
    · exact absurd (methodFront_of_concat hmem h) hm
    · exact ⟨hr, h⟩
    · exact absurd ((List.prefix_append _ _).trans h) hs
    · exact absurd (List.prefix_refl _) hs
    · exact absurd ((List.prefix_append _ _).trans h) hp
  · rintro ⟨hr, h⟩
    exact .inl ⟨hr, .inr h⟩

theorem not_methodFront_afterMethod : ¬MethodFront afterMethod := by
  have hp : options <+: afterMethod := by decide
  intro h
  exact h.no_method options (by decide) hp

theorem edge_options : (.start options, i) ∈ edges items ↔ ReadsRequests items ∧ i = spaceInput := by
  have hne : options ≠ afterMethod := by decide
  rw [edge_start_end not_methodFront_options (by decide) (by decide)]
  simp [hne]

theorem edge_afterMethod : (.start afterMethod, i) ∈ edges items ↔
    ReadsRequests items ∧ i = anyInput := by
  have hne : afterMethod ≠ options := by decide
  rw [edge_start_end not_methodFront_afterMethod (by decide) (by decide)]
  simp [hne]

theorem toNat_eq_space : c.toNat = spaceInput ↔ c = 0x20 := by
  rw [← UInt8.toNat_inj]
  rfl

/-- A walk is only done at the start of a message if it has read the preface. -/
theorem not_stops_start (h : t ≠ http2Preface.dropLast) :
    ¬∃ x, edgeOf items (.start t) c.toNat = some x ∧ stops items x := by
  intro hstop
  rcases stops_cases hstop with heq | heq | ⟨t', heq, hpre, -⟩
  · cases heq
  · cases heq
  · cases heq
    apply h
    rw [← hpre, List.dropLast_concat]

/-- An edge that no target starts or ends with. -/
theorem path_idle (h1 : l ≠ .target) (h2 : l = .start options → c ≠ 0x20)
    (h3 : l ≠ .start afterMethod) {n : Nat} (hn : n = c.toNat) (hx : edgeOf items l n = some x) :
    ¬Item.path.opens x ∧ ¬Item.path.closes x := by
  rw [path_opens_iff, path_closes_iff]
  have hfst := edgeOf_fst hx
  refine ⟨?_, ?_⟩
  · rintro rfl
    rcases hfst with heq | heq
    · rcases edgeOf_snd hx with hs | hs
      · exact h2 heq.symm (toNat_eq_space.mp (hn.symm.trans hs.symm))
      · exact absurd hs (by decide)
    · cases heq
  · rintro (rfl | rfl)
    · rcases hfst with heq | heq
      · exact h3 heq.symm
      · cases heq
    · rcases hfst with heq | heq
      · exact h1 heq.symm
      · cases heq

theorem not_space_prefix (h : upper mt ∈ methods) (hc : c ≠ 0x20) :
    ∀ m ∈ methods, ¬m ++ space <+: upper (mt ++ c :: rest) := by
  intro m hm hp
  have hmt : upper mt <+: upper (mt ++ c :: rest) := by
    rw [upper_append]
    exact List.prefix_append _ _
  obtain rfl := methods_eq hm h ((List.prefix_append _ _).trans hp) hmt
  rw [upper_append, List.prefix_append_right_inj] at hp
  obtain ⟨z, hz⟩ := hp
  exact hc (upperByte_space.mp (List.cons.inj hz).1.symm)

theorem MethodFront.ne_afterMethod (h : MethodFront t) : t ≠ afterMethod :=
  fun heq => not_methodFront_afterMethod (heq ▸ h)

/-- A text that could have become a method, but has not. -/
theorem pastPath_lost (hlost : ∀ m ∈ methods, ∀ rest, ¬m <+: t ++ [upperByte c] ++ rest) :
    PastPath (startWith t c) := by
  have hm : t ++ [upperByte c] ∉ methods := by
    intro hm
    exact hlost _ hm [] (List.prefix_append _ _)
  rw [startWith_not_mem hm]
  refine ⟨by simp, fun t' ht' => ?_⟩
  cases ht'
  refine ⟨fun heq => hm ?_, fun heq => ?_, ?_⟩
  · rw [heq]
    decide
  · apply hlost options (by decide) []
    rw [heq]
    decide
  · rintro ⟨m, hmem, ⟨rest, hp⟩, -⟩
    exact hlost m hmem rest ⟨[], by rw [hp, List.append_nil]⟩

/-- What one more byte makes of a walk that is `v` so far. -/
def PathStep (items : List (Item × MatchId)) (o : Nat) (front : Bytes) (c : UInt8) (v : View) : Prop :=
  (viewStep items .path (o + front.length) c v).2 = false ∧
      ReadingPath o (front ++ [c]) (viewStep items .path (o + front.length) c v).1 ∨
    Settled PastPath (pathRange o) (front ++ [c]) (viewStep items .path (o + front.length) c v).1

theorem viewStep_not_done {it : Item}
    (h : ¬∃ x, edgeOf items v.label c.toNat = some x ∧ stops items x) :
    (viewStep items it i c v).2 = false :=
  Bool.eq_false_iff.mpr (mt viewStep_done.mp h)

theorem pathStep_text (hr : ReadsRequests items) (h : MethodFront (upper front)) (c : UInt8) :
    PathStep items o front c ⟨.start (upper front), 0, .zero⟩ := by
  have hidle : (viewStep items .path (o + front.length) c ⟨.start (upper front), 0, .zero⟩).1 =
      ⟨readLabel items (.start (upper front)) c.toNat, 0, .zero⟩ := by
    refine viewStep_idle fun x hx => path_idle (by simp) (fun heq => ?_) (fun heq => ?_) rfl hx
    · have heq := Label.start.inj heq
      exact absurd (heq ▸ h) not_methodFront_options
    · exact h.ne_afterMethod (Label.start.inj heq)
  have hdone : (viewStep items .path (o + front.length) c ⟨.start (upper front), 0, .zero⟩).2 =
      false := viewStep_not_done h.not_stops
  rw [PathStep, hidle]
  rcases methodFront_cases h c with hm | hf | hlost
  · left
    rw [readLabel_startWith (edge_method hr hm (List.prefix_refl _)), startWith_mem hm]
    rw [← upper_concat] at hm
    exact ⟨hdone, .method hm⟩
  · left
    obtain ⟨m, hm, hp, -⟩ := id hf
    rw [readLabel_startWith (edge_method hr hm hp), startWith_method hf]
    rw [← upper_concat] at hf ⊢
    exact ⟨hdone, .text hf⟩
  · right
    refine ⟨readLabel_start_pastPath h.ne_afterMethod (pastPath_lost hlost), fun rest => ?_⟩
    refine pathRange_none fun m hm hp => ?_
    rw [upper_append, upper_concat] at hp
    exact hlost m hm _ ((List.prefix_append _ _).trans hp)

theorem pathStep_method (hr : ReadsRequests items) (h : upper mt ∈ methods) (c : UInt8) :
    PathStep items o mt c ⟨.start options, 0, .zero⟩ := by
  by_cases hc : c = 0x20
  · subst hc
    left
    refine ⟨viewStep_not_done (not_stops_start (by decide)), ?_⟩
    have hedge : (.start options, (0x20 : UInt8).toNat) ∈ edges items := edge_options.mpr ⟨hr, rfl⟩
    have hlabel : readLabel items (.start options) (0x20 : UInt8).toNat = .start afterMethod :=
      readLabel_startWith hedge
    rw [viewStep_opens (edgeOf_own hedge) (path_opens_iff.mpr rfl) (by rw [path_closes_iff]; decide),
      hlabel]
    exact .space h
  · right
    have hedge : (.start options, c.toNat) ∉ edges items :=
      fun he => hc (toNat_eq_space.mp (edge_options.mp he).2)
    rw [viewStep_idle fun x hx => path_idle (by simp) (fun _ => hc) (by decide) rfl hx]
    refine ⟨?_, fun rest => ?_⟩
    · rcases readLabel_start_lost hedge with ⟨-, heq, -⟩ | ⟨-, heq, -⟩ | heq
      · exact absurd heq (by decide)
      · exact absurd heq (by decide)
      · rw [heq]
        exact pastPath_started (started_again _) (again_ne_target _)
    · rw [List.append_assoc]
      exact pathRange_none ( not_space_prefix h hc)

theorem pathStep_space (hr : ReadsRequests items) (h : upper mt ∈ methods) (c : UInt8) :
    PathStep items o (mt ++ [0x20]) c ⟨.start afterMethod, o + mt.length + 1, .zero⟩ := by
  have hx : edgeOf items (.start afterMethod) c.toNat = some (.start afterMethod, anyInput) :=
    edgeOf_any (fun he => ne_anyInput c.toNat_lt (edge_afterMethod.mp he).2)
      (edge_afterMethod.mpr ⟨hr, rfl⟩)
  have hlabel : readLabel items (.start afterMethod) c.toNat = .target := by
    rw [readLabel, hx]
    rfl
  left
  refine ⟨viewStep_not_done (not_stops_start (by decide)), ?_⟩
  rw [viewStep_closes hx (by rw [path_opens_iff]; decide) (path_closes_iff.mpr (.inl rfl)), hlabel,
    List.length_append, List.length_singleton, List.append_assoc]
  exact .target h (by simp)

theorem pathStep_target (hr : ReadsRequests items) (h : upper mt ∈ methods)
    (ht : ∀ e ∈ tgt, e ≠ 0x20) (d c : UInt8) : PathStep items o (mt ++ 0x20 :: d :: tgt) c
      ⟨.target, o + mt.length + 1, rangeTo (o + mt.length + 1) (o + mt.length + 1 + tgt.length)⟩ := by
  have hnot : ¬∃ x, edgeOf items .target c.toNat = some x ∧ stops items x := by
    intro hstop
    rcases stops_cases hstop with heq | heq | ⟨t, heq, -⟩ <;> cases heq
  by_cases hc : c = 0x20
  · subst hc
    right
    have hedge : (.target, (0x20 : UInt8).toNat) ∈ edges items := edge_target.mpr ⟨hr, .inr rfl⟩
    have hlabel : readLabel items .target (0x20 : UInt8).toNat = .version space :=
      readLabel_own hedge
    rw [viewStep_idle fun x hx => by
      cases (edgeOf_own hedge).symm.trans hx
      rw [path_opens_iff, path_closes_iff]
      decide]
    refine ⟨?_, fun rest => ?_⟩
    · show PastPath (readLabel items .target (0x20 : UInt8).toNat)
      rw [hlabel]
      exact pastPath_started (fun t => by simp) (by simp)
    · have hsplit : mt ++ 0x20 :: d :: tgt ++ [0x20] ++ rest =
          mt ++ 0x20 :: d :: (tgt ++ 0x20 :: rest) := by simp
      rw [hsplit, pathRange_target h,
        List.takeWhile_append_of_pos fun e he => decide_eq_true (ht e he)]
      simp
  · left
    refine ⟨viewStep_not_done hnot, ?_⟩
    have hno : (.target, c.toNat) ∉ edges items := fun he =>
      (edge_target.mp he).2.elim (ne_anyInput c.toNat_lt) fun hs => hc (toNat_eq_space.mp hs)
    have hx : edgeOf items .target c.toNat = some (.target, anyInput) :=
      edgeOf_any hno (edge_target.mpr ⟨hr, .inl rfl⟩)
    have hlabel : readLabel items .target c.toNat = .target := by
      rw [readLabel, hx]
      rfl
    have hfront : mt ++ 0x20 :: d :: tgt ++ [c] = mt ++ 0x20 :: d :: (tgt ++ [c]) := by simp
    have hlen : o + (mt ++ 0x20 :: d :: tgt).length = o + mt.length + 1 + (tgt ++ [c]).length := by
      simp only [List.length_append, List.length_cons, List.length_nil]
      omega
    rw [viewStep_closes hx (by rw [path_opens_iff]; decide) (path_closes_iff.mpr (.inr rfl)), hlabel,
      hfront, hlen]
    refine .target h fun e he => ?_
    rcases List.mem_append.mp he with he | he
    · exact ht e he
    · rw [List.mem_singleton.mp he]
      exact hc

theorem ReadingPath.step (h : ReadingPath o front v) (hr : ReadsRequests items) (c : UInt8) :
    PathStep items o front c v := by
  cases h with
  | text h => exact pathStep_text hr h c
  | method h => exact pathStep_method hr h c
  | space h => exact pathStep_space hr h c
  | target h ht => exact pathStep_target hr h ht _ c

theorem path_run (hr : ReadsRequests items) (o : Nat) (bytes : Bytes) :
    (Scan.run (viewStep items .path) o bytes .init).2.range = pathRange o bytes := by
  apply run_settles (R := ReadingPath o) behindPath (fun front c v h => h.step hr c)
  · intro front v h
    cases h with
    | text h =>
      refine pathRange_none fun m hm hp => ?_
      exact h.no_method m hm ((List.prefix_append _ _).trans hp)
    | method h =>
      refine pathRange_none fun m hm hp => ?_
      have heq := methods_eq hm h ((List.prefix_append _ _).trans hp) (List.prefix_refl _)
      have hle := hp.length_le
      rw [heq, List.length_append] at hle
      have hone : space.length = 1 := rfl
      omega
    | space h => exact pathRange_space h
    | target h ht => rw [pathRange_target h, takeWhile_target ht]
  · exact .text ⟨options, by decide, by decide, by decide⟩

end Beeper.Http1
