import Beeper.Http1StartRanges

namespace Beeper.Http1

variable {items : List (Item × MatchId)} {l : Label} {t bytes front st : Bytes} {a b c : UInt8}
  {i o : Nat} {x : Label × Nat} {v : View}

/-- The range of the code of a status line, which its first three characters are. -/
def statusRange (o : Nat) (bytes : Bytes) : HttpMatch :=
  if statusStart <+: upper bytes ∧ 12 ≤ bytes.length then rangeTo (o + 9) (o + 11) else .zero

theorem statusStart_length : statusStart.length = 9 := by decide

/-- A walk that has not read the code of a status line to its end so far. -/
inductive ReadingStatus (o : Nat) : Bytes → View → Prop
  | text {front : Bytes} (h : front.length < 9) :
      ReadingStatus o front ⟨.start (upper front), 0, .zero⟩
  | started {st : Bytes} (h : upper st = statusStart) :
      ReadingStatus o st ⟨.start statusStart, o + 9, .zero⟩
  | one {st : Bytes} {a : UInt8} (h : upper st = statusStart) :
      ReadingStatus o (st ++ [a]) ⟨.code 1, o + 9, .zero⟩
  | two {st : Bytes} {a b : UInt8} (h : upper st = statusStart) :
      ReadingStatus o (st ++ [a] ++ [b]) ⟨.code 2, o + 9, .zero⟩

/-- The labels that no code is read behind. -/
structure PastStatus (l : Label) : Prop where
  start : ∀ t, l = .start t → ¬t <+: statusStart
  code : ∀ n, l = .code n → 3 ≤ n

theorem again_ne_code (c n : Nat) : again c ≠ .code n := by
  unfold again
  split <;> [skip; split] <;> simp

theorem code_goto (hs : l.Started) (h : ∀ n, l = .code n → 3 ≤ n) (i : Nat) :
    ∀ n, l.goto i = .code n → 3 ≤ n := by
  intro n hn
  cases l with
  | start t => exact absurd rfl (hs t)
  | code m =>
    have hm := h m rfl
    simp only [Label.goto] at hn
    split at hn
    next => cases hn
    split at hn
    next => cases hn
    split at hn
    next => cases hn; omega
    next => cases hn; omega
  | _ =>
    simp only [Label.goto] at hn
    repeat' split at hn
    all_goals cases hn

theorem code_readLabel (hs : l.Started) (h : ∀ n, l = .code n → 3 ≤ n) (c : Nat) :
    ∀ n, readLabel items l c = .code n → 3 ≤ n := by
  by_cases hown : (l, c) ∈ edges items
  · rw [readLabel_own hown]
    exact code_goto hs h c
  by_cases hany : (l, anyInput) ∈ edges items
  · rw [readLabel_any hown hany]
    exact code_goto hs h anyInput
  · rw [readLabel_again hown hany]
    exact fun n hn => absurd hn (again_ne_code c n)

theorem pastStatus_started (hs : l.Started) (h : ∀ n, l ≠ .code n) : PastStatus l :=
  ⟨fun t ht => absurd ht (hs t), fun n hn => absurd hn (h n)⟩

theorem pastStatus_startWith (h : ¬t ++ [upperByte c] <+: statusStart) : PastStatus (startWith t c) := by
  unfold startWith
  split
  next =>
    refine ⟨fun t' ht' => ?_, fun n hn => by cases hn⟩
    cases ht'
    decide
  next =>
    refine ⟨fun t' ht' => ?_, fun n hn => by cases hn⟩
    cases ht'
    exact h

theorem readLabel_start_pastStatus (h : t ≠ statusStart) (hw : PastStatus (startWith t c)) :
    PastStatus (readLabel items (.start t) c.toNat) := by
  by_cases hown : (.start t, c.toNat) ∈ edges items
  · rw [readLabel_startWith hown]
    exact hw
  · rcases readLabel_start_lost hown with ⟨heq, -⟩ | ⟨-, heq, -⟩ | heq
    · rw [heq]
      exact pastStatus_started (fun t => by simp) (by simp)
    · exact absurd heq h
    · rw [heq]
      exact pastStatus_started (started_again _) (again_ne_code _)

theorem pastStatus_readLabel (h : PastStatus l) (c : UInt8) :
    PastStatus (readLabel items l c.toNat) := by
  by_cases hl : l.Started
  · exact ⟨fun t ht => absurd ht (started_readLabel hl _ t), code_readLabel hl h.code _⟩
  · obtain ⟨t, ht⟩ := not_forall_not.mp hl
    have hno := h.start t ht
    rw [ht]
    refine readLabel_start_pastStatus (fun heq => hno (heq ▸ List.prefix_refl _)) ?_
    exact pastStatus_startWith fun hp => hno ((List.prefix_append _ _).trans hp)

theorem behindStatus : Behind items .status PastStatus where
  next _ c h := pastStatus_readLabel h c
  open_ l c h x hx hcl := by
    obtain rfl := status_closes_iff.mp hcl
    rcases edgeOf_fst hx with heq | heq
    · exact absurd (h.code 2 heq.symm) (by decide)
    · cases heq

/-- What one more byte makes of a walk that is `v` so far. -/
def StatusStep (items : List (Item × MatchId)) (o : Nat) (front : Bytes) (c : UInt8) (v : View) :
    Prop :=
  (viewStep items .status (o + front.length) c v).2 = false ∧
      ReadingStatus o (front ++ [c]) (viewStep items .status (o + front.length) c v).1 ∨
    Settled PastStatus (statusRange o) (front ++ [c])
      (viewStep items .status (o + front.length) c v).1

theorem edge_status (hs : Captures items .status) (h : t ++ [upperByte c] <+: statusStart) :
    (.start t, c.toNat) ∈ edges items := by
  rw [edge_start, UInt8.ofNat_toNat]
  exact .inr (.inl ⟨hs, .inl ⟨c.toNat_lt, h⟩⟩)

/-- The text a status line starts with has no method in it. -/
theorem startWith_status (h : t ++ [upperByte c] <+: statusStart) :
    startWith t c = .start (t ++ [upperByte c]) := by
  have hno : ∀ m ∈ methods, ¬m <+: statusStart := by decide +kernel
  exact startWith_not_mem fun hm => hno _ hm h

theorem not_statusRange (h : ¬upper front <+: statusStart) (hle : front.length ≤ 9) (rest : Bytes) :
    statusRange o (front ++ rest) = .zero := by
  refine if_neg fun hp => h ?_
  have hfront : upper front <+: upper (front ++ rest) := by
    rw [upper_append]
    exact List.prefix_append _ _
  refine List.prefix_of_prefix_length_le hfront hp.1 ?_
  rw [upper_length, statusStart_length]
  exact hle

/-- An edge of a text that no code starts or ends with. -/
theorem status_idle (h : t ++ [upperByte c] ≠ statusStart)
    (hx : edgeOf items (.start t) c.toNat = some x) :
    ¬Item.status.opens x ∧ ¬Item.status.closes x := by
  rw [status_opens_iff, status_closes_iff]
  refine ⟨?_, ?_⟩
  · rintro ⟨t', ht', hlt, heq⟩
    rcases edgeOf_fst hx with hfst | hfst
    · rw [hfst] at ht'
      cases ht'
      rcases edgeOf_snd hx with hs | hs
      · rw [hs, UInt8.ofNat_toNat] at heq
        exact h heq
      · rw [hs] at hlt
        exact absurd hlt (Nat.lt_irrefl 256)
    · rw [hfst] at ht'
      cases ht'
  · rintro rfl
    rcases edgeOf_fst hx with hfst | hfst <;> cases hfst

theorem statusStep_text (hs : Captures items .status) (hlt : front.length < 9) (c : UInt8) :
    StatusStep items o front c ⟨.start (upper front), 0, .zero⟩ := by
  have hlen : (upper front).length = front.length := upper_length front
  have hne : upper front ≠ statusStart := by
    intro heq
    rw [heq, statusStart_length] at hlen
    omega
  have hdone : (viewStep items .status (o + front.length) c ⟨.start (upper front), 0, .zero⟩).2 =
      false := by
    refine viewStep_not_done (not_stops_start fun heq => ?_)
    rw [heq] at hlen
    have h23 : http2Preface.dropLast.length = 23 := by decide
    omega
  by_cases hp : upper front ++ [upperByte c] <+: statusStart
  · left
    refine ⟨hdone, ?_⟩
    have hedge := edge_status hs hp
    by_cases heq : upper front ++ [upperByte c] = statusStart
    · have hfull : front.length + 1 = 9 := by
        rw [← statusStart_length, ← heq, List.length_append, List.length_singleton, hlen]
      have hopens : Item.status.opens (.start (upper front), c.toNat) :=
        status_opens_iff.mpr ⟨_, rfl, c.toNat_lt, by rwa [UInt8.ofNat_toNat]⟩
      rw [viewStep_opens (edgeOf_own hedge) hopens (by simp [status_closes_iff]),
        readLabel_startWith hedge, startWith_status hp, heq, Nat.add_assoc, hfull]
      exact .started (by rw [upper_concat, heq])
    · rw [viewStep_idle fun x hx => status_idle heq hx, readLabel_startWith hedge, startWith_status hp,
        ← upper_concat]
      rw [← upper_concat] at heq hp
      refine .text (Nat.lt_of_le_of_ne ?_ fun hlen9 => heq (hp.eq_of_length ?_))
      · have hle := hp.length_le
        rwa [upper_length, statusStart_length] at hle
      · rw [upper_length, statusStart_length, hlen9]
  · right
    rw [viewStep_idle fun x hx => status_idle (fun heq => hp (heq ▸ List.prefix_refl _)) hx]
    refine ⟨readLabel_start_pastStatus hne (pastStatus_startWith hp), fun rest => ?_⟩
    refine not_statusRange (by rwa [upper_concat]) ?_ rest
    rw [List.length_append, List.length_singleton]
    exact hlt

theorem edgeOf_statusStart (hs : Captures items .status) :
    edgeOf items (.start statusStart) c.toNat = some (.start statusStart, anyInput) := by
  have hm : ¬MethodFront statusStart := by
    rintro ⟨m, hmem, hp, -⟩
    have hno : ∀ m ∈ methods, ¬statusStart <+: m := by decide +kernel
    exact hno m hmem hp
  have hp : ¬statusStart <+: http2Preface := by decide
  have hne : statusStart ≠ options ∧ statusStart ≠ afterMethod := by decide
  refine edgeOf_any (fun he => ?_) (edge_start.mpr (.inr (.inl ⟨hs, .inr ⟨rfl, rfl⟩⟩)))
  rcases edge_start.mp he with ⟨-, ⟨-, m, hmem, h⟩ | ⟨h, -⟩ | ⟨h, -⟩⟩ | ⟨-, ⟨-, h⟩ | ⟨-, h⟩⟩ | ⟨-, -, h⟩
  · exact hm (methodFront_of_concat hmem h)
  · exact hne.1 h
  · exact hne.2 h
  · have hle := h.length_le
    rw [List.length_append, List.length_singleton] at hle
    omega
  · exact ne_anyInput c.toNat_lt h
  · exact hp ((List.prefix_append _ _).trans h)

/-- Any byte is part of a code. -/
theorem edgeOf_code (hs : Captures items .status) {n : Nat} (hn : n = 1 ∨ n = 2) :
    edgeOf items (.code n) c.toNat = some (.code n, anyInput) := by
  refine edgeOf_any (fun he => ?_) (edge_code.mpr ⟨hs, .inl ⟨?_, rfl⟩⟩)
  · obtain ⟨-, ⟨-, h⟩ | ⟨h, -⟩⟩ := edge_code.mp he
    · exact ne_anyInput c.toNat_lt h
    · omega
  · rcases hn with rfl | rfl <;> decide

theorem not_stops_code {n : Nat} :
    ¬∃ x, edgeOf items (.code n) c.toNat = some x ∧ stops items x := by
  intro hstop
  rcases stops_cases hstop with heq | heq | ⟨t, heq, -⟩ <;> cases heq

theorem statusStep_started (hs : Captures items .status) (h : upper st = statusStart) (c : UInt8) :
    StatusStep items o st c ⟨.start statusStart, o + 9, .zero⟩ := by
  have hx := edgeOf_statusStart (c := c) hs
  left
  refine ⟨viewStep_not_done (not_stops_start (by decide)), ?_⟩
  rw [viewStep_idle fun x hx' => by
    cases hx.symm.trans hx'
    rw [status_opens_iff, status_closes_iff]
    simp [anyInput]]
  have hlabel : readLabel items (.start statusStart) c.toNat = .code 1 := by
    rw [readLabel, hx]
    rfl
  rw [hlabel]
  exact .one h

theorem statusStep_one (hs : Captures items .status) (h : upper st = statusStart) (c : UInt8) :
    StatusStep items o (st ++ [a]) c ⟨.code 1, o + 9, .zero⟩ := by
  have hx := edgeOf_code (c := c) hs (.inl rfl)
  left
  refine ⟨viewStep_not_done not_stops_code, ?_⟩
  rw [viewStep_idle fun x hx' => by
    cases hx.symm.trans hx'
    rw [status_opens_iff, status_closes_iff]
    simp]
  have hlabel : readLabel items (.code 1) c.toNat = .code 2 := by
    rw [readLabel, hx]
    rfl
  rw [hlabel]
  exact .two h

theorem statusStep_two (hs : Captures items .status) (h : upper st = statusStart) (c : UInt8) :
    StatusStep items o (st ++ [a] ++ [b]) c ⟨.code 2, o + 9, .zero⟩ := by
  have hx := edgeOf_code (c := c) hs (.inr rfl)
  have hlen : st.length = 9 := by rw [← upper_length, h, statusStart_length]
  right
  rw [viewStep_closes hx (by simp [status_opens_iff]) (status_closes_iff.mpr rfl)]
  have hlabel : readLabel items (.code 2) c.toNat = .code 3 := by
    rw [readLabel, hx]
    rfl
  rw [hlabel]
  refine ⟨⟨fun t ht => (by cases ht), fun n hn => (by cases hn; decide)⟩, fun rest => ?_⟩
  have hp : statusStart <+: upper (st ++ [a] ++ [b] ++ [c] ++ rest) := by
    simp only [List.append_assoc]
    rw [upper_append, h]
    exact List.prefix_append _ _
  have hle : 12 ≤ (st ++ [a] ++ [b] ++ [c] ++ rest).length := by
    simp only [List.length_append, List.length_singleton, hlen]
    omega
  have hend : o + (st ++ [a] ++ [b]).length = o + 11 := by
    simp only [List.length_append, List.length_singleton, hlen]
  rw [statusRange, if_pos ⟨hp, hle⟩, hend]

theorem ReadingStatus.step (h : ReadingStatus o front v) (hs : Captures items .status) (c : UInt8) :
    StatusStep items o front c v := by
  cases h with
  | text h => exact statusStep_text hs h c
  | started h => exact statusStep_started hs h c
  | one h => exact statusStep_one hs h c
  | two h => exact statusStep_two hs h c

theorem ReadingStatus.range (h : ReadingStatus o front v) : statusRange o front = v.range := by
  have hshort : ∀ {bytes : Bytes}, bytes.length < 12 → statusRange o bytes = .zero :=
    fun hlt => if_neg fun hp => absurd hp.2 (by omega)
  have hnine : ∀ {st : Bytes}, upper st = statusStart → st.length = 9 := by
    intro st h
    rw [← upper_length, h, statusStart_length]
  cases h with
  | text h => exact hshort (by omega)
  | started h => exact hshort (by rw [hnine h]; decide)
  | one h => exact hshort (by rw [List.length_append, hnine h, List.length_singleton]; decide)
  | two h =>
    refine hshort ?_
    rw [List.length_append, List.length_append, hnine h, List.length_singleton, List.length_singleton]
    decide

theorem status_run (hs : Captures items .status) (o : Nat) (bytes : Bytes) :
    (Scan.run (viewStep items .status) o bytes .init).2.range = statusRange o bytes := by
  apply run_settles (R := ReadingStatus o) behindStatus (fun front c v h => h.step hs c)
  · exact fun front v h => h.range
  · exact .text (by decide)

end Beeper.Http1
