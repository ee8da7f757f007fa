import Beeper.Http1StartRanges

namespace Beeper.Http1

variable {items : List (Item × MatchId)} {l : Label} {rd : Rodata} {m x bytes t : Bytes}
  {c : UInt8} {conn : Ip4Conn} {pres : HttpParseRes} {i n : Nat}

open Classical in
/-- The bytes that are missing at least until the header block ends. In the middle of a first line
that is read, a line feed is no end of it. -/
noncomputable def lacks (items : List (Item × MatchId)) : Label → Nat
  | .name t => if t = [] then 1 else 2
  | .lfCr => 1
  | .start t =>
    if Captures items .preface ∧ t ++ lf = http2Preface then 1
    else if Captures items .preface ∧ t ++ lf <+: http2Preface then 3
    else if t = afterMethod ∧ ReadsRequests items then 4
    else if t = statusStart ∧ Captures items .status then 6
    else 2
  | .target => if ReadsRequests items then 3 else 2
  | .code n => if n ∈ [1, 2, 3] ∧ Captures items .status then 6 - n else 2
  | _ => 2

theorem lacks_inHeader (hl : l.InHeader) :
    lacks items l = if l = .name [] ∨ l = .lfCr then 1 else 2 := by
  cases l with
  | name t =>
    by_cases ht : t = []
    · simp [lacks, ht]
    · simp [lacks, ht]
  | start t => exact hl.elim
  | target => exact hl.elim
  | code n => exact hl.elim
  | _ => simp [lacks]

theorem lacks_again (c : Nat) (hc : c ≠ lfInput) : lacks items (again c) = 2 := by
  unfold again
  rw [if_neg hc]
  split <;> rfl

/-- The texts that the preface goes on from with a line feed. -/
theorem preface_lf (h : t ++ lf <+: http2Preface) :
    t = http2Preface.take 15 ∨ t = http2Preface.take 17 ∨ t = http2Preface.take 21 ∨
      t ++ lf = http2Preface := by
  have hlen := h.length_le
  have hlf : lf.length = 1 := rfl
  have hpre : http2Preface.length = 24 := by decide
  rw [List.length_append, hlf, hpre] at hlen
  have ht : t = http2Preface.take t.length :=
    List.prefix_iff_eq_take.mp ((List.prefix_append _ _).trans h)
  have hall : ∀ k : Fin 24, http2Preface.take k ++ lf <+: http2Preface →
      k.val = 15 ∨ k.val = 17 ∨ k.val = 21 ∨ http2Preface.take k ++ lf = http2Preface := by
    decide
  rw [ht] at h
  rcases hall ⟨t.length, by omega⟩ h with hk | hk | hk | hk
  · exact .inl (hk ▸ ht)
  · exact .inr (.inl (hk ▸ ht))
  · exact .inr (.inr (.inl (hk ▸ ht)))
  · exact .inr (.inr (.inr (ht ▸ hk)))

/-- The byte that ends a header block is the line feed that is all it lacks. -/
theorem Named.stops_lacks (h : Named items) : (∃ x, edgeOf items l c.toNat = some x ∧ stops items x) ↔
    lacks items l = 1 ∧ c = 0x0a := by
  by_cases hl : l.InHeader
  · rw [h.stops_iff hl, lacks_inHeader hl, ← toNat_eq_lf]
    by_cases hend : l = .name [] ∨ l = .lfCr
    · simp [hend]
    · simp [hend]
  constructor
  · intro hstop
    rcases stops_cases hstop with rfl | rfl | ⟨t, rfl, hpre, hcap⟩
    · exact absurd trivial hl
    · exact absurd trivial hl
    · have hlast := congrArg List.getLast? hpre
      rw [List.getLast?_concat] at hlast
      have hp : http2Preface.getLast? = some 0x0a := by decide
      have hc : c = 0x0a := Option.some.inj (hlast.trans hp)
      exact ⟨if_pos ⟨hcap, by rw [← hpre, hc]; rfl⟩, hc⟩
  · rintro ⟨hlack, rfl⟩
    cases l with
    | start t =>
      simp only [lacks] at hlack
      split at hlack
      next hpre =>
        refine ⟨(.start t, lfInput), edgeOf_own ?_, .inr ⟨hpre.1, ?_⟩⟩
        · rw [edge_start]
          exact .inr (.inr ⟨hpre.1, by decide, hpre.2 ▸ List.prefix_refl _⟩)
        · exact preface_closes_iff.mpr ⟨t, rfl, show lfInput < 256 by decide, hpre.2⟩
      next =>
        split at hlack <;> [skip; split at hlack <;> [skip; split at hlack]] <;> omega
    | target =>
      simp only [lacks] at hlack
      split at hlack <;> omega
    | code n =>
      simp only [lacks] at hlack
      split at hlack
      next hn =>
        have hle := hn.1
        simp only [List.mem_cons, List.not_mem_nil, or_false] at hle
        omega
      next => cases hlack
    | version t => cases hlack
    | versionCr => cases hlack
    | codeCr => cases hlack
    | stop => cases hlack
    | _ => exact absurd trivial hl

theorem lacks_pos (items : List (Item × MatchId)) (l : Label) : 0 < lacks items l := by
  cases l with
  | name t =>
    simp only [lacks]
    split <;> omega
  | start t =>
    simp only [lacks]
    split <;> [skip; split <;> [skip; split <;> [skip; split]]] <;> omega
  | target =>
    simp only [lacks]
    split <;> omega
  | code n =>
    simp only [lacks]
    split
    next hn =>
      have hle := hn.1
      simp only [List.mem_cons, List.not_mem_nil, or_false] at hle
      omega
    next => omega
  | _ => exact Nat.zero_lt_succ _

theorem lacks_target (h : ReadsRequests items) : lacks items .target = 3 := if_pos h

theorem lacks_code (h : Captures items .status) (hn : n ∈ [1, 2, 3, 4]) :
    lacks items (.code n) = 6 - n := by
  simp only [List.mem_cons, List.not_mem_nil, or_false] at hn
  rcases hn with rfl | rfl | rfl | rfl <;> simp [lacks, h]

theorem edge_statusStart : (.start statusStart, i) ∈ edges items ↔
    Captures items .status ∧ i = anyInput := by
  have hm : ¬∃ m ∈ methods, statusStart ++ [upperByte (UInt8.ofNat i)] <+: m := by
    rintro ⟨m, hm, hp⟩
    have hno : ∀ m ∈ methods, ¬statusStart <+: m := by decide
    exact hno m hm ((List.prefix_append _ _).trans hp)
  have hs : ¬statusStart ++ [upperByte (UInt8.ofNat i)] <+: statusStart := by
    intro hp
    have hlen := hp.length_le
    rw [List.length_append, List.length_singleton] at hlen
    omega
  have hp : ¬statusStart ++ [UInt8.ofNat i] <+: http2Preface := by
    intro hp
    have hno : ¬statusStart <+: http2Preface := by decide
    exact hno ((List.prefix_append _ _).trans hp)
  have ho : statusStart ≠ options ∧ statusStart ≠ afterMethod := by decide
  rw [edge_start]
  simp [hm, hs, hp, ho.1, ho.2]

/-- A first line that lacks more than two line ends goes on with any byte. -/
theorem readLabel_afterMethod (h : ReadsRequests items) (c : UInt8) :
    readLabel items (.start afterMethod) c.toNat = .target := by
  have hne := ne_anyInput c.toNat_lt
  rw [readLabel_any (fun hown => hne (edge_afterMethod.mp hown).2) (edge_afterMethod.mpr ⟨h, rfl⟩)]
  rfl

theorem readLabel_statusStart (h : Captures items .status) (c : UInt8) :
    readLabel items (.start statusStart) c.toNat = .code 1 := by
  have hne := ne_anyInput c.toNat_lt
  rw [readLabel_any (fun hown => hne (edge_statusStart.mp hown).2) (edge_statusStart.mpr ⟨h, rfl⟩)]
  rfl

theorem readLabel_target (h : ReadsRequests items) (c : UInt8) :
    readLabel items .target c.toNat = if c = 0x20 then .version space else .target := by
  have hne := ne_anyInput c.toNat_lt
  by_cases hc : c.toNat = spaceInput
  · rw [if_pos (toNat_eq_space.mp hc), hc, readLabel_own (edge_target.mpr ⟨h, .inr rfl⟩)]
    rfl
  · rw [if_neg fun heq => hc (toNat_eq_space.mpr heq), readLabel_any
      (fun hown => (edge_target.mp hown).2.elim hne hc) (edge_target.mpr ⟨h, .inl rfl⟩)]
    rfl

/-- Where the preface goes on with a line feed, nothing else does. -/
theorem edge_preface_lf (h : t ++ lf <+: http2Preface) (hne : t ++ lf ≠ http2Preface) :
    (.start t, i) ∈ edges items ↔ Captures items .preface ∧ i = lfInput := by
  have hall : ∀ t ∈ [http2Preface.take 15, http2Preface.take 17, http2Preface.take 21],
      (∀ m ∈ methods, ¬t <+: m) ∧ ¬t <+: statusStart ∧ t ≠ options ∧ t ≠ afterMethod ∧
        t ≠ statusStart := by
    decide
  obtain ⟨hm, hs, ho, ha, hss⟩ := hall t (by
    rcases preface_lf h with rfl | rfl | rfl | heq <;> simp_all)
  have hmethod : ¬∃ m ∈ methods, t ++ [upperByte (UInt8.ofNat i)] <+: m := by
    rintro ⟨m, hmem, hp⟩
    exact hm m hmem ((List.prefix_append _ _).trans hp)
  have hstatus : ¬t ++ [upperByte (UInt8.ofNat i)] <+: statusStart :=
    fun hp => hs ((List.prefix_append _ _).trans hp)
  rw [edge_start]
  simp only [hmethod, hstatus, ho, ha, hss, and_false, false_and, or_self, false_or]
  refine and_congr_right fun _ => ?_
  constructor
  · rintro ⟨hlt, hp⟩
    have heq := (List.prefix_of_prefix_length_le hp h (by simp [lf, ascii])).eq_of_length
      (by simp [lf, ascii])
    have hc : UInt8.ofNat i = 0x0a := List.singleton_inj.mp (List.append_cancel_left heq)
    rw [← ofNat_toNat_of_lt hlt, hc]
    rfl
  · rintro rfl
    exact ⟨by decide, h⟩

theorem lacks_preface_lf (h : t ++ lf <+: http2Preface) (hne : t ++ lf ≠ http2Preface) :
    lacks items (.start (t ++ lf)) = 2 := by
  have hall : ∀ t ∈ [http2Preface.take 15, http2Preface.take 17, http2Preface.take 21],
      ¬t ++ lf ++ lf <+: http2Preface ∧ t ++ lf ≠ afterMethod ∧ t ++ lf ≠ statusStart := by
    decide
  obtain ⟨hno, ha, hs⟩ := hall t (by rcases preface_lf h with rfl | rfl | rfl | heq <;> simp_all)
  have heq : ¬(Captures items .preface ∧ t ++ lf ++ lf = http2Preface) :=
    fun hp => hno (hp.2 ▸ List.prefix_refl _)
  have hfront : ¬(Captures items .preface ∧ t ++ lf ++ lf <+: http2Preface) := fun hp => hno hp.2
  simp only [lacks]
  rw [if_neg heq, if_neg hfront, if_neg (not_and_of_not_left _ ha), if_neg (not_and_of_not_left _ hs)]

theorem readLabel_preface_lf (h : t ++ lf <+: http2Preface) (hne : t ++ lf ≠ http2Preface)
    (hcap : Captures items .preface) (c : UInt8) : readLabel items (.start t) c.toNat =
      if c = 0x0a then .start (t ++ lf) else again c.toNat := by
  by_cases hc : c = 0x0a
  · subst hc
    have hown : (.start t, (0x0a : UInt8).toNat) ∈ edges items :=
      (edge_preface_lf h hne).mpr ⟨hcap, rfl⟩
    have hno : t ++ [upperByte 0x0a] ∉ methods := by
      have hall : ∀ m ∈ methods, m.getLast? ≠ some 0x0a := by decide
      intro hm
      apply hall _ hm
      rw [List.getLast?_concat]
      decide
    rw [if_pos rfl, readLabel_startWith hown, startWith_not_mem hno]
    rfl
  · rw [if_neg hc, readLabel_again]
    · exact fun hown => hc (toNat_eq_lf.mp ((edge_preface_lf h hne).mp hown).2)
    · exact fun hany => absurd ((edge_preface_lf h hne).mp hany).2 (by decide)

theorem readLabel_to_line (hown : (l, lfInput) ∈ edges items → l.goto lfInput = .name [])
    (hany : (l, anyInput) ∈ edges items → (l, lfInput) ∈ edges items) :
    readLabel items l lfInput = .name [] := by
  by_cases hedge : (l, lfInput) ∈ edges items
  · rw [readLabel_own hedge, hown hedge]
  · rw [readLabel_again hedge (mt hany hedge)]
    exact if_pos rfl

/-- Where two bytes are missing, a line feed ends the line. -/
theorem Named.readLabel_lacks_two (h : Named items) (h2 : lacks items l = 2) :
    readLabel items l lfInput = .name [] := by
  by_cases hl : l.InHeader
  · rw [lacks_inHeader hl] at h2
    split at h2
    next => cases h2
    next hno => exact h.readLabel_lf hl (fun heq => hno (.inl heq)) fun heq => hno (.inr heq)
  have hlf : ∀ m ∈ methods, ∀ t : Bytes, ¬t ++ [upperByte (UInt8.ofNat lfInput)] <+: m := by
    intro m hm t hp
    have hall : ∀ m ∈ methods, (0x0a : UInt8) ∉ m := by decide
    exact hall m hm (hp.subset (List.mem_append_right _ List.mem_cons_self))
  have hlf' : ∀ s : Bytes, (0x0a : UInt8) ∉ s → ∀ t : Bytes,
      ¬t ++ [upperByte (UInt8.ofNat lfInput)] <+: s := by
    intro s hs t hp
    exact hs (hp.subset (List.mem_append_right _ List.mem_cons_self))
  cases l with
  | start t =>
    simp only [lacks] at h2
    split at h2 <;> [cases h2; skip]
    split at h2 <;> [cases h2; skip]
    next _ hpre =>
    split at h2 <;> [cases h2; skip]
    next hafter =>
    split at h2 <;> [cases h2; skip]
    next hstatus =>
    have hno : (.start t, lfInput) ∉ edges items := by
      intro hown
      rcases edge_start.mp hown with ⟨-, ⟨-, m, hm, hp⟩ | ⟨-, hi⟩ | ⟨-, hi⟩⟩ |
        ⟨-, ⟨-, hp⟩ | ⟨-, hi⟩⟩ | ⟨hcap, -, hp⟩
      · exact hlf m hm t hp
      · exact absurd hi (by decide)
      · exact absurd hi (by decide)
      · exact hlf' statusStart (by decide) t hp
      · exact absurd hi (by decide)
      · exact hpre ⟨hcap, hp⟩
    refine readLabel_to_line (fun hown => absurd hown hno) fun hany => ?_
    rcases edge_start.mp hany with ⟨hr, ⟨hi, -⟩ | ⟨-, hi⟩ | ⟨rfl, -⟩⟩ | ⟨hs, ⟨hi, -⟩ | ⟨rfl, -⟩⟩ |
      ⟨-, hi, -⟩
    · exact absurd hi (Nat.lt_irrefl 256)
    · exact absurd hi (by decide)
    · exact absurd ⟨rfl, hr⟩ hafter
    · exact absurd hi (Nat.lt_irrefl 256)
    · exact absurd ⟨rfl, hs⟩ hstatus
    · exact absurd hi (Nat.lt_irrefl 256)
  | target =>
    simp only [lacks] at h2
    split at h2 <;> [cases h2; skip]
    next hno =>
    exact readLabel_to_line (fun hown => absurd (edge_target.mp hown).1 hno)
      fun hany => absurd (edge_target.mp hany).1 hno
  | code n =>
    refine readLabel_to_line (fun hown => ?_) fun hany => ?_
    · obtain ⟨-, ⟨-, hi⟩ | ⟨rfl, -⟩⟩ := edge_code.mp hown
      · exact absurd hi (by decide)
      · rfl
    · obtain ⟨hs, ⟨hn, -⟩ | ⟨-, hi⟩⟩ := edge_code.mp hany
      · rw [lacks_code hs hn] at h2
        simp only [List.mem_cons, List.not_mem_nil, or_false] at hn
        exact edge_code.mpr ⟨hs, .inr ⟨by omega, .inr rfl⟩⟩
      · exact absurd hi (by decide)
  | version t =>
    refine readLabel_to_line (fun _ => rfl) fun hany => ?_
    obtain ⟨-, ⟨hi, -⟩ | ⟨-, hi⟩⟩ := edge_version.mp hany
    · exact absurd hi (Nat.lt_irrefl 256)
    · exact absurd hi (by decide)
  | versionCr =>
    exact readLabel_to_line (fun _ => rfl) fun hany => absurd (edge_versionCr.mp hany).2 (by decide)
  | codeCr =>
    exact readLabel_to_line (fun _ => rfl) fun hany => absurd (edge_codeCr.mp hany).2 (by decide)
  | stop =>
    have hno : ∀ i, (.stop, i) ∉ edges items := by
      intro i
      simp [mem_edges, headerEdge, requestEdge, statusEdge, prefaceEdge, doneEdge]
    exact readLabel_to_line (fun hown => absurd hown (hno _)) fun hany => absurd hany (hno _)
  | _ => exact absurd trivial hl

/-- The labels that more than two bytes are missing from. -/
theorem lacks_cases (h : 2 < lacks items l) :
    (∃ t, l = .start t ∧ t ++ lf <+: http2Preface ∧ t ++ lf ≠ http2Preface ∧
        Captures items .preface ∧ lacks items l = 3) ∨
      (l = .start afterMethod ∧ ReadsRequests items ∧ lacks items l = 4) ∨
      (l = .start statusStart ∧ Captures items .status ∧ lacks items l = 6) ∨
      (l = .target ∧ ReadsRequests items) ∨
      ∃ n, l = .code n ∧ n ∈ [1, 2, 3] ∧ Captures items .status := by
  cases l with
  | start t =>
    simp only [lacks] at h ⊢
    split at h <;> [omega; skip]
    next hend =>
    split at h
    next hpre =>
      refine .inl ⟨t, rfl, hpre.2, fun heq => hend ⟨hpre.1, heq⟩, hpre.1, ?_⟩
      rw [if_neg hend, if_pos hpre]
    next hpre =>
    split at h
    next ha =>
      obtain ⟨rfl, hr⟩ := ha
      refine .inr (.inl ⟨rfl, hr, ?_⟩)
      rw [if_neg hend, if_neg hpre, if_pos ⟨rfl, hr⟩]
    next ha =>
    split at h <;> [skip; omega]
    next hs =>
      obtain ⟨rfl, hs⟩ := hs
      refine .inr (.inr (.inl ⟨rfl, hs, ?_⟩))
      rw [if_neg hend, if_neg hpre, if_neg ha, if_pos ⟨rfl, hs⟩]
  | target =>
    simp only [lacks] at h
    split at h <;> [skip; omega]
    next hr => exact .inr (.inr (.inr (.inl ⟨rfl, hr⟩)))
  | code n =>
    simp only [lacks] at h
    split at h <;> [skip; omega]
    next hn => exact .inr (.inr (.inr (.inr ⟨n, rfl, hn.1, hn.2⟩)))
  | name t =>
    simp only [lacks] at h
    split at h <;> omega
  | lfCr =>
    simp only [lacks] at h
    omega
  | _ =>
    simp only [lacks] at h
    omega

/-- A byte takes the walk no further towards the end than by one. -/
theorem lacks_readLabel (c : UInt8) : lacks items l ≤ lacks items (readLabel items l c.toNat) + 1 := by
  have hpos := lacks_pos items (readLabel items l c.toNat)
  by_cases hle : lacks items l ≤ 2
  · omega
  rcases lacks_cases (Nat.not_le.mp hle) with ⟨t, rfl, hp, hne, hcap, h3⟩ | ⟨rfl, hr, h4⟩ |
    ⟨rfl, hs, h6⟩ | ⟨rfl, hr⟩ | ⟨n, rfl, hn, hs⟩
  · rw [h3, readLabel_preface_lf hp hne hcap]
    split
    next => rw [lacks_preface_lf hp hne]
    next hc => rw [lacks_again _ fun heq => hc (toNat_eq_lf.mp heq)]
  · rw [h4, readLabel_afterMethod hr, lacks_target hr]
  · rw [h6, readLabel_statusStart hs, lacks_code hs (by decide)]
  · rw [lacks_target hr, readLabel_target hr]
    split
    next => rfl
    next => rw [lacks_target hr]; omega
  · rw [readLabel_code hs hn]
    simp only [List.mem_cons, List.not_mem_nil, or_false] at hn
    rw [lacks_code hs (by simp; omega), lacks_code hs (by simp; omega)]
    omega

/-- Some byte does take it that far. -/
theorem Named.exists_nearer (h : Named items) (h1 : lacks items l ≠ 1) :
    ∃ c : UInt8, lacks items l = lacks items (readLabel items l c.toNat) + 1 := by
  have hpos := lacks_pos items l
  by_cases h2 : lacks items l = 2
  · refine ⟨0x0a, ?_⟩
    have hlf : (0x0a : UInt8).toNat = lfInput := rfl
    rw [h2, hlf, h.readLabel_lacks_two h2]
    rfl
  rcases lacks_cases (show 2 < lacks items l by omega) with ⟨t, rfl, hp, hne, hcap, h3⟩ |
    ⟨rfl, hr, h4⟩ | ⟨rfl, hs, h6⟩ | ⟨rfl, hr⟩ | ⟨n, rfl, hn, hs⟩
  · refine ⟨0x0a, ?_⟩
    rw [h3, readLabel_preface_lf hp hne hcap, if_pos rfl, lacks_preface_lf hp hne]
  · refine ⟨0x2f, ?_⟩
    rw [h4, readLabel_afterMethod hr, lacks_target hr]
  · refine ⟨0x32, ?_⟩
    rw [h6, readLabel_statusStart hs, lacks_code hs (by decide)]
  · refine ⟨0x20, ?_⟩
    rw [lacks_target hr, readLabel_target hr, if_pos rfl]
    rfl
  · refine ⟨0x32, ?_⟩
    rw [readLabel_code hs hn]
    simp only [List.mem_cons, List.not_mem_nil, or_false] at hn
    rw [lacks_code hs (by simp; omega), lacks_code hs (by simp; omega)]
    omega

theorem labelStep_not_done (h : Named items) (h1 : lacks items l ≠ 1) (j : Nat) (c : UInt8) :
    labelStep items j c l = (readLabel items l c.toNat, false) := by
  refine Prod.ext rfl (Bool.eq_false_iff.mpr fun hdone => ?_)
  exact h1 (h.stops_lacks.mp (labelStep_done.mp hdone)).1

/-- A walk that ends has read the bytes that were missing. -/
theorem Named.lacks_le (h : Named items) (hr : (Scan.run (labelStep items) i bytes l).1 = some n) :
    i + lacks items l ≤ n := by
  induction bytes generalizing i l with
  | nil => cases hr
  | cons c bytes ih =>
    by_cases h1 : lacks items l = 1
    · have := (Scan.run_bounds hr).1
      omega
    · have hstep := labelStep_not_done h h1 i c
      rw [Scan.run_next (by rw [hstep]), hstep] at hr
      have hle : i + 1 + lacks items (readLabel items l c.toNat) ≤ n := ih hr
      have hnext := @lacks_readLabel items l c
      omega

/-- As many bytes end it. -/
theorem Named.exists_completion (h : Named items) (i : Nat) (l : Label) :
    ∃ y : Bytes, y.length = lacks items l ∧
      (Scan.run (labelStep items) i y l).1 = some (i + lacks items l) := by
  induction hk : lacks items l using Nat.strong_induction_on generalizing i l with
  | _ k ih =>
    by_cases h1 : lacks items l = 1
    · refine ⟨lf, hk ▸ h1.symm, ?_⟩
      have hdone : (labelStep items i 0x0a l).2 = true :=
        labelStep_done.mpr (h.stops_lacks.mpr ⟨h1, rfl⟩)
      rw [← hk, h1]
      exact congrArg Prod.fst (Scan.run_done hdone)
    · obtain ⟨c, hc⟩ := h.exists_nearer h1
      have hstep := labelStep_not_done h h1 i c
      obtain ⟨y, hlen, hrun⟩ := ih _ (by omega) (i + 1) (readLabel items l c.toNat) rfl
      refine ⟨c :: y, by rw [List.length_cons]; omega, ?_⟩
      rw [Scan.run_next (by rw [hstep]), hstep, hrun]
      congr 1
      omega

/-- The header block does not end within the bytes, which leave the DFA where the label says. -/
def Reaches (items : List (Item × MatchId)) (bytes : Bytes) (l : Label) : Prop :=
  Scan.run (labelStep items) 0 bytes (.start []) = (none, l)

theorem Attached.headerEnd_none (h : Attached items rd) (hr : Reaches items bytes l) :
    headerEnd rd bytes = none := by
  rw [h.headerEnd_eq, hr]

theorem Attached.reaches (h : Attached items rd) (hend : headerEnd rd bytes = none) :
    ∃ l, Reaches items bytes l := by
  rw [h.headerEnd_eq] at hend
  exact ⟨_, Prod.ext hend rfl⟩

/-- The limit cuts no header block off: its last byte is not the one right behind the limit, and what
is missing of it fits in front of the limit. -/
structure FitsLimit (items : List (Item × MatchId)) (m x : Bytes) : Prop where
  last : maxBytes ≤ m.length → ∀ l, Reaches items (m.take maxBytes) l → lacks items l = 1 →
    (m ++ x)[maxBytes]? ≠ some 0x0a
  room : m.length < maxBytes → ∀ l, Reaches items m l → m.length + lacks items l ≤ maxBytes

theorem Attached.late_iff (h : Attached items rd) (hlen : maxBytes ≤ m.length) :
    headerEnd rd (m ++ x) = some (maxBytes + 1) ↔
      ∃ l, Reaches items (m.take maxBytes) l ∧ lacks items l = 1 ∧
        (m ++ x)[maxBytes]? = some 0x0a := by
  have hfront : (m.take maxBytes).length = maxBytes := List.length_take_of_le hlen
  have hsplit : m ++ x = m.take maxBytes ++ (m ++ x).drop maxBytes := by
    rw [← @List.take_append_of_le_length _ _ x _ hlen, List.take_append_drop]
  have hrun : ∀ l, Reaches items (m.take maxBytes) l → headerEnd rd (m ++ x) =
      (Scan.run (labelStep items) maxBytes ((m ++ x).drop maxBytes) l).1 := by
    intro l hr
    rw [h.headerEnd_eq, hsplit, Scan.run_append hr, hfront, Nat.zero_add, ← hsplit]
  constructor
  · intro hend
    have hnone : headerEnd rd (m.take maxBytes) = none := by
      cases hfirst : headerEnd rd (m.take maxBytes) with
      | none => rfl
      | some n =>
        have happ := headerEnd_append hfirst ((m ++ x).drop maxBytes)
        rw [← hsplit, hend] at happ
        cases happ
        have := headerEnd_le hfirst
        omega
    obtain ⟨l, hr⟩ := h.reaches hnone
    rw [hrun l hr] at hend
    have hle := h.named.lacks_le hend
    have hpos := lacks_pos items l
    refine ⟨l, hr, by omega, ?_⟩
    cases hrest : (m ++ x).drop maxBytes with
    | nil =>
      rw [hrest] at hend
      cases hend
    | cons c rest =>
      have hget : (m ++ x)[maxBytes]? = some c := by
        rw [← List.head?_drop, hrest]
        rfl
      rw [hrest] at hend
      cases hdone : (labelStep items maxBytes c l).2 with
      | true => rw [hget, (h.named.stops_lacks.mp (labelStep_done.mp hdone)).2]
      | false =>
        rw [Scan.run_next hdone] at hend
        have := (Scan.run_bounds hend).1
        omega
  · rintro ⟨l, hr, h1, hget⟩
    obtain ⟨hlt, hc⟩ := List.getElem?_eq_some_iff.mp hget
    rw [hrun l hr, List.drop_eq_getElem_cons hlt, hc]
    exact congrArg Prod.fst (Scan.run_done (labelStep_done.mpr (h.named.stops_lacks.mpr ⟨h1, rfl⟩)))

/-- More of a header block is asked for exactly while it can still end in front of the limit. -/
theorem Attached.completes_iff (h : Attached items rd) (hr : Reaches items m l) :
    (∃ y n, (m ++ y).length ≤ maxBytes ∧
        (parseMsg rd (wholeMsg (m ++ y) conn) pres).ret = .ok n) ↔
      m.length + lacks items l ≤ maxBytes := by
  have hrun : ∀ y, headerEnd rd (m ++ y) = (Scan.run (labelStep items) m.length y l).1 := by
    intro y
    rw [h.headerEnd_eq, Scan.run_append hr, Nat.zero_add]
  constructor
  · rintro ⟨y, n, hlen, hret⟩
    have hend := (parseMsg_whole_ok_iff.mp hret).1
    have hle := headerEnd_le hend
    rw [hrun] at hend
    have := h.named.lacks_le hend
    omega
  · intro hroom
    obtain ⟨y, hlen, hy⟩ := h.named.exists_completion m.length l
    refine ⟨y, m.length + lacks items l, by rw [List.length_append]; omega, ?_⟩
    exact parseMsg_whole_ok_iff.mpr ⟨(hrun y).trans hy, by omega⟩

/-- What is returned for the front of a header block stays once more of it has arrived, and more is
only asked for while that can still end it. -/
structure Stable (rd : Rodata) (conn : Ip4Conn) (pres : HttpParseRes) (m x : Bytes) : Prop
    extends Final rd conn pres m x where
  again : (parseMsg rd (wholeMsg m conn) pres).ret = .error .EAGAIN →
    ∃ y n, (m ++ y).length ≤ maxBytes ∧ (parseMsg rd (wholeMsg (m ++ y) conn) pres).ret = .ok n

theorem parseMsg_again_iff : (parseMsg rd (wholeMsg m conn) pres).ret = .error .EAGAIN ↔
    m.length < maxBytes ∧ headerEnd rd m = none := by
  constructor
  · intro hret
    have he := parseMsg_whole_error hret
    split at he
    · cases he
    next hlen =>
    refine ⟨Nat.not_le.mp hlen, ?_⟩
    cases hend : headerEnd rd m with
    | none => rfl
    | some n =>
      have hle := headerEnd_le hend
      rw [parseMsg_whole_ok_iff.mpr ⟨hend, by omega⟩] at hret
      cases hret
  · rintro ⟨hlen, hend⟩
    cases hret : (parseMsg rd (wholeMsg m conn) pres).ret with
    | ok n =>
      rw [(parseMsg_whole_ok_iff.mp hret).1] at hend
      cases hend
    | error e =>
      rw [parseMsg_whole_error hret, if_neg (Nat.not_le.mpr hlen)]

/-- Just that is what the code comes to where the limit cuts no header block off. -/
theorem parseMsg_stable_iff (h : Attached items rd) (conn : Ip4Conn) (pres : HttpParseRes)
    (m x : Bytes) : Stable rd conn pres m x ↔ FitsLimit items m x := by
  constructor
  · rintro ⟨hfinal, hagain⟩
    refine ⟨fun hlen l hr h1 hget => ?_, fun hlen l hr => ?_⟩
    · exact hfinal.not_late hlen ((h.late_iff hlen).mpr ⟨l, hr, h1, hget⟩)
    · exact (h.completes_iff hr).mp
        (hagain (parseMsg_again_iff.mpr ⟨hlen, h.headerEnd_none hr⟩))
  · rintro ⟨hlast, hroom⟩
    refine ⟨final_of_not_late fun hlen hend => ?_, fun hret => ?_⟩
    · obtain ⟨l, hr, h1, hget⟩ := (h.late_iff hlen).mp hend
      exact hlast hlen l hr h1 hget
    · obtain ⟨hlen, hend⟩ := parseMsg_again_iff.mp hret
      obtain ⟨l, hr⟩ := h.reaches hend
      exact (h.completes_iff hr).mpr (hroom hlen l hr)

theorem Reaches.concat (hn : Named items) (h : Reaches items bytes l) (h1 : lacks items l ≠ 1)
    (c : UInt8) : Reaches items (bytes ++ [c]) (readLabel items l c.toNat) :=
  Scan.run_concat h (labelStep_not_done hn h1 _ c)

theorem Reaches.unique {l' : Label} (h : Reaches items bytes l) (h' : Reaches items bytes l') :
    l = l' :=
  (Prod.mk.inj (h.symm.trans h')).2

theorem named_nil : Named [] := by
  rintro n ⟨m, hm⟩
  cases hm

/-- A line that nothing is captured of. -/
theorem reaches_line (k : Nat) : Reaches [] (List.replicate (k + 1) 0x61) .any := by
  have hnone : HeadersOnly [] := by
    rintro it ⟨m, hm⟩
    cases hm
  have hstart : readLabel [] (.start []) (0x61 : UInt8).toNat = .any := hnone.readLabel_start [] _
  have hany : readLabel [] .any (0x61 : UInt8).toNat = .any :=
    readLabel_again (fun he => absurd (edge_any.mp he) (by decide)) not_mem_any_any
  have hlacks : lacks [] (.start []) ≠ 1 := by
    intro hone
    exact hnone.not_stops_start [] _ ((@Named.stops_lacks [] _ 0x0a named_nil).mpr ⟨hone, rfl⟩)
  induction k with
  | zero =>
    have hfirst := Reaches.concat named_nil (show Reaches [] [] (.start []) from rfl) hlacks 0x61
    rw [hstart] at hfirst
    exact hfirst
  | succ k ih =>
    have hnext := ih.concat named_nil (by decide) 0x61
    rw [hany, ← List.replicate_succ'] at hnext
    exact hnext

theorem reaches_lineEnd (k : Nat) : Reaches [] (List.replicate (k + 1) 0x61 ++ lf) (.name []) := by
  have hlf : readLabel [] .any (0x0a : UInt8).toNat = .name [] :=
    named_nil.readLabel_lf trivial (by simp) (by simp)
  have hend := (reaches_line k).concat named_nil (by decide) 0x0a
  rw [hlf] at hend
  exact hend

theorem attached_nil : ∃ rd, Attached [] rd := by
  obtain ⟨rd, hrd, -⟩ := @attached_of_check [] [] (P := fun _ => true) (by decide) (by decide +kernel)
  exact ⟨rd, hrd⟩

def limitConn : Ip4Conn := ⟨⟨1, 1⟩, ⟨2, 2⟩⟩

/-- The last byte of a header block is the one right behind the limit; and for another block, more
bytes are asked for though it cannot end in front of the limit. -/
theorem parseMsg_unstable : ∃ rd, Attached [] rd ∧
    ¬Stable rd limitConn .zero (List.replicate (maxBytes - 1) 0x61 ++ lf) lf ∧
      ¬Stable rd limitConn .zero (List.replicate (maxBytes - 1) 0x61) [] := by
  obtain ⟨rd, hrd⟩ := attached_nil
  have hk : maxBytes - 1 = maxBytes - 2 + 1 := rfl
  have hlen : (List.replicate (maxBytes - 1) (0x61 : UInt8)).length = maxBytes - 1 :=
    List.length_replicate
  refine ⟨rd, hrd, fun h => ?_, fun h => ?_⟩
  · have hlen' : (List.replicate (maxBytes - 1) (0x61 : UInt8) ++ lf).length = maxBytes := by
      rw [List.length_append, hlen]
      rfl
    refine h.not_late (Nat.le_of_eq hlen'.symm) ((hrd.late_iff (Nat.le_of_eq hlen'.symm)).mpr
      ⟨.name [], ?_, rfl, ?_⟩)
    · rw [List.take_of_length_le (Nat.le_of_eq hlen'), hk]
      exact reaches_lineEnd _
    · rw [List.getElem?_append_right (Nat.le_of_eq hlen'), hlen', Nat.sub_self]
      rfl
  · have hr : Reaches [] (List.replicate (maxBytes - 1) 0x61) .any := hk ▸ reaches_line _
    have hret := (@parseMsg_again_iff rd (List.replicate (maxBytes - 1) 0x61) limitConn .zero).mpr
      ⟨by rw [hlen]; decide, hrd.headerEnd_none hr⟩
    have hroom := (hrd.completes_iff hr).mp (h.again hret)
    rw [hlen] at hroom
    exact absurd hroom (by decide)

/-- A header block whose last byte is the last one in front of the limit. -/
theorem parseMsg_stableTight : ∃ rd, Attached [] rd ∧
    Stable rd limitConn .zero (List.replicate (maxBytes - 2) 0x61 ++ lf) lf := by
  obtain ⟨rd, hrd⟩ := attached_nil
  have hk : maxBytes - 2 = maxBytes - 3 + 1 := rfl
  have hlen : (List.replicate (maxBytes - 2) (0x61 : UInt8) ++ lf).length = maxBytes - 1 := by
    rw [List.length_append, List.length_replicate]
    rfl
  have hlt : maxBytes - 1 < maxBytes := by decide
  refine ⟨rd, hrd, (parseMsg_stable_iff hrd limitConn .zero _ lf).mpr ⟨fun hbig => ?_, ?_⟩⟩
  · rw [hlen] at hbig
    exact absurd hbig (Nat.not_le.mpr hlt)
  · intro _ l hr
    have hl := hr.unique (hk ▸ reaches_lineEnd (maxBytes - 3))
    rw [hlen, hl]
    exact hlt

end Beeper.Http1
