import Beeper.Http1PrefaceRange

namespace Beeper.Http1

variable {items : List (Item × MatchId)} {bytes : Bytes} {rd : Rodata} {k : Nat} {m : HttpMatch}

/-- A message that starts with a request line. -/
structure RequestLine (bytes : Bytes) where
  method : Bytes
  target : Bytes
  rest : Bytes
  bytes_eq : bytes = method ++ 0x20 :: (target ++ httpVersion ++ rest)
  method_ne : method ≠ []
  isToken : ∀ c ∈ method, isTokenChar c
  target_ne : target ≠ []
  target_free : ∀ c ∈ target, c ∉ ascii " \r\n"

/-- One that starts with a status line. -/
structure StatusLine (bytes : Bytes) where
  digits : Bytes
  rest : Bytes
  bytes_eq : bytes = statusStart ++ digits ++ 0x20 :: rest
  digits_length : digits.length = 3
  isDigit : ∀ c ∈ digits, 0x30 ≤ c ∧ c ≤ 0x39

/-- The range is the `len` bytes from `off` on. -/
def Reports (m : HttpMatch) (off len : Nat) : Prop := m.idx.toNat = off ∧ m.len.toNat = len

/-- The method and the target are reported as a whole if the method is known, and not at all if it
is not. -/
structure RequestLine.Exact (r : RequestLine bytes) (method path : HttpMatch) : Prop where
  known : upper r.method ∈ methods → Reports method 0 r.method.length ∧
    Reports path (r.method.length + 1) r.target.length
  unknown : upper r.method ∉ methods → method.len = 0 ∧ path.len = 0

/-- The target of a method that is known ends within the first `k` bytes, and no method that is known
is but the front of the one that is sent. -/
structure RequestLine.Fits (r : RequestLine bytes) (k : Nat) : Prop where
  known : upper r.method ∈ methods → r.method.length + 1 + r.target.length ≤ k
  unknown : ∀ m ∈ methods, m <+: upper r.method → upper r.method ∉ methods → k < m.length

theorem rangeTo_reports {s i : Nat} (hle : s ≤ i) (hlt : i < 2 ^ 16 - 1) :
    Reports (rangeTo s i) s (i - s + 1) := by
  refine ⟨UInt16.toNat_ofNat_of_lt' (show s < 2 ^ 16 by omega), ?_⟩
  rw [rangeTo, u32Sub_of_le hle]
  exact UInt16.toNat_ofNat_of_lt' (show i - s + 1 < 2 ^ 16 by omega)

theorem not_mem_takeWhile {w z : Bytes} (h : ∀ c ∈ w, c ≠ 0x20) :
    ((w ++ 0x20 :: z).takeWhile fun c => decide (c ≠ 0x20)) = w := by
  rw [List.takeWhile_append_of_pos fun c hc => decide_eq_true (h c hc)]
  simp

theorem methods_no_space : ∀ m ∈ methods, ∀ c ∈ m, c ≠ 0x20 := by decide +kernel

/-- A method that ends in front of the first space is all of the text in front of it. -/
theorem method_of_space_prefix {m w z : Bytes} (hm : m ∈ methods) (hw : ∀ c ∈ w, c ≠ 0x20)
    (h : m ++ space <+: w ++ 0x20 :: z) : m = w := by
  obtain ⟨y, hy⟩ := h
  have hs : space = [0x20] := rfl
  rw [hs, List.append_assoc, List.singleton_append] at hy
  have hmw := congrArg (fun x : Bytes => x.takeWhile fun c => decide (c ≠ 0x20)) hy
  simp only [not_mem_takeWhile (methods_no_space m hm), not_mem_takeWhile hw] at hmw
  exact hmw

/-- One that stands in front of it is part of that text. -/
theorem method_prefix_of_space {m w z : Bytes} (hm : m ∈ methods) (h : m <+: w ++ 0x20 :: z) :
    m <+: w := by
  rcases List.prefix_or_prefix_of_prefix h (List.prefix_append w _) with hp | hp
  · exact hp
  · obtain ⟨y, rfl⟩ := hp
    rw [List.prefix_append_right_inj] at h
    cases y with
    | nil =>
      exact ⟨[], by rw [List.append_nil, List.append_nil]⟩
    | cons c y =>
      have hc := (List.cons_prefix_cons.mp h).1
      exact absurd hc (methods_no_space _ hm c (by simp))

theorem upper_take (n : Nat) (w : Bytes) : upper (w.take n) = (upper w).take n := List.map_take

theorem upper_not_space {w : Bytes} (h : ∀ c ∈ w, c ≠ 0x20) : ∀ c ∈ upper w, c ≠ 0x20 := by
  intro c hc
  obtain ⟨d, hd, rfl⟩ := List.mem_map.mp hc
  exact fun heq => h d hd (upperByte_space.mp heq)

variable (r : RequestLine bytes)

theorem RequestLine.no_space : ∀ c ∈ r.method, c ≠ 0x20 := by
  rintro c hc rfl
  have := r.isToken _ hc
  exact absurd this (by decide)

theorem RequestLine.upper_eq : ∃ z, upper bytes = upper r.method ++ 0x20 :: z := by
  refine ⟨upper (r.target ++ httpVersion ++ r.rest), ?_⟩
  conv_lhs => rw [r.bytes_eq]
  exact upper_append _ _

/-- Of an unknown method, no target is read. -/
theorem RequestLine.pathRange_unknown (h : upper r.method ∉ methods) (k : Nat) :
    pathRange 0 (bytes.take k) = .zero := by
  refine pathRange_none fun m hm hp => h ?_
  obtain ⟨z, hz⟩ := r.upper_eq
  rw [upper_take, hz] at hp
  rw [← method_of_space_prefix hm (upper_not_space r.no_space) (hp.trans (List.take_prefix _ _))]
  exact hm

/-- What is read as the method. -/
theorem RequestLine.method_prefix {m : Bytes} (hm : m ∈ methods) :
    m <+: upper (bytes.take k) ↔ m <+: upper r.method ∧ m.length ≤ k := by
  obtain ⟨z, hz⟩ := r.upper_eq
  rw [upper_take, hz]
  constructor
  · intro h
    refine ⟨method_prefix_of_space hm (h.trans (List.take_prefix _ _)), ?_⟩
    exact h.length_le.trans (List.length_take_le _ _)
  · rintro ⟨h, hle⟩
    exact List.prefix_take_iff.mpr ⟨h.trans (List.prefix_append _ _), hle⟩

theorem methodRange_len {m : Bytes} (hm : m ∈ methods) (h : m <+: upper bytes) :
    Reports (methodRange 0 bytes) 0 m.length := by
  have hpos : 0 < m.length ∧ m.length ≤ 7 := by
    have hall : ∀ m ∈ methods, 0 < m.length ∧ m.length ≤ 7 := by decide +kernel
    exact hall m hm
  rw [methodRange_of hm h]
  have hr := @rangeTo_reports 0 (0 + m.length - 1) (Nat.zero_le _) (by omega)
  have hlen : 0 + m.length - 1 - 0 + 1 = m.length := by omega
  rwa [hlen] at hr

/-- A range of a target ends within what was read. -/
theorem pathRange_bounds (bytes : Bytes) : pathRange 0 bytes = .zero ∨
    ∃ s i, pathRange 0 bytes = rangeTo s i ∧ s ≤ i ∧ i < bytes.length := by
  unfold pathRange
  split
  next m hm =>
    split
    next c target hdrop =>
      right
      refine ⟨_, _, rfl, Nat.le_add_right _ _, ?_⟩
      have hlen := congrArg List.length hdrop
      rw [List.length_drop, List.length_cons] at hlen
      have hle := (List.takeWhile_prefix (l := target) fun c => decide (c ≠ 0x20)).length_le
      omega
    next => exact .inl rfl
  next => exact .inl rfl

theorem RequestLine.path_reports (h : upper r.method ∈ methods)
    (hle : r.method.length + 1 + r.target.length ≤ k) (hk : k < 2 ^ 16) :
    Reports (pathRange 0 (bytes.take k)) (r.method.length + 1) r.target.length := by
  obtain ⟨c, tgt, htarget⟩ := List.exists_cons_of_ne_nil r.target_ne
  have hlen := congrArg List.length htarget
  rw [List.length_cons] at hlen
  have hfree : ∀ d ∈ tgt, d ≠ 0x20 := by
    rintro d hd rfl
    refine r.target_free 0x20 ?_ (by decide)
    rw [htarget]
    exact List.mem_cons_of_mem _ hd
  -- what follows the target within the first `k` bytes starts with a space
  have hsplit : ∃ z, bytes.take k = r.method ++ 0x20 :: c :: (tgt ++ z) ∧
      ∀ d ∈ z.head?, d = 0x20 := by
    have heq : bytes = (r.method ++ 0x20 :: r.target) ++ (httpVersion ++ r.rest) := by
      conv_lhs => rw [r.bytes_eq]
      simp
    have hfront : (r.method ++ 0x20 :: r.target).length ≤ k := by
      rw [List.length_append, List.length_cons]
      omega
    refine ⟨(httpVersion ++ r.rest).take (k - (r.method ++ 0x20 :: r.target).length), ?_, ?_⟩
    · conv_lhs => rw [heq, List.take_append, List.take_of_length_le hfront, htarget]
      simp [htarget]
    · intro d hd
      rw [List.head?_take] at hd
      split at hd
      next => cases hd
      next => exact (Option.some.inj hd).symm
  obtain ⟨z, hz, hhead⟩ := hsplit
  rw [hz, pathRange_target h]
  have htake : ((tgt ++ z).takeWhile fun c => decide (c ≠ 0x20)) = tgt := by
    rw [List.takeWhile_append_of_pos fun d hd => decide_eq_true (hfree d hd)]
    cases z with
    | nil => simp
    | cons d z =>
      obtain rfl := hhead d rfl
      simp
  rw [htake]
  have hr := @rangeTo_reports (0 + r.method.length + 1) (0 + r.method.length + 1 + tgt.length)
    (Nat.le_add_right _ _) (by omega)
  have hone : 0 + r.method.length + 1 = r.method.length + 1 := by omega
  have hsub : r.method.length + 1 + tgt.length - (r.method.length + 1) + 1 = r.target.length := by omega
  rw [hone, hsub] at hr
  rw [hone]
  exact hr

/-- The captures of a request are exact exactly if the walk reads far enough, and the method is known
as a whole. -/
theorem RequestLine.exact_iff (hk : k < 2 ^ 16) :
    r.Exact (methodRange 0 (bytes.take k)) (pathRange 0 (bytes.take k)) ↔ r.Fits k := by
  have hpos : 0 < r.target.length := List.length_pos_iff.mpr r.target_ne
  by_cases hm : upper r.method ∈ methods
  · constructor
    · intro h
      refine ⟨fun _ => ?_, fun _ _ _ hno => absurd hm hno⟩
      obtain ⟨hidx, hlen⟩ := (h.known hm).2
      rcases pathRange_bounds (bytes.take k) with hzero | ⟨s, i, heq, hsi, hi⟩
      · rw [hzero] at hlen
        have hz : HttpMatch.zero.len.toNat = 0 := rfl
        omega
      · have hle := List.length_take_le k bytes
        obtain ⟨hs, hl⟩ := @rangeTo_reports s i hsi (by omega)
        rw [heq] at hidx hlen
        omega
    · intro h
      have hle := h.known hm
      have hp := (r.method_prefix hm).mpr ⟨List.prefix_refl _, show (upper r.method).length ≤ k by
        rw [upper_length]; omega⟩
      have hmethod := methodRange_len hm hp
      rw [upper_length] at hmethod
      exact ⟨fun _ => ⟨hmethod, r.path_reports hm hle hk⟩, fun hno => absurd hm hno⟩
  · have hzero := r.pathRange_unknown hm k
    constructor
    · intro h
      refine ⟨fun hyes => absurd hyes hm, fun m hmem hp _ => ?_⟩
      by_contra hge
      have hr := (methodRange_len hmem ((r.method_prefix hmem).mpr ⟨hp, Nat.le_of_not_lt hge⟩)).2
      rw [(h.unknown hm).1] at hr
      have hlen : ∀ m ∈ methods, m.length ≠ 0 := by decide +kernel
      exact hlen m hmem hr.symm
    · intro h
      refine ⟨fun hyes => absurd hyes hm, fun _ => ⟨?_, by rw [hzero]; rfl⟩⟩
      rw [methodRange_none fun m hmem hp => ?_]
      · rfl
      · obtain ⟨hp, hle⟩ := (r.method_prefix hmem).mp hp
        exact absurd (h.unknown m hmem hp hm) (Nat.not_lt.mpr hle)

theorem StatusLine.range (s : StatusLine bytes) (h : 12 ≤ k) :
    Reports (statusRange 0 (bytes.take k)) 9 3 := by
  have hup : upper statusStart = statusStart := by decide
  have hlen : 12 ≤ bytes.length := by
    rw [s.bytes_eq, List.length_append, List.length_append, s.digits_length, statusStart_length]
    omega
  have hp : statusStart <+: upper (bytes.take k) := by
    rw [upper_take, List.prefix_take_iff, statusStart_length]
    refine ⟨?_, by omega⟩
    rw [s.bytes_eq, List.append_assoc, upper_append, hup]
    exact List.prefix_append _ _
  rw [statusRange, if_pos ⟨hp, by rw [List.length_take]; omega⟩]
  exact rangeTo_reports (by omega) (by omega)

theorem statusRange_short (h : k < 12) : statusRange 0 (bytes.take k) = .zero := by
  refine if_neg fun hp => ?_
  have hle := List.length_take_le k bytes
  omega

/-- The token of a request cannot hold the slash of a version. -/
theorem RequestLine.no_status (r : RequestLine bytes) : statusRange 0 (bytes.take k) = .zero := by
  refine if_neg fun hp => ?_
  have hfull : statusStart <+: upper bytes := by
    have h := hp.1
    rw [upper_take] at h
    exact h.trans (List.take_prefix _ _)
  obtain ⟨z, hz⟩ := r.upper_eq
  rw [hz] at hfull
  have hsplit : statusStart = ascii "HTTP/1.1" ++ 0x20 :: [] := by decide
  obtain ⟨y, hy⟩ := hfull
  rw [hsplit, List.append_assoc, List.cons_append] at hy
  have hno : ∀ c ∈ ascii "HTTP/1.1", c ≠ 0x20 := by decide +kernel
  have heq := congrArg (fun x : Bytes => x.takeWhile fun c => decide (c ≠ 0x20)) hy
  simp only [not_mem_takeWhile hno, not_mem_takeWhile (upper_not_space r.no_space)] at heq
  have hmem : (0x2f : UInt8) ∈ upper r.method := by
    rw [← heq]
    decide
  obtain ⟨c, hc, hcu⟩ := List.mem_map.mp hmem
  have hslash : c = 0x2f := by
    rw [upperByte_eq_iff] at hcu
    rw [← UInt8.toNat_inj]
    have h2f : (0x2f : UInt8).toNat = 47 := rfl
    omega
  have := r.isToken c hc
  rw [hslash] at this
  exact absurd this (by decide)

/-- What is captured of the start line is exact. -/
structure StartExact (items : List (Item × MatchId)) (bytes : Bytes) (pres : HttpParseRes) : Prop where
  request : ∀ mm mp, (.method, mm) ∈ items → (.path, mp) ∈ items → ∀ r : RequestLine bytes,
    r.Exact (pres.get mm) (pres.get mp)
  status : ∀ m, (.status, m) ∈ items → StatusLine bytes → Reports (pres.get m) 9 3
  noStatus : ∀ m, (.status, m) ∈ items → RequestLine bytes → (pres.get m).len = 0

/-- The first `k` bytes hold what is captured of the start line, and a method that is known. -/
structure StartFits (items : List (Item × MatchId)) (bytes : Bytes) (k : Nat) : Prop where
  request : Captures items .method → Captures items .path → ∀ r : RequestLine bytes, r.Fits k
  status : Captures items .status → StatusLine bytes → 12 ≤ k

theorem walk_startExact_iff (h : Attached items rd) (hk : k < 2 ^ 16) :
    StartExact items bytes (walk rd 0 (bytes.take k) (.start .zero)).2.pres ↔
      StartFits items bytes k := by
  have hmethod : ∀ m, (.method, m) ∈ items →
      (walk rd 0 (bytes.take k) (.start .zero)).2.pres.get m = methodRange 0 (bytes.take k) :=
    fun m hm => (h.walk_view hm 0 _).2.trans (method_run (.inl ⟨m, hm⟩) 0 _)
  have hpath : ∀ m, (.path, m) ∈ items →
      (walk rd 0 (bytes.take k) (.start .zero)).2.pres.get m = pathRange 0 (bytes.take k) :=
    fun m hm => (h.walk_view hm 0 _).2.trans (path_run (.inr ⟨m, hm⟩) 0 _)
  have hstatus : ∀ m, (.status, m) ∈ items →
      (walk rd 0 (bytes.take k) (.start .zero)).2.pres.get m = statusRange 0 (bytes.take k) :=
    fun m hm => (h.walk_view hm 0 _).2.trans (status_run ⟨m, hm⟩ 0 _)
  constructor
  · intro hx
    refine ⟨?_, ?_⟩
    · rintro ⟨mm, hmm⟩ ⟨mp, hmp⟩ r
      have hr := hx.request mm mp hmm hmp r
      rwa [hmethod mm hmm, hpath mp hmp, r.exact_iff hk] at hr
    · rintro ⟨m, hm⟩ s
      by_contra hlt
      have hr := (hx.status m hm s).2
      rw [hstatus m hm, statusRange_short (by omega)] at hr
      exact absurd hr (by decide)
  · intro hf
    refine ⟨fun mm mp hmm hmp r => ?_, fun m hm s => ?_, fun m hm r => ?_⟩
    · rw [hmethod mm hmm, hpath mp hmp, r.exact_iff hk]
      exact hf.request ⟨mm, hmm⟩ ⟨mp, hmp⟩ r
    · rw [hstatus m hm]
      exact s.range (hf.status ⟨m, hm⟩ s)
    · rw [hstatus m hm, r.no_status]
      rfl

theorem reach_le (msg : SkMsg) : reach msg ≤ maxBytes + 1 := by
  unfold reach
  split <;> [skip; split] <;> omega

/-- The captures of the start line are exact exactly if the walk reads far enough, and no method that
is known is but the front of the one that is sent. -/
theorem parse_startExact_iff (h : Attached items rd) :
    (∀ msg : SkMsg, msg.pullable → (StartExact items msg.bytes (parseMsg rd msg .zero).pres ↔
      StartFits items msg.bytes (reach msg))) ∧
    ∀ skb : SkBuff, skb.pullable → (StartExact items skb.bytes (parseSkb rd skb 0 .zero none).pres ↔
      StartFits items skb.bytes (maxBytes + 1)) := by
  constructor
  · intro msg hp
    rw [(parseMsg_eq rd .zero hp).2]
    have hle := reach_le msg
    exact walk_startExact_iff h (by unfold maxBytes at hle; omega)
  · intro skb hp
    by_cases hlen : 0 < skb.bytes.length
    · rw [(parseSkb_eq rd .zero hp (by decide) hlen).2, List.drop_zero]
      exact walk_startExact_iff h (by decide)
    · have hnil : skb.bytes = [] := List.length_eq_zero_iff.mp (by omega)
      rw [hnil]
      have hr : RequestLine [] → False := fun r => by
        have := r.bytes_eq
        simp at this
      have hs : StatusLine [] → False := fun s => by
        have := congrArg List.length s.bytes_eq
        simp at this
      exact iff_of_true ⟨fun _ _ _ _ r => (hr r).elim, fun _ _ s => (hs s).elim,
        fun _ _ r => (hr r).elim⟩ ⟨fun _ _ r => (hr r).elim, fun _ s => (hs s).elim⟩

/-- The captures of a parser of the method and of the path. -/
def startItems : List (Item × MatchId) := [(.path, 1), (.method, 0)]

/-- A method that only starts with one that is known. -/
def getX : Bytes := ascii "GETX / HTTP/1.1\r\n\r\n"

theorem attached_start : ∃ rd, Attached startItems rd ∧
    (parseMsg rd (wholeMsg getX ⟨⟨1, 1⟩, ⟨2, 2⟩⟩) .zero).pres.get 0 = ⟨0, 3, .msg, false⟩ := by
  have hvalid : ValidCalls [.captureHdr pseudoPath, .captureHdr pseudoMethod] := by decide +kernel
  obtain ⟨rd, hrd, hcheck⟩ := @attached_of_check
    [.captureHdr pseudoPath, .captureHdr pseudoMethod] startItems
    (P := fun rd => decide
      ((parseMsg rd (wholeMsg getX ⟨⟨1, 1⟩, ⟨2, 2⟩⟩) .zero).pres.get 0 = ⟨0, 3, .msg, false⟩))
    hvalid (by decide +kernel)
  exact ⟨rd, hrd, of_decide_eq_true hcheck⟩

theorem parseMsg_getX : ∃ rd, Attached startItems rd ∧ ¬StartExact startItems getX
    (parseMsg rd (wholeMsg getX ⟨⟨1, 1⟩, ⟨2, 2⟩⟩) .zero).pres := by
  obtain ⟨rd, hrd, hget⟩ := attached_start
  refine ⟨rd, hrd, fun hx => ?_⟩
  have hr := hx.request 0 1 (by decide) (by decide)
    ⟨ascii "GETX", ascii "/", ascii "\r\n\r\n", by decide, by decide, by decide +kernel, by decide,
      by decide +kernel⟩
  have hlen := (hr.unknown (by decide +kernel)).1
  rw [hget] at hlen
  exact absurd hlen (by decide)

theorem parse_startExact_get : ∃ rd, Attached startItems rd ∧
    (∀ msg : SkMsg, msg.pullable → (StartExact startItems msg.bytes (parseMsg rd msg .zero).pres ↔
      StartFits startItems msg.bytes (reach msg))) ∧
    ∀ skb : SkBuff, skb.pullable →
      (StartExact startItems skb.bytes (parseSkb rd skb 0 .zero none).pres ↔
        StartFits startItems skb.bytes (maxBytes + 1)) := by
  obtain ⟨rd, hrd, -⟩ := attached_start
  exact ⟨rd, hrd, parse_startExact_iff hrd⟩

end Beeper.Http1
