import Beeper.SkbOffset
import Beeper.Verdict
import Beeper.Cork

namespace Beeper.Prog

open Http2 (FrameHead Continuation Fragmented Whole Framed byteAt hdrLen hdrType hdrFlags
  http2FrameHdrLen http2HeadersFrame http2ContinuationFrame http2EndHeadersFlag)

variable {bytes m pre post x : Bytes} {off o k rounds : Nat}

section Loop

theorem hdr_append_left (x : Bytes) (h : o + 5 ≤ bytes.length) :
    hdrLen (bytes ++ x) o = hdrLen bytes o ∧ hdrType (bytes ++ x) o = hdrType bytes o ∧
      hdrFlags (bytes ++ x) o = hdrFlags bytes o := by
  have hbyte : ∀ i < 5, byteAt (bytes ++ x) (o + i) = byteAt bytes (o + i) := fun i hi =>
    Http2.byteAt_append_left bytes x (by omega)
  refine ⟨?_, hbyte 3 (by omega), hbyte 4 (by omega)⟩
  unfold hdrLen
  rw [hbyte 1 (by omega), hbyte 2 (by omega)]
  have h0 := hbyte 0 (by omega)
  rw [Nat.add_zero] at h0
  rw [h0]

/-- What arrives behind a message that was found does not change where it ends. -/
theorem h2MsgLenLoop_extend (x : Bytes) (h : h2MsgLenLoop bytes off rounds k o ≠ 0) :
    h2MsgLenLoop (bytes ++ x) off rounds k o = h2MsgLenLoop bytes off rounds k o := by
  induction rounds generalizing k o with
  | zero => rfl
  | succ rounds ih =>
    by_cases hl : loads bytes o 5 = true
    · have hlen : o + 5 ≤ bytes.length := by
        simp only [loads, Bool.and_eq_true, decide_eq_true_eq] at hl
        exact hl.2
      have hlx : loads (bytes ++ x) o 5 = true := by
        simp only [loads, Bool.and_eq_true, decide_eq_true_eq, List.length_append] at hl ⊢
        omega
      obtain ⟨hlen', htype, hflags⟩ := hdr_append_left x hlen
      unfold h2MsgLenLoop at h ⊢
      simp only [hl, hlx, Bool.not_true, Bool.false_eq_true, if_false, hlen', htype, hflags] at h ⊢
      split
      · rfl
      · split
        · rfl
        · next hbreak hend =>
          rw [if_neg hbreak, if_neg hend] at h
          exact ih h
    · unfold h2MsgLenLoop at h
      simp only [Bool.not_eq_true] at hl
      rw [hl] at h
      exact absurd rfl h

variable {h : FrameHead} {payload : Bytes}

/-- A round of the loop at a frame. -/
theorem h2MsgLenLoop_frame (h : FrameHead) (pre post : Bytes) (hl : payload.length < 2 ^ 24)
    (hpre : pre.length ≤ 2 ^ 31 - 1) :
    h2MsgLenLoop (pre ++ (h.frame payload ++ post)) off (rounds + 1) k pre.length =
      if 0 < k ∧ h.type.toNat ≠ 0x9 then pre.length - off
      else if (k = 0 ∧ h.type.toNat ≠ 0x1) ∨ h.flags.toNat &&& 0x4 ≠ 0 then
        (pre ++ h.frame payload).length - off
      else h2MsgLenLoop (pre ++ (h.frame payload ++ post)) off rounds (k + 1)
        (pre ++ h.frame payload).length := by
  have hframe := Http2.newHttp2Frame_at h pre post hl
  have hlen : hdrLen (pre ++ (h.frame payload ++ post)) pre.length = payload.length :=
    congrArg Http2.Http2Frame.len hframe
  have htype : hdrType (pre ++ (h.frame payload ++ post)) pre.length = h.type.toNat :=
    congrArg Http2.Http2Frame.type hframe
  have hflags : hdrFlags (pre ++ (h.frame payload ++ post)) pre.length = h.flags.toNat :=
    congrArg Http2.Http2Frame.flags hframe
  have hload : loads (pre ++ (h.frame payload ++ post)) pre.length 5 = true := by
    simp only [loads, List.length_append, FrameHead.frame_length, Bool.and_eq_true,
      decide_eq_true_eq]
    unfold http2FrameHdrLen
    omega
  have hnext : (pre ++ h.frame payload).length =
      pre.length + (http2FrameHdrLen + payload.length) := by
    rw [List.length_append, FrameHead.frame_length]
  rw [hnext]
  conv => lhs; unfold h2MsgLenLoop
  simp only [hload, hlen, htype, hflags, Bool.not_true, Bool.false_eq_true, if_false]

/-- The frames that carry on a block. -/
theorem h2MsgLenLoop_continuations {sid : Nat} (cs : List Continuation) {last : Continuation}
    (hcs : ∀ c ∈ cs, c.Continues sid false) (hlast : last.Continues sid true)
    (hrounds : cs.length < rounds) (hk : 0 < k) (pre post : Bytes)
    (hsize : (pre ++ ((cs ++ [last]).map Continuation.bytes).flatten).length ≤ maxBytes) :
    h2MsgLenLoop (pre ++ (((cs ++ [last]).map Continuation.bytes).flatten ++ post)) off rounds k
      pre.length = (pre ++ ((cs ++ [last]).map Continuation.bytes).flatten).length - off := by
  induction cs generalizing pre k rounds with
  | nil =>
    obtain ⟨r, rfl⟩ : ∃ r, rounds = r + 1 := ⟨rounds - 1, by omega⟩
    obtain ⟨htype, -, hflags⟩ := hlast
    simp only [List.nil_append, List.map_cons, List.map_nil, List.flatten_cons, List.flatten_nil,
      List.append_nil, Continuation.bytes] at hsize ⊢
    have hlen := hsize
    rw [List.length_append, FrameHead.frame_length] at hlen
    unfold maxBytes at hlen
    rw [h2MsgLenLoop_frame last.head pre post (by omega) (by omega),
      if_neg fun hc => hc.2 htype, if_pos (.inr (hflags.mpr rfl))]
  | cons c cs ih =>
    obtain ⟨r, rfl⟩ : ∃ r, rounds = r + 1 := ⟨rounds - 1, by omega⟩
    obtain ⟨htype, -, hflags⟩ := hcs c List.mem_cons_self
    have hopen : c.head.flags.toNat &&& 0x4 = 0 := by
      by_contra hne
      exact absurd (hflags.mp hne) Bool.false_ne_true
    simp only [List.cons_append, List.map_cons, List.flatten_cons, List.append_assoc,
      Continuation.bytes] at hsize ⊢
    have hlen := hsize
    rw [List.length_append, List.length_append, FrameHead.frame_length] at hlen
    unfold maxBytes at hlen
    rw [h2MsgLenLoop_frame c.head pre _ (by omega) (by omega), if_neg fun hc => hc.2 htype, if_neg]
    · rw [← List.append_assoc] at hsize ⊢
      rw [ih (fun d hd => hcs d (List.mem_cons_of_mem _ hd))
        (by rw [List.length_cons] at hrounds; omega) (Nat.succ_pos k) _ hsize, List.append_assoc]
    · rintro (⟨h0, -⟩ | hend)
      · omega
      · exact hend hopen

end Loop

/-- A message as the stream parser is to cut it out: a frame, or a header block of whole
representations along with all of its frames, of which there are not too many. -/
structure OfStream (m : Bytes) : Prop where
  framed : Framed m
  few : ∀ g : Fragmented, m = g.bytes → g.middle.length < maxContinuations
  size : m.length ≤ maxBytes

/-- The first round, at the frame a message starts with. -/
theorem h2MsgLen_first (h : FrameHead) {payload : Bytes} (post : Bytes)
    (hl : payload.length < 2 ^ 24) :
    h2MsgLen (h.frame payload ++ post) 0 =
      if h.type.toNat ≠ 0x1 ∨ h.flags.toNat &&& 0x4 ≠ 0 then (h.frame payload).length
      else h2MsgLenLoop (h.frame payload ++ post) 0 maxContinuations 1 (h.frame payload).length := by
  have hround := @h2MsgLenLoop_frame 0 0 maxContinuations payload h [] post hl (by simp)
  simp only [List.nil_append, List.length_nil, Nat.lt_irrefl, false_and, if_false, true_and,
    Nat.sub_zero, Nat.zero_add] at hround
  exact hround

/-- The stream parser ends a message where its frames end, whatever has arrived behind them. -/
theorem OfStream.cut (hm : OfStream m) (post : Bytes) : h2MsgLen (m ++ post) 0 = m.length := by
  obtain ⟨hframed, hfew, hsize⟩ := hm
  unfold maxBytes at hsize
  cases hframed with
  | other h payload ht =>
    have hlen := hsize
    rw [FrameHead.frame_length] at hlen
    rw [h2MsgLen_first h post (by omega), if_pos (.inl ht)]
  | block b hsid hc =>
    cases b with
    | whole w =>
      have hlen := hsize
      simp only [Http2.Sent.bytes, w.bytes_length] at hlen
      exact (h2MsgLen_first w.head post (by omega)).trans (if_pos (.inr w.head_flags))
    | cut g =>
      have hfew' := hfew g rfl
      simp only [Http2.Sent.bytes, Fragmented.bytes] at hsize ⊢
      have hlen := hsize
      rw [List.length_append, Fragmented.headers, FrameHead.frame_length] at hlen
      have hopen : ¬(g.head.type.toNat ≠ 0x1 ∨ g.head.flags.toNat &&& 0x4 ≠ 0) := by
        rintro (hne | hend)
        · exact hne g.head_type
        · exact hend g.head_flags
      rw [List.append_assoc]
      refine (h2MsgLen_first g.head _ (by omega)).trans ?_
      rw [if_neg hopen]
      exact h2MsgLenLoop_continuations g.middle g.middle_continues g.last_continues hfew'
        Nat.one_pos g.headers post hsize

theorem OfStream.length_pos (hm : OfStream m) : 0 < m.length := by
  cases hm.framed with
  | other h payload ht =>
    rw [FrameHead.frame_length]
    unfold http2FrameHdrLen
    omega
  | block b hsid hc => exact b.length_pos

section Cut

variable {s : State} {conn : Ip4Conn}

theorem skbParser_upgraded {skb : SkBuff} (hup : (s.upgradedConns.lookup skb.conn).isSome)
    (off : Nat) : skbParser s skb off = h2MsgLen skb.bytes off := by
  obtain ⟨flag, hflag⟩ := Option.isSome_iff_exists.mp hup
  unfold skbParser
  rw [hflag]
  split
  · have hload : loads skb.bytes off 5 = false := by
      simp only [loads, Bool.and_eq_false_iff, decide_eq_false_iff_not]
      omega
    unfold h2MsgLen h2MsgLenLoop
    rw [hload]
    rfl
  · rfl

theorem linear_whole (bytes : Bytes) : bytes.length ≤ bytes.length := Nat.le_refl _

/-- What has arrived on a connection, linear as a whole. -/
def arrivedSkb (bytes : Bytes) (conn : Ip4Conn) : SkBuff :=
  ⟨bytes, bytes.length, conn, true, linear_whole bytes⟩

/-- The kernel runs the stream parser on what has arrived and not been cut out yet, and cuts the
message out once there is as much of it as the parser says. -/
def cutTurn (s : State) (conn : Ip4Conn) (_ : Unit) (bytes : Bytes) : Cork.Turn Unit Bytes :=
  let len := skbParser s (arrivedSkb bytes conn) 0
  if len = 0 then .wait (bytes.length + 1) ()
  else if bytes.length < len then .wait len ()
  else .take (bytes.take len) len ()

theorem cutTurn_eq (hup : (s.upgradedConns.lookup conn).isSome) (bytes : Bytes) :
    cutTurn s conn () bytes =
      if h2MsgLen bytes 0 = 0 then .wait (bytes.length + 1) ()
      else if bytes.length < h2MsgLen bytes 0 then .wait (h2MsgLen bytes 0) ()
      else .take (bytes.take (h2MsgLen bytes 0)) (h2MsgLen bytes 0) () := by
  unfold cutTurn
  rw [skbParser_upgraded hup]
  rfl

theorem h2MsgLen_extend (x : Bytes) (h : h2MsgLen bytes off ≠ 0) :
    h2MsgLen (bytes ++ x) off = h2MsgLen bytes off :=
  h2MsgLenLoop_extend x h

theorem cutTurn_stable (hup : (s.upgradedConns.lookup conn).isSome) :
    Cork.Stable (cutTurn s conn) fun _ _ => True where
  refl _ := trivial
  nil u := by
    refine ⟨1, (), ?_⟩
    rw [cutTurn_eq hup]
    rfl
  wait := by
    intro u m need u' h
    rw [cutTurn_eq hup] at h
    split at h
    · cases h
      exact ⟨Nat.lt_succ_self _, trivial⟩
    · split at h
      · cases h
        exact ⟨by assumption, trivial⟩
      · cases h
  again := by
    intro u v m need u' x _ h hlt
    rw [cutTurn_eq hup] at h
    refine ⟨(), ?_⟩
    split at h
    · next hz =>
      cases h
      rw [List.length_append] at hlt
      have hx : x = [] := List.length_eq_zero_iff.mp (by omega)
      rw [hx, List.append_nil, cutTurn_eq hup, if_pos hz]
    · next hz =>
      split at h
      · cases h
        rw [cutTurn_eq hup, h2MsgLen_extend x hz, if_neg hz, if_pos hlt]
      · cases h
  take := by
    intro u v m out len u' x _ h
    rw [cutTurn_eq hup] at h
    split at h
    · cases h
    · next hz =>
      split at h
      · cases h
      · next hlen =>
        cases h
        refine ⟨Nat.pos_of_ne_zero hz, (), trivial, ?_⟩
        have hx : ¬(m ++ x).length < h2MsgLen m 0 := by
          rw [List.length_append]
          omega
        rw [cutTurn_eq hup, h2MsgLen_extend x hz, if_neg hz, if_neg hx,
          List.take_append_of_le_length (Nat.not_lt.mp hlen)]
  fail := by
    intro u v m out u' x _ h
    rw [cutTurn_eq hup] at h
    split at h
    · cases h
    · split at h <;> cases h

/-- A stream of messages is cut into them. -/
theorem results_cut (hup : (s.upgradedConns.lookup conn).isSome) {ms : List Bytes}
    (hms : ∀ m ∈ ms, OfStream m) (hr : ms.flatten.length < rounds) :
    Cork.results (cutTurn s conn) rounds () ms.flatten = ms := by
  induction ms generalizing rounds with
  | nil =>
    obtain ⟨r, rfl⟩ : ∃ r, rounds = r + 1 := ⟨rounds - 1, by omega⟩
    unfold Cork.results
    rw [List.flatten_nil, cutTurn_eq hup]
    rfl
  | cons m ms ih =>
    obtain ⟨r, rfl⟩ : ∃ r, rounds = r + 1 := ⟨rounds - 1, by omega⟩
    have hm := hms m List.mem_cons_self
    have hpos := hm.length_pos
    have hturn : cutTurn s conn () (m ++ ms.flatten) = .take m m.length () := by
      rw [cutTurn_eq hup, hm.cut, if_neg (by omega), if_neg (by rw [List.length_append]; omega),
        List.take_left]
    rw [List.flatten_cons, List.length_append] at hr
    rw [List.flatten_cons, Cork.results_take hturn, List.drop_left,
      ih (fun d hd => hms d (List.mem_cons_of_mem _ hd)) (by omega)]

/-- However it arrives. -/
theorem feedAll_cut (hup : (s.upgradedConns.lookup conn).isSome) {ms chunks : List Bytes}
    (hms : ∀ m ∈ ms, OfStream m) (hc : chunks.flatten = ms.flatten) :
    Cork.feedAll (cutTurn s conn) (.start ()) chunks = ms := by
  rw [(cutTurn_stable hup).feedAll_eq, hc]
  exact results_cut hup hms (Nat.lt_succ_self _)

end Cut

end Beeper.Prog
