import Beeper.CorkMessage
import Beeper.SkbOffset

namespace Beeper.Http2

variable {rd : Rodata} {maps maps' : Maps} {skb : SkBuff} {conn : Ip4Conn}
  {m pre post payload tail : Bytes} {h : FrameHead} {frame frame' : Http2Frame} {off n : Nat}

/-- What stands in front of a message, up to an offset behind it. -/
theorem take_around (hn : pre.length + m.length ≤ n) : (pre ++ (m ++ post)).take n =
    pre ++ (m ++ post.take (n - pre.length - m.length)) := by
  rw [List.take_append, List.take_of_length_le (by omega), List.take_append,
    List.take_of_length_le (by omega)]

section Whole

/-- A message that starts with a frame that has arrived is only found to lack bytes while its block
is put together. -/
theorem parseLinear_arrived (h9 : http2FrameHdrLen ≤ m.length)
    (hs : http2FrameHdrLen + (newHttp2Frame m 0).len ≤ m.length)
    (hagain : (parseLinear rd maps conn true frame m).ret = .error .EAGAIN) :
    ((newHttp2Frame m 0).type = http2HeadersFrame ∧
        (newHttp2Frame m 0).flags &&& http2EndHeadersFlag = 0) ∧
      (collectBlock (m.take (min m.length maxBytes)) 0 maps.blockBuf).ret = .error .EAGAIN := by
  rw [parseLinear_eq h9] at hagain
  generalize newHttp2Frame m 0 = f at *
  by_cases hv : violatesBlockRules f.type f.sid
  · rw [parseMsgFrame_reject hv, rejectFrame, if_pos (show http2FrameHdrLen + f.len ≤
      (linearMsg m conn true).bytes.length from hs)] at hagain
    cases hagain
  by_cases hp : isParsedFrame f.type f.flags
  swap
  · rw [parseMsgFrame_skip hv hp] at hagain
    cases hagain
  by_cases hb : f.type = http2HeadersFrame ∧ f.flags &&& http2EndHeadersFlag = 0
  · obtain ⟨msg', -, hmsg⟩ := linear_pulled rd maps conn rfl h9 hv hs hb
    rw [hmsg] at hagain
    exact ⟨hb, (parseBlock_again rd maps _ 0 f none .zero (neverRead_again hagain).1).1⟩
  · obtain ⟨msg', -, hmsg⟩ := linear_whole rd maps conn rfl hv hp hs hb
    rw [hmsg] at hagain
    exact absurd (map_again hagain) (parseFrame_not_again rd maps _ 0 f.len f.type f.flags .zero f)

/-- The first frame of a message. What follows it is a part of the block it does not end. -/
structure Starts (h : FrameHead) (payload tail m : Bytes) : Prop where
  eq : m = h.frame payload ++ tail
  alone : ¬(h.type.toNat = http2HeadersFrame ∧ h.flags.toNat &&& http2EndHeadersFlag = 0) →
    tail = []
  accepted : h.type.toNat = http2HeadersFrame ∧ h.flags.toNat &&& http2EndHeadersFlag = 0 →
    ¬violatesBlockRules h.type.toNat h.sid
  collected : ∀ pre post buf, pre.length + m.length ≤ maxBytes →
    h.type.toNat = http2HeadersFrame ∧ h.flags.toNat &&& http2EndHeadersFlag = 0 →
    (collectBlock (pre ++ (m ++ post)) pre.length buf).ret = .ok m.length ∨
      (collectBlock (pre ++ (m ++ post)) pre.length buf).ret = .error .E2BIG

theorem Framed.starts (hm : Framed m) : ∃ h payload tail, Starts h payload tail m := by
  cases hm with
  | other h payload ht =>
    exact ⟨h, payload, [], (List.append_nil _).symm, fun _ => rfl, fun hb => absurd hb.1 ht,
      fun _ _ _ _ hb => absurd hb.1 ht⟩
  | block b hsid hc =>
    cases b with
    | whole w =>
      exact ⟨w.head, _, [], (List.append_nil _).symm, fun _ => rfl,
        fun hb => absurd hb.2 w.head_flags, fun _ _ _ _ hb => absurd hb.2 w.head_flags⟩
    | cut g =>
      refine ⟨g.head, _, _, rfl, fun hb => absurd ⟨g.head_type, g.head_flags⟩ hb,
        fun _ => (headers_accepted (f := g.head.first 0) g.head_type (hsid g rfl)).1, ?_⟩
      intro pre post buf hsize _
      obtain ⟨hfit, hlong⟩ := g.collect_at pre post buf hsize
      by_cases hs : g.block.length ≤ blockMaxlen
      · obtain ⟨b, hb, -⟩ := hfit hs
        exact .inl (congrArg Collected.ret hb)
      · exact .inr (hlong (Nat.not_le.mp hs))

theorem Starts.length (hs : Starts h payload tail m) :
    m.length = http2FrameHdrLen + payload.length + tail.length := by
  rw [hs.eq, List.length_append, FrameHead.frame_length]

theorem Starts.first (hs : Starts h payload tail m) (pre post : Bytes)
    (hsize : m.length ≤ maxBytes) :
    newHttp2Frame (pre ++ (m ++ post)) pre.length = h.first payload.length := by
  have hlen := hs.length
  unfold maxBytes at hsize
  rw [hs.eq, List.append_assoc]
  exact newHttp2Frame_at h pre _ (by omega)

theorem Framed.not_again (hm : Framed m) (hsize : m.length ≤ maxBytes) (rd : Rodata) (maps : Maps)
    (conn : Ip4Conn) (frame : Http2Frame) :
    http2FrameHdrLen ≤ m.length ∧
      (parseLinear rd maps conn true frame m).ret ≠ .error .EAGAIN := by
  obtain ⟨h, payload, tail, hs⟩ := hm.starts
  have hlen := hs.length
  have hfirst := hs.first [] [] hsize
  rw [List.append_nil, List.nil_append, List.length_nil] at hfirst
  refine ⟨by omega, fun hagain => ?_⟩
  obtain ⟨hcut, hcollect⟩ := parseLinear_arrived (by omega) (by rw [hfirst]; exact (by
    simp only [FrameHead.first]; omega)) hagain
  rw [hfirst] at hcut
  have hnot := hs.collected [] [] maps.blockBuf (by rw [List.length_nil]; omega) hcut
  rw [List.append_nil, List.nil_append, List.length_nil] at hnot
  rw [Nat.min_eq_left hsize, List.take_length] at hcollect
  rcases hnot with hok | hbig
  · cases hok.symm.trans hcollect
  · cases hbig.symm.trans hcollect

/-- Bytes behind a whole message do not change what it is parsed as. -/
theorem Framed.alike (hm : Framed m) (hsize : m.length ≤ maxBytes) (hmaps : SameTables maps maps')
    (x : Bytes) : Alike rd (parseLinear rd maps conn true frame m)
      (parseLinear rd maps' conn true frame (m ++ x)) := by
  obtain ⟨h9, hnot⟩ := hm.not_again hsize rd maps conn frame
  exact parseLinear_alike frame hmaps h9 fun hagain => absurd hagain hnot

end Whole

section Layout

/-- The bytes of an sk_buff up to an offset, linear as a whole. -/
def SkBuff.upTo (skb : SkBuff) (n : Nat) : SkBuff where
  bytes := skb.bytes.take n
  linear := (skb.bytes.take n).length
  conn := skb.conn
  pullable := skb.pullable
  linear_le := Nat.le_refl (skb.bytes.take n).length

/-- Two parses of sk_buffs that leave the same behind. -/
structure SameSkb (rd : Rodata) (p q : ParsedSkb) : Prop where
  parsed : p.toParsed = q.toParsed
  captures : ∀ idx, getMatchSkb rd p.maps p.skb p.pres idx = getMatchSkb rd q.maps q.skb q.pres idx

theorem sameSkb_zero {r : Parsed} {skb skb' : SkBuff} (hz : r.pres = .zero) :
    SameSkb rd ⟨r, skb⟩ ⟨r, skb'⟩ := by
  refine ⟨rfl, fun idx => ?_⟩
  unfold getMatchSkb
  simp only [hz]
  rfl

theorem sameSkb_ctx {r : Parsed} {skb skb' : SkBuff} (hc : newSkbCtx skb = newSkbCtx skb') :
    SameSkb rd ⟨r, skb⟩ ⟨r, skb'⟩ := by
  refine ⟨rfl, fun idx => ?_⟩
  unfold getMatchSkb
  simp only [hc]

theorem neverRead_asked {p : Parsed} {n : Nat} (h : p.ret ≠ .error .EAGAIN) : neverRead p n = p.ret :=
  if_neg fun hn => h hn.1

theorem newSkbCtx_upTo (skb : SkBuff) (n : Nat) :
    newSkbCtx (SkBuff.upTo skb n) = ⟨skb.bytes.take n, skb.conn⟩ :=
  newSkbCtx_linear rfl

/-- An sk_buff of which as much was pulled in is read like its front. -/
theorem newSkbCtx_pulled (skb : SkBuff) {n : Nat} (hn : n ≤ skb.bytes.length) :
    newSkbCtx (SkBuff.pulled skb n hn) = newSkbCtx (SkBuff.upTo skb (max skb.linear n)) := by
  rw [newSkbCtx_upTo]
  rfl

theorem Starts.room_upTo (hs : Starts h payload tail m) (hb : skb.bytes = pre ++ (m ++ post))
    (hn : pre.length + m.length ≤ n) : http2FrameHdrLen + (h.first payload.length).len ≤
      (SkBuff.upTo skb n).bytes.length - pre.length := by
  have hlen := hs.length
  have hbytes : skb.bytes.length = pre.length + (m.length + post.length) := by
    rw [hb, List.length_append, List.length_append]
  have hflen : (h.first payload.length).len = payload.length := rfl
  simp only [SkBuff.upTo, List.length_take]
  omega

theorem Starts.room (hs : Starts h payload tail m) (hb : skb.bytes = pre ++ (m ++ post)) :
    http2FrameHdrLen + (h.first payload.length).len ≤ skb.bytes.length - pre.length := by
  have hroom := hs.room_upTo hb (Nat.le_refl _)
  simp only [SkBuff.upTo, List.length_take] at hroom
  omega

/-- A block all of which can be read asks for no more. -/
theorem Starts.not_asked (hs : Starts h payload tail m) (hb : skb.bytes = pre ++ (m ++ post))
    (hsize : pre.length + m.length ≤ maxBytes)
    (hcut : h.type.toNat = http2HeadersFrame ∧ h.flags.toNat &&& http2EndHeadersFlag = 0)
    (hn : pre.length + m.length ≤ n) (rd : Rodata) (maps : Maps) :
    (parseBlock rd maps (newSkbCtx (SkBuff.upTo skb n)) pre.length .zero (h.first payload.length)
      none).ret ≠ .error .EAGAIN := by
  intro hagain
  have hc := (parseBlock_again rd maps _ _ _ none .zero hagain).1
  rw [newSkbCtx_upTo, hb] at hc
  simp only at hc
  rw [take_around hn] at hc
  rcases hs.collected pre _ _ hsize hcut with hok | hbig
  · cases hok.symm.trans hc
  · cases hbig.symm.trans hc

/-- A block is put together from what was pulled in. -/
theorem parseSkbFrame_block_upTo (hp : skb.pullable = true) (hs : Starts h payload tail m)
    (hb : skb.bytes = pre ++ (m ++ post)) (hsize : pre.length + m.length ≤ maxBytes)
    (hcut : h.type.toNat = http2HeadersFrame ∧ h.flags.toNat &&& http2EndHeadersFlag = 0)
    (rd : Rodata) (maps : Maps) :
    ∃ n, pre.length + m.length ≤ n ∧
      SameSkb rd (parseSkbFrame rd maps skb pre.length .zero (h.first payload.length) none)
        (parseSkbFrame rd maps (SkBuff.upTo skb n) pre.length .zero (h.first payload.length)
          none) := by
  have hbytes : skb.bytes.length = pre.length + (m.length + post.length) := by
    rw [hb, List.length_append, List.length_append]
  have hv : ¬violatesBlockRules (h.first payload.length).type (h.first payload.length).sid :=
    hs.accepted hcut
  have hmin : min skb.bytes.length (pre.length + maxBytes) ≤ skb.bytes.length := Nat.min_le_left _ _
  have hn : pre.length + m.length ≤
      max skb.linear (min skb.bytes.length (pre.length + maxBytes)) := by omega
  refine ⟨_, hn, ?_⟩
  rw [parseSkbFrame_block hv (hs.room hb) hcut, parseSkbFrame_block hv (hs.room_upTo hb hn) hcut,
    skbPullData_isSome skb hp hmin,
    @pullData_linear (SkBuff.upTo skb _) hp rfl _ (Nat.min_le_left _ _)]
  have hctx := newSkbCtx_pulled skb hmin
  simp only
  rw [hctx]
  rw [neverRead_asked (hs.not_asked hb hsize hcut hn rd maps),
    neverRead_asked (hs.not_asked hb hsize hcut hn rd maps)]
  exact sameSkb_ctx hctx

/-- A frame that is read as a whole is what was pulled in. -/
theorem parseSkbFrame_frame_upTo (hp : skb.pullable = true) (hs : Starts h payload tail m)
    (hb : skb.bytes = pre ++ (m ++ post))
    (hv : ¬violatesBlockRules (h.first payload.length).type (h.first payload.length).sid)
    (hread : isParsedFrame (h.first payload.length).type (h.first payload.length).flags)
    (hcut : ¬(h.type.toNat = http2HeadersFrame ∧ h.flags.toNat &&& http2EndHeadersFlag = 0))
    (rd : Rodata) (maps : Maps) :
    ∃ n, pre.length + m.length ≤ n ∧
      SameSkb rd (parseSkbFrame rd maps skb pre.length .zero (h.first payload.length) none)
        (parseSkbFrame rd maps (SkBuff.upTo skb n) pre.length .zero (h.first payload.length)
          none) := by
  have hlen := hs.length
  have hroom := hs.room hb
  have hbytes : skb.bytes.length = pre.length + (m.length + post.length) := by
    rw [hb, List.length_append, List.length_append]
  have hflen : (h.first payload.length).len = payload.length := rfl
  have hstop : pre.length + (http2FrameHdrLen + (h.first payload.length).len) ≤
      skb.bytes.length := by omega
  have hn : pre.length + m.length ≤ max skb.linear
      (pre.length + (http2FrameHdrLen + (h.first payload.length).len)) := by
    rw [hs.alone hcut, List.length_nil] at hlen
    omega
  have hstop' := Nat.add_le_of_le_sub' (by simp only [SkBuff.upTo, List.length_take]; omega)
    (hs.room_upTo hb hn)
  refine ⟨_, hn, ?_⟩
  rw [parseSkbFrame_frame hv hread hroom hcut, parseSkbFrame_frame hv hread (hs.room_upTo hb hn) hcut,
    skbPullData_isSome skb hp hstop, @pullData_linear (SkBuff.upTo skb _) hp rfl _ hstop']
  have hctx := newSkbCtx_pulled skb hstop
  simp only
  rw [hctx]
  exact sameSkb_ctx hctx

/-- Once its header is read, a message is parsed as if what the parser can read of the sk_buff were
all there is. -/
theorem parseSkbFrame_upTo (hp : skb.pullable = true) (hs : Starts h payload tail m)
    (hb : skb.bytes = pre ++ (m ++ post)) (hsize : pre.length + m.length ≤ maxBytes)
    (rd : Rodata) (maps : Maps) :
    ∃ n, pre.length + m.length ≤ n ∧
      SameSkb rd (parseSkbFrame rd maps skb pre.length .zero (h.first payload.length) none)
        (parseSkbFrame rd maps (SkBuff.upTo skb n) pre.length .zero (h.first payload.length)
          none) := by
  have hbytes : skb.bytes.length = pre.length + (m.length + post.length) := by
    rw [hb, List.length_append, List.length_append]
  by_cases hcut : h.type.toNat = http2HeadersFrame ∧ h.flags.toNat &&& http2EndHeadersFlag = 0
  · exact parseSkbFrame_block_upTo hp hs hb hsize hcut rd maps
  by_cases hv : violatesBlockRules (h.first payload.length).type (h.first payload.length).sid
  · refine ⟨skb.bytes.length, by omega, ?_⟩
    rw [parseSkbFrame_reject hv, parseSkbFrame_reject hv]
    simp only [SkBuff.upTo, List.take_length]
    exact sameSkb_zero rfl
  by_cases hread : isParsedFrame (h.first payload.length).type (h.first payload.length).flags
  · exact parseSkbFrame_frame_upTo hp hs hb hv hread hcut rd maps
  · refine ⟨skb.bytes.length, by omega, ?_⟩
    rw [parseSkbFrame_skip hv hread, parseSkbFrame_skip hv hread]
    exact sameSkb_zero rfl

/-- A message is parsed as if what the parser can read of the sk_buff were all there is, and linear
from the start. -/
theorem parseSkb_upTo (hp : skb.pullable = true) (hs : Starts h payload tail m)
    (hb : skb.bytes = pre ++ (m ++ post)) (hsize : pre.length + m.length ≤ maxBytes)
    (rd : Rodata) (maps : Maps) (frame frame' : Http2Frame) :
    ∃ n, pre.length + m.length ≤ n ∧
      SameSkb rd (parseSkb rd maps skb pre.length .zero frame none)
        (parseSkb rd maps (SkBuff.upTo skb n) pre.length .zero frame' none) := by
  have hlen := hs.length
  have hbytes : skb.bytes.length = pre.length + (m.length + post.length) := by
    rw [hb, List.length_append, List.length_append]
  have hfirst := hs.first pre post (by omega)
  rw [← hb] at hfirst
  have h9 : pre.length + http2FrameHdrLen ≤ skb.bytes.length := by omega
  obtain ⟨n, hn, hsame⟩ := @parseSkbFrame_upTo (SkBuff.pulled skb (pre.length + http2FrameHdrLen) h9)
    m pre post payload tail h hp hs hb hsize rd maps
  refine ⟨n, hn, ?_⟩
  -- the same header is read out of any part of the bytes that holds the message
  have hle : pre.length + http2FrameHdrLen ≤ (SkBuff.upTo skb n).bytes.length := by
    simp only [SkBuff.upTo, List.length_take]
    omega
  have hlinear := @parseSkb_linear pre.length (SkBuff.upTo skb n) rd maps frame' hp rfl (by omega) hle
  rw [parseSkb_eq rd maps .zero frame none hp (by omega) h9, hfirst, hlinear]
  simp only [SkBuff.upTo] at hsame ⊢
  rw [newHttp2Frame_take (by omega), hfirst]
  exact hsame

theorem SameSkb.alikeAt {p : ParsedMsg} {q q' : ParsedSkb} (h : SameSkb rd q q')
    (ha : AlikeAt rd p q') : AlikeAt rd p q where
  ret := (congrArg Parsed.ret h.parsed).trans ha.ret
  frame := (congrArg Parsed.frame h.parsed).trans ha.frame
  tables := by
    rw [show q.maps = q'.maps from congrArg Parsed.maps h.parsed]
    exact ha.tables
  captures idx := (h.captures idx).trans (ha.captures idx)

theorem Alike.alikeAt {p p' : ParsedMsg} {q : ParsedSkb} (h : Alike rd p p')
    (ha : AlikeAt rd p' q) : AlikeAt rd p q where
  ret := ha.ret.trans h.ret
  frame := ha.frame.trans h.frame
  tables := h.tables.trans ha.tables
  captures idx := (ha.captures idx).trans (h.captures idx)

/-- Where a message stands in an sk_buff, what stands around it and how all that is laid out makes no
difference: it is parsed like a message of its own. -/
theorem Framed.laidOut {encode : Bytes → Option Bytes} {captures : List (Bytes × MatchId)}
    (ha : Attached encode captures rd) (hm : Framed m) (hp : skb.pullable = true)
    (hb : skb.bytes = pre ++ (m ++ post)) (hsize : pre.length + m.length ≤ maxBytes)
    (hmaps : SameTables maps maps') (frame frame' : Http2Frame) :
    AlikeAt rd (parseLinear rd maps skb.conn true frame m)
      (parseSkb rd maps' skb pre.length .zero frame' none) := by
  obtain ⟨h, payload, tail, hs⟩ := hm.starts
  obtain ⟨n, hn, hsame⟩ := parseSkb_upTo hp hs hb hsize rd maps' frame' frame'
  have hpl : Placed (linearMsg (m ++ post.take (n - pre.length - m.length)) skb.conn true)
      (SkBuff.upTo skb n) pre m (post.take (n - pre.length - m.length)) := by
    refine ⟨rfl, ?_, rfl, rfl, rfl, hp, rfl⟩
    simp only [SkBuff.upTo, hb]
    exact take_around hn
  have hmsg := @Framed.alike rd maps maps' skb.conn m frame hm (by omega) hmaps
    (post.take (n - pre.length - m.length))
  refine hsame.alikeAt (hmsg.alikeAt ?_)
  cases hm with
  | other h payload ht => exact hpl.other hsize ht rd maps' frame frame'
  | block b hsid hc =>
    have hle := b.block_length_le
    have hread : Complete readLen b.block := by
      refine hc.congr fun k hk => Nat.mod_eq_of_lt ?_
      unfold maxBytes at hsize
      simp only [id] at hk
      omega
    cases b with
    | whole w => exact hpl.whole w hsize hread ha.readsReps maps' frame frame'
    | cut g => exact hpl.cut g hsize (hsid g rfl) hread ha.readsReps maps' frame frame'

end Layout

end Beeper.Http2
