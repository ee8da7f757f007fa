import Beeper.FramePrefix
import Beeper.ParseMessage

namespace Beeper.Http2

variable {rd : Rodata} {maps : Maps} {msg : SkMsg} {pres : HttpParseRes} {frame : Http2Frame}

theorem msgPullData_some {msg' : SkMsg} {len : Nat} (h : msg.pullData len = some msg') :
    msg'.conn = msg.conn ∧ msg'.bytes = msg.bytes ∧ msg'.linear = len ∧ msg.pullable := by
  unfold SkMsg.pullData at h
  split at h
  next hp =>
    rw [← Option.some.inj h]
    exact ⟨rfl, rfl, rfl, hp.1⟩
  · simp at h

theorem msgPullData_isSome (msg : SkMsg) {len : Nat} (hp : msg.pullable) (h0 : 0 < len)
    (hl : len ≤ msg.bytes.length) : msg.pullData len = some { msg with linear := len, linear_le := hl } := by
  unfold SkMsg.pullData
  rw [dif_pos ⟨hp, h0, hl⟩]

/-- The header is read out of the first bytes of the message. -/
theorem parseMsg_eq (h9 : http2FrameHdrLen ≤ msg.linear) :
    parseMsg rd maps msg pres frame =
      parseMsgFrame rd maps msg pres (newHttp2Frame msg.bytes 0) := by
  unfold parseMsg
  rw [if_neg, SkMsg.data, newHttp2Frame_take (by omega)]
  rw [SkMsg.data, List.length_take_of_le msg.linear_le]
  omega

section Cases

variable {f : Http2Frame}

theorem parseMsgFrame_reject (hv : violatesBlockRules f.type f.sid) :
    parseMsgFrame rd maps msg pres f =
      ⟨⟨(rejectFrame f (http2FrameHdrLen + f.len) msg.bytes.length).1, maps, pres,
        (rejectFrame f (http2FrameHdrLen + f.len) msg.bytes.length).2, none⟩, msg⟩ := by
  unfold parseMsgFrame
  rw [if_pos hv]

theorem parseMsgFrame_skip (hv : ¬violatesBlockRules f.type f.sid)
    (hp : ¬isParsedFrame f.type f.flags) :
    parseMsgFrame rd maps msg pres f = ⟨⟨.ok (http2FrameHdrLen + f.len), maps, pres,
      skipFrame maps msg.conn f, none⟩, msg⟩ := by
  unfold parseMsgFrame
  rw [if_neg hv, if_pos hp]

theorem parseMsgFrame_short (hv : ¬violatesBlockRules f.type f.sid)
    (hp : isParsedFrame f.type f.flags) (hs : msg.bytes.length < http2FrameHdrLen + f.len) :
    parseMsgFrame rd maps msg pres f = ⟨⟨.error .EAGAIN, maps, pres,
      { f with need := http2FrameHdrLen + f.len }, none⟩, msg⟩ := by
  unfold parseMsgFrame
  rw [if_neg hv, if_neg (not_not_intro hp), if_pos hs]

theorem parseMsgFrame_block (hv : ¬violatesBlockRules f.type f.sid)
    (hs : http2FrameHdrLen + f.len ≤ msg.bytes.length)
    (hb : f.type = http2HeadersFrame ∧ f.flags &&& http2EndHeadersFlag = 0) :
    parseMsgFrame rd maps msg pres f =
      match msg.pullData (min msg.bytes.length maxBytes) with
      | none => ⟨⟨.error .EFAULT, maps, pres, f, none⟩, msg⟩
      | some msg' =>
        let p := parseBlock rd maps (newMsgCtx msg') 0 pres f none
        ⟨{ p with ret := neverRead p msg.bytes.length }, msg'⟩ := by
  have hp : isParsedFrame f.type f.flags := by simp [isParsedFrame, hb.1]
  unfold parseMsgFrame
  exact (if_neg hv).trans ((if_neg (not_not_intro hp)).trans
    ((if_neg (Nat.not_lt.mpr hs)).trans (if_pos hb)))

theorem parseMsgFrame_frame (hv : ¬violatesBlockRules f.type f.sid)
    (hp : isParsedFrame f.type f.flags) (hs : http2FrameHdrLen + f.len ≤ msg.bytes.length)
    (hb : ¬(f.type = http2HeadersFrame ∧ f.flags &&& http2EndHeadersFlag = 0)) :
    parseMsgFrame rd maps msg pres f =
      match msg.pullData (http2FrameHdrLen + f.len) with
      | none => ⟨⟨.error .EFAULT, maps, pres, f, none⟩, msg⟩
      | some msg' =>
        let p := parseFrame rd maps (newMsgCtx msg') 0 f.len f.type f.flags pres f none
        ⟨{ p with ret := p.ret.map fun _ => http2FrameHdrLen + f.len }, msg'⟩ := by
  unfold parseMsgFrame
  exact (if_neg hv).trans ((if_neg (not_not_intro hp)).trans
    ((if_neg (Nat.not_lt.mpr hs)).trans (if_neg hb)))

/-- A block of more than one frame is read out of what could be pulled in. -/
theorem parseMsgFrame_pulled (rd : Rodata) (maps : Maps) (msg : SkMsg) (pres : HttpParseRes)
    (hpull : msg.pullable = true) (h9 : http2FrameHdrLen ≤ msg.bytes.length)
    (hv : ¬violatesBlockRules f.type f.sid) (hs : http2FrameHdrLen + f.len ≤ msg.bytes.length)
    (hb : f.type = http2HeadersFrame ∧ f.flags &&& http2EndHeadersFlag = 0) :
    ∃ msg', newMsgCtx msg' = ⟨msg.bytes.take (min msg.bytes.length maxBytes), msg.conn⟩ ∧
      parseMsgFrame rd maps msg pres f =
        let p := parseBlock rd maps ⟨msg.bytes.take (min msg.bytes.length maxBytes), msg.conn⟩ 0
          pres f none
        ⟨{ p with ret := neverRead p msg.bytes.length }, msg'⟩ := by
  have h0 : 0 < min msg.bytes.length maxBytes := by
    unfold http2FrameHdrLen at h9
    unfold maxBytes
    omega
  refine ⟨{ msg with linear := min msg.bytes.length maxBytes, linear_le := Nat.min_le_left _ _ },
    rfl, ?_⟩
  rw [parseMsgFrame_block hv hs hb, msgPullData_isSome msg hpull h0 (Nat.min_le_left _ _)]
  rfl

/-- Any other frame the parser reads is read out of the frame alone. -/
theorem parseMsgFrame_whole (rd : Rodata) (maps : Maps) (msg : SkMsg) (pres : HttpParseRes)
    (hpull : msg.pullable = true) (hv : ¬violatesBlockRules f.type f.sid)
    (hp : isParsedFrame f.type f.flags) (hs : http2FrameHdrLen + f.len ≤ msg.bytes.length)
    (hb : ¬(f.type = http2HeadersFrame ∧ f.flags &&& http2EndHeadersFlag = 0)) :
    ∃ msg', newMsgCtx msg' = ⟨msg.bytes.take (http2FrameHdrLen + f.len), msg.conn⟩ ∧
      parseMsgFrame rd maps msg pres f =
        let p := parseFrame rd maps ⟨msg.bytes.take (http2FrameHdrLen + f.len), msg.conn⟩ 0 f.len
          f.type f.flags pres f none
        ⟨{ p with ret := p.ret.map fun _ => http2FrameHdrLen + f.len }, msg'⟩ := by
  have h0 : 0 < http2FrameHdrLen + f.len := by
    unfold http2FrameHdrLen
    omega
  refine ⟨{ msg with linear := http2FrameHdrLen + f.len, linear_le := hs }, rfl, ?_⟩
  rw [parseMsgFrame_frame hv hp hs hb, msgPullData_isSome msg hpull h0 hs]
  rfl

end Cases

end Beeper.Http2
