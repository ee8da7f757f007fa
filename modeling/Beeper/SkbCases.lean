import Beeper.Calls

namespace Beeper.Http2

variable {rd : Rodata} {maps : Maps} {skb : SkBuff} {off : Nat} {pres : HttpParseRes}
  {frame f : Http2Frame} {p : Option Nat}

/-- The sk_buff with at least its first `len` bytes linear. -/
def SkBuff.pulled (skb : SkBuff) (len : Nat) (h : len ≤ skb.bytes.length) : SkBuff :=
  { skb with linear := max skb.linear len, linear_le := Nat.max_le.mpr ⟨skb.linear_le, h⟩ }

theorem skbPullData_isSome (skb : SkBuff) (hp : skb.pullable = true) {len : Nat} (h : len ≤ skb.bytes.length) :
    skb.pullData len = some (SkBuff.pulled skb len h) := by
  unfold SkBuff.pullData
  rw [dif_pos ⟨hp, h⟩]
  rfl

/-- The header is pulled in before it is read. -/
theorem parseSkb_eq (rd : Rodata) (maps : Maps) (pres : HttpParseRes) (frame : Http2Frame)
    (p : Option Nat) (hp : skb.pullable = true) (hoff : off ≤ maxBytes)
    (h9 : off + http2FrameHdrLen ≤ skb.bytes.length) :
    parseSkb rd maps skb off pres frame p =
      parseSkbFrame rd maps (SkBuff.pulled skb (off + http2FrameHdrLen) h9) off pres
        (newHttp2Frame skb.bytes off) p := by
  have hpull : (if skb.linear < off + http2FrameHdrLen then
      skb.pullData (off + http2FrameHdrLen) else some skb) =
      some (SkBuff.pulled skb (off + http2FrameHdrLen) h9) := by
    split
    next => exact skbPullData_isSome skb hp h9
    next hl =>
      have hmax : max skb.linear (off + http2FrameHdrLen) = skb.linear := by omega
      cases skb
      simp only [SkBuff.pulled, hmax]
  unfold parseSkb
  rw [if_neg (Nat.not_lt.mpr hoff), if_neg (Nat.not_lt.mpr h9)]
  simp only [hpull]
  have hlin : off + http2FrameHdrLen ≤ (SkBuff.pulled skb (off + http2FrameHdrLen) h9).linear :=
    Nat.le_max_right _ _
  rw [SkBuff.data, newHttp2Frame_take hlin]
  rfl

theorem parseSkbFrame_reject (hv : violatesBlockRules f.type f.sid) :
    parseSkbFrame rd maps skb off pres f p =
      ⟨⟨(rejectFrame f (http2FrameHdrLen + f.len) (skb.bytes.length - off)).1, maps, pres,
        (rejectFrame f (http2FrameHdrLen + f.len) (skb.bytes.length - off)).2, p⟩, skb⟩ := by
  unfold parseSkbFrame
  exact if_pos hv

theorem parseSkbFrame_skip (hv : ¬violatesBlockRules f.type f.sid)
    (hp : ¬isParsedFrame f.type f.flags) :
    parseSkbFrame rd maps skb off pres f p = ⟨⟨.ok (http2FrameHdrLen + f.len), maps, pres,
      skipFrame maps skb.conn f, p⟩, skb⟩ := by
  unfold parseSkbFrame
  exact (if_neg hv).trans (if_pos hp)

theorem parseSkbFrame_short (hv : ¬violatesBlockRules f.type f.sid)
    (hp : isParsedFrame f.type f.flags)
    (hs : skb.bytes.length - off < http2FrameHdrLen + f.len) :
    parseSkbFrame rd maps skb off pres f p = ⟨⟨.error .EAGAIN, maps, pres,
      { f with need := http2FrameHdrLen + f.len }, p⟩, skb⟩ := by
  unfold parseSkbFrame
  exact (if_neg hv).trans ((if_neg (not_not_intro hp)).trans (if_pos hs))

theorem parseSkbFrame_block (hv : ¬violatesBlockRules f.type f.sid)
    (hs : http2FrameHdrLen + f.len ≤ skb.bytes.length - off)
    (hb : f.type = http2HeadersFrame ∧ f.flags &&& http2EndHeadersFlag = 0) :
    parseSkbFrame rd maps skb off pres f p =
      match skb.pullData (min skb.bytes.length (off + maxBytes)) with
      | none => ⟨⟨.error .EFAULT, maps, pres, f, p⟩, skb⟩
      | some skb' =>
        let r := parseBlock rd maps (newSkbCtx skb') off pres f p
        ⟨{ r with ret := neverRead r (skb.bytes.length - off) }, skb'⟩ := by
  have hp : isParsedFrame f.type f.flags := by simp [isParsedFrame, hb.1]
  unfold parseSkbFrame
  exact (if_neg hv).trans ((if_neg (not_not_intro hp)).trans
    ((if_neg (Nat.not_lt.mpr hs)).trans (if_pos hb)))

theorem parseSkbFrame_frame (hv : ¬violatesBlockRules f.type f.sid)
    (hp : isParsedFrame f.type f.flags)
    (hs : http2FrameHdrLen + f.len ≤ skb.bytes.length - off)
    (hb : ¬(f.type = http2HeadersFrame ∧ f.flags &&& http2EndHeadersFlag = 0)) :
    parseSkbFrame rd maps skb off pres f p =
      match skb.pullData (off + (http2FrameHdrLen + f.len)) with
      | none => ⟨⟨.error .EFAULT, maps, pres, f, p⟩, skb⟩
      | some skb' =>
        let r := parseFrame rd maps (newSkbCtx skb') off f.len f.type f.flags pres f p
        ⟨{ r with ret := r.ret.map fun _ => http2FrameHdrLen + f.len }, skb'⟩ := by
  unfold parseSkbFrame
  exact (if_neg hv).trans ((if_neg (not_not_intro hp)).trans
    ((if_neg (Nat.not_lt.mpr hs)).trans (if_neg hb)))

end Beeper.Http2
