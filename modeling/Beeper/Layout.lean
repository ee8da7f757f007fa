import Beeper.CorkMessage

namespace Beeper.Http2

/-- The same message, all of which is linear. -/
def SkMsg.whole (msg : SkMsg) : SkMsg := linearMsg msg.bytes msg.conn msg.pullable

/-- What is pulled in does not depend on what was linear before. -/
theorem pullData_whole (msg : SkMsg) (stop : Nat) :
    (SkMsg.whole msg).pullData stop = msg.pullData stop := rfl

variable {rd : Rodata} {maps : Maps} {msg : SkMsg} {frame : Http2Frame}

/-- Past the header, only what was pulled in is read. -/
theorem parseMsgFrame_whole_alike (rd : Rodata) (maps : Maps) (msg : SkMsg) (f : Http2Frame) :
    Alike rd (parseMsgFrame rd maps (SkMsg.whole msg) .zero f)
      (parseMsgFrame rd maps msg .zero f) := by
  have hm := SameTables.refl maps
  by_cases hv : violatesBlockRules f.type f.sid
  · rw [parseMsgFrame_reject hv, parseMsgFrame_reject hv]
    exact alike_zero hm
  by_cases hp : isParsedFrame f.type f.flags
  case neg =>
    rw [parseMsgFrame_skip hv hp, parseMsgFrame_skip hv hp]
    exact alike_zero hm
  by_cases hs : msg.bytes.length < http2FrameHdrLen + f.len
  · rw [parseMsgFrame_short hv hp hs, parseMsgFrame_short hv hp (show (SkMsg.whole msg).bytes.length < _ from hs)]
    exact alike_zero hm
  have hs' := Nat.not_lt.mp hs
  by_cases hb : f.type = http2HeadersFrame ∧ f.flags &&& http2EndHeadersFlag = 0
  · rw [parseMsgFrame_block hv hs' hb, parseMsgFrame_block hv (show _ ≤ (SkMsg.whole msg).bytes.length from hs') hb,
      pullData_whole]
    cases hpull : msg.pullData (min msg.bytes.length maxBytes) with
    | none =>
      simp only [SkMsg.whole, linearMsg, hpull]
      exact alike_zero hm
    | some msg' =>
      simp only [SkMsg.whole, linearMsg, hpull]
      exact ⟨rfl, rfl, .refl _, fun _ => rfl⟩
  · rw [parseMsgFrame_frame hv hp hs' hb, parseMsgFrame_frame hv hp (show _ ≤ (SkMsg.whole msg).bytes.length from hs') hb,
      pullData_whole]
    cases msg.pullData (http2FrameHdrLen + f.len) with
    | none => exact alike_zero hm
    | some msg' => exact ⟨rfl, rfl, .refl _, fun _ => rfl⟩

/-- Nothing is parsed as long as the frame header is not linear, while a message that is linear
as a whole never comes to nothing. -/
theorem parseMsg_layout_iff (rd : Rodata) (maps : Maps) (msg : SkMsg) (frame : Http2Frame)
    (h9 : http2FrameHdrLen ≤ msg.bytes.length) :
    Alike rd (parseMsg rd maps (SkMsg.whole msg) .zero frame) (parseMsg rd maps msg .zero frame) ↔
      http2FrameHdrLen ≤ msg.linear := by
  constructor
  · intro h
    by_contra hlin
    have hzero : (parseMsg rd maps msg .zero frame).ret = .ok 0 := by
      unfold parseMsg
      rw [if_pos]
      rw [SkMsg.data, List.length_take_of_le msg.linear_le]
      omega
    have htotal := parseLinear_total h9 (h.ret.symm.trans hzero)
    exact absurd htotal (by decide)
  · intro hlin
    rw [parseMsg_eq hlin, parseMsg_eq (show _ ≤ (SkMsg.whole msg).linear from h9)]
    exact parseMsgFrame_whole_alike rd maps msg _

/-- The header of an empty DATA frame, none of which is linear. -/
def unpulledData : SkMsg :=
  ⟨[0, 0, 0, 0, 0, 0, 0, 0, 1], 0, ⟨⟨1, 1⟩, ⟨2, 2⟩⟩, true, Nat.zero_le _⟩

theorem parseMsg_unpulledData :
    ¬Alike .zero (parseMsg .zero .init (SkMsg.whole unpulledData) .zero (newHttp2Frame [] 0))
      (parseMsg .zero .init unpulledData .zero (newHttp2Frame [] 0)) := by
  intro h
  have hret := h.ret
  revert hret
  decide +kernel

/-- A HEADERS frame with only its header linear. -/
def headerLinear : SkMsg :=
  ⟨[0, 0, 2, 1, 4, 0, 0, 0, 1, 0x82, 0x84], 9, ⟨⟨1, 1⟩, ⟨2, 2⟩⟩, true, by decide⟩

/-- Where the header is linear, the rest of the message need not be. -/
theorem parseMsg_layout_linear :
    Alike .zero (parseMsg .zero .init (SkMsg.whole headerLinear) .zero (newHttp2Frame [] 0))
      (parseMsg .zero .init headerLinear .zero (newHttp2Frame [] 0)) :=
  (parseMsg_layout_iff .zero .init headerLinear _ (by decide)).mpr (by decide)

end Beeper.Http2
