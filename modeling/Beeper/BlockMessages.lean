import Beeper.BlockRead
import Beeper.Fragments

namespace Beeper.Http2

variable {rd : Rodata} {maps : Maps} {msg : SkMsg} {frame : Http2Frame} {post : Bytes}

/-- The frame header a message starts with. -/
theorem newHttp2Frame_frame (h : FrameHead) {payload : Bytes} (post : Bytes)
    (hl : payload.length < 2 ^ 24) :
    newHttp2Frame (h.frame payload ++ post) 0 =
      ⟨h.sid, h.type.toNat, h.flags.toNat, 0, 0, payload.length, 0⟩ := by
  have ha := frame_assoc h [] payload post
  simp only [List.nil_append] at ha
  rw [ha]
  have h0 : ∀ xs : Bytes, ([] : Bytes) ++ xs = xs := List.nil_append
  rw [← h0 (h.bytes payload.length ++ (payload ++ post))]
  unfold newHttp2Frame
  rw [← @List.length_nil UInt8, hdrLen_bytes hl, hdrType_bytes, hdrFlags_bytes, hdrSid_bytes]

/-- A header block one HEADERS frame carries whole. -/
structure Whole where
  head : FrameHead
  payload : HeadersPayload
  head_type : head.type.toNat = http2HeadersFrame
  head_flags : head.flags.toNat &&& http2EndHeadersFlag ≠ 0

def Whole.bytes (w : Whole) : Bytes := w.head.frame (w.payload.bytes w.head.flags.toNat)

def Whole.block (w : Whole) : Bytes := w.payload.block

/-- What stands in the payload in front of the block, and what pads it. -/
def Whole.Parts (w : Whole) (front back : Bytes) : Prop :=
  w.payload.bytes w.head.flags.toNat = front ++ w.block ++ back ∧
    Carries true w.head front w.block back

/-- A HEADERS frame on stream 0 is refused, however it goes on. -/
theorem parseMsg_stream_zero {f : Http2Frame} (hf : newHttp2Frame msg.bytes 0 = f)
    (h9 : http2FrameHdrLen ≤ msg.linear) (hs : http2FrameHdrLen + f.len ≤ msg.bytes.length)
    (ht : f.type = http2HeadersFrame) (h0 : f.sid = 0) :
    parseMsg rd maps msg .zero frame = ⟨⟨.error .EPROTO, maps, .zero, f, none⟩, msg⟩ := by
  have hv : violatesBlockRules f.type f.sid := by simp [violatesBlockRules, ht, h0]
  rw [parseMsg_eq h9, hf, parseMsgFrame_reject hv, rejectFrame, if_pos hs]

theorem BlockRead.neverRead {block : Bytes} {total : Nat} {v : View} {p : Parsed}
    (h : BlockRead rd maps block total v p) (hp : p.ret ≠ .error .EAGAIN) (n : Nat) :
    BlockRead rd maps block total v { p with ret := neverRead p n } := by
  rw [Http2.neverRead, if_neg fun hn => hp hn.1]
  exact h

theorem headers_accepted {f : Http2Frame} (ht : f.type = http2HeadersFrame) (h0 : f.sid ≠ 0) :
    ¬violatesBlockRules f.type f.sid ∧ isParsedFrame f.type f.flags := by
  constructor
  · simp [violatesBlockRules, ht, h0, http2HeadersFrame, http2ContinuationFrame]
  · simp [isParsedFrame, ht]

theorem Fragmented.first (f : Fragmented) (hm : msg.bytes = f.bytes ++ post)
    (hsize : f.bytes.length ≤ maxBytes) :
    newHttp2Frame msg.bytes 0 = ⟨f.head.sid, f.head.type.toNat, f.head.flags.toNat, 0, 0,
      (f.payload.bytes f.head.flags.toNat).length, 0⟩ := by
  have hlen := f.bytes_length
  rw [hm, bytes, headers, List.append_assoc]
  exact newHttp2Frame_frame f.head _ (by unfold maxBytes at hsize; omega)

theorem Whole.first (w : Whole) (hm : msg.bytes = w.bytes ++ post)
    (hl : (w.payload.bytes w.head.flags.toNat).length < 2 ^ 24) :
    newHttp2Frame msg.bytes 0 = ⟨w.head.sid, w.head.type.toNat, w.head.flags.toNat, 0, 0,
      (w.payload.bytes w.head.flags.toNat).length, 0⟩ := by
  rw [hm, bytes]
  exact newHttp2Frame_frame w.head post hl

/-- A block that is cut is read out of the buffer. -/
theorem Fragmented.read (f : Fragmented) (rd : Rodata) (maps : Maps) (frame : Http2Frame)
    (hm : msg.bytes = f.bytes ++ post)
    (h9 : http2FrameHdrLen ≤ msg.linear) (hpull : msg.pullable = true) (h0 : f.head.sid ≠ 0)
    (hsize : f.bytes.length ≤ maxBytes) (hfit : f.block.length ≤ blockMaxlen) :
    let p := parseMsg rd maps msg .zero frame
    ∃ v, Exact rd v f.block ∧ newMsgCtx p.msg = v.ctx ∧ v.ctx.conn = msg.conn ∧
      BlockRead rd maps f.block f.bytes.length v p.toParsed := by
  have hlen := f.bytes_length
  have hmsg : msg.bytes.length = f.bytes.length + post.length := by rw [hm, List.length_append]
  have hfirst := f.first hm hsize
  obtain ⟨hv, -⟩ := headers_accepted (f := newHttp2Frame msg.bytes 0)
    (by rw [hfirst]; exact f.head_type) (by rw [hfirst]; exact h0)
  obtain ⟨msg', hctx, hparse⟩ := parseMsgFrame_pulled rd maps msg .zero hpull
    (Nat.le_trans h9 msg.linear_le) hv (by rw [hfirst]; simp only; omega)
    (by rw [hfirst]; exact ⟨f.head_type, f.head_flags⟩)
  have htake : msg.bytes.take (min msg.bytes.length maxBytes) =
      f.bytes ++ post.take (min msg.bytes.length maxBytes - f.bytes.length) := by
    rw [hm, List.take_append, List.take_of_length_le]
    simp only [List.length_append]
    omega
  rw [htake] at hctx hparse
  obtain ⟨b, hcollect, hhas⟩ := f.collect
    (post.take (min msg.bytes.length maxBytes - f.bytes.length)) maps.blockBuf hsize hfit
  have hread := parseBlock_read rd
    ⟨f.bytes ++ post.take (min msg.bytes.length maxBytes - f.bytes.length), msg.conn⟩
    (newHttp2Frame msg.bytes 0) none hcollect rfl hhas
  have hne : (parseBlock rd maps
      ⟨f.bytes ++ post.take (min msg.bytes.length maxBytes - f.bytes.length), msg.conn⟩ 0 .zero
      (newHttp2Frame msg.bytes 0) none).ret ≠ .error .EAGAIN := by
    intro h
    have hc := (parseBlock_again rd maps _ 0 _ none .zero h).1
    rw [hcollect] at hc
    cases hc
  simp only
  rw [parseMsg_eq h9, hparse]
  exact ⟨_, exact_buf hhas, hctx, rfl, hread.neverRead hne _⟩

theorem Whole.back_lt {w : Whole} {front back : Bytes} (hp : w.Parts front back) :
    back.length < 256 := by
  cases hpad : isPadded true w.head.flags.toNat with
  | false => simp [hp.2.pad hpad]
  | true => exact (hp.2.padded hpad).choose_spec.2

theorem Whole.payload_length {w : Whole} {front back : Bytes} (hp : w.Parts front back) :
    (w.payload.bytes w.head.flags.toNat).length =
      front.length + w.block.length + back.length := by
  rw [hp.1, List.length_append, List.length_append]

theorem Whole.bytes_length (w : Whole) :
    w.bytes.length = http2FrameHdrLen + (w.payload.bytes w.head.flags.toNat).length :=
  w.head.frame_length

/-- The offsets of the block of a frame that is there as a whole, the end of it kept in 16 bits. -/
theorem Whole.block_offsets_mod {w : Whole} {front back : Bytes} (hp : w.Parts front back) :
    http2Block w.bytes (w.payload.bytes w.head.flags.toNat).length http2HeadersFrame
        w.head.flags.toNat = .ok (http2FrameHdrLen + front.length,
          (http2FrameHdrLen + (front ++ w.block).length) % 2 ^ 16) := by
  have hpl := payload_length hp
  have hpad := hp.2.padLen_eq [] []
  rw [List.nil_append, List.append_nil, ← hp.1, List.length_nil] at hpad
  unfold http2Block
  simp only [decide_true]
  rw [if_neg, bytes, hpad, hp.2.start, if_neg (by omega)]
  · rw [List.length_append]
    refine congrArg _ (Prod.mk.injEq .. ▸ ⟨rfl, congrArg (· % 2 ^ 16) ?_⟩)
    omega
  · rintro ⟨hpadded, hlt⟩
    obtain ⟨rest, hf, -⟩ := hp.2.padded hpadded
    have hpos : 0 < front.length := by simp [hf]
    rw [bytes_length, hpl] at hlt
    omega

theorem Whole.block_offsets {w : Whole} {front back : Bytes} (hp : w.Parts front back)
    (hsize : http2FrameHdrLen + (front ++ w.block).length < 2 ^ 16) :
    http2Block w.bytes (w.payload.bytes w.head.flags.toNat).length http2HeadersFrame
        w.head.flags.toNat =
      .ok (http2FrameHdrLen + front.length, http2FrameHdrLen + (front ++ w.block).length) := by
  rw [block_offsets_mod hp, Nat.mod_eq_of_lt hsize]

/-- A frame that is there as a whole is parsed out of its own bytes. -/
theorem Whole.parsed (w : Whole) (rd : Rodata) (maps : Maps) (frame : Http2Frame)
    (hm : msg.bytes = w.bytes ++ post)
    (h9 : http2FrameHdrLen ≤ msg.linear) (hpull : msg.pullable = true) (h0 : w.head.sid ≠ 0)
    (hl : (w.payload.bytes w.head.flags.toNat).length < 2 ^ 24) :
    ∃ msg', newMsgCtx msg' = ⟨w.bytes, msg.conn⟩ ∧ parseMsg rd maps msg .zero frame =
      let p := parseFrame rd maps ⟨w.bytes, msg.conn⟩ 0
        (w.payload.bytes w.head.flags.toNat).length http2HeadersFrame w.head.flags.toNat .zero
        (newHttp2Frame msg.bytes 0) none
      ⟨{ p with ret := p.ret.map fun _ => w.bytes.length }, msg'⟩ := by
  have hlen := w.bytes_length
  have hmsg : msg.bytes.length = w.bytes.length + post.length := by rw [hm, List.length_append]
  have hfirst := w.first hm hl
  obtain ⟨hv, hparsed⟩ := headers_accepted (f := newHttp2Frame msg.bytes 0)
    (by rw [hfirst]; exact w.head_type) (by rw [hfirst]; exact h0)
  obtain ⟨msg', hctx, hparse⟩ := parseMsgFrame_whole rd maps msg .zero hpull hv hparsed
    (by rw [hfirst]; simp only; omega)
    (by rw [hfirst]; exact fun hb => w.head_flags hb.2)
  have htake : msg.bytes.take (http2FrameHdrLen + (newHttp2Frame msg.bytes 0).len) = w.bytes := by
    rw [hfirst, hm, ← hlen, List.take_left]
  rw [htake] at hctx hparse
  have htype : (newHttp2Frame msg.bytes 0).type = http2HeadersFrame := by
    rw [hfirst]
    exact w.head_type
  have hflags : (newHttp2Frame msg.bytes 0).flags = w.head.flags.toNat := by rw [hfirst]
  have hpay : (newHttp2Frame msg.bytes 0).len = (w.payload.bytes w.head.flags.toNat).length := by
    rw [hfirst]
  rw [htype, hflags, hpay, ← hlen] at hparse
  exact ⟨msg', hctx, (parseMsg_eq h9).trans hparse⟩

/-- A block that is not is read in place. -/
theorem Whole.read (w : Whole) (rd : Rodata) (maps : Maps) (frame : Http2Frame)
    (hm : msg.bytes = w.bytes ++ post)
    (h9 : http2FrameHdrLen ≤ msg.linear) (hpull : msg.pullable = true) (h0 : w.head.sid ≠ 0)
    {front back : Bytes} (hp : w.Parts front back)
    (hsize : http2FrameHdrLen + (front ++ w.block).length ≤ maxBytes) :
    let p := parseMsg rd maps msg .zero frame
    newMsgCtx p.msg = ⟨w.bytes, msg.conn⟩ ∧
      BlockRead rd maps w.block w.bytes.length
        ⟨⟨w.bytes, msg.conn⟩, maps.blockBuf, .msg, http2FrameHdrLen + front.length⟩ p.toParsed := by
  have hback := back_lt hp
  have hpl := payload_length hp
  have hlen := w.bytes_length
  have hblock := block_offsets hp (by unfold maxBytes at hsize; omega)
  have hslice : slice w.bytes (http2FrameHdrLen + front.length) w.block.length = w.block := by
    have h := slice_frame w.head [] front w.block back []
    rwa [List.nil_append, List.append_nil, ← hp.1, List.length_nil, Nat.zero_add] at h
  have hsum : (front ++ w.block).length = front.length + w.block.length := List.length_append
  unfold maxBytes at hsize
  obtain ⟨msg', hctx, hparse⟩ := w.parsed rd maps frame hm h9 hpull h0 (by omega)
  have hread := parseFrame_read rd maps (newHttp2Frame msg.bytes 0)
    (show 0 ≤ maxBytes from Nat.zero_le _)
    (show http2Block ((⟨w.bytes, msg.conn⟩ : MsgCtx).data.drop 0) _ http2HeadersFrame _ = _ from
      hblock) (by unfold maxBytes; omega) (by simp only; omega)
  rw [Nat.add_zero, hsum, ← Nat.add_assoc, Nat.add_sub_cancel_left, hslice] at hread
  rw [hparse]
  exact ⟨hctx, hread.map _⟩

end Beeper.Http2
