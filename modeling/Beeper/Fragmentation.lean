import Beeper.BlockMessages

namespace Beeper.Http2

/-- Neither padding nor a priority stands in the frame. -/
def Whole.Plain (w : Whole) : Prop :=
  isPadded true w.head.flags.toNat = false ∧ w.head.flags.toNat &&& http2PriorityFlag = 0

/-- A plain HEADERS frame on stream 1 that carries `block`. -/
def plainFrame (block : Bytes) : Whole where
  head := ⟨1, 4, false, 1, by decide⟩
  payload := ⟨[0, 0, 0, 0, 0], block, [], rfl, by decide⟩
  head_type := rfl
  head_flags := by decide

theorem plainFrame_plain (block : Bytes) : (plainFrame block).Plain := by
  have hflags : (plainFrame block).head.flags = 4 := rfl
  unfold Whole.Plain
  rw [hflags]
  decide

variable {rd : Rodata} {maps : Maps} {msg msg' : SkMsg} {frame frame' : Http2Frame}

theorem Whole.Plain.parts {w : Whole} (h : w.Plain) : w.Parts [] [] := by
  refine ⟨?_, ?_, fun _ => rfl, fun hp => ?_⟩
  · simp [HeadersPayload.bytes, h.1, h.2, block]
  · simp [blockStart, h.1, h.2]
  · rw [h.1] at hp
    simp at hp

/-- The block of a plain frame ends where the frame does. -/
theorem Whole.Plain.exact {w : Whole} (h : w.Plain) (rd : Rodata) (conn : Ip4Conn) (buf : BlockBuf)
    (hs : http2FrameHdrLen + w.block.length < 2 ^ 16) :
    Exact rd ⟨⟨w.bytes, conn⟩, buf, .msg, http2FrameHdrLen⟩ w.block := by
  have hb : w.bytes = w.head.bytes w.block.length ++ w.block := by
    have hp := h.parts.1
    simp only [List.nil_append, List.append_nil] at hp
    rw [bytes, FrameHead.frame, hp]
  exact exact_msg ⟨w.bytes, conn⟩ (w.head.bytes w.block.length) w.block buf hb hs

/-- A header block cut into fragments is parsed like the one frame that carries it whole: both
succeed or fail with the same error, leave the same dynamic tables, and resolve every match id
alike. -/
theorem parseMsg_fragmented (rd : Rodata) (maps : Maps) (f : Fragmented) (w : Whole)
    (hplain : w.Plain) (hblock : w.block = f.block) (hsid : w.head.sid = f.head.sid)
    (hfit : f.block.length ≤ blockMaxlen) (hsize : f.bytes.length ≤ maxBytes)
    (hm : msg.bytes = f.bytes) (hm' : msg'.bytes = w.bytes) (hconn : msg'.conn = msg.conn)
    (h9 : http2FrameHdrLen ≤ msg.linear) (h9' : http2FrameHdrLen ≤ msg'.linear)
    (hpull : msg.pullable = true) (hpull' : msg'.pullable = true) :
    let p := parseMsg rd maps msg .zero frame
    let p' := parseMsg rd maps msg' .zero frame'
    (p.ret = .ok f.bytes.length ∧ p'.ret = .ok w.bytes.length ∨
        ∃ e, p.ret = .error e ∧ p'.ret = .error e) ∧
      SameTables p.maps p'.maps ∧
      ∀ idx, getMatchMsg rd p'.maps p'.msg p'.pres idx =
        getMatchMsg rd p.maps p.msg p.pres idx := by
  have hlen : (w.payload.bytes w.head.flags.toNat).length = w.block.length := by
    rw [Whole.payload_length hplain.parts]
    simp
  have hmax : http2FrameHdrLen + w.block.length ≤ maxBytes := by
    rw [hblock]
    exact Nat.le_trans (Nat.add_le_add_left hfit _) (by decide)
  rw [← List.append_nil f.bytes] at hm
  rw [← List.append_nil w.bytes] at hm'
  by_cases h0 : f.head.sid = 0
  · have hfirst := f.first hm hsize
    have hfirst' := w.first hm' (by unfold maxBytes at hmax; omega)
    have hflen := f.bytes_length
    have hwlen := w.bytes_length
    have hml : msg.bytes.length = f.bytes.length := by rw [hm, List.append_nil]
    have hml' : msg'.bytes.length = w.bytes.length := by rw [hm', List.append_nil]
    simp only
    rw [parseMsg_stream_zero hfirst h9 (by simp only; omega) f.head_type h0,
      parseMsg_stream_zero hfirst' h9' (by simp only; omega) w.head_type (hsid.trans h0)]
    refine ⟨.inr ⟨_, rfl, rfl⟩, .refl maps, fun idx => ?_⟩
    rw [getMatchMsg_zero, getMatchMsg_zero]
  · obtain ⟨v, hv, hctx, hvconn, hread⟩ := f.read rd maps frame hm h9 hpull h0 hsize hfit
    obtain ⟨hctx', hread'⟩ := w.read rd maps frame' hm' h9' hpull' (hsid ▸ h0)
      hplain.parts (by simpa using hmax)
    have hw := hplain.exact rd msg'.conn maps.blockBuf
      (Nat.lt_of_le_of_lt hmax (by decide))
    rw [hblock] at hw hread'
    exact hread.alike hread' (hv.agree hw (hvconn.trans hconn.symm)) hctx hctx'

def twoFragments : Fragmented where
  head := ⟨1, 0, false, 1, by decide⟩
  payload := ⟨[0, 0, 0, 0, 0], [0x82], [], rfl, by decide⟩
  middle := []
  last := ⟨⟨9, 4, false, 1, by decide⟩, [0x84]⟩
  head_type := rfl
  head_flags := rfl
  middle_continues := by simp
  last_continues := ⟨rfl, rfl, by decide⟩

def oneFrame : Whole := plainFrame [0x82, 0x84]

theorem parseMsg_twoFragments :
    let f := newHttp2Frame [] 0
    let p := parseMsg .zero .init (linearMsg twoFragments.bytes ⟨⟨1, 1⟩, ⟨2, 2⟩⟩ true) .zero f
    let p' := parseMsg .zero .init (linearMsg oneFrame.bytes ⟨⟨1, 1⟩, ⟨2, 2⟩⟩ true) .zero f
    (p.ret = .ok twoFragments.bytes.length ∧ p'.ret = .ok oneFrame.bytes.length ∨
        ∃ e, p.ret = .error e ∧ p'.ret = .error e) ∧
      SameTables p.maps p'.maps ∧
      ∀ idx, getMatchMsg .zero p'.maps p'.msg p'.pres idx =
        getMatchMsg .zero p.maps p.msg p.pres idx :=
  parseMsg_fragmented .zero .init twoFragments oneFrame (plainFrame_plain _) (by decide) rfl
    (by decide) (by decide) rfl rfl rfl (by decide) (by decide) rfl rfl

end Beeper.Http2
