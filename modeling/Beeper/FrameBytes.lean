import Beeper.FramePrefix

namespace Beeper.Http2

/-- A number in `n` bytes, the most significant one first. -/
def bigEndian : Nat → Nat → Bytes
  | 0, _ => []
  | n + 1, k => UInt8.ofNat (k / 256 ^ n) :: bigEndian n k

/-- A frame of `type` on the stream `sid`. The bit in front of the stream id is `reserved`. -/
structure FrameHead where
  type : UInt8
  flags : UInt8
  reserved : Bool
  sid : Nat
  sid_lt : sid < 2 ^ 31

theorem firstStream_lt : 1 < 2 ^ 31 := by
  decide

def FrameHead.bytes (h : FrameHead) (len : Nat) : Bytes :=
  bigEndian 3 len ++ [h.type, h.flags] ++ bigEndian 4 (h.sid + if h.reserved then 2 ^ 31 else 0)

def FrameHead.frame (h : FrameHead) (payload : Bytes) : Bytes :=
  h.bytes payload.length ++ payload

variable {h : FrameHead} {len : Nat} {pre post : Bytes}

theorem FrameHead.bytes_length (h : FrameHead) (len : Nat) : (h.bytes len).length = http2FrameHdrLen := rfl

@[simp] theorem FrameHead.frame_length {payload : Bytes} :
    (h.frame payload).length = http2FrameHdrLen + payload.length := by
  rw [frame, List.length_append, bytes_length]

theorem byteAt_append (pre xs : Bytes) (i : Nat) :
    byteAt (pre ++ xs) (pre.length + i) = byteAt xs i := by
  unfold byteAt
  rw [List.getElem?_append_right (by omega), Nat.add_sub_cancel_left]

theorem hdrLen_bytes (hl : len < 2 ^ 24) :
    hdrLen (pre ++ (h.bytes len ++ post)) pre.length = len := by
  have h0 := byteAt_append pre (h.bytes len ++ post) 0
  rw [Nat.add_zero] at h0
  unfold hdrLen
  rw [h0, byteAt_append, byteAt_append]
  simp [FrameHead.bytes, bigEndian, byteAt]
  omega

theorem hdrType_bytes : hdrType (pre ++ (h.bytes len ++ post)) pre.length = h.type.toNat :=
  byteAt_append pre _ 3

theorem hdrFlags_bytes : hdrFlags (pre ++ (h.bytes len ++ post)) pre.length = h.flags.toNat :=
  byteAt_append pre _ 4

theorem hdrSid_bytes : hdrSid (pre ++ (h.bytes len ++ post)) pre.length = h.sid := by
  have hs := h.sid_lt
  unfold hdrSid
  rw [byteAt_append, byteAt_append, byteAt_append, byteAt_append]
  cases hr : h.reserved <;> simp [FrameHead.bytes, bigEndian, byteAt, hr] <;> omega

end Beeper.Http2
