import Beeper.BlockMessages
import Beeper.BlockOutcome
import Beeper.SkbCases

namespace Beeper.Http2

variable {rd : Rodata} {maps : Maps} {ctx : MsgCtx} {pre post : Bytes} {frame : Http2Frame}

theorem newHttp2Frame_at (h : FrameHead) {payload : Bytes} (pre post : Bytes)
    (hl : payload.length < 2 ^ 24) :
    newHttp2Frame (pre ++ (h.frame payload ++ post)) pre.length =
      ⟨h.sid, h.type.toNat, h.flags.toNat, 0, 0, payload.length, 0⟩ := by
  rw [frame_assoc]
  unfold newHttp2Frame
  rw [hdrLen_bytes hl, hdrType_bytes, hdrFlags_bytes, hdrSid_bytes]

theorem byteAt_append_left (xs post : Bytes) {i : Nat} (h : i < xs.length) :
    byteAt (xs ++ post) i = byteAt xs i := by
  unfold byteAt
  rw [List.getElem?_append_left h]

/-- What stands behind a frame makes no difference to where its block is. -/
theorem http2Block_append (data post : Bytes) {len type flags : Nat}
    (h : isPadded (decide (type = http2HeadersFrame)) flags → http2FrameHdrLen < data.length) :
    http2Block (data ++ post) len type flags = http2Block data len type flags := by
  have hpad : padLen (data ++ post) 0 (decide (type = http2HeadersFrame)) flags =
      padLen data 0 (decide (type = http2HeadersFrame)) flags := by
    unfold padLen
    split
    next hp => exact byteAt_append_left data post (by rw [Nat.zero_add]; exact h hp)
    next => rfl
  have hlong : ¬(isPadded (decide (type = http2HeadersFrame)) flags ∧
      data.length < http2FrameHdrLen + 1) := by
    rintro ⟨hp, hlt⟩
    have := h hp
    omega
  have hlong' : ¬(isPadded (decide (type = http2HeadersFrame)) flags ∧
      (data ++ post).length < http2FrameHdrLen + 1) := by
    rintro ⟨hp, hlt⟩
    rw [List.length_append] at hlt
    exact hlong ⟨hp, by omega⟩
  unfold http2Block
  simp only [hpad, if_neg hlong, if_neg hlong']

/-- The end of the block in its frame, in front of the padding. -/
def Whole.stop (w : Whole) : Nat := blockStart true w.head.flags.toNat + w.block.length

theorem Whole.stop_eq {w : Whole} {front back : Bytes} (hp : w.Parts front back) :
    w.stop = http2FrameHdrLen + (front ++ w.block).length := by
  rw [stop, hp.2.start, List.length_append, Nat.add_assoc]

theorem Whole.stop_le (w : Whole) : w.stop ≤ w.bytes.length := by
  obtain ⟨front, back, hp⟩ := w.payload.carries w.head
  have hpl := payload_length hp
  rw [stop_eq hp, w.bytes_length, List.length_append]
  omega

/-- The offsets of the block of a frame, wherever the frame stands. -/
theorem Whole.block_at_mod {w : Whole} (hd : ctx.data = pre ++ (w.bytes ++ post))
    {front back : Bytes} (hp : w.Parts front back) :
    http2Block (ctx.data.drop pre.length) (w.payload.bytes w.head.flags.toNat).length
        http2HeadersFrame w.head.flags.toNat =
      .ok (http2FrameHdrLen + front.length, w.stop % 2 ^ 16) := by
  have hpl := payload_length hp
  have hlen := w.bytes_length
  rw [hd, List.drop_left, http2Block_append, block_offsets_mod hp, stop_eq hp]
  intro hpadded
  obtain ⟨rest, hf, -⟩ := hp.2.padded hpadded
  have : 0 < front.length := by simp [hf]
  omega

theorem Whole.block_at {w : Whole} (hd : ctx.data = pre ++ (w.bytes ++ post))
    {front back : Bytes} (hp : w.Parts front back)
    (hsize : w.stop < 2 ^ 16) :
    http2Block (ctx.data.drop pre.length) (w.payload.bytes w.head.flags.toNat).length
        http2HeadersFrame w.head.flags.toNat =
      .ok (http2FrameHdrLen + front.length, http2FrameHdrLen + (front ++ w.block).length) := by
  rw [block_at_mod hd hp, Nat.mod_eq_of_lt hsize, stop_eq hp]

/-- A block that one frame carries is read in place, wherever the frame stands. -/
theorem Whole.readAt (w : Whole) (rd : Rodata) (maps : Maps) (f : Http2Frame)
    (hd : ctx.data = pre ++ (w.bytes ++ post)) {front back : Bytes} (hp : w.Parts front back)
    (hsize : pre.length + w.stop ≤ maxBytes) :
    BlockRead rd maps w.block 0
      ⟨ctx, maps.blockBuf, .msg, pre.length + (http2FrameHdrLen + front.length)⟩
      (parseFrame rd maps ctx pre.length (w.payload.bytes w.head.flags.toNat).length
        http2HeadersFrame w.head.flags.toNat .zero f none) := by
  have hpl := payload_length hp
  have hlen := w.bytes_length
  have hsum : (front ++ w.block).length = front.length + w.block.length := List.length_append
  have hblock := block_at hd hp (by unfold maxBytes at hsize; omega)
  rw [stop_eq hp] at hsize
  have hdata : ctx.data.length = pre.length + (w.bytes.length + post.length) := by
    rw [hd, List.length_append, List.length_append]
  have hslice : slice ctx.data (pre.length + (http2FrameHdrLen + front.length)) w.block.length =
      w.block := by
    have h := slice_frame w.head pre front w.block back post
    rw [hd, bytes, hp.1]
    exact h
  have hread := parseFrame_read rd maps f (by omega) hblock (by omega) (by omega)
  rw [hsum, ← Nat.add_assoc, Nat.add_sub_cancel_left, Nat.add_comm _ pre.length, hslice] at hread
  exact hread

/-- The bytes of the block, at their place in the frame. -/
theorem Whole.data_at {w : Whole} {front back : Bytes} (hp : w.Parts front back)
    (hd : ctx.data = pre ++ (w.bytes ++ post)) :
    ∃ head : Bytes, head.length = pre.length + (http2FrameHdrLen + front.length) ∧
      ctx.data = head ++ w.block ++ (back ++ post) := by
  refine ⟨pre ++ (w.head.bytes (w.payload.bytes w.head.flags.toNat).length ++ front), ?_, ?_⟩
  · rw [List.length_append, List.length_append, w.head.bytes_length]
  · rw [hd, bytes, FrameHead.frame, hp.1]
    simp only [List.append_assoc]

theorem Whole.legible {w : Whole} {front back : Bytes} (hp : w.Parts front back)
    (hd : ctx.data = pre ++ (w.bytes ++ post))
    (hsize : pre.length + w.stop ≤ maxBytes)
    (buf : BlockBuf) :
    Legible rd ⟨ctx, buf, .msg, pre.length + (http2FrameHdrLen + front.length)⟩ w.block := by
  obtain ⟨head, hbase, hdata⟩ := data_at hp hd
  have hlegible := @legible_msg rd ctx head w.block _ buf hdata (by
    rw [hbase]
    rw [stop_eq hp, List.length_append] at hsize
    unfold maxBytes at hsize
    omega)
  rwa [hbase] at hlegible

section Collecting

variable {sid off : Nat}

/-- A block that is too long is refused within one of its frames. -/
theorem collectLoop_long {cs : List Continuation} {last : Continuation} (rounds : Nat)
    (pre post acc : Bytes) (buf : BlockBuf) (hcs : ∀ c ∈ cs, c.Continues sid false)
    (hlast : last.Continues sid true)
    (hsize : (pre ++ ((cs ++ [last]).map Continuation.bytes).flatten).length ≤ maxBytes)
    (hlong : blockMaxlen < (acc ++ ((cs ++ [last]).map Continuation.block).flatten).length) :
    (collectLoop (pre ++ (((cs ++ [last]).map Continuation.bytes).flatten ++ post)) off rounds false
      pre.length acc.length sid buf).ret = .error .E2BIG := by
  induction cs generalizing rounds pre acc buf with
  | nil =>
    cases rounds with
    | zero => rfl
    | succ rounds =>
      have hbytes : (([] ++ [last]).map Continuation.bytes).flatten =
          last.head.frame ([] ++ last.block ++ []) := by simp [Continuation.bytes]
      have hblock : (([] ++ [last]).map Continuation.block).flatten = last.block := by simp
      rw [hblock, List.length_append] at hlong
      rw [hbytes, List.length_append, FrameHead.frame_length] at hsize
      have hround := collectFrame_long pre post buf acc off sid
        (carries_continuation last.head last.block) (by omega)
        (by unfold maxBytes at hsize; omega) (fun _ => ⟨hlast.1, hlast.2.1⟩) hlong
      rw [hbytes, collectLoop, hround]
  | cons c cs ih =>
    cases rounds with
    | zero => rfl
    | succ rounds =>
      obtain ⟨htype, hsid, hend⟩ := hcs c List.mem_cons_self
      have hframe : c.bytes = c.head.frame ([] ++ c.block ++ []) := by simp [Continuation.bytes]
      have hbytes : pre ++ ((c :: cs ++ [last]).map Continuation.bytes).flatten =
          (pre ++ c.bytes) ++ ((cs ++ [last]).map Continuation.bytes).flatten := by
        simp only [List.cons_append, List.map_cons, List.flatten_cons, List.append_assoc]
      have hdata : pre ++ (((c :: cs ++ [last]).map Continuation.bytes).flatten ++ post) =
          pre ++ (c.bytes ++ (((cs ++ [last]).map Continuation.bytes).flatten ++ post)) := by
        simp only [List.cons_append, List.map_cons, List.flatten_cons, List.append_assoc]
      have hblock : acc ++ ((c :: cs ++ [last]).map Continuation.block).flatten =
          (acc ++ c.block) ++ ((cs ++ [last]).map Continuation.block).flatten := by
        simp only [List.cons_append, List.map_cons, List.flatten_cons, List.append_assoc]
      have hlen : (pre ++ c.bytes).length =
          pre.length + (http2FrameHdrLen + ([] ++ c.block ++ []).length) := by
        rw [List.length_append, hframe, FrameHead.frame_length]
      have hpre : (pre ++ c.bytes).length ≤ maxBytes := by
        rw [hbytes, List.length_append] at hsize
        omega
      rw [hbytes] at hsize
      rw [hblock] at hlong
      rw [hdata]
      by_cases hfit : acc.length + c.block.length ≤ blockMaxlen
      · have hround := collectFrame_frame pre
          (((cs ++ [last]).map Continuation.bytes).flatten ++ post) buf acc off sid
          (carries_continuation c.head c.block) (by omega)
          (by unfold maxBytes at hpre; omega) (fun _ => ⟨htype, hsid⟩) hfit
        rw [if_neg (fun he => Bool.false_ne_true (hend.mp he)), ← hframe] at hround
        have hrec := ih rounds (pre ++ c.bytes) (acc ++ c.block) (buf.copy acc.length c.block)
          (fun c' hc' => hcs c' (List.mem_cons_of_mem c hc')) hsize hlong
        rw [List.append_assoc] at hrec
        simp only [collectLoop, hround, Bool.false_eq_true, if_false]
        exact hrec
      · have hround := collectFrame_long pre
          (((cs ++ [last]).map Continuation.bytes).flatten ++ post) buf acc off sid
          (carries_continuation c.head c.block) (by omega)
          (by unfold maxBytes at hpre; omega) (fun _ => ⟨htype, hsid⟩) (Nat.not_le.mp hfit)
        rw [← hframe] at hround
        rw [collectLoop, hround]

/-- A block that was cut is put together wherever its frames stand, unless it is too long. -/
theorem Fragmented.collect_at (f : Fragmented) (pre post : Bytes) (buf : BlockBuf)
    (hsize : pre.length + f.bytes.length ≤ maxBytes) :
    (f.block.length ≤ blockMaxlen →
      ∃ b, collectBlock (pre ++ (f.bytes ++ post)) pre.length buf =
        ⟨.ok f.bytes.length, ⟨f.block.length, 0⟩, b⟩ ∧ b.Has f.block) ∧
      (blockMaxlen < f.block.length →
        (collectBlock (pre ++ (f.bytes ++ post)) pre.length buf).ret = .error .E2BIG) := by
  obtain ⟨front, back, hpayload, hcarries⟩ := f.payload.carries f.head
  have hlen := f.bytes_length
  have hmin := flatten_length_ge (f.middle ++ [f.last])
  have hrounds : f.middle.length < maxBytes / http2FrameHdrLen := by
    simp only [List.length_append, List.length_singleton, http2FrameHdrLen] at hmin hlen ⊢
    unfold maxBytes at hsize ⊢
    omega
  have hdata : pre ++ (f.bytes ++ post) = pre ++ (f.headers ++
      (((f.middle ++ [f.last]).map Continuation.bytes).flatten ++ post)) := by
    rw [bytes, List.append_assoc]
  have htotal : ((pre ++ f.headers) ++
      ((f.middle ++ [f.last]).map Continuation.bytes).flatten).length =
      pre.length + f.bytes.length := by
    rw [List.append_assoc, ← bytes, List.length_append]
  have hframes : ((pre ++ f.headers) ++
      ((f.middle ++ [f.last]).map Continuation.bytes).flatten).length ≤ maxBytes := by
    rw [htotal]
    exact hsize
  have hpay : (front ++ f.payload.block ++ back).length < 2 ^ 24 := by
    rw [← hpayload]
    unfold maxBytes at hsize
    omega
  have hheaders : f.head.frame (front ++ f.payload.block ++ back) = f.headers := by
    rw [← hpayload, headers]
  unfold collectBlock
  rw [hdata, collectLoop]
  by_cases hfit : f.payload.block.length ≤ blockMaxlen
  · have hround := collectFrame_frame pre
      (((f.middle ++ [f.last]).map Continuation.bytes).flatten ++ post) buf [] pre.length 0 hcarries
      (by omega) hpay (fun h => absurd rfl h) (by rw [List.length_nil]; omega)
    rw [if_neg (fun h => h f.head_flags), List.nil_append, if_pos rfl, List.length_nil,
      hheaders] at hround
    have hnil : Filled buf [] := fun i hi => absurd hi (Nat.not_lt_zero i)
    rw [hround]
    simp only
    rw [← List.append_assoc pre]
    refine ⟨fun hshort => ?_, fun hlong => ?_⟩
    · obtain ⟨b, hloop, hhas⟩ := collectLoop_continuations pre.length post f.middle_continues
        f.last_continues hrounds hframes hshort
        (hnil.copy f.payload.block)
      rw [htotal, Nat.add_sub_cancel_left] at hloop
      exact ⟨b, hloop, hhas⟩
    · exact collectLoop_long _ (pre ++ f.headers) post f.payload.block _ f.middle_continues
        f.last_continues hframes hlong
  · have hround := collectFrame_long pre
      (((f.middle ++ [f.last]).map Continuation.bytes).flatten ++ post) buf [] pre.length 0 hcarries
      (by omega) hpay (fun h => absurd rfl h) (by rw [List.length_nil]; omega)
    rw [List.length_nil, hheaders] at hround
    have hblock : f.block.length = f.payload.block.length +
        (((f.middle ++ [f.last]).map Continuation.block).flatten).length := by
      rw [block, List.length_append]
    rw [hround]
    exact ⟨fun hshort => absurd hshort (by omega), fun _ => rfl⟩

/-- A frame that is not refused starts within what is read and fits the buffer. -/
theorem collectFrame_fits {h : FrameHead} {front block back : Bytes} {first : Bool}
    (hc : Carries first h front block back) (pre post acc : Bytes) (buf : BlockBuf) (off sid : Nat)
    (hlen : (front ++ block ++ back).length < 2 ^ 24)
    (hcont : ¬first → h.type.toNat = http2ContinuationFrame ∧ h.sid = sid) :
    (pre.length ≤ maxBytes ∧ acc.length + block.length ≤ blockMaxlen) ∨
      collectFrame (pre ++ (h.frame (front ++ block ++ back) ++ post)) off first pre.length
        acc.length sid buf = .stop ⟨.error .E2BIG, ⟨0, 0⟩, buf⟩ := by
  by_cases hpre : pre.length ≤ maxBytes
  case neg =>
    right
    unfold collectFrame checkFrame
    rw [if_pos (Nat.not_le.mp hpre)]
  by_cases hfit : acc.length + block.length ≤ blockMaxlen
  · exact .inl ⟨hpre, hfit⟩
  · exact .inr (collectFrame_long pre post buf acc off sid hc hpre hlen hcont (Nat.not_le.mp hfit))

/-- CONTINUATION frames that are put together come to the block they carry. -/
theorem collectLoop_sent {cs : List Continuation} {last : Continuation} {rounds total : Nat}
    {pre acc : Bytes} {buf : BlockBuf} (post : Bytes) (hcs : ∀ c ∈ cs, c.Continues sid false)
    (hlast : last.Continues sid true) (hlen : ∀ c ∈ cs ++ [last], c.block.length < 2 ^ 24)
    (hb : Filled buf acc)
    (h : (collectLoop (pre ++ (((cs ++ [last]).map Continuation.bytes).flatten ++ post)) off rounds
      false pre.length acc.length sid buf).ret = .ok total) :
    ∃ b, collectLoop (pre ++ (((cs ++ [last]).map Continuation.bytes).flatten ++ post)) off rounds
        false pre.length acc.length sid buf =
        ⟨.ok ((pre ++ ((cs ++ [last]).map Continuation.bytes).flatten).length - off),
          ⟨(acc ++ ((cs ++ [last]).map Continuation.block).flatten).length, 0⟩, b⟩ ∧
      b.Has (acc ++ ((cs ++ [last]).map Continuation.block).flatten) := by
  induction cs generalizing pre acc buf rounds with
  | nil =>
    cases rounds with
    | zero => cases h
    | succ rounds =>
      have hbytes : (([] ++ [last]).map Continuation.bytes).flatten =
          last.head.frame ([] ++ last.block ++ []) := by simp [Continuation.bytes]
      have hblock : (([] ++ [last]).map Continuation.block).flatten = last.block := by simp
      have hl : ([] ++ last.block ++ []).length < 2 ^ 24 := by
        rw [List.nil_append, List.append_nil]
        exact hlen last (List.mem_singleton.mpr rfl)
      rw [hbytes] at h ⊢
      rw [hblock]
      rcases collectFrame_fits (carries_continuation last.head last.block) pre post acc buf off sid
        hl (fun _ => ⟨hlast.1, hlast.2.1⟩) with ⟨hpre, hfit⟩ | hstop
      · have hround := collectFrame_frame pre post buf acc off sid
          (carries_continuation last.head last.block) hpre hl (fun _ => ⟨hlast.1, hlast.2.1⟩) hfit
        rw [if_pos (hlast.2.2.mpr rfl)] at hround
        have hfilled := hb.copy last.block
        rw [← List.length_append] at hfit
        refine ⟨_, ?_, hfilled.has hfit⟩
        simp only [collectLoop, hround]
      · rw [collectLoop, hstop] at h
        cases h
  | cons c cs ih =>
    cases rounds with
    | zero => cases h
    | succ rounds =>
      obtain ⟨htype, hsid, hend⟩ := hcs c List.mem_cons_self
      have hbytes : pre ++ ((c :: cs ++ [last]).map Continuation.bytes).flatten =
          (pre ++ c.bytes) ++ ((cs ++ [last]).map Continuation.bytes).flatten := by
        simp only [List.cons_append, List.map_cons, List.flatten_cons, List.append_assoc]
      have hdata : pre ++ (((c :: cs ++ [last]).map Continuation.bytes).flatten ++ post) =
          (pre ++ c.bytes) ++ (((cs ++ [last]).map Continuation.bytes).flatten ++ post) := by
        simp only [List.cons_append, List.map_cons, List.flatten_cons, List.append_assoc]
      have hblock : acc ++ ((c :: cs ++ [last]).map Continuation.block).flatten =
          (acc ++ c.block) ++ ((cs ++ [last]).map Continuation.block).flatten := by
        simp only [List.cons_append, List.map_cons, List.flatten_cons, List.append_assoc]
      have hframe : c.bytes = c.head.frame ([] ++ c.block ++ []) := by simp [Continuation.bytes]
      have hl : ([] ++ c.block ++ []).length < 2 ^ 24 := by
        rw [List.nil_append, List.append_nil]
        exact hlen c List.mem_cons_self
      rw [hdata] at h ⊢
      rw [hbytes, hblock]
      rcases collectFrame_fits (carries_continuation c.head c.block) pre
        (((cs ++ [last]).map Continuation.bytes).flatten ++ post) acc buf off sid hl
        (fun _ => ⟨htype, hsid⟩) with ⟨hpre, hfit⟩ | hstop
      · have hround := collectFrame_frame pre
          (((cs ++ [last]).map Continuation.bytes).flatten ++ post) buf acc off sid
          (carries_continuation c.head c.block) hpre hl (fun _ => ⟨htype, hsid⟩) hfit
        rw [if_neg (fun he => Bool.false_ne_true (hend.mp he)), ← hframe,
          ← List.append_assoc pre] at hround
        simp only [collectLoop, hround, Bool.false_eq_true, if_false] at h ⊢
        exact ih (fun c' hc' => hcs c' (List.mem_cons_of_mem c hc'))
          (fun c' hc' => hlen c' (List.mem_cons_of_mem c hc')) (hb.copy c.block) h
      · rw [← hframe, ← List.append_assoc pre] at hstop
        rw [collectLoop, hstop] at h
        cases h

/-- The frames of a block have lengths that their headers can hold. -/
structure Fragmented.Sized (f : Fragmented) : Prop where
  headers : (f.payload.bytes f.head.flags.toNat).length < 2 ^ 24
  continuations : ∀ c ∈ f.middle ++ [f.last], c.block.length < 2 ^ 24

/-- A block that is put together is the one that was cut. -/
theorem Fragmented.collected (f : Fragmented) (hs : f.Sized) (pre post : Bytes) (buf : BlockBuf)
    {total : Nat}
    (h : (collectBlock (pre ++ (f.bytes ++ post)) pre.length buf).ret = .ok total) :
    ∃ b, collectBlock (pre ++ (f.bytes ++ post)) pre.length buf =
      ⟨.ok f.bytes.length, ⟨f.block.length, 0⟩, b⟩ ∧ b.Has f.block := by
  obtain ⟨front, back, hpayload, hcarries⟩ := f.payload.carries f.head
  have hdata : pre ++ (f.bytes ++ post) = pre ++ (f.headers ++
      (((f.middle ++ [f.last]).map Continuation.bytes).flatten ++ post)) := by
    rw [bytes, List.append_assoc]
  have htotal : ((pre ++ f.headers) ++
      ((f.middle ++ [f.last]).map Continuation.bytes).flatten).length =
      pre.length + f.bytes.length := by
    rw [List.append_assoc, ← bytes, List.length_append]
  have hpay : (front ++ f.payload.block ++ back).length < 2 ^ 24 := hpayload ▸ hs.headers
  have hheaders : f.head.frame (front ++ f.payload.block ++ back) = f.headers := by
    rw [← hpayload, headers]
  have hnil : Filled buf [] := fun i hi => absurd hi (Nat.not_lt_zero i)
  unfold collectBlock at h ⊢
  rw [hdata, collectLoop] at h ⊢
  rcases collectFrame_fits hcarries pre
    (((f.middle ++ [f.last]).map Continuation.bytes).flatten ++ post) [] buf pre.length 0 hpay
    (fun h => absurd rfl h) with ⟨hpre, hfit⟩ | hstop
  · have hround := collectFrame_frame pre
      (((f.middle ++ [f.last]).map Continuation.bytes).flatten ++ post) buf [] pre.length 0 hcarries
      hpre hpay (fun h => absurd rfl h) hfit
    rw [if_neg (fun h => h f.head_flags), List.nil_append, if_pos rfl, List.length_nil,
      hheaders] at hround
    rw [hround] at h ⊢
    simp only at h ⊢
    rw [← List.append_assoc pre] at h ⊢
    obtain ⟨b, hloop, hhas⟩ := collectLoop_sent post f.middle_continues f.last_continues
      hs.continuations (hnil.copy f.payload.block) h
    rw [htotal, Nat.add_sub_cancel_left] at hloop
    exact ⟨b, hloop, hhas⟩
  · rw [hheaders, List.length_nil] at hstop
    rw [hstop] at h
    cases h

end Collecting

end Beeper.Http2
