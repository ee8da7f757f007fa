import Beeper.BlockMessages

namespace Beeper.Http2

variable {h : FrameHead} {pre front block back post acc : Bytes} {buf : BlockBuf} {first : Bool}
  {sid n : Nat}

/-- What is pulled in of a message ends within a frame, or in front of it. -/
theorem collectFrame_cut (h : FrameHead) (pre front block back post acc : Bytes) (buf : BlockBuf)
    (first : Bool) (sid : Nat) (hpre : pre.length ≤ maxBytes)
    (hlen : (front ++ block ++ back).length < 2 ^ 24)
    (hcont : ¬first → h.type.toNat = http2ContinuationFrame ∧ h.sid = sid)
    (hcut : n < (pre ++ h.frame (front ++ block ++ back)).length) :
    ∃ need, need ≤ (pre ++ h.frame (front ++ block ++ back)).length ∧
      collectFrame ((pre ++ (h.frame (front ++ block ++ back) ++ post)).take n) 0 first pre.length
        acc.length sid buf = .stop ⟨.error .EAGAIN, ⟨0, need⟩, buf⟩ := by
  have htype : hdrType (pre ++ (h.frame (front ++ block ++ back) ++ post)) pre.length =
      h.type.toNat := by rw [frame_assoc, hdrType_bytes]
  have hsid : hdrSid (pre ++ (h.frame (front ++ block ++ back) ++ post)) pre.length = h.sid := by
    rw [frame_assoc, hdrSid_bytes]
  have hhdr : hdrLen (pre ++ (h.frame (front ++ block ++ back) ++ post)) pre.length =
      (front ++ block ++ back).length := by rw [frame_assoc, hdrLen_bytes hlen]
  have hsize : (pre ++ h.frame (front ++ block ++ back)).length =
      pre.length + (http2FrameHdrLen + (front ++ block ++ back).length) := by
    rw [List.length_append, FrameHead.frame_length]
  have htake : ((pre ++ (h.frame (front ++ block ++ back) ++ post)).take n).length = n := by
    rw [← List.append_assoc]
    apply List.length_take_of_le
    rw [List.length_append]
    omega
  have hasks : ∃ total ≤ (pre ++ h.frame (front ++ block ++ back)).length,
      asksForMore (pre ++ (h.frame (front ++ block ++ back) ++ post)) first pre.length sid n =
        some total := by
    unfold asksForMore
    rw [if_neg (Nat.not_lt.mpr hpre), htype, hsid, hhdr]
    by_cases hshort : n < pre.length + http2FrameHdrLen
    · exact ⟨pre.length + http2FrameHdrLen, by omega, if_pos hshort⟩
    · refine ⟨pre.length + (http2FrameHdrLen + (front ++ block ++ back).length), by omega, ?_⟩
      rw [if_neg hshort,
        if_neg (fun hb => hb.2.elim (fun ht => ht (hcont hb.1).1) fun hs => hs (hcont hb.1).2)]
      exact if_pos (by omega)
  obtain ⟨total, hle, hasks⟩ := hasks
  refine ⟨total, hle, ?_⟩
  rw [← asksForMore_take (n := n)] at hasks
  have hcheck := checkFrame_asks acc.length (Nat.zero_le pre.length) (by rwa [htake])
  unfold collectFrame
  rw [hcheck]
  rfl

/-- What a block comes to that is not there to its end, of `size` bytes. -/
def Unfinished (c : Collected) (size : Nat) : Prop :=
  c.ret = .error .E2BIG ∨ c.ret = .error .EAGAIN ∧ c.blk.need ≤ size

theorem collectLoop_cut {cs : List Continuation} {last : Continuation} (rounds : Nat)
    (pre post acc : Bytes) (buf : BlockBuf) (hcs : ∀ c ∈ cs, c.Continues sid false) (hlast : last.Continues sid true)
    (hpre : pre.length ≤ maxBytes) (hn : n ≤ maxBytes)
    (hcut : n < (pre ++ ((cs ++ [last]).map Continuation.bytes).flatten).length)
    (hfit : (acc ++ ((cs ++ [last]).map Continuation.block).flatten).length ≤ blockMaxlen) :
    Unfinished (collectLoop ((pre ++ (((cs ++ [last]).map Continuation.bytes).flatten ++ post)).take n)
      0 rounds false pre.length acc.length sid buf)
      (pre ++ ((cs ++ [last]).map Continuation.bytes).flatten).length := by
  induction cs generalizing rounds pre acc buf with
  | nil =>
    cases rounds with
    | zero => exact .inl rfl
    | succ rounds =>
      have hbytes : (([] ++ [last]).map Continuation.bytes).flatten =
          last.head.frame ([] ++ last.block ++ []) := by simp [Continuation.bytes]
      have hblock : (([] ++ [last]).map Continuation.block).flatten = last.block := by simp
      rw [hbytes] at hcut ⊢
      rw [hblock, List.length_append] at hfit
      obtain ⟨need, hle, hround⟩ := collectFrame_cut last.head pre [] last.block [] post acc buf
        false sid hpre (by simp only [List.nil_append, List.append_nil]; unfold blockMaxlen blockBufSize at hfit; omega)
        (fun _ => ⟨hlast.1, hlast.2.1⟩) hcut
      simp only [collectLoop, hround]
      exact .inr ⟨rfl, hle⟩
  | cons c cs ih =>
    cases rounds with
    | zero => exact .inl rfl
    | succ rounds =>
      obtain ⟨htype, hsid, hend⟩ := hcs c List.mem_cons_self
      have hframe : c.bytes = c.head.frame ([] ++ c.block ++ []) := by simp [Continuation.bytes]
      have hbytes : pre ++ ((c :: cs ++ [last]).map Continuation.bytes).flatten =
          (pre ++ c.bytes) ++ ((cs ++ [last]).map Continuation.bytes).flatten := by
        simp only [List.cons_append, List.map_cons, List.flatten_cons, List.append_assoc]
      have hdata : pre ++ (((c :: cs ++ [last]).map Continuation.bytes).flatten ++ post) =
          pre ++ (c.bytes ++ (((cs ++ [last]).map Continuation.bytes).flatten ++ post)) := by
        simp only [List.cons_append, List.map_cons, List.flatten_cons, List.append_assoc]
      have hblock : acc ++ ((c :: cs ++ [last]).map Continuation.block).flatten =
          (acc ++ c.block) ++ ((cs ++ [last]).map Continuation.block).flatten := by
        simp only [List.cons_append, List.map_cons, List.flatten_cons, List.append_assoc]
      have hshort : c.block.length ≤ blockMaxlen := by
        rw [hblock, List.length_append, List.length_append] at hfit
        omega
      rw [hblock] at hfit
      rw [hbytes] at hcut ⊢
      rw [hdata]
      by_cases hin : n < (pre ++ c.bytes).length
      · rw [hframe] at hin
        obtain ⟨need, hle, hround⟩ := collectFrame_cut c.head pre [] c.block []
          (((cs ++ [last]).map Continuation.bytes).flatten ++ post) acc buf false sid hpre
          (by simp only [List.nil_append, List.append_nil]; unfold blockMaxlen blockBufSize at hshort; omega)
          (fun _ => ⟨htype, hsid⟩) hin
        rw [← hframe] at hle hround
        simp only [collectLoop, hround]
        refine .inr ⟨rfl, Nat.le_trans hle ?_⟩
        have hsplit := @List.length_append _ (pre ++ c.bytes)
          (((cs ++ [last]).map Continuation.bytes).flatten)
        omega
      · rw [Nat.not_lt] at hin
        have hrec := ih rounds (pre ++ c.bytes) (acc ++ c.block) (buf.copy acc.length c.block)
          (fun c' hc' => hcs c' (List.mem_cons_of_mem c hc'))
          (Nat.le_trans hin hn) hcut hfit
        rw [List.append_assoc] at hrec
        have hfront : (pre ++ (c.bytes ++ (((cs ++ [last]).map Continuation.bytes).flatten ++ post))).take n =
            pre ++ (c.bytes ++ (((cs ++ [last]).map Continuation.bytes).flatten ++ post).take (n - (pre ++ c.bytes).length)) := by
          rw [← List.append_assoc, List.take_append, List.take_of_length_le hin, List.append_assoc]
        rw [List.length_append, List.length_append] at hfit
        have hround := collectFrame_frame pre
          ((((cs ++ [last]).map Continuation.bytes).flatten ++ post).take
            (n - (pre ++ c.bytes).length)) buf acc 0 sid
          (carries_continuation c.head c.block) hpre
          (by simp only [List.nil_append, List.append_nil]; unfold blockMaxlen blockBufSize at hshort; omega)
          (fun _ => ⟨htype, hsid⟩) (by omega)
        rw [if_neg (fun he => Bool.false_ne_true (hend.mp he)), ← hframe, ← hfront] at hround
        simp only [collectLoop, hround, Bool.false_eq_true, if_false]
        exact hrec

theorem HeadersPayload.length_le (p : HeadersPayload) (flags : Nat) :
    (p.bytes flags).length ≤ p.block.length + 261 := by
  have hprio := p.priority_length
  have hpad := p.padding_lt
  unfold http2PriorityLen at hprio
  simp only [bytes, List.length_append]
  split <;> split <;> simp only [List.length_singleton, List.length_nil] <;> omega

/-- A block that fits the buffer fits a frame. -/
theorem HeadersPayload.length_lt {p : HeadersPayload} (h : p.block.length ≤ blockMaxlen)
    (flags : Nat) : (p.bytes flags).length < 2 ^ 24 := by
  have hle := p.length_le flags
  unfold blockMaxlen blockBufSize at h
  omega

/-- A block whose frames take up more than can be read is not put together. -/
theorem Fragmented.collect_cut (f : Fragmented) (post : Bytes) (buf : BlockBuf)
    (hsize : maxBytes < f.bytes.length) (hfit : f.block.length ≤ blockMaxlen) :
    Unfinished (collectBlock ((f.bytes ++ post).take maxBytes) 0 buf) f.bytes.length := by
  obtain ⟨front, back, hpayload, hcarries⟩ := f.payload.carries f.head
  have hlen : (front ++ f.payload.block ++ back).length < 2 ^ 24 := by
    rw [← hpayload]
    apply HeadersPayload.length_lt
    simp only [block, List.length_append] at hfit
    omega
  have hdata : f.bytes ++ post = [] ++ (f.head.frame (front ++ f.payload.block ++ back) ++
      (((f.middle ++ [f.last]).map Continuation.bytes).flatten ++ post)) := by
    rw [bytes, headers, hpayload, List.append_assoc, List.nil_append]
  have hbytes : f.bytes = f.head.frame (front ++ f.payload.block ++ back) ++
      ((f.middle ++ [f.last]).map Continuation.bytes).flatten := by
    rw [bytes, headers, hpayload]
  unfold collectBlock
  rw [hdata, collectLoop]
  by_cases hin : maxBytes < ([] ++ f.head.frame (front ++ f.payload.block ++ back)).length
  · obtain ⟨need, hle, hround⟩ := collectFrame_cut f.head [] front f.payload.block back
      (((f.middle ++ [f.last]).map Continuation.bytes).flatten ++ post) [] buf true 0
      (Nat.zero_le maxBytes) hlen (fun h => absurd rfl h) hin
    rw [List.length_nil] at hround
    rw [hround]
    refine .inr ⟨rfl, Nat.le_trans hle ?_⟩
    rw [hbytes, List.nil_append, List.length_append]
    exact Nat.le_add_right _ _
  · rw [Nat.not_lt, List.nil_append] at hin
    have hround := collectFrame_frame []
      ((((f.middle ++ [f.last]).map Continuation.bytes).flatten ++ post).take
        (maxBytes - (f.head.frame (front ++ f.payload.block ++ back)).length)) buf [] 0 0 hcarries
      (Nat.zero_le _) hlen (fun h => absurd rfl h) (by
        simp only [block, List.length_append] at hfit
        simp only [List.length_nil]
        omega)
    rw [if_neg (fun h => h f.head_flags), List.nil_append, List.nil_append, if_pos rfl,
      List.length_nil] at hround
    rw [List.nil_append, List.take_append, List.take_of_length_le hin, hround]
    have hcut := collectLoop_cut (maxBytes / http2FrameHdrLen)
      (f.head.frame (front ++ f.payload.block ++ back)) post f.payload.block
      (buf.copy 0 f.payload.block) f.middle_continues f.last_continues hin (Nat.le_refl maxBytes) (by rwa [← hbytes]) hfit
    rw [List.take_append, List.take_of_length_le hin, ← hbytes] at hcut
    exact hcut

/-- Its first frame is there, so it is refused. -/
theorem Fragmented.tooBig (f : Fragmented) (rd : Rodata) (maps : Maps) {msg : SkMsg}
    (frame : Http2Frame) (hm : msg.bytes = f.bytes ++ post) (h9 : http2FrameHdrLen ≤ msg.linear)
    (hpull : msg.pullable = true) (h0 : f.head.sid ≠ 0) (hsize : maxBytes < f.bytes.length)
    (hfit : f.block.length ≤ blockMaxlen) :
    (parseMsg rd maps msg .zero frame).ret = .error .E2BIG := by
  have hlen := f.bytes_length
  have hmsg : msg.bytes.length = f.bytes.length + post.length := by rw [hm, List.length_append]
  have hfirst : newHttp2Frame msg.bytes 0 = ⟨f.head.sid, f.head.type.toNat, f.head.flags.toNat, 0,
      0, (f.payload.bytes f.head.flags.toNat).length, 0⟩ := by
    rw [hm, bytes, headers, List.append_assoc]
    apply newHttp2Frame_frame
    apply HeadersPayload.length_lt
    simp only [block, List.length_append] at hfit
    omega
  obtain ⟨hv, -⟩ := headers_accepted (f := newHttp2Frame msg.bytes 0)
    (by rw [hfirst]; exact f.head_type) (by rw [hfirst]; exact h0)
  obtain ⟨msg', -, hparse⟩ := parseMsgFrame_pulled rd maps msg .zero hpull
    (Nat.le_trans h9 msg.linear_le) hv (by rw [hfirst]; simp only; omega)
    (by rw [hfirst]; exact ⟨f.head_type, f.head_flags⟩)
  have hmin : min msg.bytes.length maxBytes = maxBytes := by omega
  have hcut := f.collect_cut post maps.blockBuf hsize hfit
  rw [hmin, hm] at hparse
  rw [parseMsg_eq h9, hm, hparse]
  unfold parseBlock
  generalize collectBlock ((f.bytes ++ post).take maxBytes) 0 maps.blockBuf = c at hcut
  obtain ⟨ret, blk, b⟩ := c
  rcases hcut with hret | ⟨hret, hneed⟩
  · cases hret
    rfl
  · cases hret
    simp only [neverRead, if_true]
    rw [if_pos]
    refine ⟨trivial, ?_⟩
    rw [List.length_append]
    exact Nat.le_trans hneed (Nat.le_add_right _ _)

end Beeper.Http2
