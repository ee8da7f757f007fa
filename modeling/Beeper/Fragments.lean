import Beeper.FrameBytes
import Beeper.MessageExtension

namespace Beeper.Http2

/-- The payload of a HEADERS frame: its part of the header block, behind a priority and between a
pad length and that much padding, where its flags say so. -/
structure HeadersPayload where
  priority : Bytes
  block : Bytes
  padding : Bytes
  priority_length : priority.length = http2PriorityLen
  padding_lt : padding.length < 256

def HeadersPayload.bytes (p : HeadersPayload) (flags : Nat) : Bytes :=
  (if isPadded true flags then [UInt8.ofNat p.padding.length] else []) ++
    (if flags &&& http2PriorityFlag ≠ 0 then p.priority else []) ++ p.block ++
    (if isPadded true flags then p.padding else [])

/-- A CONTINUATION frame and its part of the header block. -/
structure Continuation where
  head : FrameHead
  block : Bytes

def Continuation.bytes (c : Continuation) : Bytes := c.head.frame c.block

/-- Whether a CONTINUATION frame carries on the block of the stream `sid`, and `isLast` ends it. -/
def Continuation.Continues (c : Continuation) (sid : Nat) (isLast : Bool) : Prop :=
  c.head.type.toNat = http2ContinuationFrame ∧ c.head.sid = sid ∧
    (c.head.flags.toNat &&& http2EndHeadersFlag ≠ 0 ↔ isLast = true)

/-- A header block cut into a HEADERS frame, any number of CONTINUATION frames and a last one. -/
structure Fragmented where
  head : FrameHead
  payload : HeadersPayload
  middle : List Continuation
  last : Continuation
  head_type : head.type.toNat = http2HeadersFrame
  head_flags : head.flags.toNat &&& http2EndHeadersFlag = 0
  middle_continues : ∀ c ∈ middle, c.Continues head.sid false
  last_continues : last.Continues head.sid true

def Fragmented.headers (f : Fragmented) : Bytes :=
  f.head.frame (f.payload.bytes f.head.flags.toNat)

def Fragmented.bytes (f : Fragmented) : Bytes :=
  f.headers ++ ((f.middle ++ [f.last]).map Continuation.bytes).flatten

/-- The block that was cut. -/
def Fragmented.block (f : Fragmented) : Bytes :=
  f.payload.block ++ ((f.middle ++ [f.last]).map Continuation.block).flatten

/-- The first bytes of the buffer are `acc`. -/
def Filled (buf : BlockBuf) (acc : Bytes) : Prop :=
  ∀ i (hi : i < acc.length), buf.data i = acc[i]

theorem Filled.copy {buf : BlockBuf} {acc : Bytes} (h : Filled buf acc) (bytes : Bytes) :
    Filled (buf.copy acc.length bytes) (acc ++ bytes) := by
  intro i hi
  by_cases hl : i < acc.length
  · rw [copy_data_lt bytes hl, List.getElem_append_left hl, h i hl]
  · rw [Nat.not_lt] at hl
    rw [List.length_append] at hi
    rw [copy_data_ge hl (by omega), List.getElem_append_right hl]

section Frames

variable {h : FrameHead} {pre front block back post : Bytes} {buf : BlockBuf} {acc : Bytes}
  {first : Bool} {off sid : Nat}

theorem frame_assoc (h : FrameHead) (pre payload post : Bytes) :
    pre ++ (h.frame payload ++ post) = pre ++ (h.bytes payload.length ++ (payload ++ post)) := by
  rw [FrameHead.frame, List.append_assoc]

/-- The part of the block a frame carries, by its offset in the message. -/
theorem slice_frame (h : FrameHead) (pre front block back post : Bytes) :
    slice (pre ++ (h.frame (front ++ block ++ back) ++ post))
      (pre.length + (http2FrameHdrLen + front.length)) block.length = block := by
  rw [frame_assoc, slice_append]
  simp only [List.append_assoc]
  rw [← FrameHead.bytes_length h (front ++ (block ++ back)).length, slice_append,
    ← Nat.add_zero front.length, slice_append]
  simp [slice]

/-- What it takes for the payload of a frame to be `block` between `front` and `back`. -/
structure Carries (first : Bool) (h : FrameHead) (front block back : Bytes) : Prop where
  start : blockStart first h.flags.toNat = http2FrameHdrLen + front.length
  pad : isPadded first h.flags.toNat = false → back = []
  padded : isPadded first h.flags.toNat = true →
    ∃ rest, front = UInt8.ofNat back.length :: rest ∧ back.length < 256

theorem Carries.padLen_eq (hc : Carries first h front block back) (pre post : Bytes) :
    padLen (pre ++ (h.frame (front ++ block ++ back) ++ post)) pre.length first h.flags.toNat =
      back.length := by
  unfold padLen
  cases hp : isPadded first h.flags.toNat with
  | false => simp [hc.pad hp]
  | true =>
    obtain ⟨rest, hf, hlt⟩ := hc.padded hp
    rw [if_pos rfl, frame_assoc, byteAt_append]
    have hb := byteAt_append (h.bytes (front ++ block ++ back).length)
      (front ++ block ++ back ++ post) 0
    rw [FrameHead.bytes_length, Nat.add_zero] at hb
    rw [hb, hf]
    simp only [byteAt, List.cons_append, List.getElem?_cons_zero, Option.getD_some,
      UInt8.toNat_ofNat']
    exact Nat.mod_eq_of_lt hlt

variable (pre post acc off sid) in
/-- A frame that arrived whole passes the checks, unless the block is too long. -/
theorem checkFrame_frame (hc : Carries first h front block back)
    (hpre : pre.length ≤ maxBytes) (hlen : (front ++ block ++ back).length < 2 ^ 24)
    (hcont : ¬first → h.type.toNat = http2ContinuationFrame ∧ h.sid = sid) :
    checkFrame (pre ++ (h.frame (front ++ block ++ back) ++ post)) off first pre.length
        acc.length sid =
      if blockMaxlen < acc.length + block.length then .error (.E2BIG, 0) else .ok block.length := by
  have hpad := hc.padLen_eq pre post
  have hflags : hdrFlags (pre ++ (h.frame (front ++ block ++ back) ++ post)) pre.length =
      h.flags.toNat := by rw [frame_assoc, hdrFlags_bytes]
  have htype : hdrType (pre ++ (h.frame (front ++ block ++ back) ++ post)) pre.length =
      h.type.toNat := by rw [frame_assoc, hdrType_bytes]
  have hsid : hdrSid (pre ++ (h.frame (front ++ block ++ back) ++ post)) pre.length = h.sid := by
    rw [frame_assoc, hdrSid_bytes]
  have hhdr : hdrLen (pre ++ (h.frame (front ++ block ++ back) ++ post)) pre.length =
      (front ++ block ++ back).length := by rw [frame_assoc, hdrLen_bytes hlen]
  have hdata : (pre ++ (h.frame (front ++ block ++ back) ++ post)).length =
      pre.length + (http2FrameHdrLen + (front ++ block ++ back).length) + post.length := by
    simp only [List.length_append, FrameHead.frame_length]
    omega
  have hn : http2FrameHdrLen + (front ++ block ++ back).length - back.length -
      (http2FrameHdrLen + front.length) = block.length := by
    simp only [List.length_append]
    omega
  unfold checkFrame
  rw [if_neg (Nat.not_lt.mpr hpre), if_neg (by rw [hdata]; omega), htype, hsid,
    if_neg (fun hb => hb.2.elim (fun ht => ht (hcont hb.1).1) fun hs => hs (hcont hb.1).2)]
  simp only [hflags, hhdr, hpad, hc.start]
  rw [if_neg (by rw [hdata]; omega), if_neg, if_neg (by simp only [List.length_append]; omega), hn]
  rintro ⟨hp, hlt⟩
  obtain ⟨rest, hf, -⟩ := hc.padded hp
  have : 0 < front.length := by simp [hf]
  simp only [List.length_append] at hlt
  omega

variable (pre post acc off sid buf) in
/-- A frame that arrived whole adds its part to the block. -/
theorem collectFrame_frame (hc : Carries first h front block back)
    (hpre : pre.length ≤ maxBytes) (hlen : (front ++ block ++ back).length < 2 ^ 24)
    (hcont : ¬first → h.type.toNat = http2ContinuationFrame ∧ h.sid = sid)
    (hfit : acc.length + block.length ≤ blockMaxlen) :
    collectFrame (pre ++ (h.frame (front ++ block ++ back) ++ post)) off first pre.length
        acc.length sid buf =
      if h.flags.toNat &&& http2EndHeadersFlag ≠ 0 then
        .stop ⟨.ok ((pre ++ h.frame (front ++ block ++ back)).length - off),
          ⟨(acc ++ block).length, 0⟩,
          { buf.copy acc.length block with len := (acc ++ block).length }⟩
      else
        .next (pre ++ h.frame (front ++ block ++ back)).length (acc ++ block).length
          (if first then h.sid else sid) (buf.copy acc.length block) := by
  have hslice := slice_frame h pre front block back post
  have hflags : hdrFlags (pre ++ (h.frame (front ++ block ++ back) ++ post)) pre.length =
      h.flags.toNat := by rw [frame_assoc, hdrFlags_bytes]
  have hsid : hdrSid (pre ++ (h.frame (front ++ block ++ back) ++ post)) pre.length = h.sid := by
    rw [frame_assoc, hdrSid_bytes]
  have hhdr : hdrLen (pre ++ (h.frame (front ++ block ++ back) ++ post)) pre.length =
      (front ++ block ++ back).length := by rw [frame_assoc, hdrLen_bytes hlen]
  unfold collectFrame
  rw [checkFrame_frame pre post acc off sid hc hpre hlen hcont, if_neg (Nat.not_lt.mpr hfit)]
  simp only [hflags, hhdr, hsid, hc.start, hslice, List.length_append, FrameHead.frame_length]

variable (pre post acc off sid buf) in
/-- Where the block gets too long, no more of it is collected. -/
theorem collectFrame_long (hc : Carries first h front block back)
    (hpre : pre.length ≤ maxBytes) (hlen : (front ++ block ++ back).length < 2 ^ 24)
    (hcont : ¬first → h.type.toNat = http2ContinuationFrame ∧ h.sid = sid)
    (hlong : blockMaxlen < acc.length + block.length) :
    collectFrame (pre ++ (h.frame (front ++ block ++ back) ++ post)) off first pre.length
        acc.length sid buf = .stop ⟨.error .E2BIG, ⟨0, 0⟩, buf⟩ := by
  unfold collectFrame
  rw [checkFrame_frame pre post acc off sid hc hpre hlen hcont, if_pos hlong]

theorem carries_continuation (h : FrameHead) (block : Bytes) : Carries false h [] block [] where
  start := by simp [blockStart, isPadded]
  pad _ := rfl
  padded hp := by simp [isPadded] at hp

theorem HeadersPayload.carries (p : HeadersPayload) (h : FrameHead) :
    ∃ front back, p.bytes h.flags.toNat = front ++ p.block ++ back ∧
      Carries true h front p.block back := by
  refine ⟨_, _, rfl, ?_, ?_, ?_⟩
  · have hl := p.priority_length
    unfold blockStart
    by_cases hpad : isPadded true h.flags.toNat <;>
      by_cases hprio : h.flags.toNat &&& http2PriorityFlag = 0 <;>
      simp [hpad, hprio, hl, Nat.add_comm, Nat.add_left_comm]
  · exact fun hp => by simp [hp]
  · intro hp
    exact ⟨if h.flags.toNat &&& http2PriorityFlag ≠ 0 then p.priority else [], by simp [hp],
      by simpa [hp] using p.padding_lt⟩

theorem Filled.has (hb : Filled buf acc) (hs : acc.length ≤ blockMaxlen) :
    BlockBuf.Has { buf with len := acc.length } acc :=
  ⟨rfl, hs, hb⟩

variable (off) in
/-- CONTINUATION frames are collected up to the one that ends the block. -/
theorem collectLoop_continuations {cs : List Continuation} {last : Continuation} {rounds : Nat}
    (post : Bytes) (hcs : ∀ c ∈ cs, c.Continues sid false) (hlast : last.Continues sid true)
    (hrounds : cs.length < rounds)
    (hsize : (pre ++ ((cs ++ [last]).map Continuation.bytes).flatten).length ≤ maxBytes)
    (hfit : (acc ++ ((cs ++ [last]).map Continuation.block).flatten).length ≤ blockMaxlen)
    (hb : Filled buf acc) :
    ∃ b, collectLoop (pre ++ (((cs ++ [last]).map Continuation.bytes).flatten ++ post)) off rounds
        false pre.length acc.length sid buf =
        ⟨.ok ((pre ++ ((cs ++ [last]).map Continuation.bytes).flatten).length - off),
          ⟨(acc ++ ((cs ++ [last]).map Continuation.block).flatten).length, 0⟩, b⟩ ∧
      b.Has (acc ++ ((cs ++ [last]).map Continuation.block).flatten) := by
  induction cs generalizing pre acc buf rounds with
  | nil =>
    obtain ⟨rounds, rfl⟩ : ∃ r, rounds = r + 1 := ⟨rounds - 1, by omega⟩
    have hbytes : (([] ++ [last]).map Continuation.bytes).flatten =
        last.head.frame ([] ++ last.block ++ []) := by simp [Continuation.bytes]
    have hblock : (([] ++ [last]).map Continuation.block).flatten = last.block := by simp
    rw [hbytes] at hsize ⊢
    rw [hblock] at hfit ⊢
    simp only [List.length_append, FrameHead.frame_length, List.length_nil, Nat.zero_add,
      Nat.add_zero, maxBytes] at hsize
    have hround := collectFrame_frame pre post buf acc off sid
      (carries_continuation last.head last.block)
      (by unfold maxBytes; omega) (by simp; omega) (fun _ => ⟨hlast.1, hlast.2.1⟩)
      (by rwa [List.length_append] at hfit)
    rw [if_pos (hlast.2.2.mpr rfl)] at hround
    refine ⟨_, ?_, (hb.copy last.block).has hfit⟩
    simp only [collectLoop, hround]
  | cons c cs ih =>
    obtain ⟨rounds, rfl⟩ : ∃ r, rounds = r + 1 := ⟨rounds - 1, by omega⟩
    simp only [List.length_cons] at hrounds
    obtain ⟨htype, hsid, hend⟩ := hcs c List.mem_cons_self
    have hbytes : pre ++ ((c :: cs ++ [last]).map Continuation.bytes).flatten =
        (pre ++ c.bytes) ++ ((cs ++ [last]).map Continuation.bytes).flatten := by
      simp only [List.cons_append, List.map_cons, List.flatten_cons, List.append_assoc]
    have hdata : pre ++ (((c :: cs ++ [last]).map Continuation.bytes).flatten ++ post) =
        (pre ++ c.bytes) ++ (((cs ++ [last]).map Continuation.bytes).flatten ++ post) := by
      simp only [List.cons_append, List.map_cons, List.flatten_cons, List.append_assoc]
    have hblock : acc ++ ((c :: cs ++ [last]).map Continuation.block).flatten =
        (acc ++ c.block) ++ ((cs ++ [last]).map Continuation.block).flatten := by
      simp only [List.cons_append, List.map_cons, List.flatten_cons, List.append_assoc]
    rw [hblock] at hfit ⊢
    rw [hbytes] at hsize ⊢
    rw [hdata]
    obtain ⟨b, hloop, hhas⟩ := ih (fun c' hc' => hcs c' (List.mem_cons_of_mem c hc'))
      (show cs.length < rounds by omega) hsize hfit (hb.copy c.block)
    refine ⟨b, ?_, hhas⟩
    rw [← hloop]
    have hframe : c.bytes = c.head.frame ([] ++ c.block ++ []) := by simp [Continuation.bytes]
    simp only [List.length_append, hframe, FrameHead.frame_length, List.length_nil, Nat.zero_add,
      Nat.add_zero, maxBytes] at hsize
    rw [List.length_append, List.length_append] at hfit
    have hround := collectFrame_frame pre (((cs ++ [last]).map Continuation.bytes).flatten ++ post)
      buf acc off sid (carries_continuation c.head c.block) (by unfold maxBytes; omega)
      (by simp; omega) (fun _ => ⟨htype, hsid⟩) (by omega)
    rw [if_neg (fun he => Bool.false_ne_true (hend.mp he)), ← hframe,
      ← List.append_assoc pre] at hround
    simp only [collectLoop, hround, Bool.false_eq_true, if_false]

end Frames

theorem flatten_length_ge (cs : List Continuation) :
    http2FrameHdrLen * cs.length ≤ ((cs.map Continuation.bytes).flatten).length := by
  induction cs with
  | nil => simp
  | cons c cs ih =>
    simp only [List.map_cons, List.flatten_cons, List.length_cons, List.length_append,
      Continuation.bytes, FrameHead.frame_length]
    rw [Nat.mul_succ]
    omega

theorem Fragmented.bytes_length (f : Fragmented) :
    f.bytes.length = http2FrameHdrLen + (f.payload.bytes f.head.flags.toNat).length +
      ((f.middle ++ [f.last]).map Continuation.bytes).flatten.length := by
  rw [bytes, headers, List.length_append, FrameHead.frame_length]

theorem Fragmented.collect_rounds (f : Fragmented) (post : Bytes) (buf : BlockBuf) {rounds : Nat}
    (hrounds : f.middle.length < rounds) (hsize : f.bytes.length ≤ maxBytes)
    (hfit : f.block.length ≤ blockMaxlen) :
    ∃ b, collectLoop (f.bytes ++ post) 0 (rounds + 1) true 0 0 0 buf =
        ⟨.ok f.bytes.length, ⟨f.block.length, 0⟩, b⟩ ∧ b.Has f.block := by
  obtain ⟨front, back, hpayload, hcarries⟩ := f.payload.carries f.head
  have hlen := f.bytes_length
  have hblock : f.payload.block.length ≤ f.block.length := by
    rw [block, List.length_append]
    omega
  have hround := collectFrame_frame [] (((f.middle ++ [f.last]).map Continuation.bytes).flatten ++
    post) buf [] 0 0 hcarries (Nat.zero_le _)
    (by rw [← hpayload]; unfold maxBytes at hsize; omega) (fun h => absurd rfl h)
    (by rw [List.length_nil]; omega)
  rw [if_neg (fun h => h f.head_flags), ← hpayload, List.nil_append, List.nil_append,
    List.nil_append, if_pos rfl] at hround
  have hdata : f.bytes ++ post = f.headers ++
      (((f.middle ++ [f.last]).map Continuation.bytes).flatten ++ post) := by
    rw [bytes, List.append_assoc]
  have hnil : Filled buf [] := fun i hi => absurd hi (Nat.not_lt_zero i)
  obtain ⟨b, hloop, hhas⟩ := collectLoop_continuations 0 post f.middle_continues f.last_continues
    hrounds
    (show (f.headers ++ ((f.middle ++ [f.last]).map Continuation.bytes).flatten).length ≤ maxBytes
      from hsize) hfit (hnil.copy f.payload.block)
  refine ⟨b, ?_, hhas⟩
  rw [hdata, collectLoop]
  change collectFrame (f.headers ++ _) 0 true 0 0 0 buf = _ at hround
  rw [hround]
  exact hloop

/-- A block that was cut is put together again. -/
theorem Fragmented.collect (f : Fragmented) (post : Bytes) (buf : BlockBuf)
    (hsize : f.bytes.length ≤ maxBytes) (hfit : f.block.length ≤ blockMaxlen) :
    ∃ b, collectBlock (f.bytes ++ post) 0 buf =
        ⟨.ok f.bytes.length, ⟨f.block.length, 0⟩, b⟩ ∧ b.Has f.block := by
  refine f.collect_rounds post buf ?_ hsize hfit
  have hlen := f.bytes_length
  have hmin := flatten_length_ge (f.middle ++ [f.last])
  simp only [List.length_append, List.length_singleton, http2FrameHdrLen] at hmin
  unfold maxBytes at hsize ⊢
  unfold http2FrameHdrLen
  omega

end Beeper.Http2
