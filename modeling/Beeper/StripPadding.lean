import Beeper.BlockMessages

namespace Beeper.Http2

/-- The payload of a HEADERS frame without the pad length, the priority and the padding, if these
fit into it. -/
def stripped (padded priority : Bool) (payload : Bytes) : Option Bytes :=
  let start := (if padded then 1 else 0) + (if priority then http2PriorityLen else 0)
  let pad := if padded then byteAt payload 0 else 0
  if start + pad ≤ payload.length then some (slice payload start (payload.length - start - pad))
  else none

/-- The header block that `parse_msg` finds in the frame `f` of `msg`, which ends the block. -/
def wholeBlock (msg : SkMsg) (f : Http2Frame) : Except Errno Bytes :=
  match msg.pullData (http2FrameHdrLen + f.len) with
  | none => .error .EFAULT
  | some msg =>
    match http2Block msg.data f.len f.type f.flags with
    | .error e => .error e
    | .ok (start, stop) => .ok (slice msg.data start (stop - start))

/-- The header block that `parse_msg` puts together out of the frames of `msg`. -/
def continuedBlock (buf : BlockBuf) (msg : SkMsg) : Except Errno Bytes :=
  match msg.pullData (min msg.bytes.length maxBytes) with
  | none => .error .EFAULT
  | some msg =>
    let c := collectBlock msg.data 0 buf
    match c.ret with
    | .error e => .error e
    | .ok _ => .ok (c.buf.slice 0 c.blk.len)

/-- Whether a HEADERS frame carries a priority. -/
def hasPriority (flags : Nat) : Bool := decide (flags &&& http2PriorityFlag ≠ 0)

variable {payload block post : Bytes} {flags : Nat} {h : FrameHead}

theorem split_slice (xs : Bytes) (k n : Nat) :
    xs.take k ++ slice xs k n ++ xs.drop (k + n) = xs := by
  unfold slice
  rw [List.append_assoc, ← List.drop_drop, List.take_append_drop, List.take_append_drop]

/-- The parts of what stands behind the pad length. -/
theorem priority_parts (prio : Bool) {rest : Bytes} {pad : Nat}
    (hfit : (if prio then http2PriorityLen else 0) + pad ≤ rest.length) :
    ∃ priority padding : Bytes, priority.length = http2PriorityLen ∧ padding.length = pad ∧
      rest = (if prio then priority else []) ++
        slice rest (if prio then http2PriorityLen else 0)
          (rest.length - (if prio then http2PriorityLen else 0) - pad) ++ padding := by
  cases prio with
  | true =>
    rw [if_pos rfl] at hfit
    refine ⟨rest.take http2PriorityLen,
      rest.drop (http2PriorityLen + (rest.length - http2PriorityLen - pad)), ?_, ?_, ?_⟩
    · rw [List.length_take]
      omega
    · rw [List.length_drop]
      omega
    · rw [if_pos rfl, if_pos rfl]
      exact (split_slice _ _ _).symm
  | false =>
    rw [if_neg Bool.false_ne_true] at hfit
    refine ⟨List.replicate http2PriorityLen 0, rest.drop (0 + (rest.length - 0 - pad)),
      List.length_replicate, ?_, ?_⟩
    · rw [List.length_drop]
      omega
    · rw [if_neg Bool.false_ne_true, if_neg Bool.false_ne_true]
      exact (split_slice rest 0 _).symm

theorem stripped_nil (prio : Bool) : stripped true prio [] = none := by
  unfold stripped
  rw [if_pos rfl, if_pos rfl]
  exact if_neg (by rw [List.length_nil]; omega)

theorem stripped_cons (prio : Bool) (c : UInt8) (rest : Bytes) :
    stripped true prio (c :: rest) =
      if (if prio then http2PriorityLen else 0) + c.toNat ≤ rest.length then
        some (slice rest (if prio then http2PriorityLen else 0)
          (rest.length - (if prio then http2PriorityLen else 0) - c.toNat))
      else none := by
  unfold stripped
  rw [if_pos rfl, if_pos rfl, List.length_cons]
  generalize (if prio then http2PriorityLen else 0) = k
  have hbyte : byteAt (c :: rest) 0 = c.toNat := rfl
  have hslice (n : Nat) : slice (c :: rest) (1 + k) n = slice rest k n := by
    unfold slice
    rw [Nat.add_comm, List.drop_succ_cons]
  simp only [hbyte, hslice]
  have hn : rest.length + 1 - (1 + k) - c.toNat = rest.length - k - c.toNat := by omega
  rw [hn]
  exact if_congr (by omega) rfl rfl

theorem stripped_plain (prio : Bool) (payload : Bytes) :
    stripped false prio payload =
      if (if prio then http2PriorityLen else 0) + 0 ≤ payload.length then
        some (slice payload (if prio then http2PriorityLen else 0)
          (payload.length - (if prio then http2PriorityLen else 0) - 0))
      else none := by
  unfold stripped
  simp only [Bool.false_eq_true, if_false, Nat.zero_add]

/-- A payload that everything fits into is one of the parts it is made of. -/
theorem stripped_some (hs : stripped (isPadded true flags) (hasPriority flags) payload = some block) :
    ∃ p : HeadersPayload, p.bytes flags = payload ∧ p.block = block := by
  have hprio (p : Bytes) : (if flags &&& http2PriorityFlag ≠ 0 then p else []) =
      if hasPriority flags then p else [] := by simp [hasPriority]
  cases hpad : isPadded true flags with
  | true =>
    rw [hpad] at hs
    cases payload with
    | nil =>
      rw [stripped_nil] at hs
      cases hs
    | cons c rest =>
      rw [stripped_cons] at hs
      by_cases hfit : (if hasPriority flags then http2PriorityLen else 0) + c.toNat ≤ rest.length
      · rw [if_pos hfit] at hs
        obtain ⟨priority, padding, hl, hlp, hrest⟩ := priority_parts (hasPriority flags) hfit
        rw [Option.some.inj hs] at hrest
        refine ⟨⟨priority, block, padding, hl, hlp ▸ c.toNat_lt⟩, ?_, rfl⟩
        simp only [HeadersPayload.bytes, hpad, if_true, hprio, hlp, UInt8.ofNat_toNat,
          List.nil_append, List.cons_append, ← hrest]
      · rw [if_neg hfit] at hs
        cases hs
  | false =>
    rw [hpad, stripped_plain] at hs
    by_cases hfit : (if hasPriority flags then http2PriorityLen else 0) + 0 ≤ payload.length
    · rw [if_pos hfit] at hs
      obtain ⟨priority, padding, hl, hlp, hrest⟩ := priority_parts (hasPriority flags) hfit
      rw [Option.some.inj hs, List.length_eq_zero_iff.mp hlp, List.append_nil] at hrest
      refine ⟨⟨priority, block, [], hl, by decide⟩, ?_, rfl⟩
      simp only [HeadersPayload.bytes, hpad, Bool.false_eq_true, if_false, hprio, List.nil_append,
        List.append_nil, ← hrest]
    · rw [if_neg hfit] at hs
      cases hs

/-- What a payload without room for its padding and its priority announces. -/
theorem stripped_none (hs : stripped (isPadded true h.flags.toNat) (hasPriority h.flags.toNat)
      payload = none) :
    http2FrameHdrLen + payload.length <
      blockStart true h.flags.toNat + padLen (h.frame payload ++ post) 0 true h.flags.toNat ∨
      isPadded true h.flags.toNat = true ∧ payload = [] := by
  by_cases hempty : isPadded true h.flags.toNat = true ∧ payload = []
  · exact .inr hempty
  left
  have hpad : padLen (h.frame payload ++ post) 0 true h.flags.toNat =
      if isPadded true h.flags.toNat then byteAt payload 0 else 0 := by
    unfold padLen
    cases hp : isPadded true h.flags.toNat with
    | false => rfl
    | true =>
      rw [if_pos rfl, if_pos rfl]
      have hpos := List.length_pos_iff.mpr fun hn => hempty ⟨hp, hn⟩
      have hb := byteAt_append (h.bytes payload.length) (payload ++ post) 0
      rw [FrameHead.bytes_length, Nat.add_zero] at hb
      rw [FrameHead.frame, List.append_assoc, Nat.zero_add, hb]
      unfold byteAt
      rw [List.getElem?_append_left hpos]
  rw [hpad]
  unfold stripped at hs
  simp only [ite_eq_right_iff, reduceCtorEq, imp_false, Nat.not_le] at hs
  unfold blockStart
  simp only [Bool.true_and]
  unfold hasPriority at hs
  omega

section Whole

variable {msg : SkMsg}

theorem wholeBlock_eq (ht : h.type.toNat = http2HeadersFrame)
    (hend : h.flags.toNat &&& http2EndHeadersFlag ≠ 0) (hl : payload.length ≤ blockMaxlen)
    (hm : msg.bytes = h.frame payload ++ post) (hpull : msg.pullable = true) :
    wholeBlock msg (newHttp2Frame msg.bytes 0) =
      if isPadded true h.flags.toNat = true ∧ payload = [] then .error .EFAULT
      else match stripped (isPadded true h.flags.toNat) (hasPriority h.flags.toNat) payload with
        | some block => .ok block
        | none => .error .EBADMSG := by
  have hl24 : payload.length < 2 ^ 24 := by
    unfold blockMaxlen blockBufSize at hl
    omega
  have hfirst : newHttp2Frame msg.bytes 0 = _ := hm ▸ newHttp2Frame_frame h post hl24
  have hlen : (h.frame payload).length = http2FrameHdrLen + payload.length := h.frame_length
  have hle : http2FrameHdrLen + payload.length ≤ msg.bytes.length := by
    rw [hm, List.length_append]
    omega
  have hpos : 0 < http2FrameHdrLen + payload.length := by
    unfold http2FrameHdrLen
    omega
  have hdata : msg.bytes.take (http2FrameHdrLen + payload.length) = h.frame payload := by
    rw [hm, ← hlen, List.take_left]
  unfold wholeBlock
  rw [hfirst]
  simp only [msgPullData_isSome msg hpull hpos hle, SkMsg.data, hdata, ht]
  by_cases hempty : isPadded true h.flags.toNat = true ∧ payload = []
  · have herr : http2Block (h.frame payload) payload.length http2HeadersFrame h.flags.toNat =
        .error .EFAULT := by
      unfold http2Block
      simp only [decide_true]
      exact if_pos ⟨hempty.1, by rw [hlen, hempty.2, List.length_nil]; omega⟩
    rw [herr, if_pos hempty]
  · rw [if_neg hempty]
    cases hs : stripped (isPadded true h.flags.toNat) (hasPriority h.flags.toNat) payload with
    | some block =>
      obtain ⟨p, hp, rfl⟩ := stripped_some hs
      obtain ⟨front, back, hparts⟩ := p.carries h
      have hfit : (front ++ p.block).length ≤ payload.length := by
        rw [← hp, hparts.1]
        exact (List.prefix_append _ _).length_le
      have hmax : http2FrameHdrLen + (front ++ p.block).length ≤ maxBytes := by
        unfold maxBytes http2FrameHdrLen
        unfold blockMaxlen blockBufSize at hl
        omega
      have hoff := @Whole.block_offsets ⟨h, p, ht, hend⟩ front back hparts
        (Nat.lt_of_le_of_lt hmax (show maxBytes < 2 ^ 16 by decide))
      have hslice := slice_frame h [] front p.block back []
      simp only [Whole.bytes, Whole.block, hp, List.length_append] at hoff
      rw [← hparts.1, hp, List.nil_append, List.append_nil, List.length_nil, Nat.zero_add] at hslice
      rw [hoff]
      simp only
      rw [← Nat.add_assoc, Nat.add_sub_cancel_left, hslice]
    | none =>
      have hmisfit := (@stripped_none payload [] h hs).resolve_right hempty
      rw [List.append_nil] at hmisfit
      have herr : http2Block (h.frame payload) payload.length http2HeadersFrame h.flags.toNat =
          .error .EBADMSG := by
        unfold http2Block
        simp only [decide_true]
        rw [if_neg, if_pos hmisfit]
        rintro ⟨hpad, hlt⟩
        exact hempty ⟨hpad, List.length_eq_zero_iff.mp (by omega)⟩
      rw [herr]

end Whole

section Continued

variable {msg : SkMsg} {c : Continuation}

/-- A HEADERS frame without room for its padding and its priority is not put together. -/
theorem collectBlock_misfit (hl : payload.length < 2 ^ 24)
    (hs : stripped (isPadded true h.flags.toNat) (hasPriority h.flags.toNat) payload = none)
    (buf : BlockBuf) :
    collectBlock (h.frame payload ++ post) 0 buf = ⟨.error .EBADMSG, ⟨0, 0⟩, buf⟩ := by
  have hflags : hdrFlags (h.frame payload ++ post) 0 = h.flags.toNat := by
    rw [FrameHead.frame, List.append_assoc]
    exact @hdrFlags_bytes h payload.length [] _
  have hlen : hdrLen (h.frame payload ++ post) 0 = payload.length := by
    rw [FrameHead.frame, List.append_assoc]
    exact @hdrLen_bytes h payload.length [] _ hl
  have hdata : (h.frame payload ++ post).length =
      http2FrameHdrLen + payload.length + post.length := by
    rw [List.length_append, FrameHead.frame_length]
  have hcheck : checkFrame (h.frame payload ++ post) 0 true 0 0 0 = .error (.EBADMSG, 0) := by
    unfold checkFrame
    rw [if_neg (by omega), if_neg (by omega), if_neg (fun hc => hc.1 rfl)]
    simp only [hflags, hlen]
    rw [if_neg (by omega)]
    by_cases hempty : isPadded true h.flags.toNat = true ∧
        http2FrameHdrLen + payload.length < http2FrameHdrLen + 1
    · exact if_pos hempty
    · rw [if_neg hempty, if_pos]
      refine (stripped_none hs).resolve_right ?_
      rintro ⟨hpad, rfl⟩
      exact hempty ⟨hpad, Nat.lt_succ_self _⟩
  unfold collectBlock collectLoop collectFrame
  rw [hcheck]

/-- A HEADERS frame that does not end its block is put together with an empty CONTINUATION frame
behind it. -/
theorem continuedBlock_eq (ht : h.type.toNat = http2HeadersFrame)
    (hend : h.flags.toNat &&& http2EndHeadersFlag = 0) (hl : payload.length ≤ blockMaxlen)
    (hc : c.Continues h.sid true) (hnil : c.block = [])
    (hm : msg.bytes = h.frame payload ++ c.bytes ++ post) (hpull : msg.pullable = true)
    (buf : BlockBuf) :
    continuedBlock buf msg =
      match stripped (isPadded true h.flags.toNat) (hasPriority h.flags.toNat) payload with
      | some block => .ok block
      | none => .error .EBADMSG := by
  have hl24 : payload.length < 2 ^ 24 := by
    unfold blockMaxlen blockBufSize at hl
    omega
  have hlen : (h.frame payload).length = http2FrameHdrLen + payload.length := h.frame_length
  have hclen : c.bytes.length = http2FrameHdrLen := by
    rw [Continuation.bytes, FrameHead.frame_length, hnil]
    rfl
  have hfront : (h.frame payload ++ c.bytes).length =
      http2FrameHdrLen + payload.length + http2FrameHdrLen := by
    rw [List.length_append, hlen, hclen]
  have hmsg : msg.bytes.length = (h.frame payload ++ c.bytes).length + post.length := by
    rw [hm, List.length_append]
  have hmax : http2FrameHdrLen + payload.length + http2FrameHdrLen ≤ maxBytes := by
    unfold maxBytes http2FrameHdrLen
    unfold blockMaxlen blockBufSize at hl
    omega
  have hle : min msg.bytes.length maxBytes ≤ msg.bytes.length := Nat.min_le_left _ _
  have hpos : 0 < min msg.bytes.length maxBytes := by
    unfold http2FrameHdrLen at hfront
    unfold maxBytes
    omega
  have hdata : msg.bytes.take (min msg.bytes.length maxBytes) = h.frame payload ++ c.bytes ++
      post.take (min msg.bytes.length maxBytes - (h.frame payload ++ c.bytes).length) := by
    rw [hm, List.take_append, List.take_of_length_le]
    rw [← hm]
    omega
  unfold continuedBlock
  simp only [msgPullData_isSome msg hpull hpos hle, SkMsg.data, hdata]
  generalize post.take _ = post'
  cases hs : stripped (isPadded true h.flags.toNat) (hasPriority h.flags.toNat) payload with
  | some block =>
    obtain ⟨p, hp, rfl⟩ := stripped_some hs
    obtain ⟨front, back, hparts, -⟩ := p.carries h
    have hblock : p.block.length ≤ payload.length := by
      rw [← hp, hparts, List.length_append, List.length_append]
      omega
    have hbytes : (⟨h, p, [], c, ht, hend, fun c hc => absurd hc List.not_mem_nil, hc⟩ :
        Fragmented).bytes = h.frame payload ++ c.bytes := by
      simp [Fragmented.bytes, Fragmented.headers, hp]
    have hwhole : (⟨h, p, [], c, ht, hend, fun c hc => absurd hc List.not_mem_nil, hc⟩ :
        Fragmented).block = p.block := by
      simp [Fragmented.block, hnil]
    obtain ⟨b, hcollect, hhas⟩ := Fragmented.collect
      ⟨h, p, [], c, ht, hend, fun c hc => absurd hc List.not_mem_nil, hc⟩ post' buf
      (by rw [hbytes]; omega) (by rw [hwhole]; omega)
    rw [hbytes, hwhole] at hcollect
    rw [hwhole] at hhas
    rw [hcollect]
    simp only
    exact congrArg _ hhas.slice_all
  | none =>
    have hmisfit := @collectBlock_misfit payload (c.bytes ++ post') h hl24 hs buf
    rw [← List.append_assoc] at hmisfit
    rw [hmisfit]

end Continued

section Hook

variable {rd : Rodata} {maps : Maps} {msg msg' : SkMsg} {frame : Http2Frame} {e : Errno}

/-- Where there is no block to be found, `parse_msg` says why. -/
theorem parseMsg_wholeBlock (ht : h.type.toNat = http2HeadersFrame)
    (hend : h.flags.toNat &&& http2EndHeadersFlag ≠ 0) (h0 : h.sid ≠ 0)
    (hl : payload.length < 2 ^ 24) (hm : msg.bytes = h.frame payload ++ post)
    (h9 : http2FrameHdrLen ≤ msg.linear)
    (he : wholeBlock msg (newHttp2Frame msg.bytes 0) = .error e) :
    (parseMsg rd maps msg .zero frame).ret = .error e := by
  have hfirst : newHttp2Frame msg.bytes 0 = _ := hm ▸ newHttp2Frame_frame h post hl
  have hle : http2FrameHdrLen + payload.length ≤ msg.bytes.length := by
    rw [hm, List.length_append, FrameHead.frame_length]
    omega
  rw [parseMsg_eq h9]
  rw [hfirst] at he ⊢
  obtain ⟨hrule, hread⟩ := headers_accepted (f := ⟨h.sid, h.type.toNat, h.flags.toNat, 0, 0,
    payload.length, 0⟩) ht h0
  rw [parseMsgFrame_frame hrule hread hle fun hb => hend hb.2]
  unfold wholeBlock at he
  cases hpull : msg.pullData (http2FrameHdrLen + payload.length) with
  | none =>
    rw [hpull] at he
    cases he
    rfl
  | some msg₁ =>
    rw [hpull] at he
    cases hblock : http2Block msg₁.data payload.length h.type.toNat h.flags.toNat with
    | ok x =>
      simp only [hblock] at he
      cases he
    | error e₁ =>
      simp only [hblock] at he
      cases he
      simp only [parseFrame, newMsgCtx, List.drop_zero, hblock]
      rfl

theorem parseMsg_continuedBlock (ht : h.type.toNat = http2HeadersFrame)
    (hend : h.flags.toNat &&& http2EndHeadersFlag = 0) (h0 : h.sid ≠ 0)
    (hl : payload.length < 2 ^ 24) (hm : msg.bytes = h.frame payload ++ post)
    (h9 : http2FrameHdrLen ≤ msg.linear) (hagain : e ≠ .EAGAIN)
    (he : continuedBlock maps.blockBuf msg = .error e) :
    (parseMsg rd maps msg .zero frame).ret = .error e := by
  have hfirst : newHttp2Frame msg.bytes 0 = _ := hm ▸ newHttp2Frame_frame h post hl
  have hle : http2FrameHdrLen + payload.length ≤ msg.bytes.length := by
    rw [hm, List.length_append, FrameHead.frame_length]
    omega
  rw [parseMsg_eq h9, hfirst]
  obtain ⟨hrule, -⟩ := headers_accepted (f := ⟨h.sid, h.type.toNat, h.flags.toNat, 0, 0,
    payload.length, 0⟩) ht h0
  rw [parseMsgFrame_block hrule hle ⟨ht, hend⟩]
  unfold continuedBlock at he
  cases hpull : msg.pullData (min msg.bytes.length maxBytes) with
  | none =>
    rw [hpull] at he
    cases he
    rfl
  | some msg₁ =>
    rw [hpull] at he
    cases hret : (collectBlock msg₁.data 0 maps.blockBuf).ret with
    | ok x =>
      simp only [hret] at he
      cases he
    | error e₁ =>
      simp only [hret] at he
      cases he
      have hparse : (parseBlock rd maps (newMsgCtx msg₁) 0 .zero
          ⟨h.sid, h.type.toNat, h.flags.toNat, 0, 0, payload.length, 0⟩ none).ret = .error e := by
        simp only [parseBlock, newMsgCtx, hret]
      simp only [neverRead, hparse]
      exact if_neg fun hn => hagain (Except.error.inj hn.1)

/-- `payload` in a HEADERS frame that ends its block, and in one with an empty CONTINUATION frame
behind it. -/
structure SentBothWays (payload : Bytes) (h h' : FrameHead) (c : Continuation) (post post' : Bytes)
    (msg msg' : SkMsg) : Prop where
  type : h.type.toNat = http2HeadersFrame ∧ h'.type.toNat = http2HeadersFrame
  sid : h.sid ≠ 0 ∧ h'.sid ≠ 0
  ends : h.flags.toNat &&& http2EndHeadersFlag ≠ 0
  goesOn : h'.flags.toNat &&& http2EndHeadersFlag = 0
  padded : isPadded true h'.flags.toNat = isPadded true h.flags.toNat
  priority : hasPriority h'.flags.toNat = hasPriority h.flags.toNat
  continues : c.Continues h'.sid true
  empty : c.block = []
  bytes : msg.bytes = h.frame payload ++ post
  bytes' : msg'.bytes = h'.frame payload ++ c.bytes ++ post'
  linear : http2FrameHdrLen ≤ msg.linear ∧ http2FrameHdrLen ≤ msg'.linear
  pullable : msg.pullable = true ∧ msg'.pullable = true

/-- The header block, or the error of a frame that has no room for what its flags announce. -/
def strippedOr (block : Option Bytes) : Except Errno Bytes :=
  match block with
  | some block => .ok block
  | none => .error .EBADMSG

/-- Both paths find the block `want`, and `parse_msg` reads it or refuses both messages alike. -/
structure StripsAlike (rd : Rodata) (maps : Maps) (frame : Http2Frame) (want : Option Bytes)
    (msg msg' : SkMsg) : Prop where
  whole : wholeBlock msg (newHttp2Frame msg.bytes 0) = strippedOr want
  continued : continuedBlock maps.blockBuf msg' = strippedOr want
  refused : want = none → (parseMsg rd maps msg .zero frame).ret = .error .EBADMSG ∧
    (parseMsg rd maps msg' .zero frame).ret = .error .EBADMSG
  read : ∀ block, want = some block → ∃ total total' v v',
    BlockRead rd maps block total v (parseMsg rd maps msg .zero frame).toParsed ∧
      BlockRead rd maps block total' v' (parseMsg rd maps msg' .zero frame).toParsed

/-- Both messages are read as the block that the payload holds. -/
theorem SentBothWays.read {h' : FrameHead} {c : Continuation} {post' : Bytes}
    (hs : SentBothWays payload h h' c post post' msg msg') (hl : payload.length ≤ blockMaxlen)
    (hblock : stripped (isPadded true h.flags.toNat) (hasPriority h.flags.toNat) payload =
      some block) (rd : Rodata) (maps : Maps) (frame : Http2Frame) :
    ∃ total total' v v',
      BlockRead rd maps block total v (parseMsg rd maps msg .zero frame).toParsed ∧
        BlockRead rd maps block total' v' (parseMsg rd maps msg' .zero frame).toParsed := by
  have hmax : blockMaxlen + http2FrameHdrLen + http2FrameHdrLen ≤ maxBytes := by decide
  obtain ⟨p, hp, rfl⟩ := stripped_some hblock
  obtain ⟨front, back, hparts⟩ := p.carries h
  have hfit : (front ++ p.block).length ≤ payload.length := by
    rw [← hp, hparts.1]
    exact (List.prefix_append _ _).length_le
  have hread := (Whole.read ⟨h, p, hs.type.1, hs.ends⟩ rd maps frame
    (show msg.bytes = h.frame (p.bytes h.flags.toNat) ++ post by rw [hp]; exact hs.bytes)
    hs.linear.1 hs.pullable.1 hs.sid.1 hparts (by simp only [Whole.block]; omega)).2
  have hblock' := hblock
  rw [← hs.padded, ← hs.priority] at hblock'
  obtain ⟨p', hp', hsame⟩ := stripped_some hblock'
  have hclen : c.bytes.length = http2FrameHdrLen := by
    rw [Continuation.bytes, FrameHead.frame_length, hs.empty]
    rfl
  have hshort : p'.block.length ≤ payload.length := by
    rw [hsame]
    exact Nat.le_trans (by rw [List.length_append]; omega) hfit
  have hbytes : (⟨h', p', [], c, hs.type.2, hs.goesOn, fun c hc => absurd hc List.not_mem_nil,
      hs.continues⟩ : Fragmented).bytes = h'.frame payload ++ c.bytes := by
    simp [Fragmented.bytes, Fragmented.headers, hp']
  have hwhole : (⟨h', p', [], c, hs.type.2, hs.goesOn, fun c hc => absurd hc List.not_mem_nil,
      hs.continues⟩ : Fragmented).block = p'.block := by
    simp [Fragmented.block, hs.empty]
  obtain ⟨v', -, -, -, hread'⟩ := Fragmented.read
    ⟨h', p', [], c, hs.type.2, hs.goesOn, fun c hc => absurd hc List.not_mem_nil, hs.continues⟩
    rd maps frame (by rw [hbytes]; exact hs.bytes') hs.linear.2 hs.pullable.2 hs.sid.2
    (by rw [hbytes, List.length_append, hclen, FrameHead.frame_length]; omega)
    (by rw [hwhole]; omega)
  rw [hwhole, hsame] at hread'
  exact ⟨_, _, _, v', hread, hread'⟩

/-- Both paths strip padding and priority alike, unless the frame is padded but empty. -/
theorem stripsAlike_iff {h' : FrameHead} {c : Continuation} {post' : Bytes}
    (hs : SentBothWays payload h h' c post post' msg msg') (hl : payload.length ≤ blockMaxlen)
    (rd : Rodata) (maps : Maps) (frame : Http2Frame) :
    StripsAlike rd maps frame
        (stripped (isPadded true h.flags.toNat) (hasPriority h.flags.toNat) payload) msg msg' ↔
      ¬(isPadded true h.flags.toNat = true ∧ payload = []) := by
  have hl24 : payload.length < 2 ^ 24 := by
    unfold blockMaxlen blockBufSize at hl
    omega
  have hwhole := wholeBlock_eq hs.type.1 hs.ends hl hs.bytes hs.pullable.1
  have hcontinued := continuedBlock_eq hs.type.2 hs.goesOn hl hs.continues hs.empty hs.bytes'
    hs.pullable.2 maps.blockBuf
  rw [hs.padded, hs.priority] at hcontinued
  constructor
  · rintro ⟨hw, -, -, -⟩ ⟨hpad, rfl⟩
    rw [hwhole, if_pos ⟨hpad, rfl⟩, hpad, stripped_nil] at hw
    cases hw
  · intro hempty
    rw [if_neg hempty] at hwhole
    refine ⟨hwhole, hcontinued, fun hnone => ?_, fun block hblock => hs.read hl hblock rd maps frame⟩
    rw [hnone] at hwhole hcontinued
    refine ⟨parseMsg_wholeBlock hs.type.1 hs.ends hs.sid.1 hl24 hs.bytes hs.linear.1 hwhole, ?_⟩
    have hbytes : msg'.bytes = h'.frame payload ++ (c.bytes ++ post') := by
      rw [← List.append_assoc]
      exact hs.bytes'
    exact parseMsg_continuedBlock hs.type.2 hs.goesOn hs.sid.2 hl24 hbytes hs.linear.2 (by decide)
      hcontinued

/-- A padded HEADERS frame on stream 1, which ends its block or goes on. -/
def paddedHead (ends : Bool) : FrameHead := ⟨1, if ends then 0xc else 8, false, 1, firstStream_lt⟩

/-- An empty CONTINUATION frame that ends the block of stream 1. -/
def emptyContinuation : Continuation := ⟨⟨9, 4, false, 1, firstStream_lt⟩, []⟩

def paddedMsg (payload : Bytes) : SkMsg :=
  linearMsg ((paddedHead true).frame payload ++ []) ⟨⟨1, 1⟩, ⟨2, 2⟩⟩ true

def paddedMsg' (payload : Bytes) : SkMsg :=
  linearMsg ((paddedHead false).frame payload ++ emptyContinuation.bytes ++ []) ⟨⟨1, 1⟩, ⟨2, 2⟩⟩ true

theorem padded_sentBothWays (payload : Bytes) :
    SentBothWays payload (paddedHead true) (paddedHead false) emptyContinuation [] []
      (paddedMsg payload) (paddedMsg' payload) where
  type := by decide
  sid := by decide
  ends := by decide
  goesOn := by decide
  padded := by decide
  priority := by decide
  continues := ⟨rfl, rfl, by decide⟩
  empty := rfl
  bytes := rfl
  bytes' := rfl
  linear := by
    simp only [paddedMsg, paddedMsg', linearMsg, List.length_append, FrameHead.frame_length]
    omega
  pullable := ⟨rfl, rfl⟩

/-- The block between a pad length of 1 and a byte of padding. -/
theorem stripsAlike_padded :
    StripsAlike .zero .init (newHttp2Frame [] 0) (stripped true false [1, 0x82, 0])
      (paddedMsg [1, 0x82, 0]) (paddedMsg' [1, 0x82, 0]) :=
  (stripsAlike_iff (padded_sentBothWays [1, 0x82, 0]) (by decide) .zero .init
    (newHttp2Frame [] 0)).mpr (by decide)

/-- An empty HEADERS frame that claims to be padded gets two different errors. -/
theorem paddedEmpty_notAlike :
    wholeBlock (paddedMsg []) (newHttp2Frame (paddedMsg []).bytes 0) = .error .EFAULT ∧
      continuedBlock Maps.init.blockBuf (paddedMsg' []) = .error .EBADMSG ∧
      (parseMsg .zero .init (paddedMsg []) .zero (newHttp2Frame [] 0)).ret = .error .EFAULT ∧
      (parseMsg .zero .init (paddedMsg' []) .zero (newHttp2Frame [] 0)).ret = .error .EBADMSG ∧
      ¬StripsAlike .zero .init (newHttp2Frame [] 0) (stripped true false []) (paddedMsg [])
        (paddedMsg' []) := by
  have hsent := padded_sentBothWays []
  have hwhole : wholeBlock (paddedMsg []) (newHttp2Frame (paddedMsg []).bytes 0) =
      .error .EFAULT := wholeBlock_eq hsent.type.1 hsent.ends (by decide) hsent.bytes rfl
  have hcontinued : continuedBlock Maps.init.blockBuf (paddedMsg' []) = .error .EBADMSG :=
    continuedBlock_eq hsent.type.2 hsent.goesOn (by decide) hsent.continues rfl hsent.bytes' rfl _
  refine ⟨hwhole, hcontinued,
    parseMsg_wholeBlock hsent.type.1 hsent.ends hsent.sid.1 (by decide) hsent.bytes hsent.linear.1
      hwhole,
    parseMsg_continuedBlock hsent.type.2 hsent.goesOn hsent.sid.2 (by decide) hsent.bytes'
      hsent.linear.2 (by decide) hcontinued, fun hstrips => ?_⟩
  have herr := hstrips.whole
  rw [hwhole, stripped_nil] at herr
  cases herr

end Hook

end Beeper.Http2
