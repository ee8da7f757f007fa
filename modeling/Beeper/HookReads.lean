import Beeper.SkbOffset

namespace Beeper.Http2

/-- What a hook comes to that parses the frames of `b` at an offset, with the values it reads off its
matches. The message may go on behind them, and an sk_buff may have bytes in front of them. -/
inductive Hooked (rd : Rodata) (maps : Maps) (b : Sent) :
    Ip4Conn → Nat → Parsed → (Nat → Except Errno Bytes) → Prop
  | msg {msg : SkMsg} {post : Bytes} {p : ParsedMsg} (frame : Http2Frame)
      (hm : msg.bytes = b.bytes ++ post) (h9 : http2FrameHdrLen ≤ msg.linear)
      (hpull : msg.pullable = true) (hp : p = parseMsg rd maps msg .zero frame) :
      Hooked rd maps b msg.conn 0 p.toParsed (getMatchMsg rd p.maps p.msg p.pres)
  | skb {skb : SkBuff} {pre post : Bytes} {p : ParsedSkb} (frame : Http2Frame)
      (hs : skb.bytes = pre ++ (b.bytes ++ post)) (hpull : skb.pullable = true)
      (hp : p = parseSkb rd maps skb pre.length .zero frame none) :
      Hooked rd maps b skb.conn pre.length p.toParsed (getMatchSkb rd p.maps p.skb p.pres)

/-- The frames have lengths that their headers can hold. -/
def Sent.Sized : Sent → Prop
  | .whole w => (w.payload.bytes w.head.flags.toNat).length < 2 ^ 24
  | .cut f => f.Sized

/-- The block ends within what is read at an offset, and fits the buffer if it is cut. -/
def Sent.FitsAt (off : Nat) : Sent → Prop
  | .whole w => off + w.stop ≤ maxBytes
  | .cut f => off + f.bytes.length ≤ maxBytes ∧ f.block.length ≤ blockMaxlen

/-- The end of a block that one frame carries fits the 16 bits it is kept in. -/
def Sent.EndFits : Sent → Prop
  | .whole w => w.stop < 2 ^ 16
  | .cut _ => True

variable {rd : Rodata} {maps : Maps} {b : Sent} {conn : Ip4Conn} {p : Parsed}
  {value : Nat → Except Errno Bytes} {reps : List Rep} {pre post : Bytes} {skb : SkBuff}
  {msg : SkMsg} {ctx : MsgCtx} {n k off : Nat} {f : Http2Frame}

/-- The strings of a block that fits the limits are shorter than the lengths the parser keeps. -/
theorem BlockWire.fits {block : Bytes} (h : BlockWire id reps block)
    (hfit : block.length ≤ maxBytes) : BlockWire readLen reps block := by
  have hl : block.length < 2 ^ 15 := by
    unfold maxBytes at hfit
    omega
  clear hfit
  induction h with
  | nil => exact .nil
  | @cons rep reps bs rest hr _ ih =>
    rw [List.length_append] at hl
    refine .cons (hr.congr fun n hn => Nat.mod_eq_of_lt ?_) (ih (by omega))
    simp only [id_eq] at hn
    omega

/-- A frame that is not refused has its block within what is read. -/
theorem parseFrame_accepted {len type flags start stop : Nat} {pres : HttpParseRes}
    {q : Option Nat}
    (hb : http2Block (ctx.data.drop off) len type flags = .ok (start, stop))
    (h : (parseFrame rd maps ctx off len type flags pres f q).ret = .ok n) :
    off + stop ≤ maxBytes := by
  unfold parseFrame at h
  split at h
  · cases h
  simp only [hb] at h
  split at h
  · cases h
  next hle => exact Nat.not_lt.mp hle

/-- A block in one frame that is accepted ends within what is read. -/
theorem Whole.stop_at (w : Whole) {q : Option Nat} (hd : ctx.data = pre ++ (w.bytes ++ post))
    (hend : w.stop < 2 ^ 16)
    (h : ((parseFrame rd maps ctx pre.length (w.payload.bytes w.head.flags.toNat).length
      http2HeadersFrame w.head.flags.toNat .zero f q).ret.map fun _ => k) = .ok n) :
    pre.length + w.stop ≤ maxBytes := by
  obtain ⟨front, back, hp⟩ := w.payload.carries w.head
  obtain ⟨-, m, hm⟩ := map_ok h
  rw [stop_eq hp]
  exact parseFrame_accepted (block_at hd hp hend) hm

theorem Whole.block_le (w : Whole) (h : w.stop ≤ k) : w.block.length ≤ k := by
  unfold stop at h
  omega

/-- A block that is put together is the one that was cut, whatever is pulled in behind it. -/
theorem Fragmented.collected_take (g : Fragmented) (hs : g.Sized)
    (hd : ctx.data = (pre ++ (g.bytes ++ post)).take k) (buf : BlockBuf)
    (hc : (collectBlock ctx.data pre.length buf).ret = .ok n) :
    ∃ b, collectBlock ctx.data pre.length buf =
      ⟨.ok g.bytes.length, ⟨g.block.length, 0⟩, b⟩ ∧ b.Has g.block := by
  by_cases hk : k ≤ (pre ++ (g.bytes ++ post)).length
  · rw [hd] at hc ⊢
    have htake := (collectLoop_take (maxBytes / http2FrameHdrLen + 1) true 0 0 buf hk
      (Nat.le_refl pre.length)).2 (by
        unfold collectBlock at hc
        rw [hc]
        exact fun he => by cases he)
    unfold collectBlock at hc ⊢
    rw [← htake] at hc ⊢
    exact g.collected hs pre post buf hc
  · rw [hd, List.take_of_length_le (by omega)] at hc ⊢
    exact g.collected hs pre post buf hc

/-- A block that was cut and is accepted is read as what it means. -/
theorem Fragmented.accepted_at (g : Fragmented) (rd : Rodata) (maps : Maps) (hrd : ReadsReps rd)
    (hd : ctx.data = (pre ++ (g.bytes ++ post)).take k) (hs : g.Sized)
    (hw : BlockWire id reps g.block) :
    let p := parseBlock rd maps ctx pre.length .zero f none
    p.ret = .ok n → g.block.length ≤ maxBytes ∧
      ReadsAs rd maps ctx.conn reps g.bytes.length p (reading rd ctx p) := by
  intro p hret
  obtain ⟨b, hb, hhas⟩ := g.collected_take hs hd maps.blockBuf (parseBlock_collected hret)
  have hfit : g.block.length ≤ maxBytes := Nat.le_trans hhas.short (show blockMaxlen ≤ maxBytes by decide)
  have hread := parseBlock_read rd ctx f none hb rfl hhas
  exact ⟨hfit, hread.readsAs hrd (exact_buf hhas).legible (hw.fits hfit) fun _ => rfl⟩

/-- A block in one frame that ends within what is read is read as what it means. -/
theorem Whole.reads_msg (w : Whole) (frame : Http2Frame) (hm : msg.bytes = w.bytes ++ post)
    (h9 : http2FrameHdrLen ≤ msg.linear) (hpull : msg.pullable = true) (hrd : ReadsReps rd)
    (h0 : w.head.sid ≠ 0) (hs : (w.payload.bytes w.head.flags.toNat).length < 2 ^ 24)
    (hle : w.stop ≤ maxBytes) (hw : BlockWire id reps w.block) :
    let p := parseMsg rd maps msg .zero frame
    ReadsAs rd maps msg.conn reps w.bytes.length p.toParsed
      (getMatchMsg rd p.maps p.msg p.pres) := by
  intro p
  obtain ⟨msg', hctx, hparse⟩ := w.parsed rd maps frame hm h9 hpull h0 hs
  have hreads := (@Whole.parse_at ⟨w.bytes, msg.conn⟩ [] [] (newHttp2Frame msg.bytes 0) reps w rd
    maps hrd (by rw [List.nil_append, List.append_nil]) (by rw [List.length_nil, Nat.zero_add]; exact hle)
    (hw.fits (w.block_le hle)) ⟨rfl, rfl⟩ w.bytes.length).reads
  simp only [p, hparse, List.length_nil] at hreads ⊢
  rw [← hctx] at hreads ⊢
  exact hreads

/-- A block that is cut, and fits the buffer, is read as what it means. -/
theorem Fragmented.reads_msg (g : Fragmented) (frame : Http2Frame) (hm : msg.bytes = g.bytes ++ post)
    (h9 : http2FrameHdrLen ≤ msg.linear) (hpull : msg.pullable = true) (hrd : ReadsReps rd)
    (h0 : g.head.sid ≠ 0) (hsize : g.bytes.length ≤ maxBytes) (hfit : g.block.length ≤ blockMaxlen)
    (hw : BlockWire id reps g.block) :
    let p := parseMsg rd maps msg .zero frame
    ReadsAs rd maps msg.conn reps g.bytes.length p.toParsed
      (getMatchMsg rd p.maps p.msg p.pres) := by
  intro p
  obtain ⟨v, hv, hctx, hconn, hread⟩ := g.read rd maps frame hm h9 hpull h0 hsize hfit
  have hlen : g.block.length ≤ maxBytes := Nat.le_trans hfit (by decide)
  have hreads : ReadsAs rd maps v.ctx.conn reps g.bytes.length p.toParsed (reading rd v.ctx p.toParsed) :=
    hread.readsAs hrd hv.legible (hw.fits hlen) fun _ => rfl
  rw [hconn, ← hctx] at hreads
  exact hreads

theorem Sent.accepted_msg (b : Sent) (frame : Http2Frame) (hm : msg.bytes = b.bytes ++ post)
    (h9 : http2FrameHdrLen ≤ msg.linear) (hpull : msg.pullable = true) (hrd : ReadsReps rd)
    (h0 : b.sid ≠ 0) (hs : b.Sized) (hend : b.EndFits) (hw : BlockWire id reps b.block) :
    let p := parseMsg rd maps msg .zero frame
    p.ret = .ok n → b.block.length ≤ maxBytes ∧
      ReadsAs rd maps msg.conn reps b.bytes.length p.toParsed
        (getMatchMsg rd p.maps p.msg p.pres) := by
  intro p hret
  cases b with
  | whole w =>
    have hle : w.stop ≤ maxBytes := by
      obtain ⟨msg', -, hparse⟩ := w.parsed rd maps frame hm h9 hpull h0 hs
      simp only [p, hparse] at hret
      have hstop := @Whole.stop_at rd maps [] [] ⟨w.bytes, msg.conn⟩ n w.bytes.length
        (newHttp2Frame msg.bytes 0) w none (by rw [List.nil_append, List.append_nil]) hend hret
      rwa [List.length_nil, Nat.zero_add] at hstop
    exact ⟨w.block_le hle, w.reads_msg frame hm h9 hpull hrd h0 hs hle hw⟩
  | cut g =>
    have hlen := g.bytes_length
    have hmsg : msg.bytes.length = g.bytes.length + post.length := by
      rw [hm, Sent.bytes, List.length_append]
    have hfirst : newHttp2Frame msg.bytes 0 =
        g.head.first (g.payload.bytes g.head.flags.toNat).length := by
      rw [hm, bytes, Fragmented.bytes, Fragmented.headers, List.append_assoc]
      exact newHttp2Frame_frame g.head _ hs.headers
    obtain ⟨hv, -⟩ := headers_accepted (f := newHttp2Frame msg.bytes 0)
      (by rw [hfirst]; exact g.head_type) (by rw [hfirst]; exact h0)
    obtain ⟨msg', hctx, hparse⟩ := parseMsgFrame_pulled rd maps msg .zero hpull
      (Nat.le_trans h9 msg.linear_le) hv (by rw [hfirst]; simp only [FrameHead.first]; omega)
      (by rw [hfirst]; exact ⟨g.head_type, g.head_flags⟩)
    have hd : (⟨msg.bytes.take (min msg.bytes.length maxBytes), msg.conn⟩ : MsgCtx).data =
        ([] ++ (g.bytes ++ post)).take (min msg.bytes.length maxBytes) := by
      rw [hm]
      rfl
    have hreads := @Fragmented.accepted_at reps [] post
      ⟨msg.bytes.take (min msg.bytes.length maxBytes), msg.conn⟩ n
      (min msg.bytes.length maxBytes) (newHttp2Frame msg.bytes 0) g rd maps hrd hd hs hw
    simp only [p, parseMsg_eq h9, hparse, List.length_nil] at hret hreads ⊢
    have hret' := neverRead_ok hret
    rw [← hctx] at hret hret' hreads ⊢
    rw [neverRead, if_neg fun hn => by rw [hret'] at hn; cases hn.1]
    exact hreads hret'

/-- What is left of the bytes behind a message once not all of them are pulled in. -/
theorem take_placed {bytes m : Bytes} (hs : bytes = pre ++ (m ++ post)) {n : Nat}
    (hn : pre.length + m.length ≤ n) : ∃ post', bytes.take n = pre ++ (m ++ post') := by
  refine ⟨post.take (n - (pre ++ m).length), ?_⟩
  rw [hs, ← List.append_assoc, List.take_append, List.take_of_length_le, List.append_assoc]
  rw [List.length_append]
  exact hn

section Pulled

/-- A frame that is pulled in up to its end, along with what was pulled in before. -/
theorem parseSkbFrame_whole (rd : Rodata) (maps : Maps) (skb : SkBuff) (pres : HttpParseRes)
    (hpull : skb.pullable = true) (hv : ¬violatesBlockRules f.type f.sid)
    (hp : isParsedFrame f.type f.flags) (hle : off ≤ skb.bytes.length)
    (hs : http2FrameHdrLen + f.len ≤ skb.bytes.length - off)
    (hb : ¬(f.type = http2HeadersFrame ∧ f.flags &&& http2EndHeadersFlag = 0)) :
    ∃ skb' n, off + (http2FrameHdrLen + f.len) ≤ n ∧
      newSkbCtx skb' = ⟨skb.bytes.take n, skb.conn⟩ ∧
      parseSkbFrame rd maps skb off pres f none =
        let p := parseFrame rd maps ⟨skb.bytes.take n, skb.conn⟩ off f.len f.type f.flags pres f none
        ⟨{ p with ret := p.ret.map fun _ => http2FrameHdrLen + f.len }, skb'⟩ := by
  have hn : off + (http2FrameHdrLen + f.len) ≤ skb.bytes.length := by omega
  refine ⟨SkBuff.pulled skb _ hn, max skb.linear (off + (http2FrameHdrLen + f.len)),
    Nat.le_max_right _ _, rfl, ?_⟩
  rw [parseSkbFrame_frame hv hp hs hb, skbPullData_isSome skb hpull hn]
  rfl

/-- A block that is cut is pulled in as far as it may go on. -/
theorem parseSkbFrame_pulled (rd : Rodata) (maps : Maps) (skb : SkBuff) (pres : HttpParseRes)
    (hpull : skb.pullable = true) (hv : ¬violatesBlockRules f.type f.sid)
    (hs : http2FrameHdrLen + f.len ≤ skb.bytes.length - off)
    (hb : f.type = http2HeadersFrame ∧ f.flags &&& http2EndHeadersFlag = 0) :
    ∃ skb' n, min skb.bytes.length (off + maxBytes) ≤ n ∧
      newSkbCtx skb' = ⟨skb.bytes.take n, skb.conn⟩ ∧
      parseSkbFrame rd maps skb off pres f none =
        let p := parseBlock rd maps ⟨skb.bytes.take n, skb.conn⟩ off pres f none
        ⟨{ p with ret := neverRead p (skb.bytes.length - off) }, skb'⟩ := by
  have hn : min skb.bytes.length (off + maxBytes) ≤ skb.bytes.length := Nat.min_le_left _ _
  refine ⟨SkBuff.pulled skb _ hn, max skb.linear (min skb.bytes.length (off + maxBytes)),
    Nat.le_max_right _ _, rfl, ?_⟩
  rw [parseSkbFrame_block hv hs hb, skbPullData_isSome skb hpull hn]
  rfl

end Pulled

/-- The frame that a block at an offset of an sk_buff starts with. -/
theorem parseSkb_first {h : FrameHead} {payload rest : Bytes} (frame : Http2Frame)
    (hs : skb.bytes = pre ++ (h.frame payload ++ rest)) (hpull : skb.pullable = true)
    (hl : payload.length < 2 ^ 24) (hpre : pre.length ≤ maxBytes) :
    ∃ skb' : SkBuff, skb'.bytes = skb.bytes ∧ skb'.conn = skb.conn ∧ skb'.pullable = true ∧
      parseSkb rd maps skb pre.length .zero frame none =
        parseSkbFrame rd maps skb' pre.length .zero (h.first payload.length) none := by
  have h9 : pre.length + http2FrameHdrLen ≤ skb.bytes.length := by
    rw [hs, List.length_append, List.length_append, FrameHead.frame_length]
    omega
  have hfirst : newHttp2Frame skb.bytes pre.length = h.first payload.length := by
    rw [hs]
    exact newHttp2Frame_at h pre rest hl
  refine ⟨SkBuff.pulled skb _ h9, rfl, rfl, hpull, ?_⟩
  rw [parseSkb_eq rd maps .zero frame none hpull hpre h9, hfirst]

/-- A block in one frame that ends within what is read is read as what it means. -/
theorem Whole.reads_skb (w : Whole) (hs : skb.bytes = pre ++ (w.bytes ++ post))
    (hpull : skb.pullable = true) (hrd : ReadsReps rd) (h0 : w.head.sid ≠ 0)
    (hle : pre.length + w.stop ≤ maxBytes) (hw : BlockWire id reps w.block) :
    let p := parseSkbFrame rd maps skb pre.length .zero
      (w.head.first (w.payload.bytes w.head.flags.toNat).length) none
    ReadsAs rd maps skb.conn reps w.bytes.length p.toParsed (getMatchSkb rd p.maps p.skb p.pres) := by
  intro p
  have hlen := w.bytes_length
  have hskb : skb.bytes.length = pre.length + (w.bytes.length + post.length) := by
    rw [hs, List.length_append, List.length_append]
  obtain ⟨hrule, hread⟩ := w.head.first_headers (w.payload.bytes w.head.flags.toNat).length
    w.head_type h0
  obtain ⟨skb', m, hm, hctx, hparse⟩ := parseSkbFrame_whole rd maps skb .zero hpull hrule hread
    (show pre.length ≤ skb.bytes.length by omega)
    (by simp only [FrameHead.first]; omega) fun hb => w.head_flags hb.2
  simp only [FrameHead.first, w.head_type, ← hlen] at hm hparse
  obtain ⟨post', hpost⟩ := take_placed hs hm
  have hblock : w.block.length ≤ maxBytes := w.block_le (Nat.le_trans (Nat.le_add_left _ _) hle)
  have hreads := (@Whole.parse_at ⟨skb.bytes.take m, skb.conn⟩ pre post'
    (w.head.first (w.payload.bytes w.head.flags.toNat).length) reps w rd maps hrd hpost hle
    (hw.fits hblock) ⟨rfl, rfl⟩ w.bytes.length).reads
  simp only [p, FrameHead.first, w.head_type, hparse, ← hctx] at hreads ⊢
  exact hreads

/-- A block in one frame that is accepted ends within what is read. -/
theorem Whole.stop_skb (w : Whole) (hs : skb.bytes = pre ++ (w.bytes ++ post))
    (hpull : skb.pullable = true) (h0 : w.head.sid ≠ 0) (hend : w.stop < 2 ^ 16)
    (hret : (parseSkbFrame rd maps skb pre.length .zero
      (w.head.first (w.payload.bytes w.head.flags.toNat).length) none).ret = .ok n) :
    pre.length + w.stop ≤ maxBytes := by
  have hlen := w.bytes_length
  have hskb : skb.bytes.length = pre.length + (w.bytes.length + post.length) := by
    rw [hs, List.length_append, List.length_append]
  obtain ⟨hrule, hread⟩ := w.head.first_headers (w.payload.bytes w.head.flags.toNat).length
    w.head_type h0
  obtain ⟨skb', m, hm, -, hparse⟩ := parseSkbFrame_whole rd maps skb .zero hpull hrule hread
    (show pre.length ≤ skb.bytes.length by omega)
    (by simp only [FrameHead.first]; omega) fun hb => w.head_flags hb.2
  simp only [FrameHead.first, w.head_type, ← hlen] at hm hparse hret
  obtain ⟨post', hpost⟩ := take_placed hs hm
  rw [hparse] at hret
  exact @Whole.stop_at rd maps pre post' ⟨skb.bytes.take m, skb.conn⟩ n w.bytes.length _ w
    none hpost hend hret

/-- A block that is cut, and fits the buffer, is read as what it means. -/
theorem Fragmented.reads_skb (g : Fragmented) (hs : skb.bytes = pre ++ (g.bytes ++ post))
    (hpull : skb.pullable = true) (hrd : ReadsReps rd) (h0 : g.head.sid ≠ 0)
    (hsize : pre.length + g.bytes.length ≤ maxBytes) (hfit : g.block.length ≤ blockMaxlen)
    (hw : BlockWire id reps g.block) :
    let p := parseSkbFrame rd maps skb pre.length .zero
      (g.head.first (g.payload.bytes g.head.flags.toNat).length) none
    ReadsAs rd maps skb.conn reps g.bytes.length p.toParsed (getMatchSkb rd p.maps p.skb p.pres) := by
  intro p
  have hlen := g.bytes_length
  have hskb : skb.bytes.length = pre.length + (g.bytes.length + post.length) := by
    rw [hs, List.length_append, List.length_append]
  obtain ⟨hrule, -⟩ := g.head.first_headers (g.payload.bytes g.head.flags.toNat).length
    g.head_type h0
  obtain ⟨skb', m, hm, hctx, hparse⟩ := parseSkbFrame_pulled rd maps skb .zero hpull hrule
    (show http2FrameHdrLen + _ ≤ skb.bytes.length - pre.length by
      simp only [FrameHead.first]; omega) ⟨g.head_type, g.head_flags⟩
  have hle : pre.length + g.bytes.length ≤ m := by omega
  obtain ⟨post', hpost⟩ := take_placed hs hle
  have hblock : g.block.length ≤ maxBytes := Nat.le_trans hfit (by decide)
  obtain ⟨hne, hread, -⟩ := @Fragmented.parse_at ⟨skb.bytes.take m, skb.conn⟩ pre post' reps g rd
    maps hrd hpost hsize (hw.fits hblock) (g.head.first (g.payload.bytes g.head.flags.toNat).length)
  have hreads := (hread hfit).reads
  simp only [p, hparse, ← hctx] at hne hreads ⊢
  rw [neverRead, if_neg fun hn => hne hn.1]
  exact hreads

theorem Fragmented.accepted_skb (g : Fragmented) (hs : skb.bytes = pre ++ (g.bytes ++ post))
    (hpull : skb.pullable = true) (hrd : ReadsReps rd) (h0 : g.head.sid ≠ 0) (hsized : g.Sized)
    (hw : BlockWire id reps g.block) :
    let p := parseSkbFrame rd maps skb pre.length .zero
      (g.head.first (g.payload.bytes g.head.flags.toNat).length) none
    p.ret = .ok n → g.block.length ≤ maxBytes ∧
      ReadsAs rd maps skb.conn reps g.bytes.length p.toParsed
        (getMatchSkb rd p.maps p.skb p.pres) := by
  intro p hret
  have hlen := g.bytes_length
  have hskb : skb.bytes.length = pre.length + (g.bytes.length + post.length) := by
    rw [hs, List.length_append, List.length_append]
  obtain ⟨hrule, -⟩ := g.head.first_headers (g.payload.bytes g.head.flags.toNat).length
    g.head_type h0
  obtain ⟨skb', m, -, hctx, hparse⟩ := parseSkbFrame_pulled rd maps skb .zero hpull hrule
    (show http2FrameHdrLen + _ ≤ skb.bytes.length - pre.length by
      simp only [FrameHead.first]; omega) ⟨g.head_type, g.head_flags⟩
  have hreads := @Fragmented.accepted_at reps pre post ⟨skb.bytes.take m, skb.conn⟩ n m
    (g.head.first (g.payload.bytes g.head.flags.toNat).length) g rd maps hrd
    (congrArg (List.take m) hs) hsized hw
  simp only [p, hparse] at hret hreads ⊢
  have hret' := neverRead_ok hret
  rw [← hctx] at hret hret' hreads ⊢
  rw [neverRead, if_neg fun hn => by rw [hret'] at hn; cases hn.1]
  exact hreads hret'

theorem Fragmented.parseSkb_first (g : Fragmented) (frame : Http2Frame)
    (hs : skb.bytes = pre ++ (g.bytes ++ post)) (hpull : skb.pullable = true)
    (hl : (g.payload.bytes g.head.flags.toNat).length < 2 ^ 24) (hpre : pre.length ≤ maxBytes) :
    ∃ skb' : SkBuff, skb'.bytes = skb.bytes ∧ skb'.conn = skb.conn ∧ skb'.pullable = true ∧
      parseSkb rd maps skb pre.length .zero frame none =
        parseSkbFrame rd maps skb' pre.length .zero
          (g.head.first (g.payload.bytes g.head.flags.toNat).length) none := by
  have hdata : skb.bytes = pre ++ (g.head.frame (g.payload.bytes g.head.flags.toNat) ++
      (((g.middle ++ [g.last]).map Continuation.bytes).flatten ++ post)) := by
    rw [hs, Fragmented.bytes, Fragmented.headers, List.append_assoc]
  exact Http2.parseSkb_first frame hdata hpull hl hpre

theorem Sent.accepted_skb (b : Sent) (frame : Http2Frame) (hs : skb.bytes = pre ++ (b.bytes ++ post))
    (hpull : skb.pullable = true) (hrd : ReadsReps rd) (h0 : b.sid ≠ 0) (hsized : b.Sized)
    (hend : b.EndFits) (hw : BlockWire id reps b.block) :
    let p := parseSkb rd maps skb pre.length .zero frame none
    p.ret = .ok n → b.block.length ≤ maxBytes ∧
      ReadsAs rd maps skb.conn reps b.bytes.length p.toParsed
        (getMatchSkb rd p.maps p.skb p.pres) := by
  intro p hret
  have hpre : pre.length ≤ maxBytes := by
    by_contra hbig
    simp only [p, parseSkb, if_pos (Nat.not_le.mp hbig)] at hret
    cases hret
  cases b with
  | whole w =>
    obtain ⟨skb', hbytes, hconn, hpull', hparse⟩ := @parseSkb_first rd maps pre skb _ _ _ frame
      hs hpull hsized hpre
    rw [← hbytes] at hs
    simp only [p, hparse, ← hconn] at hret ⊢
    have hle := w.stop_skb hs hpull' h0 hend hret
    exact ⟨w.block_le (Nat.le_trans (Nat.le_add_left _ _) hle),
      w.reads_skb hs hpull' hrd h0 hle hw⟩
  | cut g =>
    obtain ⟨skb', hbytes, hconn, hpull', hparse⟩ := @Fragmented.parseSkb_first rd maps pre _ skb g frame
      hs hpull hsized.headers hpre
    rw [← hbytes] at hs
    simp only [p, hparse, ← hconn] at hret ⊢
    exact g.accepted_skb hs hpull' hrd h0 hsized hw hret

theorem Sent.reads_skb (b : Sent) (frame : Http2Frame) (hs : skb.bytes = pre ++ (b.bytes ++ post))
    (hpull : skb.pullable = true) (hrd : ReadsReps rd) (h0 : b.sid ≠ 0) (hsized : b.Sized)
    (hfit : b.FitsAt pre.length) (hw : BlockWire id reps b.block) :
    let p := parseSkb rd maps skb pre.length .zero frame none
    ReadsAs rd maps skb.conn reps b.bytes.length p.toParsed (getMatchSkb rd p.maps p.skb p.pres) := by
  intro p
  cases b with
  | whole w =>
    obtain ⟨skb', hbytes, hconn, hpull', hparse⟩ := @parseSkb_first rd maps pre skb _ _ _ frame
      hs hpull hsized (Nat.le_trans (Nat.le_add_right _ _) hfit)
    rw [← hbytes] at hs
    simp only [p, hparse, ← hconn]
    exact w.reads_skb hs hpull' hrd h0 hfit hw
  | cut g =>
    obtain ⟨skb', hbytes, hconn, hpull', hparse⟩ := @Fragmented.parseSkb_first rd maps pre _ skb g frame
      hs hpull hsized.headers (Nat.le_trans (Nat.le_add_right _ _) hfit.1)
    rw [← hbytes] at hs
    simp only [p, hparse, ← hconn]
    exact g.reads_skb hs hpull' hrd h0 hfit.1 hfit.2 hw

/-- A block that ends within what is read is read as what it means. -/
theorem Hooked.reads (h : Hooked rd maps b conn off p value) (hrd : ReadsReps rd) (h0 : b.sid ≠ 0)
    (hs : b.Sized) (hfit : b.FitsAt off) (hw : BlockWire id reps b.block) :
    ReadsAs rd maps conn reps b.bytes.length p value := by
  cases h with
  | msg frame hm h9 hpull hp =>
    subst hp
    cases b with
    | whole w => exact w.reads_msg frame hm h9 hpull hrd h0 hs (Nat.zero_add w.stop ▸ hfit) hw
    | cut g =>
      exact g.reads_msg frame hm h9 hpull hrd h0 (Nat.zero_add g.bytes.length ▸ hfit.1) hfit.2 hw
  | skb frame hskb hpull hp =>
    subst hp
    exact b.reads_skb frame hskb hpull hrd h0 hs hfit hw

/-- A block that a hook accepts is read as what it means. -/
theorem Hooked.accepted (h : Hooked rd maps b conn off p value) (hrd : ReadsReps rd) (h0 : b.sid ≠ 0)
    (hs : b.Sized) (hend : b.EndFits) (hret : p.ret = .ok n) (hw : BlockWire id reps b.block) :
    b.block.length ≤ maxBytes ∧ ReadsAs rd maps conn reps b.bytes.length p value := by
  cases h with
  | msg frame hm h9 hpull hp =>
    subst hp
    exact b.accepted_msg frame hm h9 hpull hrd h0 hs hend hw hret
  | skb frame hskb hpull hp =>
    subst hp
    exact b.accepted_skb frame hskb hpull hrd h0 hs hend hw hret

end Beeper.Http2
