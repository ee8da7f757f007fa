import Beeper.HookReads
import Beeper.Refusals

namespace Beeper.Http2

/-- What a hook comes to at the header block `block`: it fails and leaves the tables as they were, or
reads the block from its start on, and all of it if its end fits. -/
inductive Walked (rd : Rodata) (maps : Maps) (conn : Ip4Conn) (block : Bytes) (fits : Prop)
    (p : Parsed) : Prop
  | refused {e : Errno} (hret : p.ret = .error e) (hu : Untouched maps .zero p) :
      Walked rd maps conn block fits p
  | read (v : View) (k total : Nat) (hconn : v.ctx.conn = conn) (hall : fits → k = block.length)
      (hv : Legible rd v (block.take k)) (h : BlockRead rd maps (block.take k) total v p) :
      Walked rd maps conn block fits p

variable {rd : Rodata} {maps : Maps} {b : Sent} {conn : Ip4Conn} {p : Parsed} {block : Bytes}
  {value : Nat → Except Errno Bytes} {pre post : Bytes} {skb : SkBuff} {msg : SkMsg} {ctx : MsgCtx}
  {k n off : Nat} {f : Http2Frame} {fits : Prop}

theorem Walked.map (h : Walked rd maps conn block fits p) (k : Nat) :
    Walked rd maps conn block fits { p with ret := p.ret.map fun _ => k } := by
  cases h with
  | @refused e hret hu =>
    have herr : (p.ret.map fun _ => k) = .error e := by rw [hret, Except.map]
    exact .refused herr ⟨hu.tables, hu.captures⟩
  | read v j total hconn hall hv h => exact .read v j k hconn hall hv (h.map k)

/-- A block in one frame is read up to the end of it that is kept in 16 bits. -/
theorem Whole.walk_at (w : Whole) (rd : Rodata) (maps : Maps) (f : Http2Frame)
    (hd : ctx.data = pre ++ (w.bytes ++ post)) : Walked rd maps ctx.conn w.block (w.stop < 2 ^ 16)
      (parseFrame rd maps ctx pre.length (w.payload.bytes w.head.flags.toNat).length
        http2HeadersFrame w.head.flags.toNat .zero f none) := by
  obtain ⟨front, back, hp⟩ := w.payload.carries w.head
  have hblock := block_at_mod hd hp
  by_cases hbig : maxBytes < pre.length ∨ maxBytes < pre.length + w.stop % 2 ^ 16
  · have hparse : parseFrame rd maps ctx pre.length (w.payload.bytes w.head.flags.toNat).length
        http2HeadersFrame w.head.flags.toNat .zero f none = ⟨.error .E2BIG, maps, .zero, f, none⟩ := by
      unfold parseFrame
      split
      · rfl
      next hoff =>
        rw [hblock]
        exact if_pos (hbig.resolve_left hoff)
    rw [hparse]
    exact .refused rfl ⟨.refl maps, rfl⟩
  obtain ⟨hoff, hmax⟩ := not_or.mp hbig
  have hpl := payload_length hp
  have hlen := w.bytes_length
  have hstop := stop_eq hp
  have hle := w.stop_le
  have hmod := Nat.mod_le w.stop (2 ^ 16)
  have hsum : (front ++ w.block).length = front.length + w.block.length := List.length_append
  have hdata : ctx.data.length = pre.length + (w.bytes.length + post.length) := by
    rw [hd, List.length_append, List.length_append]
  have hread := parseFrame_read rd maps f (Nat.not_lt.mp hoff) hblock (Nat.not_lt.mp hmax) (by omega)
  by_cases hback : w.stop % 2 ^ 16 < http2FrameHdrLen + front.length
  · rw [Nat.sub_eq_zero_of_le (Nat.le_of_lt hback)] at hread
    refine .read ⟨ctx, maps.blockBuf, .msg, 0⟩ 0 0 rfl (fun hfits => ?_) ?_
      ⟨hread.buf, hread.full, hread.walk⟩
    · rw [Nat.mod_eq_of_lt hfits] at hback
      omega
    exact legible_msg ctx [] [] ctx.data maps.blockBuf rfl (Nat.two_pow_pos 16)
  · obtain ⟨j, hj⟩ := Nat.exists_eq_add_of_le (Nat.not_lt.mp hback)
    obtain ⟨head, hhead, hsplit⟩ := data_at hp hd
    have hbase : http2FrameHdrLen + front.length + pre.length = head.length := by omega
    have hslice : slice ctx.data head.length j = w.block.take j := by
      unfold slice
      rw [hsplit, List.append_assoc, List.drop_left, List.take_append_of_le_length (by omega)]
    rw [hj, Nat.add_sub_cancel_left, hbase, hslice] at hread
    refine .read _ j 0 rfl (fun hfits => ?_) ?_ hread
    · rw [Nat.mod_eq_of_lt hfits] at hj
      omega
    refine legible_msg ctx _ _ (w.block.drop j ++ (back ++ post)) maps.blockBuf ?_ ?_
    · rw [hsplit, List.append_assoc, List.append_assoc, ← List.append_assoc (w.block.take j),
        List.take_append_drop]
    · rw [List.length_take]
      unfold maxBytes at hmax
      omega

/-- A block that is cut is read once it is put together. -/
theorem Fragmented.walk_at (g : Fragmented) (rd : Rodata) (maps : Maps) (f : Http2Frame)
    (hd : ctx.data = (pre ++ (g.bytes ++ post)).take k) (hs : g.Sized) (n : Nat) :
    let p := parseBlock rd maps ctx pre.length .zero f none
    Walked rd maps ctx.conn g.block True { p with ret := neverRead p n } := by
  intro p
  cases hc : (collectBlock ctx.data pre.length maps.blockBuf).ret with
  | ok total =>
    obtain ⟨b, hb, hhas⟩ := g.collected_take hs hd maps.blockBuf hc
    have hread := parseBlock_read rd ctx f none hb rfl hhas
    have hne : p.ret ≠ .error .EAGAIN := by
      intro h
      have hagain := (parseBlock_again rd maps ctx pre.length f none .zero h).1
      rw [hc] at hagain
      cases hagain
    have hwhole : g.block.take g.block.length = g.block := List.take_length
    exact .read _ g.block.length g.bytes.length rfl (fun _ => rfl) (hwhole.symm ▸ (exact_buf hhas).legible)
      (hwhole.symm ▸ hread.neverRead hne n)
  | error e =>
    have hret : p.ret = .error e := by
      simp only [p, parseBlock, hc]
    have hu : Untouched maps .zero p := by
      simp only [p, parseBlock, hc]
      exact ⟨⟨rfl, rfl, rfl⟩, rfl⟩
    obtain ⟨e', he⟩ : ∃ e', neverRead p n = .error e' := by
      unfold neverRead
      split
      · exact ⟨_, rfl⟩
      · exact ⟨_, hret⟩
    exact .refused he ⟨hu.tables, hu.captures⟩

theorem rejectFrame_walked (frame : Http2Frame) (frameLen avail : Nat) {p : Parsed}
    (hret : p.ret = (rejectFrame frame frameLen avail).1) (hu : Untouched maps .zero p) :
    Walked rd maps conn block fits p := by
  unfold rejectFrame at hret
  split at hret
  · exact .refused hret hu
  · exact .refused hret hu

theorem violates_stream_zero {type sid : Nat} (ht : type = http2HeadersFrame) (h0 : sid = 0) :
    violatesBlockRules type sid := by
  simp [violatesBlockRules, ht, h0]

theorem Sent.walk_msg (b : Sent) (rd : Rodata) (maps : Maps) (frame : Http2Frame)
    (hm : msg.bytes = b.bytes ++ post) (h9 : http2FrameHdrLen ≤ msg.linear)
    (hpull : msg.pullable = true) (hs : b.Sized) :
    Walked rd maps msg.conn b.block b.EndFits (parseMsg rd maps msg .zero frame).toParsed := by
  cases b with
  | whole w =>
    by_cases h0 : w.head.sid = 0
    · have hfirst := w.first hm hs
      rw [parseMsg_eq h9, parseMsgFrame_reject (violates_stream_zero (by rw [hfirst]; exact w.head_type)
        (by rw [hfirst]; exact h0))]
      exact rejectFrame_walked _ _ _ rfl ⟨.refl maps, rfl⟩
    obtain ⟨msg', -, hparse⟩ := w.parsed rd maps frame hm h9 hpull h0 hs
    have hwalk := @Whole.walk_at [] [] ⟨w.bytes, msg.conn⟩ w rd maps (newHttp2Frame msg.bytes 0)
      (by rw [List.nil_append, List.append_nil])
    rw [hparse]
    exact hwalk.map _
  | cut g =>
    have hlen := g.bytes_length
    have hmsg : msg.bytes.length = g.bytes.length + post.length := by
      rw [hm, Sent.bytes, List.length_append]
    have hfirst : newHttp2Frame msg.bytes 0 =
        g.head.first (g.payload.bytes g.head.flags.toNat).length := by
      rw [hm, bytes, Fragmented.bytes, Fragmented.headers, List.append_assoc]
      exact newHttp2Frame_frame g.head _ hs.headers
    by_cases h0 : g.head.sid = 0
    · rw [parseMsg_eq h9, hfirst, parseMsgFrame_reject (violates_stream_zero g.head_type h0)]
      exact rejectFrame_walked _ _ _ rfl ⟨.refl maps, rfl⟩
    obtain ⟨hrule, -⟩ := g.head.first_headers (g.payload.bytes g.head.flags.toNat).length
      g.head_type h0
    obtain ⟨msg', -, hparse⟩ := parseMsgFrame_pulled rd maps msg .zero hpull
      (Nat.le_trans h9 msg.linear_le) hrule (by simp only [FrameHead.first]; omega)
      ⟨g.head_type, g.head_flags⟩
    rw [parseMsg_eq h9, hfirst, hparse]
    exact @Fragmented.walk_at [] post
      ⟨msg.bytes.take (min msg.bytes.length maxBytes), msg.conn⟩ (min msg.bytes.length maxBytes) g rd
      maps _ (by rw [hm]; rfl) hs msg.bytes.length

theorem Sent.walk_skb (b : Sent) (rd : Rodata) (maps : Maps) (frame : Http2Frame)
    (hskb : skb.bytes = pre ++ (b.bytes ++ post)) (hpull : skb.pullable = true) (hs : b.Sized) :
    Walked rd maps skb.conn b.block b.EndFits
      (parseSkb rd maps skb pre.length .zero frame none).toParsed := by
  by_cases hpre : pre.length ≤ maxBytes
  case neg =>
    unfold parseSkb
    rw [if_pos (Nat.not_le.mp hpre)]
    exact .refused rfl ⟨.refl maps, rfl⟩
  cases b with
  | whole w =>
    obtain ⟨skb', hbytes, hconn, hpull', hparse⟩ := @parseSkb_first rd maps pre skb _ _ _ frame
      hskb hpull hs hpre
    rw [← hbytes] at hskb
    rw [hparse, ← hconn]
    by_cases h0 : w.head.sid = 0
    · rw [parseSkbFrame_reject (violates_stream_zero w.head_type h0)]
      exact rejectFrame_walked _ _ _ rfl ⟨.refl maps, rfl⟩
    have hlen := w.bytes_length
    have hskblen : skb'.bytes.length = pre.length + (w.bytes.length + post.length) := by
      rw [hskb, List.length_append, List.length_append, Sent.bytes]
    obtain ⟨hrule, hread⟩ := w.head.first_headers (w.payload.bytes w.head.flags.toNat).length
      w.head_type h0
    obtain ⟨skb'', m, hm, -, hframe⟩ := parseSkbFrame_whole rd maps skb' .zero hpull' hrule hread
      (show pre.length ≤ skb'.bytes.length by omega)
      (by simp only [FrameHead.first]; omega) fun hb => w.head_flags hb.2
    simp only [FrameHead.first, w.head_type, ← hlen] at hm hframe
    obtain ⟨post', hpost⟩ := take_placed hskb hm
    have hwalk := @Whole.walk_at pre post' ⟨skb'.bytes.take m, skb'.conn⟩ w rd maps
      (w.head.first (w.payload.bytes w.head.flags.toNat).length) hpost
    simp only [FrameHead.first, w.head_type] at hwalk ⊢
    rw [hframe]
    exact hwalk.map _
  | cut g =>
    obtain ⟨skb', hbytes, hconn, hpull', hparse⟩ := @Fragmented.parseSkb_first rd maps pre _ skb g
      frame hskb hpull hs.headers hpre
    rw [← hbytes] at hskb
    rw [hparse, ← hconn]
    by_cases h0 : g.head.sid = 0
    · rw [parseSkbFrame_reject (violates_stream_zero g.head_type h0)]
      exact rejectFrame_walked _ _ _ rfl ⟨.refl maps, rfl⟩
    have hlen := g.bytes_length
    have hskblen : skb'.bytes.length = pre.length + (g.bytes.length + post.length) := by
      rw [hskb, List.length_append, List.length_append, Sent.bytes]
    obtain ⟨hrule, -⟩ := g.head.first_headers (g.payload.bytes g.head.flags.toNat).length
      g.head_type h0
    obtain ⟨skb'', m, -, -, hframe⟩ := parseSkbFrame_pulled rd maps skb' .zero hpull' hrule
      (show http2FrameHdrLen + _ ≤ skb'.bytes.length - pre.length by
        simp only [FrameHead.first]; omega) ⟨g.head_type, g.head_flags⟩
    rw [hframe]
    exact @Fragmented.walk_at pre post ⟨skb'.bytes.take m, skb'.conn⟩ m g rd maps _
      (congrArg (List.take m) hskb) hs _

/-- Either hook fails at a block it is called at, or reads its first bytes. -/
theorem Hooked.walks (h : Hooked rd maps b conn off p value) (hs : b.Sized) :
    Walked rd maps conn b.block b.EndFits p := by
  cases h with
  | msg frame hm h9 hpull hp =>
    subst hp
    exact b.walk_msg rd maps frame hm h9 hpull hs
  | skb frame hskb hpull hp =>
    subst hp
    exact b.walk_skb rd maps frame hskb hpull hs

end Beeper.Http2
