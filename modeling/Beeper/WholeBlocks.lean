import Beeper.BlockWhole
import Beeper.SizeBound

namespace Beeper.Http2

variable {maps : Maps} {ctx : MsgCtx} {buf : BlockBuf} {pres : HttpParseRes} {f : Http2Frame}
  {p : Option Nat} {msg : SkMsg} {skb : SkBuff} {data : Bytes} {off n : Nat}

/-- A program nothing was loaded into takes no byte for an error. -/
theorem feed_zero {xs : List (UInt8 × Nat)} {st : HdrState} (hskip : st.ps.skip = 0) :
    (feed .zero ctx buf xs st).1 = none := by
  induction xs generalizing st with
  | nil => rfl
  | cons x xs ih =>
    obtain ⟨c, i⟩ := x
    have hbyte : ∃ ps, parseHdrByte .zero ctx buf { st with ps := { st.ps with i := i } } c =
        (none, { st with ps := ps }) ∧ ps.skip = 0 := by
      unfold parseHdrByte
      simp only [hskip, Nat.lt_irrefl, if_false]
      exact ⟨_, rfl, rfl⟩
    obtain ⟨ps, hps, hskip'⟩ := hbyte
    simp only [feed, hps]
    exact ih hskip'

variable (pres f p) in
/-- Such a program, with no table created yet, reads every block there is room for. -/
theorem parseAlone_zero (h : ReadAlone ctx.data off) (hoff : off ≤ maxBytes)
    (hfit : off + unpaddedLen ctx.data off % 2 ^ 16 ≤ maxBytes) :
    ∃ n, (parseAlone .zero .init ctx off pres f p).ret = .ok n := by
  obtain ⟨hstop, hrange⟩ := h.walkStop hfit
  have harrived := h.arrived
  obtain ⟨m, hg⟩ := getDynamicTable_init ctx.conn
  have hagain := getDynamicTable_again hg
  unfold parseAlone parseFrame
  rw [if_neg (Nat.not_lt.mpr hoff), h.http2Block]
  simp only
  rw [if_neg (Nat.not_lt.mpr hfit)]
  simp only [hg]
  have hmin : min (min ctx.data.length maxBytes) (unpaddedLen ctx.data off % 2 ^ 16 + off) =
      unpaddedLen ctx.data off % 2 ^ 16 + off := hstop
  unfold blockBegin at hrange
  by_cases hstg : hdrType ctx.data off = http2SettingsFrame
  · have h9 : ¬ctx.data.length < 9 := by
      unfold http2FrameHdrLen at harrived
      omega
    have hloop := (parseStgLoop_eq (blockStart (isHeaders ctx.data off) (hdrFlags ctx.data off) + off)
      ⟨0, 0, 0, (DynamicTableInfo.new).maxSize⟩ p hrange).1
    simp only [if_pos hstg, parseStgFrom, if_neg h9, hagain, hmin, hloop]
    rw [if_neg]
    · exact ⟨_, rfl⟩
    · split <;> omega
  · have hloop := (parseHdrFrom_eq .zero ctx m.blockBuf
      (blockStart (isHeaders ctx.data off) (hdrFlags ctx.data off) + off)
      (unpaddedLen ctx.data off % 2 ^ 16 + off) ⟨m.table .new, pres, newHttp2ParseState .msg⟩ p).1
    simp only [if_neg hstg, parseHdrFrame, hagain, hloop, walked, hstop]
    rw [feed_zero rfl]
    simp only
    rw [if_neg]
    · exact ⟨_, rfl⟩
    · split <;> omega

/-- The null prefix swallows every zero byte it ends on. -/
theorem ParsedWhole.prefixClear {frameLen : Nat} (h : ReadAlone ctx.data off)
    (hle : blockEnd ctx.data off ≤ maxBytes) (hpos : 0 < frameLen)
    (hw : ParsedWhole ctx.data off .init (aloneParsed .zero .init ctx off pres f p frameLen)
      (aloneFed .zero .init ctx off pres p)) : PrefixClear ctx.data off p := by
  have hlt : unpaddedLen ctx.data off < 2 ^ 16 := by
    unfold blockEnd maxBytes at hle
    omega
  have hmod : unpaddedLen ctx.data off % 2 ^ 16 = unpaddedLen ctx.data off := Nat.mod_eq_of_lt hlt
  have hoff : off ≤ maxBytes := by
    unfold blockEnd at hle
    omega
  have hfit : off + unpaddedLen ctx.data off % 2 ^ 16 ≤ maxBytes := by
    rw [hmod, Nat.add_comm]
    exact hle
  obtain ⟨n, hn⟩ := parseAlone_zero pres f p h hoff hfit
  have hret : (aloneParsed .zero .init ctx off pres f p frameLen).ret = .ok frameLen := by
    unfold aloneParsed
    rw [hn]
    rfl
  have hfed := hw.whole frameLen hpos hret
  rw [parseAlone_fed h hoff hfit hn, hmod] at hfed
  intro k hk hbegin hend hzero
  have hmem := mem_located.mpr ⟨hbegin, hend, hzero⟩
  exact dropNullPrefix_ne_self hmem ⟨rfl, hk⟩ hfed

/-- The frame a message starts with cannot be read in part: the 16 bits the end of its block is
kept in hold all of it, or exceed what a parser reads. -/
def MsgInFull (msg : SkMsg) : Prop :=
  if http2FrameHdrLen ≤ msg.linear ∧ msg.pullable then
    unpaddedLen msg.bytes 0 < 2 ^ 16 ∨ maxBytes < unpaddedLen msg.bytes 0 % 2 ^ 16
  else blockEnd msg.bytes 0 ≤ maxBytes

/-- At the sk_skb hook, a null prefix that ends on a zero byte of the block takes that away. -/
def SkbInFull (skb : SkBuff) (off : Nat) (p : Option Nat) : Prop :=
  maxBytes < off ∨
    if skb.pullable then
      (unpaddedLen skb.bytes off < 2 ^ 16 ∨ maxBytes < off + unpaddedLen skb.bytes off % 2 ^ 16) ∧
        (blockEnd skb.bytes off ≤ maxBytes → PrefixClear skb.bytes off p)
    else blockEnd skb.bytes off ≤ maxBytes

theorem prefixClear_take (h : ReadAlone data off)
    (hn : off + (http2FrameHdrLen + hdrLen data off) ≤ n) :
    PrefixClear (data.take n) off p ↔ PrefixClear data off p := by
  have hend : blockEnd (data.take n) off = blockEnd data off := by
    rw [blockEnd, unpaddedLen_take h hn, blockEnd]
  have hle := blockEnd_le data off
  have hget {k : Nat} (hk : k < blockEnd data off) : (data.take n)[k]? = data[k]? :=
    List.getElem?_take_of_lt (by omega)
  unfold PrefixClear
  rw [blockBegin_take (by omega), hend]
  constructor
  · intro hc k hk hb he
    rw [← hget he]
    exact hc k hk hb he
  · intro hc k hk hb he
    rw [hget he]
    exact hc k hk hb he

theorem parseMsg_unread (rd : Rodata) (maps : Maps) (msg : SkMsg) (pres : HttpParseRes)
    (frame : Http2Frame) (h : ReadAlone msg.bytes 0)
    (hno : ¬(http2FrameHdrLen ≤ msg.linear ∧ msg.pullable)) :
    (parseMsg rd maps msg pres frame).ret = .ok 0 ∨
      (parseMsg rd maps msg pres frame).ret = .error .EFAULT := by
  by_cases h9 : http2FrameHdrLen ≤ msg.linear
  case neg =>
    left
    unfold parseMsg
    rw [if_pos]
    rw [SkMsg.data, List.length_take_of_le msg.linear_le]
    omega
  right
  obtain ⟨hv, hp, hb⟩ := h.accepted
  have harrived := h.arrived
  rw [Nat.zero_add] at harrived
  have hpull : msg.pullData (http2FrameHdrLen + (newHttp2Frame msg.bytes 0).len) = none := by
    unfold SkMsg.pullData
    exact dif_neg fun hc => hno ⟨h9, hc.1⟩
  rw [parseMsg_eq h9, parseMsgFrame_frame hv hp harrived hb, hpull]

theorem parseSkb_unread (rd : Rodata) (maps : Maps) (skb : SkBuff) (pres : HttpParseRes)
    (frame : Http2Frame) (p : Option Nat) (h : ReadAlone skb.bytes off) (hoff : off ≤ maxBytes)
    (hno : ¬skb.pullable = true) :
    (parseSkb rd maps skb off pres frame p).ret = .error .EFAULT := by
  obtain ⟨hv, hp, hb⟩ := h.accepted
  have harrived := h.arrived
  have h9 : off + http2FrameHdrLen ≤ skb.bytes.length := by omega
  have hpull (len : Nat) : skb.pullData len = none := by
    unfold SkBuff.pullData
    exact dif_neg fun hc => hno hc.1
  unfold parseSkb
  rw [if_neg (Nat.not_lt.mpr hoff), if_neg (Nat.not_lt.mpr h9)]
  by_cases hlin : skb.linear < off + http2FrameHdrLen
  · simp only [if_pos hlin, hpull]
  · simp only [if_neg hlin]
    rw [SkBuff.data, newHttp2Frame_take (Nat.not_lt.mp hlin)]
    rw [parseSkbFrame_frame hv hp (by simp only [newHttp2Frame]; omega) hb, hpull]

/-- A parse that fails on the way reads no block in part, but is no refusal either. -/
theorem parsedWhole_unread {r : Parsed} {fed : List (UInt8 × Nat)}
    (hret : r.ret = .ok 0 ∨ r.ret = .error .EFAULT) :
    ParsedWhole data off maps r fed ↔ blockEnd data off ≤ maxBytes := by
  constructor
  · intro hw
    by_contra hbig
    have htoo := (hw.tooBig (Nat.not_le.mp hbig)).1
    rcases hret with hret | hret
    · rw [hret] at htoo
      cases htoo
    · rw [hret] at htoo
      cases htoo
  · intro hle
    refine ⟨fun hbig => absurd hbig (Nat.not_lt.mpr hle), fun n hpos hn => ?_⟩
    rcases hret with hret | hret
    · rw [hret] at hn
      cases hn
      exact absurd hpos (Nat.lt_irrefl 0)
    · rw [hret] at hn
      cases hn

theorem parseMsg_parsedWhole (rd : Rodata) (maps : Maps) (msg : SkMsg) (pres : HttpParseRes)
    (frame : Http2Frame) (h : ReadAlone msg.bytes 0) :
    ParsedWhole msg.bytes 0 maps (parseMsg rd maps msg pres frame).toParsed
      (msgFed rd maps msg pres) ↔ MsgInFull msg := by
  unfold MsgInFull
  by_cases hread : http2FrameHdrLen ≤ msg.linear ∧ msg.pullable = true
  case neg =>
    rw [if_neg hread]
    exact parsedWhole_unread (parseMsg_unread rd maps msg pres frame h hread)
  have hn : 0 + (http2FrameHdrLen + hdrLen msg.bytes 0) ≤
      http2FrameHdrLen + hdrLen msg.bytes 0 := by omega
  have hctx : ReadAlone (pulledMsg msg).data 0 := h.take hn
  have hlen : unpaddedLen (pulledMsg msg).data 0 = unpaddedLen msg.bytes 0 := unpaddedLen_take h hn
  rw [if_pos hread, parseMsg_alone rd maps pres frame hread.2 hread.1 h, ← parsedWhole_take h hn,
    ← hlen]
  constructor
  · intro hw
    by_contra hno
    have hfit : 0 + unpaddedLen (pulledMsg msg).data 0 % 2 ^ 16 ≤ maxBytes := by omega
    have hle := ParsedWhole.blockEnd_le hctx (Nat.zero_le _) hfit hw
    unfold blockEnd maxBytes at hle
    omega
  · intro hend
    refine aloneParsed_whole hctx _ (.inr ?_) fun _ n hp => by cases hp
    rw [Nat.zero_add]
    exact hend

theorem parseSkb_parsedWhole (skb : SkBuff) (off : Nat) (p : Option Nat)
    (h : ReadAlone skb.bytes off) :
    (∀ rd maps pres frame, ParsedWhole skb.bytes off maps
        (parseSkb rd maps skb off pres frame p).toParsed (skbFed rd maps skb off pres p)) ↔
      SkbInFull skb off p := by
  unfold SkbInFull
  by_cases hoff : maxBytes < off
  · refine iff_of_true (fun rd maps pres frame => ?_) (.inl hoff)
    have hret : parseSkb rd maps skb off pres frame p =
        ⟨⟨.error .E2BIG, maps, pres, frame, p⟩, skb⟩ := by
      unfold parseSkb
      exact if_pos hoff
    rw [hret]
    exact ⟨fun _ => ⟨rfl, .refl maps⟩, fun n _ hn => by cases hn⟩
  rw [or_iff_right hoff]
  by_cases hpull : skb.pullable = true
  case neg =>
    rw [if_neg hpull]
    constructor
    · intro hw
      exact (parsedWhole_unread (.inr (parseSkb_unread .zero .init skb .zero (newHttp2Frame [] 0)
        p h (Nat.not_lt.mp hoff) hpull))).mp (hw .zero .init .zero (newHttp2Frame [] 0))
    · intro hle rd maps pres frame
      exact (parsedWhole_unread (.inr (parseSkb_unread rd maps skb pres frame p h
        (Nat.not_lt.mp hoff) hpull))).mpr hle
  have hn : off + (http2FrameHdrLen + hdrLen skb.bytes off) ≤
      max skb.linear (off + (http2FrameHdrLen + hdrLen skb.bytes off)) := Nat.le_max_right _ _
  have hctx : ReadAlone (pulledSkb skb off).data off := h.take hn
  have hlen : unpaddedLen (pulledSkb skb off).data off = unpaddedLen skb.bytes off :=
    unpaddedLen_take h hn
  have hend : blockEnd (pulledSkb skb off).data off = blockEnd skb.bytes off := by
    rw [blockEnd, hlen, blockEnd]
  have hclear := prefixClear_take (p := p) h hn
  have hparse (rd : Rodata) (maps : Maps) (pres : HttpParseRes) (frame : Http2Frame) :=
    parseSkb_alone rd maps pres frame p hpull (Nat.not_lt.mp hoff) h
  rw [if_pos hpull]
  constructor
  · intro hw
    have hzero := hw .zero .init .zero (newHttp2Frame [] 0)
    rw [hparse, ← parsedWhole_take h hn] at hzero
    refine ⟨?_, fun hle => ?_⟩
    · by_contra hno
      have hfit : off + unpaddedLen (pulledSkb skb off).data off % 2 ^ 16 ≤ maxBytes := by
        rw [hlen]
        omega
      have hle := ParsedWhole.blockEnd_le hctx (Nat.not_lt.mp hoff) hfit hzero
      rw [hend] at hle
      unfold blockEnd maxBytes at hle
      omega
    · have hpos : 0 < http2FrameHdrLen + hdrLen skb.bytes off := by
        unfold http2FrameHdrLen
        omega
      rw [← hend] at hle
      have hpulled : PrefixClear (pulledSkb skb off).data off p :=
        ParsedWhole.prefixClear hctx hle hpos hzero
      exact hclear.mp hpulled
  · rintro ⟨hfit, hcl⟩ rd maps pres frame
    rw [hparse, ← parsedWhole_take h hn]
    rw [← hlen] at hfit
    refine aloneParsed_whole hctx _ (.inr hfit) fun hle => ?_
    rw [hend] at hle
    exact hclear.mpr (hcl hle)

/-- A frame that ends past what a parser reads is refused, and of any other no byte is left out,
just where its end fits the 16 bits it is kept in or is refused for what is left of it. -/
theorem parse_whole_iff (msg : SkMsg) (skb : SkBuff) (off : Nat) (p : Option Nat)
    (hmsg : ReadAlone msg.bytes 0) (hskb : ReadAlone skb.bytes off) :
    (∀ rd maps pres frame, ParsedWhole msg.bytes 0 maps (parseMsg rd maps msg pres frame).toParsed
        (msgFed rd maps msg pres) ↔ MsgInFull msg) ∧
      ((∀ rd maps pres frame, ParsedWhole skb.bytes off maps
        (parseSkb rd maps skb off pres frame p).toParsed (skbFed rd maps skb off pres p)) ↔
        SkbInFull skb off p) :=
  ⟨fun rd maps pres frame => parseMsg_parsedWhole rd maps msg pres frame hmsg,
    parseSkb_parsedWhole skb off p hskb⟩

/-- The header of a HEADERS frame with a payload of `2 ^ 16 - 9` bytes. -/
def hugeHeader : Bytes := [0, 0xff, 0xf7, 1, 4, 0, 0, 0, 1]

def hugeFrame : SkMsg :=
  linearMsg (hugeHeader ++ List.replicate (2 ^ 16 - 9) 0) tableConn true

theorem hugeFrame_readAlone : ReadAlone hugeFrame.bytes 0 := by
  refine ⟨?_, .inl (by decide), by decide⟩
  simp only [hugeFrame, linearMsg, List.length_append, List.length_replicate]
  decide

/-- It is taken for a frame of no length, of which nothing is read. -/
theorem parseMsg_hugeFrame :
    ¬ParsedWhole hugeFrame.bytes 0 .init
      (parseMsg .zero .init hugeFrame .zero (newHttp2Frame [] 0)).toParsed
      (msgFed .zero .init hugeFrame .zero) := by
  rw [parseMsg_parsedWhole _ _ _ _ _ hugeFrame_readAlone, MsgInFull, if_pos]
  · decide
  · refine ⟨?_, rfl⟩
    simp only [hugeFrame, linearMsg, List.length_append, List.length_replicate]
    decide

/-- A padded HEADERS frame with a block of two fields. -/
def paddedHeaders : Bytes := [0, 0, 4, 1, 0x0c, 0, 0, 0, 1, 1, 0x82, 0x84, 0]

def paddedBehind : SkMsg := ⟨paddedHeaders ++ [0x88], 11, tableConn, true, by decide⟩

/-- The frame behind two other bytes of an sk_buff, of which it is not linear. -/
def paddedWithin : SkBuff := ⟨[0x55, 0x55] ++ paddedHeaders ++ [0x88], 5, tableConn, true, by decide⟩

theorem parse_whole_padded :
    ParsedWhole paddedBehind.bytes 0 .init
        (parseMsg .zero .init paddedBehind .zero (newHttp2Frame [] 0)).toParsed
        (msgFed .zero .init paddedBehind .zero) ∧
      ParsedWhole paddedWithin.bytes 2 .init
        (parseSkb .zero .init paddedWithin 2 .zero (newHttp2Frame [] 0) none).toParsed
        (skbFed .zero .init paddedWithin 2 .zero none) := by
  have hmsg : ReadAlone paddedBehind.bytes 0 := ⟨by decide, .inl (by decide), by decide⟩
  have hskb : ReadAlone paddedWithin.bytes 2 := ⟨by decide, .inl (by decide), by decide⟩
  obtain ⟨hm, hs⟩ := parse_whole_iff paddedBehind paddedWithin 2 none hmsg hskb
  refine ⟨(hm .zero .init .zero _).mpr (.inl (by decide)), ?_⟩
  refine hs.mpr (.inr ⟨.inl (by decide), fun _ n hn => ?_⟩) .zero .init .zero _
  cases hn

end Beeper.Http2
