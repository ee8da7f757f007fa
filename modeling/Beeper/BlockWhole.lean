import Beeper.BlockBounds
import Beeper.SkbCases

namespace Beeper.Http2

variable {rd : Rodata} {maps : Maps} {ctx : MsgCtx} {pres : HttpParseRes} {f : Http2Frame}
  {p : Option Nat} {msg : SkMsg} {skb : SkBuff} {data : Bytes} {off n : Nat}

/-- What `_parse_frame` reads a frame at the start of a message out of. -/
def pulledMsg (msg : SkMsg) : MsgCtx :=
  ⟨msg.bytes.take (http2FrameHdrLen + hdrLen msg.bytes 0), msg.conn⟩

/-- What it reads a frame in an sk_buff out of. -/
def pulledSkb (skb : SkBuff) (off : Nat) : MsgCtx :=
  ⟨skb.bytes.take (max skb.linear (off + (http2FrameHdrLen + hdrLen skb.bytes off))), skb.conn⟩

/-- The parse of a frame read on its own, along with the length of the frame. -/
def aloneParsed (rd : Rodata) (maps : Maps) (ctx : MsgCtx) (off : Nat) (pres : HttpParseRes)
    (f : Http2Frame) (p : Option Nat) (frameLen : Nat) : Parsed :=
  { parseAlone rd maps ctx off pres f p with
    ret := (parseAlone rd maps ctx off pres f p).ret.map fun _ => frameLen }

theorem ReadAlone.accepted (h : ReadAlone data off) :
    ¬violatesBlockRules (hdrType data off) (hdrSid data off) ∧
      isParsedFrame (hdrType data off) (hdrFlags data off) ∧
      ¬(hdrType data off = http2HeadersFrame ∧
        hdrFlags data off &&& http2EndHeadersFlag = 0) := by
  rcases h.kind with ⟨ht, hf, hs⟩ | ⟨ht, hf⟩
  · rw [ht]
    refine ⟨?_, ?_, fun hb => hf hb.2⟩
    · simp [violatesBlockRules, hs, http2HeadersFrame, http2ContinuationFrame]
    · simp [isParsedFrame]
  · rw [ht, hf]
    refine ⟨?_, ?_, fun hb => absurd hb.1 (by decide)⟩
    · simp [violatesBlockRules, http2HeadersFrame, http2ContinuationFrame, http2SettingsFrame]
    · simp [isParsedFrame]

/-- A frame that is read on its own is parsed out of itself. -/
theorem parseMsg_alone (rd : Rodata) (maps : Maps) (pres : HttpParseRes) (f : Http2Frame)
    (hpull : msg.pullable = true) (h9 : http2FrameHdrLen ≤ msg.linear)
    (h : ReadAlone msg.bytes 0) :
    (parseMsg rd maps msg pres f).toParsed =
      aloneParsed rd maps (pulledMsg msg) 0 pres (newHttp2Frame msg.bytes 0) none
        (http2FrameHdrLen + hdrLen msg.bytes 0) := by
  obtain ⟨hv, hp, hb⟩ := h.accepted
  have harrived := h.arrived
  rw [Nat.zero_add] at harrived
  obtain ⟨msg', -, hparse⟩ := parseMsgFrame_whole (f := newHttp2Frame msg.bytes 0) rd maps msg pres
    hpull hv hp harrived hb
  have h9' : 0 + http2FrameHdrLen ≤ http2FrameHdrLen + hdrLen msg.bytes 0 := by omega
  rw [parseMsg_eq h9, hparse]
  simp only [aloneParsed, parseAlone, pulledMsg, hdrLen_take h9', hdrType_take h9', hdrFlags_take h9']
  rfl

theorem parseSkb_alone (rd : Rodata) (maps : Maps) (pres : HttpParseRes) (f : Http2Frame)
    (p : Option Nat) (hpull : skb.pullable = true) (hoff : off ≤ maxBytes)
    (h : ReadAlone skb.bytes off) :
    (parseSkb rd maps skb off pres f p).toParsed =
      aloneParsed rd maps (pulledSkb skb off) off pres (newHttp2Frame skb.bytes off) p
        (http2FrameHdrLen + hdrLen skb.bytes off) := by
  obtain ⟨hv, hp, hb⟩ := h.accepted
  have harrived := h.arrived
  have h9 : off + http2FrameHdrLen ≤ skb.bytes.length := by omega
  have hsize : http2FrameHdrLen + hdrLen skb.bytes off ≤ skb.bytes.length - off := by omega
  have hlin : max (max skb.linear (off + http2FrameHdrLen))
      (off + (http2FrameHdrLen + hdrLen skb.bytes off)) =
      max skb.linear (off + (http2FrameHdrLen + hdrLen skb.bytes off)) := by omega
  have hctx : newSkbCtx (SkBuff.pulled (SkBuff.pulled skb (off + http2FrameHdrLen) h9)
      (off + (http2FrameHdrLen + hdrLen skb.bytes off)) harrived) = pulledSkb skb off := by
    simp only [newSkbCtx, SkBuff.data, SkBuff.pulled, pulledSkb, hlin]
  have h9' : off + http2FrameHdrLen ≤
      max skb.linear (off + (http2FrameHdrLen + hdrLen skb.bytes off)) := by omega
  rw [parseSkb_eq rd maps pres f p hpull hoff h9, parseSkbFrame_frame hv hp hsize hb]
  have hpulled := skbPullData_isSome (SkBuff.pulled skb (off + http2FrameHdrLen) h9) hpull
    harrived
  simp only [newHttp2Frame, hpulled, hctx, aloneParsed, parseAlone]
  simp only [pulledSkb, hdrLen_take h9', hdrType_take h9', hdrFlags_take h9']

/-- A frame whose block ends past what a parser reads is refused and leaves no trace in the
tables. The block of any other frame is read to its end, where the parse succeeds. -/
structure ParsedWhole (data : Bytes) (off : Nat) (maps : Maps) (r : Parsed)
    (fed : List (UInt8 × Nat)) : Prop where
  tooBig : maxBytes < blockEnd data off → r.ret = .error .E2BIG ∧ SameTables maps r.maps
  whole : ∀ n, 0 < n → r.ret = .ok n → fed = located data (blockBegin data off) (blockEnd data off)

/-- What `parse_msg` and `parse_skb` feed to the decoder of a frame that is read on its own. -/
def msgFed (rd : Rodata) (maps : Maps) (msg : SkMsg) (pres : HttpParseRes) : List (UInt8 × Nat) :=
  aloneFed rd maps (pulledMsg msg) 0 pres none

def skbFed (rd : Rodata) (maps : Maps) (skb : SkBuff) (off : Nat) (pres : HttpParseRes)
    (p : Option Nat) : List (UInt8 × Nat) :=
  aloneFed rd maps (pulledSkb skb off) off pres p

variable {r : Parsed} {fed : List (UInt8 × Nat)}

theorem blockEnd_le (data : Bytes) (off : Nat) :
    blockEnd data off ≤ off + (http2FrameHdrLen + hdrLen data off) := by
  unfold blockEnd unpaddedLen
  omega

theorem parsedWhole_take (h : ReadAlone data off)
    (hn : off + (http2FrameHdrLen + hdrLen data off) ≤ n) :
    ParsedWhole (data.take n) off maps r fed ↔ ParsedWhole data off maps r fed := by
  have hbegin : blockBegin (data.take n) off = blockBegin data off := blockBegin_take (by omega)
  have hend : blockEnd (data.take n) off = blockEnd data off := by
    rw [blockEnd, unpaddedLen_take h hn, blockEnd]
  have hle := blockEnd_le data off
  have hfits := h.fits
  have hlocated : located (data.take n) (blockBegin data off) (blockEnd data off) =
      located data (blockBegin data off) (blockEnd data off) := by
    unfold located
    rw [slice_take]
    unfold blockBegin blockEnd unpaddedLen
    omega
  constructor
  · intro hw
    refine ⟨fun hbig => hw.tooBig (hbig.trans_eq hend.symm), fun k hpos hk => ?_⟩
    rw [hw.whole k hpos hk, hbegin, hend, hlocated]
  · intro hw
    refine ⟨fun hbig => hw.tooBig (hbig.trans_eq hend), fun k hpos hk => ?_⟩
    rw [hw.whole k hpos hk, hbegin, hend, hlocated]

theorem map_error {α β : Type} {e : Errno} {x : Except Errno α} (g : α → β)
    (h : x.map g = .error e) : x = .error e := by
  cases x with
  | error =>
    cases h
    rfl
  | ok => cases h

/-- The null prefix ends on no byte of the block that it would swallow. -/
def PrefixClear (data : Bytes) (off : Nat) (p : Option Nat) : Prop :=
  ∀ n, p = some n → blockBegin data off ≤ n → n < blockEnd data off → data[n]? ≠ some 0

theorem mem_located {start stop i : Nat} {c : UInt8} :
    (c, i) ∈ located data start stop ↔ start ≤ i ∧ i < stop ∧ data[i]? = some c := by
  unfold located slice
  rw [List.mk_mem_zipIdx_iff_le_and_getElem?_sub, List.getElem?_take, List.getElem?_drop]
  constructor
  · rintro ⟨hle, hget⟩
    split at hget
    · refine ⟨hle, by omega, ?_⟩
      rwa [Nat.add_sub_cancel' hle] at hget
    · cases hget
  · rintro ⟨hle, hlt, hget⟩
    refine ⟨hle, ?_⟩
    rw [if_pos (by omega), Nat.add_sub_cancel' hle]
    exact hget

theorem PrefixClear.drop (h : PrefixClear data off p) :
    dropNullPrefix p (located data (blockBegin data off) (blockEnd data off)) =
      located data (blockBegin data off) (blockEnd data off) := by
  apply dropNullPrefix_eq_self
  rintro ⟨c, i⟩ hmem ⟨hz, hp⟩
  obtain ⟨hle, hlt, hget⟩ := mem_located.mp hmem
  simp only at hz hp
  rw [hz] at hget
  exact h i hp hle hlt hget

/-- Where the end that is kept in 16 bits is the end of the block, or refused, no block is read
in part. -/
theorem aloneParsed_whole (h : ReadAlone ctx.data off) (frameLen : Nat)
    (hend : maxBytes < off ∨ unpaddedLen ctx.data off < 2 ^ 16 ∨
      maxBytes < off + unpaddedLen ctx.data off % 2 ^ 16)
    (hclear : blockEnd ctx.data off ≤ maxBytes → PrefixClear ctx.data off p) :
    ParsedWhole ctx.data off maps (aloneParsed rd maps ctx off pres f p frameLen)
      (aloneFed rd maps ctx off pres p) := by
  by_cases hbig : maxBytes < off ∨ maxBytes < off + unpaddedLen ctx.data off % 2 ^ 16
  · have hp := parseAlone_tooBig rd maps pres f p h hbig
    unfold aloneParsed
    rw [hp]
    exact ⟨fun _ => ⟨rfl, .refl maps⟩, fun k _ hk => by cases hk⟩
  · have hoff : off ≤ maxBytes := by omega
    have hfit : off + unpaddedLen ctx.data off % 2 ^ 16 ≤ maxBytes := by omega
    have hmod : unpaddedLen ctx.data off % 2 ^ 16 = unpaddedLen ctx.data off :=
      Nat.mod_eq_of_lt (by omega)
    have hle : blockEnd ctx.data off ≤ maxBytes := by
      unfold blockEnd
      omega
    refine ⟨fun hlt => absurd hlt (Nat.not_lt.mpr hle), fun k _ hk => ?_⟩
    have hret : ∃ n, (parseAlone rd maps ctx off pres f p).ret = .ok n := by
      unfold aloneParsed at hk
      cases hr : (parseAlone rd maps ctx off pres f p).ret with
      | error e =>
        simp only [hr] at hk
        cases hk
      | ok n => exact ⟨n, rfl⟩
    obtain ⟨n, hn⟩ := hret
    have hfed := parseAlone_fed h hoff hfit hn
    rw [hmod] at hfed
    rw [hfed]
    exact (hclear hle).drop

/-- A block whose end is taken for an earlier one is read in part. -/
theorem ParsedWhole.blockEnd_le {frameLen : Nat} (h : ReadAlone ctx.data off) (hoff : off ≤ maxBytes)
    (hfit : off + unpaddedLen ctx.data off % 2 ^ 16 ≤ maxBytes)
    (hw : ParsedWhole ctx.data off maps (aloneParsed rd maps ctx off pres f p frameLen) fed) :
    blockEnd ctx.data off ≤ maxBytes := by
  by_contra hlt
  have hret := (hw.tooBig (Nat.not_le.mp hlt)).1
  exact parseAlone_ne_tooBig h hoff hfit (map_error _ hret)

end Beeper.Http2
