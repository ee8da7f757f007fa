import Beeper.LongBlocks
import Beeper.SizeBound

namespace Beeper.Http2

section Wire

variable {len len' : Nat → Nat}

/-- How lengths are read makes no difference where it is the same for those of the block. -/
theorem StrWire.congr {s : Str} {bs : Bytes} (h : StrWire len s bs)
    (hl : ∀ n, len n ≤ bs.length → len' n = len n) : StrWire len' s bs := by
  cases h with
  | @mk int n hint hlen =>
  refine .mk hint ((hl n ?_).trans hlen)
  rw [List.length_append, hlen]
  omega

theorem RepWire.congr {rep : Rep} {bs : Bytes} (h : RepWire len rep bs)
    (hl : ∀ n, len n ≤ bs.length → len' n = len n) : RepWire len' rep bs := by
  cases h with
  | indexed hi h => exact .indexed hi h
  | named hi h hv =>
    refine .named hi h (hv.congr fun n hn => hl n ?_)
    rw [List.length_append]
    omega
  | new c hc hn hv =>
    refine .new c hc (hn.congr fun n hle => hl n ?_) (hv.congr fun n hle => hl n ?_)
    all_goals
      simp only [List.length_cons, List.length_append]
      omega
  | tableSize h => exact .tableSize h

theorem Complete.congr {block : Bytes} (h : Complete len block)
    (hl : ∀ n, len n ≤ block.length → len' n = len n) : Complete len' block := by
  obtain ⟨reps, h⟩ := h
  refine ⟨reps, ?_⟩
  induction h with
  | nil => exact .nil
  | @cons rep reps bs rest hr _ ih =>
    have hsum : (bs ++ rest).length = bs.length + rest.length := List.length_append
    exact .cons (hr.congr fun n hn => hl n (by omega)) (ih fun n hn => hl n (by omega))

/-- The strings of a block that fits the buffer are shorter than the lengths the parser keeps. -/
theorem Complete.readLen {block : Bytes} (h : Complete id block)
    (hfit : block.length ≤ blockMaxlen) : Complete readLen block := by
  refine h.congr fun n hn => Nat.mod_eq_of_lt ?_
  have hmax : blockMaxlen < 2 ^ 15 := by decide
  exact Nat.lt_of_le_of_lt (Nat.le_trans hn hfit) hmax

end Wire

/-- What has to come of a header block: it is accepted if and only if it is a concatenation of
complete representations, and malformed if it ends inside of one. -/
structure Judged (block : Bytes) (ret : Except Errno Nat) : Prop where
  sound : (∃ n, 0 < n ∧ ret = .ok n) → Complete id block
  midway : Extends id block → ¬Complete id block → ret = .error .EBADMSG
  complete : Complete id block → ∃ n, 0 < n ∧ ret = .ok n

/-- A header block as it is sent, in one frame or cut into several. -/
inductive Sent
  | whole (w : Whole)
  | cut (f : Fragmented)

def Sent.bytes : Sent → Bytes
  | whole w => w.bytes
  | cut f => f.bytes

def Sent.block : Sent → Bytes
  | whole w => w.block
  | cut f => f.block

def Sent.sid : Sent → Nat
  | whole w => w.head.sid
  | cut f => f.head.sid

/-- What it takes for the block at the front of `msg` to be read: the frame header is linear, more
can be pulled in, the stream is not 0, the frames do not take up more than can be read, and there
is room for a table. -/
def Sent.IsRead (b : Sent) (maps : Maps) (msg : SkMsg) : Prop :=
  http2FrameHdrLen ≤ msg.linear ∧ msg.pullable = true ∧ b.sid ≠ 0 ∧ b.bytes.length ≤ maxBytes ∧
    (getDynamicTable maps msg.conn).1.isSome

variable {rd : Rodata} {maps : Maps} {block post : Bytes} {msg : SkMsg} {ret : Except Errno Nat}

/-- A block that was not looked at may neither be complete nor go on to be. -/
theorem judged_unread (h : ret = .ok 0 ∨ ∃ e, e ≠ .EBADMSG ∧ ret = .error e) :
    Judged block ret ↔ ¬Complete id block ∧ ¬Extends id block := by
  have hno : ¬∃ n, 0 < n ∧ ret = .ok n := by
    rintro ⟨n, hpos, hn⟩
    rcases h with h | ⟨e, -, h⟩
    · rw [h] at hn
      cases hn
      exact absurd hpos (Nat.lt_irrefl 0)
    · rw [h] at hn
      cases hn
  have hbad : ret ≠ .error .EBADMSG := by
    intro hb
    rcases h with h | ⟨e, hne, h⟩
    · rw [h] at hb
      cases hb
    · rw [h] at hb
      exact hne (Except.error.inj hb)
  constructor
  · intro hj
    have hc : ¬Complete id block := fun hc => hno (hj.complete hc)
    exact ⟨hc, fun he => hbad (hj.midway he hc)⟩
  · rintro ⟨hc, he⟩
    exact ⟨fun hret => absurd hret hno, fun hext => absurd hext he, fun hcomp => absurd hcomp hc⟩

/-- A block that was read is judged right but where it ends inside of a representation. -/
theorem BlockRead.judged_iff {total : Nat} {v : View} {p : Parsed} (hrd : ReadsReps rd)
    (hp : BlockRead rd maps block total v p) (hroom : (getDynamicTable maps v.ctx.conn).1.isSome)
    (hpos : 0 < total) (hfit : block.length ≤ blockMaxlen) :
    Judged block p.ret ↔ Complete id block ∨ ZeroIndex readLen block := by
  cases hg : getDynamicTable maps v.ctx.conn with
  | mk info m =>
  rw [hg] at hroom
  obtain ⟨info, rfl⟩ := Option.isSome_iff_exists.mp hroom
  have hret := (hp.walk info m hg).1
  have hst : AtField v.src (m.table info) .zero
      ⟨m.table info, .zero, newHttp2ParseState v.src⟩ := ⟨rfl, rfl, rfl, rfl, rfl⟩
  have hzero (hz : ZeroIndex readLen block) := feed_zeroIndex hrd hz v.ctx v.buf v.base hst
  have hcomp (hc : Complete id block) : (feed rd v.ctx v.buf (block.zipIdx v.base)
      ⟨m.table info, .zero, newHttp2ParseState v.src⟩).1 = none := by
    obtain ⟨-, -, st', hf, -⟩ := feed_complete hrd (hc.readLen hfit) v.ctx v.buf v.base hst
    rw [hf]
  cases he : (feed rd v.ctx v.buf (block.zipIdx v.base)
      ⟨m.table info, .zero, newHttp2ParseState v.src⟩).1 with
  | none =>
    rw [he] at hret
    constructor
    · exact fun hj => .inl (hj.sound ⟨total, hpos, hret⟩)
    · rintro (hc | hz)
      · exact ⟨fun _ => hc, fun _ hnc => absurd hc hnc, fun _ => ⟨total, hpos, hret⟩⟩
      · rw [hzero hz] at he
        cases he
  | some e =>
    rw [he] at hret
    have hbad := feed_error he
    subst hbad
    refine iff_of_true ⟨?_, fun _ _ => hret, fun hc => ?_⟩ ?_
    · rintro ⟨n, -, hn⟩
      rw [hret] at hn
      cases hn
    · rw [hcomp hc] at he
      cases he
    · right
      rcases block_cases readLen block with hc | hx | hz
      · obtain ⟨-, -, st', hf, -⟩ := feed_complete hrd hc v.ctx v.buf v.base hst
        rw [hf] at he
        cases he
      · rw [feed_extends hrd hx v.ctx v.buf v.base hst] at he
        cases he
      · exact hz

/-- The header the frames start with. -/
theorem Sent.first (b : Sent) (hm : msg.bytes = b.bytes ++ post)
    (hfit : b.block.length ≤ blockMaxlen) :
    let f := newHttp2Frame msg.bytes 0
    f.type = http2HeadersFrame ∧ f.sid = b.sid ∧ http2FrameHdrLen + f.len ≤ b.bytes.length ∧
      (f.flags &&& http2EndHeadersFlag = 0 ↔ ∃ g, b = .cut g) := by
  cases b with
  | whole w =>
    have hfirst := w.first hm (HeadersPayload.length_lt hfit _)
    simp only [hfirst]
    refine ⟨w.head_type, rfl, Nat.le_of_eq w.bytes_length.symm, ?_⟩
    exact iff_of_false w.head_flags fun ⟨g, hg⟩ => by cases hg
  | cut g =>
    have hfirst : newHttp2Frame msg.bytes 0 = ⟨g.head.sid, g.head.type.toNat, g.head.flags.toNat,
        0, 0, (g.payload.bytes g.head.flags.toNat).length, 0⟩ := by
      rw [hm, bytes, Fragmented.bytes, Fragmented.headers, List.append_assoc]
      apply newHttp2Frame_frame
      apply HeadersPayload.length_lt
      simp only [block, Fragmented.block, List.length_append] at hfit
      omega
    simp only [hfirst]
    refine ⟨g.head_type, rfl, ?_, iff_of_true g.head_flags ⟨g, rfl⟩⟩
    have hlen := g.bytes_length
    simp only [bytes]
    omega

/-- What the frames carry is read as one block, unless there is a reason not to read it. -/
theorem Sent.read (b : Sent) (rd : Rodata) (maps : Maps) (frame : Http2Frame)
    (hm : msg.bytes = b.bytes ++ post) (h9 : http2FrameHdrLen ≤ msg.linear)
    (hpull : msg.pullable = true) (h0 : b.sid ≠ 0) (hsize : b.bytes.length ≤ maxBytes)
    (hfit : b.block.length ≤ blockMaxlen) :
    ∃ v, v.ctx.conn = msg.conn ∧
      BlockRead rd maps b.block b.bytes.length v (parseMsg rd maps msg .zero frame).toParsed := by
  cases b with
  | whole w =>
    obtain ⟨front, back, hparts⟩ := w.payload.carries w.head
    have hlen := Whole.payload_length hparts
    have hbytes := w.bytes_length
    have hread := (w.read rd maps frame hm h9 hpull h0 hparts (by
      rw [List.length_append]
      simp only [bytes] at hsize
      omega)).2
    exact ⟨_, rfl, hread⟩
  | cut f =>
    obtain ⟨v, -, -, hconn, hread⟩ := f.read rd maps frame hm h9 hpull h0 hsize hfit
    exact ⟨v, hconn, hread⟩

theorem Sent.length_pos (b : Sent) : 0 < b.bytes.length := by
  cases b with
  | whole w =>
    have hlen := w.bytes_length
    simp only [bytes]
    unfold http2FrameHdrLen at hlen
    omega
  | cut f =>
    have hlen := f.bytes_length
    simp only [bytes]
    unfold http2FrameHdrLen at hlen
    omega

/-- A block that is not read is neither accepted nor taken for a malformed one. -/
theorem parseMsg_not_read (rd : Rodata) (b : Sent) (frame : Http2Frame)
    (hm : msg.bytes = b.bytes ++ post) (hfit : b.block.length ≤ blockMaxlen)
    (hno : ¬b.IsRead maps msg) :
    (parseMsg rd maps msg .zero frame).ret = .ok 0 ∨
      ∃ e, e ≠ .EBADMSG ∧ (parseMsg rd maps msg .zero frame).ret = .error e := by
  by_cases h9 : http2FrameHdrLen ≤ msg.linear
  case neg =>
    left
    unfold parseMsg
    rw [if_pos]
    rw [SkMsg.data, List.length_take_of_le msg.linear_le]
    omega
  right
  obtain ⟨htype, hsid, hlen, hcut⟩ := b.first hm hfit
  have hmsg : msg.bytes.length = b.bytes.length + post.length := by rw [hm, List.length_append]
  have hsize : http2FrameHdrLen + (newHttp2Frame msg.bytes 0).len ≤ msg.bytes.length := by omega
  by_cases h0 : b.sid = 0
  · rw [parseMsg_stream_zero rfl h9 hsize htype (hsid.trans h0)]
    exact ⟨_, by decide, rfl⟩
  obtain ⟨hv, hp⟩ := headers_accepted htype (hsid ▸ h0)
  by_cases hpull : msg.pullable = true
  case neg =>
    have hnone (n : Nat) : msg.pullData n = none := by
      unfold SkMsg.pullData
      exact dif_neg fun hc => hpull hc.1
    refine ⟨.EFAULT, by decide, ?_⟩
    by_cases hb : (newHttp2Frame msg.bytes 0).type = http2HeadersFrame ∧
        (newHttp2Frame msg.bytes 0).flags &&& http2EndHeadersFlag = 0
    · rw [parseMsg_eq h9, parseMsgFrame_block hv hsize hb, hnone]
    · rw [parseMsg_eq h9, parseMsgFrame_frame hv hp hsize hb, hnone]
  by_cases hmax : b.bytes.length ≤ maxBytes
  case neg =>
    cases b with
    | whole w =>
      have hle := w.payload.length_le w.head.flags.toNat
      have hbytes := w.bytes_length
      simp only [Sent.bytes, Sent.block, Whole.block] at hmax hfit
      unfold maxBytes http2FrameHdrLen blockMaxlen blockBufSize at *
      omega
    | cut f =>
      exact ⟨_, by decide, f.tooBig rd maps frame hm h9 hpull h0 (Nat.not_le.mp hmax) hfit⟩
  obtain ⟨v, hconn, hread⟩ := b.read rd maps frame hm h9 hpull h0 hmax hfit
  cases hg : getDynamicTable maps v.ctx.conn with
  | mk info m =>
  cases info with
  | none => exact ⟨_, by decide, (hread.full m hg).1⟩
  | some info =>
    rw [hconn] at hg
    exact absurd ⟨h9, hpull, h0, hmax, by rw [hg]; rfl⟩ hno

/-- Header blocks are judged right just where they do not end inside of a representation. -/
theorem parseMsg_judged_iff {encode : Bytes → Option Bytes} {captures : List (Bytes × MatchId)}
    (ha : Attached encode captures rd) (maps : Maps) (b : Sent) (frame : Http2Frame)
    (hm : msg.bytes = b.bytes ++ post) (hfit : b.block.length ≤ blockMaxlen) :
    Judged b.block (parseMsg rd maps msg .zero frame).ret ↔
      b.IsRead maps msg ∧ (Complete id b.block ∨ ZeroIndex readLen b.block) ∨
        ¬b.IsRead maps msg ∧ ¬Complete id b.block ∧ ¬Extends id b.block := by
  by_cases hread : b.IsRead maps msg
  · obtain ⟨h9, hpull, h0, hmax, hroom⟩ := id hread
    obtain ⟨v, hconn, hblock⟩ := b.read rd maps frame hm h9 hpull h0 hmax hfit
    rw [hblock.judged_iff ha.readsReps (hconn ▸ hroom) b.length_pos hfit]
    simp only [hread, not_true_eq_false, true_and, false_and, or_false]
  · rw [judged_unread (parseMsg_not_read rd b frame hm hfit hread)]
    simp only [hread, not_false_eq_true, true_and, false_and, false_or]

theorem StrWire.ne_nil {len : Nat → Nat} {s : Str} {bs : Bytes} (h : StrWire len s bs) : bs ≠ [] := by
  cases h with
  | mk hint _ => simp [hint.ne_nil]

/-- No representation ends behind the first byte of a literal field with a new name. -/
theorem repWire_half {len : Nat → Nat} {rep : Rep} : ¬RepWire len rep [0x40] := by
  intro h
  generalize hbs : ([0x40] : Bytes) = bs at h
  have hlen : bs.length = 1 := by rw [← hbs]; rfl
  cases h with
  | indexed hi hint =>
    subst hbs
    cases hint with
    | short _ hv hc => exact absurd hc (by have : (0x40 : UInt8).toNat = 64 := rfl; omega)
    | long _ hc _ => exact absurd hc (by decide)
  | @named _ _ _ int vs _ hint hv =>
    have hpos := List.length_pos_iff.mpr hint.ne_nil
    have hpos' := List.length_pos_iff.mpr hv.ne_nil
    rw [List.length_append] at hlen
    omega
  | new c _ hn _ =>
    have hpos := List.length_pos_iff.mpr hn.ne_nil
    simp only [List.length_cons, List.length_append] at hlen
    omega
  | tableSize hint =>
    subst hbs
    cases hint with
    | short _ hv hc => exact absurd hc (by have : (0x40 : UInt8).toNat = 64 := rfl; omega)
    | long _ hc _ => exact absurd hc (by decide)

theorem complete_half {len : Nat → Nat} : ¬Complete len [0x40] := by
  rintro ⟨reps, h⟩
  generalize hblock : ([0x40] : Bytes) = block at h
  cases h with
  | nil => cases hblock
  | @cons rep reps bs rest hr _ =>
    have hlen := congrArg List.length hblock
    have hpos := List.length_pos_iff.mpr hr.ne_nil
    simp only [List.length_append, List.length_singleton] at hlen
    have hrest : rest = [] := List.length_eq_zero_iff.mp (by omega)
    rw [hrest, List.append_nil] at hblock
    rw [← hblock] at hr
    exact repWire_half hr

theorem zeroIndex_half {len : Nat → Nat} : ¬ZeroIndex len [0x40] := by
  rintro ⟨front, back, -, h⟩
  cases front with
  | nil => exact absurd (List.cons.inj h).1 (by decide)
  | cons c front =>
    have hlen := congrArg List.length h
    simp only [List.length_cons, List.length_append, List.length_nil] at hlen
    omega

def sentAlone (block : Bytes) : Sent := .whole (plainFrame block)

/-- A frame of a few bytes, on a connection the parser has not seen yet. -/
theorem sentAlone_isRead (block : Bytes) (hl : block.length ≤ 100) :
    (sentAlone block).IsRead .init (linearMsg (sentAlone block).bytes tableConn true) := by
  obtain ⟨m, hg⟩ := getDynamicTable_init tableConn
  have hlen : (sentAlone block).bytes.length = http2FrameHdrLen + block.length := by
    have hbytes := (plainFrame block).bytes_length
    rw [Whole.payload_length (plainFrame_plain block).parts] at hbytes
    simpa [sentAlone, Sent.bytes, Whole.block, plainFrame] using hbytes
  refine ⟨?_, rfl, by simp [sentAlone, Sent.sid, plainFrame], ?_, ?_⟩
  · simp only [linearMsg]
    omega
  · unfold maxBytes
    unfold http2FrameHdrLen at hlen
    omega
  · simp only [linearMsg, hg, Option.isSome_some]

/-- A block that ends behind the first byte of a literal field is accepted. -/
theorem parseMsg_halfBlock : ∃ rd, Attached (fun s => some (Huffman.encode s)) [] rd ∧
    ¬Judged (sentAlone [0x40]).block (parseMsg rd .init
      (linearMsg (sentAlone [0x40]).bytes tableConn true) .zero (newHttp2Frame [] 0)).ret := by
  obtain ⟨rd, ha⟩ := @attached_exists (fun s => some (Huffman.encode s)) fun s => ⟨_, rfl⟩
  refine ⟨rd, ha, ?_⟩
  obtain ⟨h9, hpull, h0, hmax, hroom⟩ := sentAlone_isRead [0x40] (by decide)
  obtain ⟨v, hconn, hblock⟩ := (sentAlone [0x40]).read rd .init (newHttp2Frame [] 0)
    (List.append_nil _).symm h9 hpull h0 hmax (by decide)
  rw [hblock.judged_iff ha.readsReps (hconn ▸ hroom) (sentAlone [0x40]).length_pos (by decide)]
  exact fun h => h.elim complete_half zeroIndex_half

theorem parseMsg_indexedBlock : ∃ rd, Attached (fun s => some (Huffman.encode s)) [] rd ∧
    Judged (sentAlone [0x82]).block (parseMsg rd .init
      (linearMsg (sentAlone [0x82]).bytes tableConn true) .zero (newHttp2Frame [] 0)).ret := by
  obtain ⟨rd, ha⟩ := @attached_exists (fun s => some (Huffman.encode s)) fun s => ⟨_, rfl⟩
  have hrep : RepWire id (.indexed 2) [0x82] :=
    .indexed (by decide) (.short 0x82 (by decide) (by decide))
  exact ⟨rd, ha, (parseMsg_judged_iff ha .init (sentAlone [0x82]) (newHttp2Frame [] 0)
    (List.append_nil _).symm (by decide)).mpr
      (.inl ⟨sentAlone_isRead [0x82] (by decide), .inl hrep.complete⟩)⟩

end Beeper.Http2
