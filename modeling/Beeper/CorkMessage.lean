import Beeper.Cork
import Beeper.MessageExtension

namespace Beeper.Http2

variable {rd : Rodata} {maps maps' : Maps} {conn : Ip4Conn} {pullable : Bool} {frame : Http2Frame}

/-- Parses a message that is linear as a whole, with nothing captured before. -/
def parseLinear (rd : Rodata) (maps : Maps) (conn : Ip4Conn) (pullable : Bool) (frame : Http2Frame)
    (bytes : Bytes) : ParsedMsg :=
  parseMsg rd maps (linearMsg bytes conn pullable) .zero frame

theorem parseLinear_eq {b : Bytes} (h9 : http2FrameHdrLen ≤ b.length) :
    parseLinear rd maps conn pullable frame b =
      parseMsgFrame rd maps (linearMsg b conn pullable) .zero (newHttp2Frame b 0) :=
  parseMsg_eq h9

/-- What is pulled in of a message is the front of what is pulled in of a longer one. -/
theorem pulled_take (b x : Bytes) :
    b.take (min b.length maxBytes) =
      ((b ++ x).take (min (b ++ x).length maxBytes)).take (min b.length maxBytes) := by
  have hle : min b.length maxBytes ≤ min (b ++ x).length maxBytes := by
    rw [List.length_append]
    omega
  rw [List.take_take, Nat.min_eq_left hle, List.take_append_of_le_length (Nat.min_le_left _ _)]

variable {f : Http2Frame}

/-- Collecting a block that goes on behind the message asks for more than the message holds. -/
theorem collectBlock_need {b : Bytes} {buf : BlockBuf}
    (h : (collectBlock (b.take (min b.length maxBytes)) 0 buf).ret = .error .EAGAIN) :
    min b.length maxBytes < (collectBlock (b.take (min b.length maxBytes)) 0 buf).blk.need := by
  have ht := ((collectLoop_take (maxBytes / http2FrameHdrLen + 1) true 0 0 buf
    (Nat.min_le_left b.length maxBytes) (Nat.le_refl 0)).1 h).1
  rwa [Nat.zero_add] at ht

/-- A longer message puts the same block together, once the need of the shorter one is either
past what can be pulled in or not yet met. -/
theorem collectBlock_extend (b x : Bytes) (buf : BlockBuf)
    (h : (collectBlock (b.take (min b.length maxBytes)) 0 buf).ret = .error .EAGAIN →
      (b ++ x).length < (collectBlock (b.take (min b.length maxBytes)) 0 buf).blk.need ∨
        maxBytes ≤ b.length) :
    collectBlock ((b ++ x).take (min (b ++ x).length maxBytes)) 0 buf =
      collectBlock (b.take (min b.length maxBytes)) 0 buf := by
  by_cases hmax : maxBytes ≤ b.length
  · have hl : maxBytes ≤ (b ++ x).length := by
      rw [List.length_append]
      omega
    rw [Nat.min_eq_right hl, Nat.min_eq_right hmax, List.take_append_of_le_length hmax]
  · have hlen : min b.length maxBytes ≤ ((b ++ x).take (min (b ++ x).length maxBytes)).length := by
      simp only [List.length_take, List.length_append]
      omega
    obtain ⟨hagain, hother⟩ := collectLoop_take (maxBytes / http2FrameHdrLen + 1) true 0 0 buf
      hlen (Nat.le_refl 0)
    simp only [← pulled_take, Nat.zero_add] at hagain hother
    by_cases he : (collectBlock (b.take (min b.length maxBytes)) 0 buf).ret = .error .EAGAIN
    · refine (hagain he).2 (Nat.lt_of_le_of_lt ?_ ((h he).resolve_right hmax))
      rw [List.length_take]
      omega
    · exact hother he

theorem collectBlock_buf (data : Bytes) (off : Nat) (buf buf' : BlockBuf) :
    (collectBlock data off buf').ret = (collectBlock data off buf).ret ∧
      (collectBlock data off buf').blk = (collectBlock data off buf).blk ∧
      ∀ total, (collectBlock data off buf).ret = .ok total →
        (collectBlock data off buf').buf.len = (collectBlock data off buf).buf.len ∧
        SameUpTo (collectBlock data off buf).buf.len (collectBlock data off buf).buf
          (collectBlock data off buf').buf :=
  collectLoop_buf fun _ h => absurd h (Nat.not_lt_zero _)

theorem pullData_none {b : Bytes} {len : Nat} (hp : pullable ≠ true) :
    (linearMsg b conn pullable).pullData len = none := by
  unfold SkMsg.pullData
  exact dif_neg fun h => hp h.1

theorem linear_pulled (rd : Rodata) (maps : Maps) (conn : Ip4Conn) {b : Bytes}
    (hpull : pullable = true) (h9 : http2FrameHdrLen ≤ b.length)
    (hv : ¬violatesBlockRules f.type f.sid) (hs : http2FrameHdrLen + f.len ≤ b.length)
    (hb : f.type = http2HeadersFrame ∧ f.flags &&& http2EndHeadersFlag = 0) :
    ∃ msg', newMsgCtx msg' = ⟨b.take (min b.length maxBytes), conn⟩ ∧
      parseMsgFrame rd maps (linearMsg b conn pullable) .zero f =
        let p := parseBlock rd maps ⟨b.take (min b.length maxBytes), conn⟩ 0 .zero f none
        ⟨{ p with ret := neverRead p b.length }, msg'⟩ :=
  parseMsgFrame_pulled rd maps (linearMsg b conn pullable) .zero hpull h9 hv hs hb

theorem linear_whole (rd : Rodata) (maps : Maps) (conn : Ip4Conn) {b : Bytes}
    (hpull : pullable = true) (hv : ¬violatesBlockRules f.type f.sid)
    (hp : isParsedFrame f.type f.flags) (hs : http2FrameHdrLen + f.len ≤ b.length)
    (hb : ¬(f.type = http2HeadersFrame ∧ f.flags &&& http2EndHeadersFlag = 0)) :
    ∃ msg', newMsgCtx msg' = ⟨b.take (http2FrameHdrLen + f.len), conn⟩ ∧
      parseMsgFrame rd maps (linearMsg b conn pullable) .zero f =
        let p := parseFrame rd maps ⟨b.take (http2FrameHdrLen + f.len), conn⟩ 0 f.len f.type
          f.flags .zero f none
        ⟨{ p with ret := p.ret.map fun _ => http2FrameHdrLen + f.len }, msg'⟩ :=
  parseMsgFrame_whole rd maps (linearMsg b conn pullable) .zero hpull hv hp hs hb

section Extend

variable {b x : Bytes}

theorem length_extend (b x : Bytes) : b.length ≤ (b ++ x).length := by
  rw [List.length_append]
  omega

theorem alike_zero (hm : SameTables maps maps') {ret : Except Errno Nat} {msg msg' : SkMsg} :
    Alike rd ⟨⟨ret, maps, .zero, f, none⟩, msg⟩ ⟨⟨ret, maps', .zero, f, none⟩, msg'⟩ where
  ret := rfl
  frame := rfl
  tables := hm
  captures idx := by rw [getMatchMsg_zero, getMatchMsg_zero]

theorem reject_alike (hm : SameTables maps maps') (hv : violatesBlockRules f.type f.sid)
    (hx : (parseMsgFrame rd maps (linearMsg b conn pullable) .zero f).ret = .error .EAGAIN →
      (b ++ x).length <
        (parseMsgFrame rd maps (linearMsg b conn pullable) .zero f).frame.need) :
    Alike rd (parseMsgFrame rd maps (linearMsg b conn pullable) .zero f)
      (parseMsgFrame rd maps' (linearMsg (b ++ x) conn pullable) .zero f) := by
  have hr : rejectFrame f (http2FrameHdrLen + f.len) (b ++ x).length =
      rejectFrame f (http2FrameHdrLen + f.len) b.length := by
    rw [parseMsgFrame_reject hv] at hx
    simp only [linearMsg] at hx
    unfold rejectFrame at hx ⊢
    by_cases hle : http2FrameHdrLen + f.len ≤ b.length
    · rw [if_pos hle, if_pos (Nat.le_trans hle (length_extend b x))]
    · rw [if_neg hle] at hx ⊢
      rw [if_neg (Nat.not_le.mpr (hx rfl))]
  rw [parseMsgFrame_reject hv, parseMsgFrame_reject hv]
  simp only [linearMsg, hr]
  exact alike_zero hm

theorem unpulled_alike (hm : SameTables maps maps') (hpull : pullable ≠ true)
    (hv : ¬violatesBlockRules f.type f.sid) (hp : isParsedFrame f.type f.flags)
    (hs : http2FrameHdrLen + f.len ≤ b.length) :
    Alike rd (parseMsgFrame rd maps (linearMsg b conn pullable) .zero f)
      (parseMsgFrame rd maps' (linearMsg (b ++ x) conn pullable) .zero f) := by
  have hs' : http2FrameHdrLen + f.len ≤ (b ++ x).length := Nat.le_trans hs (length_extend b x)
  by_cases hb : f.type = http2HeadersFrame ∧ f.flags &&& http2EndHeadersFlag = 0
  · rw [parseMsgFrame_block hv hs hb, parseMsgFrame_block hv hs' hb, pullData_none hpull,
      pullData_none hpull]
    exact alike_zero hm
  · rw [parseMsgFrame_frame hv hp hs hb, parseMsgFrame_frame hv hp hs' hb, pullData_none hpull,
      pullData_none hpull]
    exact alike_zero hm

theorem whole_alike (hm : SameTables maps maps') (hpull : pullable = true)
    (hv : ¬violatesBlockRules f.type f.sid) (hp : isParsedFrame f.type f.flags)
    (hs : http2FrameHdrLen + f.len ≤ b.length)
    (hb : ¬(f.type = http2HeadersFrame ∧ f.flags &&& http2EndHeadersFlag = 0)) :
    Alike rd (parseMsgFrame rd maps (linearMsg b conn pullable) .zero f)
      (parseMsgFrame rd maps' (linearMsg (b ++ x) conn pullable) .zero f) := by
  obtain ⟨msg, hctx, hmsg⟩ := linear_whole rd maps conn hpull
    hv hp hs hb
  obtain ⟨msg', hctx', hmsg'⟩ := linear_whole rd maps' conn hpull hv hp (Nat.le_trans hs (length_extend b x)) hb
  rw [List.take_append_of_le_length hs] at hctx' hmsg'
  obtain ⟨hret, hframe, htab, hcap⟩ := parseFrame_alike rd
    ⟨b.take (http2FrameHdrLen + f.len), conn⟩ 0 f.len f.type f.flags f hm
  rw [hmsg, hmsg']
  exact ⟨by simp only [hret], hframe, htab, fun idx => hcap msg msg' idx hctx hctx'⟩

/-- Whether a block can be read at all does not change before its need is met. -/
theorem neverRead_extend {p p' : Parsed} {n n' : Nat} (hn : n ≤ n') (hret : p'.ret = p.ret)
    (hframe : p'.frame = p.frame)
    (hagain : p.ret = .error .EAGAIN → n < p.frame.need → n' < p.frame.need) :
    neverRead p' n' = neverRead p n := by
  unfold neverRead
  rw [hret, hframe]
  by_cases hp : p.ret = .error .EAGAIN
  · by_cases hneed : p.frame.need ≤ n
    · rw [if_pos ⟨hp, Nat.le_trans hneed hn⟩, if_pos ⟨hp, hneed⟩]
    · have hlt := hagain hp (Nat.not_le.mp hneed)
      rw [if_neg fun h => absurd h.2 (Nat.not_le.mpr hlt), if_neg fun h => hneed h.2]
  · rw [if_neg fun h => hp h.1, if_neg fun h => hp h.1]

theorem pulled_alike (hm : SameTables maps maps') (hpull : pullable = true)
    (h9 : http2FrameHdrLen ≤ b.length) (hv : ¬violatesBlockRules f.type f.sid)
    (hs : http2FrameHdrLen + f.len ≤ b.length)
    (hb : f.type = http2HeadersFrame ∧ f.flags &&& http2EndHeadersFlag = 0)
    (hx : (parseMsgFrame rd maps (linearMsg b conn pullable) .zero f).ret = .error .EAGAIN →
      (b ++ x).length <
        (parseMsgFrame rd maps (linearMsg b conn pullable) .zero f).frame.need) :
    Alike rd (parseMsgFrame rd maps (linearMsg b conn pullable) .zero f)
      (parseMsgFrame rd maps' (linearMsg (b ++ x) conn pullable) .zero f) := by
  have hlen := length_extend b x
  obtain ⟨msg, hctx, hmsg⟩ := linear_pulled rd maps conn hpull
    h9 hv hs hb
  obtain ⟨msg', hctx', hmsg'⟩ := linear_pulled rd maps' conn hpull (Nat.le_trans h9 hlen) hv (Nat.le_trans hs hlen) hb
  rw [hmsg] at hx ⊢
  rw [hmsg']
  simp only at hx ⊢
  have hagain : (parseBlock rd maps ⟨b.take (min b.length maxBytes), conn⟩ 0 .zero f none).ret =
      .error .EAGAIN → b.length < (parseBlock rd maps ⟨b.take (min b.length maxBytes), conn⟩ 0
        .zero f none).frame.need → (b ++ x).length < (parseBlock rd maps
          ⟨b.take (min b.length maxBytes), conn⟩ 0 .zero f none).frame.need := by
    intro hret hneed
    refine hx ?_
    rw [neverRead, if_neg fun h => absurd h.2 (Nat.not_le.mpr hneed), hret]
  have hext := collectBlock_extend b x maps.blockBuf (by
    intro he
    have hneed := collectBlock_need he
    have hp : (parseBlock rd maps ⟨b.take (min b.length maxBytes), conn⟩ 0 .zero f none).ret =
        .error .EAGAIN := by
      unfold parseBlock
      simp only [he]
    have hpn := (parseBlock_again _ _ _ _ _ _ _ hp).2.2
    simp only at hpn
    by_cases hle : maxBytes ≤ b.length
    · exact .inr hle
    · refine .inl ?_
      rw [← hpn] at hneed ⊢
      exact hagain hp (by omega))
  obtain ⟨hret, hblk, hok⟩ := collectBlock_buf
    ((b ++ x).take (min (b ++ x).length maxBytes)) 0 maps.blockBuf maps'.blockBuf
  rw [hext] at hret hblk hok
  obtain ⟨hpret, hframe, htab, hcap⟩ := parseBlock_alike rd f hm
    (show (⟨(b ++ x).take (min (b ++ x).length maxBytes), conn⟩ : MsgCtx).conn =
      (⟨b.take (min b.length maxBytes), conn⟩ : MsgCtx).conn from rfl) hret hblk hok
  refine ⟨?_, hframe, htab, fun idx => hcap msg msg' idx hctx hctx'⟩
  exact neverRead_extend hlen hpret hframe hagain

/-- A message that does not ask for more, or whose need is not met yet, is parsed like any longer
one. -/
theorem parseLinear_alike (frame : Http2Frame) (hm : SameTables maps maps')
    (h9 : http2FrameHdrLen ≤ b.length)
    (hx : (parseLinear rd maps conn pullable frame b).ret = .error .EAGAIN →
      (b ++ x).length < (parseLinear rd maps conn pullable frame b).frame.need) :
    Alike rd (parseLinear rd maps conn pullable frame b)
      (parseLinear rd maps' conn pullable frame (b ++ x)) := by
  have hlen := length_extend b x
  have hf : newHttp2Frame (b ++ x) 0 = newHttp2Frame b 0 := by
    rw [← newHttp2Frame_take (n := b.length) (by omega), List.take_left]
  rw [parseLinear_eq h9] at hx ⊢
  rw [parseLinear_eq (Nat.le_trans h9 hlen), hf]
  generalize newHttp2Frame b 0 = f at *
  by_cases hv : violatesBlockRules f.type f.sid
  · exact reject_alike hm hv hx
  by_cases hp : isParsedFrame f.type f.flags
  swap
  · rw [parseMsgFrame_skip hv hp, parseMsgFrame_skip hv hp, hm.skipFrame]
    exact alike_zero hm
  by_cases hs : b.length < http2FrameHdrLen + f.len
  · rw [parseMsgFrame_short hv hp hs] at hx ⊢
    rw [parseMsgFrame_short hv hp (hx rfl)]
    exact alike_zero hm
  rw [Nat.not_lt] at hs
  by_cases hpull : pullable = true
  swap
  · exact unpulled_alike hm hpull hv hp hs
  by_cases hb : f.type = http2HeadersFrame ∧ f.flags &&& http2EndHeadersFlag = 0
  · exact pulled_alike hm hpull h9 hv hs hb hx
  · exact whole_alike hm hpull hv hp hs hb

/-- What parsing a message that is linear as a whole can come to. -/
theorem linear_cases (P : ParsedMsg → Prop) (h9 : http2FrameHdrLen ≤ b.length)
    (reject : P ⟨⟨(rejectFrame f (http2FrameHdrLen + f.len) b.length).1, maps, .zero,
      (rejectFrame f (http2FrameHdrLen + f.len) b.length).2, none⟩, linearMsg b conn pullable⟩)
    (skip : P ⟨⟨.ok (http2FrameHdrLen + f.len), maps, .zero, skipFrame maps conn f, none⟩,
      linearMsg b conn pullable⟩)
    (short : b.length < http2FrameHdrLen + f.len → P ⟨⟨.error .EAGAIN, maps, .zero,
      { f with need := http2FrameHdrLen + f.len }, none⟩, linearMsg b conn pullable⟩)
    (fault : P ⟨⟨.error .EFAULT, maps, .zero, f, none⟩, linearMsg b conn pullable⟩)
    (block : ∀ ctx msg', P
      (let p := parseBlock rd maps ctx 0 .zero f none
      ⟨{ p with ret := neverRead p b.length }, msg'⟩))
    (whole : ∀ ctx msg', P
      (let p := parseFrame rd maps ctx 0 f.len f.type f.flags .zero f none
      ⟨{ p with ret := p.ret.map fun _ => http2FrameHdrLen + f.len }, msg'⟩)) :
    P (parseMsgFrame rd maps (linearMsg b conn pullable) .zero f) := by
  by_cases hv : violatesBlockRules f.type f.sid
  · rw [parseMsgFrame_reject hv]
    exact reject
  by_cases hp : isParsedFrame f.type f.flags
  swap
  · rw [parseMsgFrame_skip hv hp]
    exact skip
  by_cases hs : b.length < http2FrameHdrLen + f.len
  · rw [parseMsgFrame_short hv hp hs]
    exact short hs
  rw [Nat.not_lt] at hs
  by_cases hpull : pullable = true
  swap
  · by_cases hb : f.type = http2HeadersFrame ∧ f.flags &&& http2EndHeadersFlag = 0
    · rw [parseMsgFrame_block hv hs hb, pullData_none hpull]
      exact fault
    · rw [parseMsgFrame_frame hv hp hs hb, pullData_none hpull]
      exact fault
  by_cases hb : f.type = http2HeadersFrame ∧ f.flags &&& http2EndHeadersFlag = 0
  · obtain ⟨msg', -, hmsg⟩ := linear_pulled rd maps conn hpull
      h9 hv hs hb
    rw [hmsg]
    exact block _ msg'
  · obtain ⟨msg', -, hmsg⟩ := linear_whole rd maps conn hpull
      hv hp hs hb
    rw [hmsg]
    exact whole _ msg'

theorem reject_again (p : ParsedMsg) {msg : SkMsg} {n : Nat}
    (hp : p = ⟨⟨(rejectFrame f n b.length).1, maps, .zero, (rejectFrame f n b.length).2, none⟩,
      msg⟩) : p.ret = .error .EAGAIN → b.length < p.frame.need ∧ SameTables maps p.maps := by
  generalize hr : rejectFrame f n b.length = r at hp
  subst hp
  intro h
  simp only at h ⊢
  unfold rejectFrame at hr
  split at hr
  · subst hr
    simp at h
  next hle =>
    subst hr
    exact ⟨Nat.not_le.mp hle, .refl maps⟩

theorem neverRead_again {p : Parsed} {n : Nat} (h : neverRead p n = .error .EAGAIN) :
    p.ret = .error .EAGAIN ∧ n < p.frame.need := by
  unfold neverRead at h
  split at h
  next => simp at h
  next hnever => exact ⟨h, Nat.not_le.mp fun hle => hnever ⟨h, hle⟩⟩

theorem map_again {r : Except Errno Nat} {k : Nat} (h : r.map (fun _ => k) = .error .EAGAIN) :
    r = .error .EAGAIN := by
  cases r with
  | ok n => simp [Except.map] at h
  | error e => simpa [Except.map] using h

/-- A parse that asks for more asks for more than the message holds, and leaves the tables as they
are. -/
theorem parseLinear_again (h9 : http2FrameHdrLen ≤ b.length)
    (h : (parseLinear rd maps conn pullable frame b).ret = .error .EAGAIN) :
    b.length < (parseLinear rd maps conn pullable frame b).frame.need ∧
      SameTables maps (parseLinear rd maps conn pullable frame b).maps := by
  revert h
  rw [parseLinear_eq h9]
  generalize newHttp2Frame b 0 = f
  refine linear_cases
    (fun p => p.ret = .error .EAGAIN → b.length < p.frame.need ∧ SameTables maps p.maps)
    h9 ?reject ?skip ?short ?fault ?block ?whole
  case reject => exact reject_again _ rfl
  case skip => exact fun h => by simp at h
  case short => exact fun hs _ => ⟨hs, .refl maps⟩
  case fault => exact fun h => by simp at h
  case block =>
    intro ctx msg' h
    obtain ⟨hret, hneed⟩ := neverRead_again h
    exact ⟨hneed, (parseBlock_again rd maps ctx 0 f none .zero hret).2.1⟩
  case whole =>
    intro ctx msg' h
    exact absurd (map_again h) (parseFrame_not_again rd maps ctx 0 f.len f.type f.flags .zero f)

theorem parseBlock_total {ctx : MsgCtx} {n : Nat}
    (h : (parseBlock rd maps ctx 0 .zero f none).ret = .ok n) : http2FrameHdrLen ≤ n := by
  have htotal : (collectBlock ctx.data 0 maps.blockBuf).ret = .ok n → http2FrameHdrLen ≤ n :=
    collectLoop_total (Nat.le_refl 0)
  unfold parseBlock at h
  generalize collectBlock ctx.data 0 maps.blockBuf = c at h htotal
  obtain ⟨ret, blk, b⟩ := c
  cases ret with
  | error e => simp at h
  | ok total =>
    refine htotal ?_
    simp only at h
    split at h
    · simp at h
    · simp only at h
      split at h
      · simp at h
      · split at h
        · simp at h
        · exact h

/-- A parse that succeeds takes at least one frame. -/
theorem parseLinear_total {n : Nat} (h9 : http2FrameHdrLen ≤ b.length)
    (h : (parseLinear rd maps conn pullable frame b).ret = .ok n) : http2FrameHdrLen ≤ n := by
  revert h
  rw [parseLinear_eq h9]
  have hle : ∀ {k : Nat}, (Except.ok (http2FrameHdrLen + k) : Except Errno Nat) = .ok n →
      http2FrameHdrLen ≤ n := fun h => Except.ok.inj h ▸ Nat.le_add_right _ _
  refine linear_cases (fun p => p.ret = .ok n → http2FrameHdrLen ≤ n)
    h9 ?reject ?skip ?short ?fault ?block ?whole
  case reject =>
    intro h
    unfold rejectFrame at h
    split at h <;> simp at h
  case skip => exact hle
  case short => exact fun _ h => by simp at h
  case fault => exact fun h => by simp at h
  case block =>
    intro ctx msg' h
    simp only [neverRead] at h
    split at h
    · simp at h
    · exact parseBlock_total h
  case whole =>
    intro ctx msg' h
    simp only at h
    generalize parseFrame rd maps ctx 0 _ _ _ .zero (newHttp2Frame b 0) none = p at h
    cases hret : p.ret with
    | error e => simp [hret, Except.map] at h
    | ok k =>
      simp only [hret, Except.map] at h
      exact hle h

end Extend

end Beeper.Http2
