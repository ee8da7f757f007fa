import Beeper.HeaderWalk
import Beeper.ParseMessage

namespace Beeper.Http2

/-- Where the bytes of a header block are read from: `base` is the offset of its first byte. -/
structure View where
  ctx : MsgCtx
  buf : BlockBuf
  src : HttpMatchSource
  base : Nat

/-- The match of `len` bytes from the `i`th byte of the block on. -/
def View.at (v : View) (i len : Nat) (huff : Bool) : HttpMatch :=
  ⟨UInt16.ofNat (v.base + i), UInt16.ofNat len, v.src, huff⟩

/-- Both views read the same strings out of a block of `n` bytes. -/
structure Agree (rd : Rodata) (n : Nat) (v w : View) : Prop where
  conn : v.ctx.conn = w.ctx.conn
  left : v.src ≠ .table ∧ v.base + n < 2 ^ 16
  right : w.src ≠ .table ∧ w.base + n < 2 ^ 16
  read : ∀ entries i len huff isKey, i ≤ n → len < 2 ^ 15 →
    getMatch rd v.ctx v.buf entries (v.at i len huff) isKey =
      getMatch rd w.ctx w.buf entries (w.at i len huff) isKey
  readZero : ∀ entries isKey,
    getMatch rd v.ctx v.buf entries ⟨0, 0, v.src, false⟩ isKey =
      getMatch rd w.ctx w.buf entries ⟨0, 0, w.src, false⟩ isKey

/-- Matches that stand for the same bytes, one in each view. -/
inductive MatchSim (n : Nat) (v w : View) : HttpMatch → HttpMatch → Prop
  | table (m : HttpMatch) (h : m.source = .table) : MatchSim n v w m m
  | block (i len : Nat) (huff : Bool) (hp : 0 < i) (hi : i ≤ n) (hl : len < 2 ^ 15) :
      MatchSim n v w (v.at i len huff) (w.at i len huff)
  | unset : MatchSim n v w ⟨0, 0, v.src, false⟩ ⟨0, 0, w.src, false⟩

/-- Captures that stand for the same bytes, or for none at all. -/
inductive CaptureSim (n : Nat) (v w : View) : HttpMatch → HttpMatch → Prop
  | none : CaptureSim n v w .zero .zero
  | table (m : HttpMatch) (h : m.source = .table) : CaptureSim n v w m m
  | block (i len : Nat) (huff : Bool) (hp : 0 < i) (hi : i ≤ n) (hl : len < 2 ^ 15) :
      CaptureSim n v w (v.at i len huff) (w.at i len huff)

/-- Two states of the same block, read out of either view. -/
structure StateSim (n : Nat) (v w : View) (st st' : HdrState) : Prop where
  table : st'.table = st.table
  pres : ∀ mid, CaptureSim n v w (st.pres.get mid) (st'.pres.get mid)
  ps : st'.ps = { st.ps with key := st'.ps.key, i := st'.ps.i, src := st'.ps.src }
  key : MatchSim n v w st.ps.key st'.ps.key
  src : st.ps.src = v.src ∧ st'.ps.src = w.src

variable {rd : Rodata} {n : Nat} {v w : View}

theorem StateSim.of {t : DynamicTable} {pres pres' : HttpParseRes} (ps : Http2ParseState)
    {key : HttpMatch} {i : Nat} {src : HttpMatchSource}
    (hpres : ∀ mid, CaptureSim n v w (pres.get mid) (pres'.get mid))
    (hkey : MatchSim n v w ps.key key) (hsrc : ps.src = v.src ∧ src = w.src) :
    StateSim n v w ⟨t, pres, ps⟩ ⟨t, pres', { ps with key := key, i := i, src := src }⟩ :=
  ⟨rfl, hpres, rfl, hkey, hsrc⟩

theorem MatchSim.getMatch_eq {m m' : HttpMatch} (h : MatchSim n v w m m') (ha : Agree rd n v w)
    (entries : DynamicTableMap) (isKey : Bool) :
    getMatch rd v.ctx v.buf entries m isKey = getMatch rd w.ctx w.buf entries m' isKey := by
  cases h with
  | table m h => simp only [getMatch, h, ha.conn]
  | block i len huff hp hi hl => exact ha.read entries i len huff isKey hi hl
  | unset => exact ha.readZero entries isKey

theorem MatchSim.source_iff {m m' : HttpMatch} (h : MatchSim n v w m m') (ha : Agree rd n v w) :
    m.source = .table ↔ m'.source = .table := by
  cases h with
  | table m h => rfl
  | block i len huff hp hi hl => exact iff_of_false ha.left.1 ha.right.1
  | unset => exact iff_of_false ha.left.1 ha.right.1

theorem get_set (pres : HttpParseRes) (mid mid' : Nat) (m : HttpMatch) :
    (pres.set mid m).get mid' =
      if Fin.ofNat maxMatches mid' = Fin.ofNat maxMatches mid then m else pres.get mid' := by
  unfold HttpParseRes.set HttpParseRes.get
  simp only [Function.update_apply]

theorem captureSim_set {pres pres' : HttpParseRes} {m m' : HttpMatch} (mid : Nat)
    (hp : ∀ i, CaptureSim n v w (pres.get i) (pres'.get i)) (hm : CaptureSim n v w m m') (i : Nat) :
    CaptureSim n v w ((pres.set mid m).get i) ((pres'.set mid m').get i) := by
  rw [get_set, get_set]
  split
  · exact hm
  · exact hp i

/-- An insertion does the same to the table in either view. -/
theorem addDynamicTableEntry_sim (ha : Agree rd n v w) {key key' val val' : HttpMatch}
    (hk : MatchSim n v w key key') (hv : MatchSim n v w val val') (t : DynamicTable) :
    addDynamicTableEntry rd w.ctx w.buf t key' val' =
      addDynamicTableEntry rd v.ctx v.buf t key val := by
  unfold addDynamicTableEntry
  simp only [hk.getMatch_eq ha, hv.getMatch_eq ha, ha.conn, hk.source_iff ha, hv.source_iff ha]

theorem runIndexed_sim (ha : Agree rd n v w) {st st' : HdrState} (h : StateSim n v w st st') :
    StateSim n v w (runIndexed rd v.ctx st) (runIndexed rd w.ctx st') := by
  obtain ⟨t, pres, ps⟩ := st
  obtain ⟨t', pres', ps'⟩ := st'
  obtain ⟨rfl, hpres, hps, hkey, hsrc⟩ := h
  simp only at hps hpres hkey hsrc
  rw [hps]
  unfold runIndexed
  simp only [ha.conn]
  split
  · exact .of _ hpres (.table _ rfl) hsrc
  · split
    · exact .of _ hpres (.table _ rfl) hsrc
    · split
      · exact .of _ hpres (.table _ rfl) hsrc
      · exact .of _ (captureSim_set _ hpres (.table _ rfl)) (.table _ rfl) hsrc

theorem runAction_sim (ha : Agree rd n v w) {st st' : HdrState} (h : StateSim n v w st st')
    {j : Nat} (hj : j < n) (hi : st.ps.i = v.base + j) (hi' : st'.ps.i = w.base + j) :
    (runAction rd w.ctx w.buf st').1 = (runAction rd v.ctx v.buf st).1 ∧
      StateSim n v w (runAction rd v.ctx v.buf st).2 (runAction rd w.ctx w.buf st').2 := by
  have hidx := runIndexed_sim ha h
  obtain ⟨t, pres, ps⟩ := st
  obtain ⟨t', pres', ps'⟩ := st'
  obtain ⟨rfl, hpres, hps, hkey, hsrc⟩ := h
  simp only at hps hpres hkey hsrc hi hi'
  have hlt : ps.v % 2 ^ 15 < 2 ^ 15 := Nat.mod_lt _ (by decide)
  have hblock : ∀ huff : Bool, MatchSim n v w
      ⟨UInt16.ofNat (ps.i + 1), UInt16.ofNat (ps.v % 2 ^ 15), ps.src, huff⟩
      ⟨UInt16.ofNat (ps'.i + 1), UInt16.ofNat (ps.v % 2 ^ 15), ps'.src, huff⟩ := by
    intro huff
    rw [hi, hi', hsrc.1, hsrc.2]
    exact .block (j + 1) _ huff (by omega) (by omega) hlt
  have hcapture : ∀ huff : Bool, CaptureSim n v w
      ⟨UInt16.ofNat (ps.i + 1), UInt16.ofNat (ps.v % 2 ^ 15), ps.src, huff⟩
      ⟨UInt16.ofNat (ps'.i + 1), UInt16.ofNat (ps.v % 2 ^ 15), ps'.src, huff⟩ := by
    intro huff
    rw [hi, hi', hsrc.1, hsrc.2]
    exact .block (j + 1) _ huff (by omega) (by omega) hlt
  rw [hps] at hidx ⊢
  obtain ⟨s, k, m, skip, isKey, cid, addToDt, key, i, val, kind, flags, src⟩ := ps
  cases kind with
  | none => exact ⟨rfl, .of _ hpres hkey hsrc⟩
  | some kind =>
    cases kind with
    | indexed => exact ⟨rfl, hidx⟩
    | idxName => exact ⟨rfl, hidx⟩
    | litName => exact ⟨rfl, .of _ hpres hkey hsrc⟩
    | keyLen => exact ⟨rfl, .of _ hpres (hblock _) hsrc⟩
    | valLen =>
      simp only [runAction, addDynamicTableEntry_sim ha hkey (hblock _)]
      refine ⟨trivial, .of _ ?_ hkey hsrc⟩
      cases cid with
      | none => exact hpres
      | some cid => exact captureSim_set cid hpres (hcapture _)
    | tableSize =>
      simp only [runAction, ha.conn]
      exact ⟨trivial, .of _ hpres hkey hsrc⟩
    | err => exact ⟨rfl, .of _ hpres hkey hsrc⟩
    | intStart => exact ⟨rfl, .of _ hpres hkey hsrc⟩
    | intCont => exact ⟨rfl, .of _ hpres hkey hsrc⟩
    | capture => exact ⟨rfl, .of _ hpres hkey hsrc⟩

theorem parseHdrByte_sim (ha : Agree rd n v w) {st st' : HdrState} (h : StateSim n v w st st')
    {j : Nat} (hj : j < n) (hi : st.ps.i = v.base + j) (hi' : st'.ps.i = w.base + j) (c : UInt8) :
    (parseHdrByte rd w.ctx w.buf st' c).1 = (parseHdrByte rd v.ctx v.buf st c).1 ∧
      StateSim n v w (parseHdrByte rd v.ctx v.buf st c).2
        (parseHdrByte rd w.ctx w.buf st' c).2 := by
  obtain ⟨t, pres, ps⟩ := st
  obtain ⟨t', pres', ps'⟩ := st'
  obtain ⟨rfl, hpres, hps, hkey, hsrc⟩ := h
  simp only at hps hpres hkey hsrc hi hi'
  rw [hps]
  unfold parseHdrByte addInt
  simp only
  split
  · exact ⟨rfl, .of (skipByte rd ps c) hpres hkey hsrc⟩
  · split
    · exact ⟨rfl, .of { ps with s := _, k := _, m := _ } hpres hkey hsrc⟩
    · split
      · exact ⟨rfl, .of { ps with s := _, k := _, m := _ } hpres hkey hsrc⟩
      · exact runAction_sim ha (.of { ps with s := _, v := _, kind := _, flags := _ }
          hpres hkey hsrc) hj hi hi'

/-- Reading the same bytes in either view comes to the same. -/
theorem feed_sim (ha : Agree rd n v w) (bs : Bytes) {j : Nat} (hn : j + bs.length ≤ n)
    {st st' : HdrState} (h : StateSim n v w st st') :
    (feed rd w.ctx w.buf (bs.zipIdx (w.base + j)) st').1 =
        (feed rd v.ctx v.buf (bs.zipIdx (v.base + j)) st).1 ∧
      StateSim n v w (feed rd v.ctx v.buf (bs.zipIdx (v.base + j)) st).2
        (feed rd w.ctx w.buf (bs.zipIdx (w.base + j)) st').2 := by
  induction bs generalizing j st st' with
  | nil => exact ⟨rfl, h⟩
  | cons c bs ih =>
    simp only [List.length_cons] at hn
    have hst : StateSim n v w { st with ps := { st.ps with i := v.base + j } }
        { st' with ps := { st'.ps with i := w.base + j } } :=
      ⟨h.table, h.pres, by rw [h.ps], h.key, h.src⟩
    obtain ⟨herr, hsim⟩ := parseHdrByte_sim ha hst (by omega) rfl rfl c
    simp only [List.zipIdx_cons, feed]
    generalize parseHdrByte rd v.ctx v.buf _ c = r at herr hsim ⊢
    generalize parseHdrByte rd w.ctx w.buf _ c = r' at herr hsim ⊢
    obtain ⟨e, st₁⟩ := r
    obtain ⟨e', st₁'⟩ := r'
    simp only at herr hsim
    subst herr
    cases e' with
    | some e => exact ⟨rfl, hsim⟩
    | none => exact ih (j := j + 1) (by omega) hsim

theorem stateSim_new (t : DynamicTable) :
    StateSim n v w ⟨t, .zero, newHttp2ParseState v.src⟩ ⟨t, .zero, newHttp2ParseState w.src⟩ :=
  ⟨rfl, fun _ => .none, rfl, .unset, rfl, rfl⟩

theorem at_idx_pos (hb : v.base + n < 2 ^ 16) {i : Nat} (len : Nat) (huff : Bool)
    (hp : 0 < i) (hi : i ≤ n) : 0 < (v.at i len huff).idx.toNat := by
  simp only [View.at, UInt16.toNat_ofNat']
  rw [Nat.mod_eq_of_lt (by omega)]
  omega

/-- Captures of the same bytes are found alike and read alike. -/
theorem CaptureSim.read {m m' : HttpMatch} (h : CaptureSim n v w m m') (ha : Agree rd n v w)
    (entries : DynamicTableMap) :
    isCaptured m = isCaptured m' ∧ (isCaptured m = true →
      getMatch rd v.ctx v.buf entries m false = getMatch rd w.ctx w.buf entries m' false) := by
  cases h with
  | none => exact ⟨rfl, fun h => by simp [isCaptured, HttpMatch.zero] at h⟩
  | table m h => exact ⟨rfl, fun _ => (MatchSim.table m h).getMatch_eq ha entries false⟩
  | block i len huff hp hi hl =>
    have h1 := at_idx_pos ha.left.2 len huff hp hi
    have h2 := at_idx_pos ha.right.2 len huff hp hi
    exact ⟨by simp [isCaptured, h1, h2],
      fun _ => (MatchSim.block i len huff hp hi hl).getMatch_eq ha entries false⟩

/-- A view that reads every string of `block`, and none that runs past its end. -/
structure Exact (rd : Rodata) (v : View) (block : Bytes) : Prop where
  src : v.src ≠ .table
  small : v.base + block.length < 2 ^ 16
  read : ∀ entries i len huff isKey, i ≤ block.length → len < 2 ^ 15 →
    getMatch rd v.ctx v.buf entries (v.at i len huff) isKey =
      if block.length < i + len then none else some (slice block i len, huff)
  readZero : ∀ entries isKey,
    getMatch rd v.ctx v.buf entries ⟨0, 0, v.src, false⟩ isKey = some ([], false)

theorem Exact.agree {block : Bytes} (hv : Exact rd v block) (hw : Exact rd w block)
    (hc : v.ctx.conn = w.ctx.conn) : Agree rd block.length v w where
  conn := hc
  left := ⟨hv.src, hv.small⟩
  right := ⟨hw.src, hw.small⟩
  read entries i len huff isKey hi hl := by
    rw [hv.read entries i len huff isKey hi hl, hw.read entries i len huff isKey hi hl]
  readZero entries isKey := by rw [hv.readZero, hw.readZero]

theorem toNat_ofNat_of_lt {k : Nat} (h : k < 2 ^ 16) : (UInt16.ofNat k).toNat = k := by
  rw [UInt16.toNat_ofNat']
  exact Nat.mod_eq_of_lt h

theorem slice_append (pre block : Bytes) (i len : Nat) :
    slice (pre ++ block) (pre.length + i) len = slice block i len := by
  unfold slice
  rw [List.drop_append, List.drop_eq_nil_of_le (by omega)]
  simp

/-- A block at the very end of what is readable, read in place. -/
theorem exact_msg (ctx : MsgCtx) (pre block : Bytes) (buf : BlockBuf)
    (hd : ctx.data = pre ++ block) (hs : pre.length + block.length < 2 ^ 16) :
    Exact rd ⟨ctx, buf, .msg, pre.length⟩ block where
  src := by simp
  small := hs
  read entries i len huff isKey hi hl := by
    simp only [getMatch, View.at, toNat_ofNat_of_lt (show pre.length + i < 2 ^ 16 by omega),
      toNat_ofNat_of_lt (show len < 2 ^ 16 by omega), hd, slice_append, List.length_append,
      Nat.add_assoc, Nat.add_lt_add_iff_left]
  readZero entries isKey := by simp [getMatch, slice]

/-- `block` is what the buffer holds. -/
structure BlockBuf.Has (buf : BlockBuf) (block : Bytes) : Prop where
  len : buf.len = block.length
  short : block.length ≤ blockMaxlen
  bytes : ∀ i (hi : i < block.length), buf.data i = block[i]

theorem BlockBuf.Has.slice_eq {buf : BlockBuf} {block : Bytes} (h : buf.Has block) {i len : Nat}
    (hl : i + len ≤ block.length) : buf.slice i len = Beeper.slice block i len := by
  apply List.ext_getElem
  · rw [slice_length hl]
    simp [BlockBuf.slice]
  · intro j hj _
    simp only [BlockBuf.slice, List.length_map, List.length_range] at hj
    simp [BlockBuf.slice, Beeper.slice, h.bytes (i + j) (by omega)]

theorem BlockBuf.Has.slice_all {buf : BlockBuf} {block : Bytes} (h : buf.Has block) :
    buf.slice 0 block.length = block := by
  rw [h.slice_eq (by omega)]
  simp [Beeper.slice]

/-- A block that was put together, read out of the buffer. -/
theorem exact_buf {ctx : MsgCtx} {buf : BlockBuf} {block : Bytes} (h : buf.Has block) :
    Exact rd ⟨ctx, buf, .buf, 0⟩ block where
  src := by simp
  small := by
    have := h.short
    have : blockMaxlen < 2 ^ 16 := by decide
    simp only
    omega
  read entries i len huff isKey hi hl := by
    have hshort := h.short
    have hmax : blockMaxlen < 2 ^ 16 := by decide
    simp only [getMatch, View.at, Nat.zero_add, toNat_ofNat_of_lt (show i < 2 ^ 16 by omega),
      toNat_ofNat_of_lt (show len < 2 ^ 16 by omega), h.len]
    split
    next => rfl
    next hlt => rw [Nat.min_eq_left (by omega), h.slice_eq (by omega)]
  readZero entries isKey := by simp [getMatch, BlockBuf.slice]

end Beeper.Http2
