import Beeper.HeaderWalk
import Beeper.HpackWire
import Beeper.Http2Parser
import Mathlib.Tactic.Ring

namespace Beeper.Http2

variable {rd : Rodata} {ctx : MsgCtx} {buf : BlockBuf}

/-- The edges an integer is read with, out of the state `s`: its first byte has the prefix maximum
`max` and the other bits `bits`, and values below `least` are not read. -/
structure IntRow (s bits max least cont target : Nat) (kind : Kind) (flags : Nat) : Prop where
  s_mem : s ∈ repStates
  cont_mem : cont ∈ repStates
  bits_lt : bits + max < 256
  short : ∀ v < max, least ≤ v → repEdge s (bits + v) = (target, ⟨kind, v, flags⟩)
  long : repEdge s (bits + max) = (cont, ⟨.intStart, max, 0⟩)
  last : ∀ c < 0x80, repEdge cont c = (target, ⟨kind, 0, flags ||| fCont⟩)
  more : ∀ c < 256, 0x80 ≤ c → repEdge cont c = (cont, ⟨.intCont, 0, 0⟩)
  kind_ne : kind ≠ .intStart ∧ kind ≠ .intCont
  flags_cont : flags &&& fCont = 0
  cont_flags : (flags ||| fCont) &&& fCont ≠ 0 ∧ (flags ||| fCont) &&& fAddDt = flags &&& fAddDt ∧
    (flags ||| fCont) &&& fHuff = flags &&& fHuff

/-- The state an integer leaves the parser in, which is about to run the action of its value. -/
structure Announced (ps ps' : Http2ParseState) (s v i : Nat) (kind : Kind) (flags : Nat) :
    Prop where
  s : ps'.s = s
  v : ps'.v = v
  i : ps'.i = i
  kind : ps'.kind = some kind
  addDt : ps'.flags &&& fAddDt = flags &&& fAddDt
  huff : ps'.flags &&& fHuff = flags &&& fHuff
  skip : ps'.skip = ps.skip
  isKey : ps'.isKey = ps.isKey
  cid : ps'.cid = ps.cid
  addToDt : ps'.addToDt = ps.addToDt
  key : ps'.key = ps.key
  src : ps'.src = ps.src

variable (ctx buf) in
/-- A byte of a representation that is not one of a string. -/
theorem parseHdrByte_rep (hrd : ReadsReps rd) (st : HdrState) (c : UInt8) {t : StateId} {a : Action}
    (hs : st.ps.s ∈ repStates) (hskip : st.ps.skip = 0) (he : repEdge st.ps.s c.toNat = (t, a)) :
    parseHdrByte rd ctx buf st c =
      if a.kind = .intStart then
        (none, { st with ps := { st.ps with s := t, k := a.val, m := 0 } })
      else if a.kind = .intCont then
        (none, { st with ps := { st.ps with
          s := t
          k := addInt st.ps c
          m := if st.ps.m ≤ 28 then st.ps.m + 7 else st.ps.m } })
      else
        runAction rd ctx buf { st with ps := { st.ps with
          s := t
          v := if a.flags &&& fCont ≠ 0 then addInt st.ps c else a.val
          kind := some a.kind
          flags := a.flags } } := by
  obtain ⟨hn, ha⟩ := hrd st.ps.s hs c.toNat c.toNat_lt
  rw [he] at hn ha
  unfold parseHdrByte
  simp only [hskip, Nat.lt_irrefl, if_false, hn, ha, Action.toHttp2Action, Option.some.injEq]

theorem feed_cons (c : UInt8) (i : Nat) (cs : List (UInt8 × Nat)) (st : HdrState) :
    feed rd ctx buf ((c, i) :: cs) st =
      match parseHdrByte rd ctx buf { st with ps := { st.ps with i := i } } c with
      | (some e, st) => (some e, st)
      | (none, st) => feed rd ctx buf cs st := rfl

theorem feed_single (c : UInt8) (i : Nat) (st : HdrState) :
    feed rd ctx buf [(c, i)] st =
      parseHdrByte rd ctx buf { st with ps := { st.ps with i := i } } c := by
  rw [feed_cons]
  generalize parseHdrByte rd ctx buf _ c = r
  obtain ⟨e, st'⟩ := r
  cases e <;> rfl

variable {s bits max least cont target flags : Nat} {kind : Kind}

/-- The value of an integer that went on for `j` bytes, of which only the first five count. -/
theorem addInt_eq (ps : Http2ParseState) (c : UInt8) {j : Nat} (hk : ps.k < 2 ^ 32)
    (hm : ps.m = 7 * j) (hj : j ≤ 5) :
    addInt ps c = u32 (ps.k + (c.toNat % 128) * 2 ^ (7 * j)) := by
  unfold addInt
  rw [hm, Nat.shiftLeft_eq]
  by_cases h : j ≤ 4
  · rw [if_pos (by omega)]
    simp only [u32_eq, Nat.add_mod_mod]
  · have hj5 : j = 5 := by omega
    subst j
    rw [if_neg (by decide), u32_eq]
    omega

/-- Past the fifth byte, neither the shift nor the value changes. -/
theorem cont_value (k d n : Nat) {j : Nat} (hj : j ≤ 5) :
    u32 (u32 (k + d * 2 ^ (7 * j)) + n * 2 ^ (7 * min (j + 1) 5)) =
      u32 (k + (d + 0x80 * n) * 2 ^ (7 * j)) := by
  rw [u32_eq, u32_eq, u32_eq, Nat.mod_add_mod]
  by_cases h : j ≤ 4
  · rw [Nat.min_eq_left (by omega)]
    congr 1
    ring
  · have hj5 : j = 5 := by omega
    subst j
    rw [Nat.min_eq_right (by omega)]
    omega

variable (ctx buf) in
theorem feed_cont (hrd : ReadsReps rd) (hrow : IntRow s bits max least cont target kind flags)
    {bs : Bytes} {n : Nat} (hw : ContWire bs n) (base j : Nat) (st : HdrState)
    (hs : st.ps.s = cont) (hskip : st.ps.skip = 0) (hk : st.ps.k < 2 ^ 32)
    (hm : st.ps.m = 7 * j) (hj : j ≤ 5) :
    ∃ ps', feed rd ctx buf (bs.zipIdx base) st = runAction rd ctx buf ⟨st.table, st.pres, ps'⟩ ∧
      Announced st.ps ps' target (u32 (st.ps.k + n * 2 ^ (7 * j))) (base + bs.length - 1)
        kind flags := by
  induction hw generalizing base j st with
  | last c hc =>
    obtain ⟨hcont, hadd, hhuff⟩ := hrow.cont_flags
    obtain ⟨hne, hne'⟩ := hrow.kind_ne
    have hadd' := addInt_eq { st.ps with i := base } c hk hm hj
    rw [Nat.mod_eq_of_lt (by omega)] at hadd'
    have hb := parseHdrByte_rep ctx buf hrd { st with ps := { st.ps with i := base } } c
      (by simp only [hs]; exact hrow.cont_mem) hskip
      (by simp only [hs]; exact hrow.last c.toNat hc)
    simp only [if_neg hne, if_neg hne', if_pos hcont, hadd'] at hb
    rw [List.zipIdx_singleton, feed_single, hb]
    exact ⟨_, rfl, rfl, rfl, rfl, rfl, hadd, hhuff, rfl, rfl, rfl, rfl, rfl, rfl⟩
  | @more c hc bs n h ih =>
    have hlt := c.toNat_lt
    have hb := parseHdrByte_rep ctx buf hrd { st with ps := { st.ps with i := base } } c
      (by simp only [hs]; exact hrow.cont_mem) hskip
      (by simp only [hs]; exact hrow.more c.toNat hlt hc)
    simp only [reduceCtorEq, if_false, if_true] at hb
    have hadd := addInt_eq { st.ps with i := base } c hk hm hj
    simp only at hadd
    have hmod : c.toNat % 128 = c.toNat - 0x80 := by omega
    rw [hmod] at hadd
    rw [List.zipIdx_cons, feed_cons, hb]
    simp only
    obtain ⟨ps', hf, ha⟩ := ih (base + 1) (min (j + 1) 5)
      { st with ps := { st.ps with
        i := base
        s := cont
        k := addInt { st.ps with i := base } c
        m := if st.ps.m ≤ 28 then st.ps.m + 7 else st.ps.m } }
      rfl hskip (by simp only [hadd]; exact u32_lt _)
      (by simp only [hm]; split <;> omega) (Nat.min_le_right _ _)
    refine ⟨ps', hf, ?_⟩
    have hlen : base + 1 + bs.length - 1 = base + (c :: bs).length - 1 := by
      simp only [List.length_cons]
      omega
    simp only [hadd, cont_value st.ps.k (c.toNat - 0x80) n hj, hlen] at ha
    exact ⟨ha.s, ha.v, ha.i, ha.kind, ha.addDt, ha.huff, ha.skip, ha.isKey, ha.cid, ha.addToDt,
      ha.key, ha.src⟩

variable (ctx buf) in
/-- An integer is read to its value, as far as that fits into 32 bits. -/
theorem feed_int (hrd : ReadsReps rd) (hrow : IntRow s bits max least cont target kind flags)
    {bs : Bytes} {n : Nat} (hw : IntWire bits max bs n) (hn : least ≤ n) (base : Nat)
    {st : HdrState} (hs : st.ps.s = s) (hskip : st.ps.skip = 0) :
    ∃ ps', feed rd ctx buf (bs.zipIdx base) st = runAction rd ctx buf ⟨st.table, st.pres, ps'⟩ ∧
      Announced st.ps ps' target (u32 n) (base + bs.length - 1) kind flags := by
  have hlt := hrow.bits_lt
  cases hw with
  | short c hv hc =>
    obtain ⟨hne, hne'⟩ := hrow.kind_ne
    have hb := parseHdrByte_rep ctx buf hrd { st with ps := { st.ps with i := base } } c
      (by simp only [hs]; exact hrow.s_mem) hskip
      (by simp only [hs, hc]; exact hrow.short n hv hn)
    simp only [if_neg hne, if_neg hne', hrow.flags_cont, ne_eq, not_true_eq_false, if_false] at hb
    have hv' : u32 n = n := u32_of_lt (by omega)
    rw [List.zipIdx_singleton, feed_single, hb, hv']
    exact ⟨_, rfl, rfl, rfl, rfl, rfl, rfl, rfl, rfl, rfl, rfl, rfl, rfl, rfl⟩
  | @long c hc bs n h =>
    have hb := parseHdrByte_rep ctx buf hrd { st with ps := { st.ps with i := base } } c
      (by simp only [hs]; exact hrow.s_mem) hskip
      (by simp only [hs, hc]; exact hrow.long)
    simp only [if_true] at hb
    rw [List.zipIdx_cons, feed_cons, hb]
    obtain ⟨ps', hf, ha⟩ := feed_cont ctx buf hrd hrow h (base + 1) 0
      { st with ps := { st.ps with i := base, s := cont, k := max, m := 0 } }
      rfl hskip (by simp only; omega) rfl (by omega)
    refine ⟨ps', hf, ?_⟩
    simp only [Nat.mul_zero, Nat.pow_zero, Nat.mul_one] at ha
    have hlen : base + 1 + bs.length - 1 = base + (c :: bs).length - 1 := by
      simp only [List.length_cons]
      omega
    rw [hlen] at ha
    exact ⟨ha.s, ha.v, ha.i, ha.kind, ha.addDt, ha.huff, ha.skip, ha.isKey, ha.cid, ha.addToDt,
      ha.key, ha.src⟩

theorem indexedRow : IntRow sField 0x80 0x7F 1 sIdx7Cont sField .indexed 0 := by
  constructor <;> decide +kernel

theorem namedRow (mode : Indexing) :
    IntRow sField mode.bits mode.max 1 (if mode = .incremental then sIdx6Cont else sIdx4Cont)
      sValLen .idxName (if mode = .incremental then fAddDt else 0) := by
  cases mode <;> constructor <;> decide +kernel

theorem tableSizeRow : IntRow sField 0x20 0x1F 0 sStgCont sField .tableSize 0 := by
  constructor <;> decide +kernel

theorem keyLenRow (huff : Bool) :
    IntRow sKeyLen (huffBit huff) 0x7F 0 (if huff then sKeyLenContHuff else sKeyLenCont)
      (if huff then sName else sNamePlain) .keyLen (if huff then fHuff else 0) := by
  cases huff <;> constructor <;> decide +kernel

theorem valLenRow (huff : Bool) :
    IntRow sValLen (huffBit huff) 0x7F 0 (if huff then sValLenContHuff else sValLenCont) sField
      .valLen (if huff then fHuff else 0) := by
  cases huff <;> constructor <;> decide +kernel

end Beeper.Http2
