import Beeper.HpackInt

namespace Beeper.Http2

variable {rd : Rodata} {ctx : MsgCtx} {buf : BlockBuf} {src : HttpMatchSource} {t : DynamicTable}
  {pres : HttpParseRes} {st : HdrState}

/-- The slot an index is reported as, or 0 if it names no entry or does not fit. -/
def slotOf (info : DynamicTableInfo) (v : Nat) : Nat :=
  if isValidHpackIndex info v then
    let slot := if staticTableSize < v then getDynamicTableIndex info v else v
    if 0xffff < slot then 0 else slot
  else 0

/-- The capture that the name of the field with the index `v` matches. -/
def refCapture (rd : Rodata) (conn : Ip4Conn) (t : DynamicTable) (v : Nat) : Option Nat :=
  (getTableEntry rd conn t v).bind fun hf => matchHeaderKey rd hf.key hf.keyHuff

def tableMatch (slot len : Nat) : HttpMatch := ⟨UInt16.ofNat slot, UInt16.ofNat len, .table, false⟩

/-- The match of a string that ends at the offset `stop`. -/
def Str.located (s : Str) (src : HttpMatchSource) (stop : Nat) : HttpMatch :=
  ⟨UInt16.ofNat (stop - s.raw.length), UInt16.ofNat s.raw.length, src, s.huff⟩

def captured (pres : HttpParseRes) (cid : Option Nat) (m : HttpMatch) : HttpParseRes :=
  match cid with
  | some cid => pres.set cid m
  | none => pres

def added (rd : Rodata) (ctx : MsgCtx) (buf : BlockBuf) (t : DynamicTable) (add : Bool)
    (key val : HttpMatch) : DynamicTable :=
  if add then (addDynamicTableEntry rd ctx buf t key val).2 else t

/-- The table resized to `n`. -/
def resized (conn : Ip4Conn) (t : DynamicTable) (n : Nat) : DynamicTable :=
  (tryEvictDynamicTableEntries conn 0 t.info.count (t.setMaxSize n)).2

/-- What a name comes to: the capture it matches, and what the field is added to the table under.
A literal name ends at the offset `stop`. -/
def nameRead (rd : Rodata) (conn : Ip4Conn) (src : HttpMatchSource) (stop : Nat)
    (t : DynamicTable) : Name → Option Nat × HttpMatch
  | .idx i => (refCapture rd conn t (u32 i), tableMatch (slotOf t.info (u32 i)) 0)
  | .lit s => (matchHeaderKey rd s.raw s.huff, s.located src stop)

/-- What a representation comes to, whose name ends at the offset `nameStop` and whose value ends
at `stop`. -/
def execRep (rd : Rodata) (ctx : MsgCtx) (buf : BlockBuf) (src : HttpMatchSource)
    (nameStop stop : Nat) (t : DynamicTable) (pres : HttpParseRes) :
    Rep → DynamicTable × HttpParseRes
  | .indexed i =>
    (t, captured pres (refCapture rd ctx.conn t (u32 i))
      (tableMatch (slotOf t.info (u32 i)) (headerFieldMaxlen - 1)))
  | .literal mode name value =>
    let (cid, key) := nameRead rd ctx.conn src nameStop t name
    (added rd ctx buf t (decide (mode = .incremental)) key (value.located src stop),
      captured pres cid (value.located src stop))
  | .tableSize n => (resized ctx.conn t (u32 n), pres)

/-- The length of a string the parser reads for an announced one. -/
def readLen (n : Nat) : Nat := n % 2 ^ 15

/-- The state in front of a representation. -/
structure AtField (src : HttpMatchSource) (t : DynamicTable) (pres : HttpParseRes)
    (st : HdrState) : Prop where
  s : st.ps.s = sField
  skip : st.ps.skip = 0
  src : st.ps.src = src
  table : st.table = t
  pres : st.pres = pres

/-- The state in front of a literal name. -/
structure AtName (src : HttpMatchSource) (t : DynamicTable) (pres : HttpParseRes) (add : Bool)
    (st : HdrState) : Prop where
  s : st.ps.s = sKeyLen
  skip : st.ps.skip = 0
  src : st.ps.src = src
  table : st.table = t
  pres : st.pres = pres
  addToDt : st.ps.addToDt = add
  cid : st.ps.cid = none

/-- The state in front of a value. -/
structure AtValue (src : HttpMatchSource) (t : DynamicTable) (pres : HttpParseRes) (add : Bool)
    (cid : Option Nat) (key : HttpMatch) (st : HdrState) : Prop where
  s : st.ps.s = sValLen
  skip : st.ps.skip = 0
  src : st.ps.src = src
  table : st.table = t
  pres : st.pres = pres
  addToDt : st.ps.addToDt = add
  cid : st.ps.cid = cid
  key : st.ps.key = key

theorem runIndexed_indexed (rd : Rodata) (ctx : MsgCtx) (st : HdrState)
    (hk : st.ps.kind = some .indexed) : runIndexed rd ctx st =
      ⟨st.table, captured st.pres (refCapture rd ctx.conn st.table st.ps.v)
        (tableMatch (slotOf st.table.info st.ps.v) (headerFieldMaxlen - 1)),
        { st.ps with
          addToDt := decide (st.ps.flags &&& fAddDt ≠ 0)
          cid := none
          key := tableMatch (slotOf st.table.info st.ps.v) 0 }⟩ := by
  have hslot : tableMatch (slotOf st.table.info st.ps.v) 0 =
      ⟨UInt16.ofNat (slotOf st.table.info st.ps.v), 0, .table, false⟩ := rfl
  unfold runIndexed refCapture
  rw [hslot]
  simp only
  cases getTableEntry rd ctx.conn st.table st.ps.v with
  | none => rfl
  | some hf =>
    simp only [Option.bind_some]
    cases matchHeaderKey rd hf.key hf.keyHuff with
    | none => rfl
    | some mid =>
      simp only [hk, Option.some.injEq, reduceCtorEq, if_false]
      rfl

theorem runIndexed_idxName (rd : Rodata) (ctx : MsgCtx) (st : HdrState)
    (hk : st.ps.kind = some .idxName) : runIndexed rd ctx st =
      { st with ps := { st.ps with
          addToDt := decide (st.ps.flags &&& fAddDt ≠ 0)
          cid := refCapture rd ctx.conn st.table st.ps.v
          key := tableMatch (slotOf st.table.info st.ps.v) 0 } } := by
  have hslot : tableMatch (slotOf st.table.info st.ps.v) 0 =
      ⟨UInt16.ofNat (slotOf st.table.info st.ps.v), 0, .table, false⟩ := rfl
  unfold runIndexed refCapture
  rw [hslot]
  simp only
  cases getTableEntry rd ctx.conn st.table st.ps.v with
  | none => rfl
  | some hf =>
    simp only [Option.bind_some]
    cases matchHeaderKey rd hf.key hf.keyHuff with
    | none => rfl
    | some mid =>
      simp only [hk, if_true]
      rfl

/-- A step of the walk over the trie of the names. -/
def nameStep (rd : Rodata) (st : StateId × Option Nat) (c : UInt8) : StateId × Option Nat :=
  ((rd.next st.1 c.toNat).1,
    if (rd.action (rd.next st.1 c.toNat).2).kind = some .capture then
      some ((rd.action (rd.next st.1 c.toNat).2).val % maxMatches)
    else none)

theorem matchHeaderKey_eq (rd : Rodata) (key : Bytes) (huff : Bool) :
    matchHeaderKey rd key huff =
      (key.foldl (nameStep rd) (if huff then sName else sNamePlain, none)).2 := rfl

/-- The bytes of a name are taken along the trie, those of a value are passed over. -/
theorem feed_skip (rd : Rodata) (ctx : MsgCtx) (buf : BlockBuf) (raw : Bytes) (base : Nat)
    (st : HdrState) (hs : st.ps.skip = raw.length) (hne : raw ≠ []) :
    feed rd ctx buf (raw.zipIdx base) st = (none, { st with ps := { st.ps with
      s := if st.ps.isKey then sValLen else st.ps.s
      cid := if st.ps.isKey then (raw.foldl (nameStep rd) (st.ps.s, st.ps.cid)).2 else st.ps.cid
      skip := 0
      i := base + raw.length - 1 } }) := by
  induction raw generalizing base st with
  | nil => exact absurd rfl hne
  | cons c raw ih =>
    have hpos : 0 < st.ps.skip := by simp [hs]
    have hsub : st.ps.skip - 1 = raw.length := by simp [hs]
    have hbyte : parseHdrByte rd ctx buf { st with ps := { st.ps with i := base } } c =
        (none, { st with ps := skipByte rd { st.ps with i := base } c }) := by
      unfold parseHdrByte
      simp only [hpos, if_true]
    rw [List.zipIdx_cons, feed_cons, hbyte]
    simp only [skipByte, hsub]
    cases raw with
    | nil =>
      simp only [List.length_nil, if_true, List.zipIdx_nil, feed_nil, List.foldl_cons,
        List.foldl_nil, nameStep, List.length_singleton, Nat.add_sub_cancel]
    | cons d raw =>
      rw [ih]
      · cases hk : st.ps.isKey with
        | true =>
          simp only [if_true, List.length_cons, Nat.add_one_ne_zero, if_false,
            List.foldl_cons, nameStep]
          congr 4
          omega
        | false =>
          simp only [Bool.false_eq_true, if_false, List.length_cons]
          congr 4
          omega
      · rfl
      · simp

variable {bs : Bytes} {add : Bool} {cid : Option Nat} {key : HttpMatch}

variable (ctx buf) in
theorem exec_indexed (hrd : ReadsReps rd) (h : AtField src t pres st) {i : Nat} (hi : 0 < i)
    (hw : IntWire 0x80 0x7F bs i) (base : Nat) :
    ∃ st', feed rd ctx buf (bs.zipIdx base) st = (none, st') ∧
      AtField src t (captured pres (refCapture rd ctx.conn t (u32 i))
        (tableMatch (slotOf t.info (u32 i)) (headerFieldMaxlen - 1))) st' := by
  obtain ⟨ps', hf, ha⟩ := feed_int ctx buf hrd indexedRow hw hi base h.s h.skip
  refine ⟨runIndexed rd ctx ⟨st.table, st.pres, ps'⟩, ?_, ?_⟩
  · rw [hf]
    unfold runAction
    simp only [ha.kind]
  · rw [runIndexed_indexed rd ctx _ ha.kind]
    simp only [ha.v, h.table, h.pres]
    exact ⟨ha.s, ha.skip.trans h.skip, ha.src.trans h.src, rfl, rfl⟩

variable (ctx buf) in
theorem exec_named (hrd : ReadsReps rd) (h : AtField src t pres st) {mode : Indexing} {i : Nat}
    (hi : 0 < i) (hw : IntWire mode.bits mode.max bs i) (base : Nat) :
    ∃ st', feed rd ctx buf (bs.zipIdx base) st = (none, st') ∧
      AtValue src t pres (decide (mode = .incremental)) (refCapture rd ctx.conn t (u32 i))
        (tableMatch (slotOf t.info (u32 i)) 0) st' := by
  obtain ⟨ps', hf, ha⟩ := feed_int ctx buf hrd (namedRow mode) hw hi base h.s
    h.skip
  refine ⟨runIndexed rd ctx ⟨st.table, st.pres, ps'⟩, ?_, ?_⟩
  · rw [hf]
    unfold runAction
    simp only [ha.kind]
  · have hadd : decide (ps'.flags &&& fAddDt ≠ 0) = decide (mode = .incremental) := by
      rw [ha.addDt]
      cases mode <;> decide
    rw [runIndexed_idxName rd ctx _ ha.kind]
    simp only [ha.v, h.table, h.pres, hadd]
    exact ⟨ha.s, ha.skip.trans h.skip, ha.src.trans h.src, rfl, rfl, rfl, rfl, rfl⟩

variable (ctx buf) in
theorem exec_tableSize (hrd : ReadsReps rd) (h : AtField src t pres st) {n : Nat}
    (hw : IntWire 0x20 0x1F bs n) (base : Nat) :
    ∃ st', feed rd ctx buf (bs.zipIdx base) st = (none, st') ∧
      AtField src (resized ctx.conn t (u32 n)) pres st' := by
  obtain ⟨ps', hf, ha⟩ := feed_int ctx buf hrd tableSizeRow hw (Nat.zero_le n)
    base h.s h.skip
  refine ⟨⟨resized ctx.conn t (u32 n), st.pres, ps'⟩, ?_, ?_⟩
  · rw [hf]
    unfold runAction
    simp only [ha.kind, ha.v, h.table]
    rfl
  · exact ⟨ha.s, ha.skip.trans h.skip, ha.src.trans h.src, rfl, h.pres⟩

variable (ctx buf) in
/-- The first byte of a field with a new name. -/
theorem exec_new (hrd : ReadsReps rd) (h : AtField src t pres st) {mode : Indexing} {c : UInt8}
    (hc : c.toNat = mode.bits) (base : Nat) :
    ∃ st', feed rd ctx buf [(c, base)] st = (none, st') ∧
      AtName src t pres (decide (mode = .incremental)) st' := by
  have he : repEdge st.ps.s c.toNat =
      (sKeyLen, ⟨.litName, 0, if mode = .incremental then fAddDt else 0⟩) := by
    rw [h.s, hc]
    cases mode <;> decide
  have hb := parseHdrByte_rep ctx buf hrd { st with ps := { st.ps with i := base } } c
    (by simp only [h.s]; decide) h.skip he
  have hadd : decide ((if mode = Indexing.incremental then fAddDt else 0) &&& fAddDt ≠ 0) =
      decide (mode = .incremental) := by
    cases mode <;> decide
  simp only [reduceCtorEq, if_false, runAction, hadd] at hb
  refine ⟨_, by rw [feed_single, hb], ?_⟩
  exact ⟨rfl, h.skip, h.src, h.table, h.pres, rfl, rfl⟩

/-- The length that is read for a string, and the offset the string starts at. -/
theorem readLen_eq {n k : Nat} (base : Nat) {int : Bytes} (hne : int ≠ []) (hlen : readLen n = k) :
    u32 n % 2 ^ 15 = k ∧ base + int.length - 1 + 1 = base + (int.length + k) - k := by
  have := List.length_pos_iff.mpr hne
  rw [← hlen, u32_eq, readLen]
  omega

theorem huffFlag (huff : Bool) : decide ((if huff then fHuff else 0) &&& fHuff ≠ 0) = huff := by
  cases huff <;> decide

variable (ctx buf) in
theorem exec_name (hrd : ReadsReps rd) (h : AtName src t pres add st) {s : Str}
    (hw : StrWire readLen s bs) (base : Nat) :
    ∃ st', feed rd ctx buf (bs.zipIdx base) st = (none, st') ∧
      AtValue src t pres add (matchHeaderKey rd s.raw s.huff) (s.located src (base + bs.length))
        st' := by
  cases hw with
  | @mk int n hint hlen =>
  obtain ⟨ps', hf, ha⟩ := feed_int ctx buf hrd (keyLenRow s.huff) hint
    (Nat.zero_le n) base h.s h.skip
  obtain ⟨hv, hoff⟩ := readLen_eq base hint.ne_nil hlen
  have hkey : (⟨UInt16.ofNat (ps'.i + 1), UInt16.ofNat s.raw.length, ps'.src,
      decide (ps'.flags &&& fHuff ≠ 0)⟩ : HttpMatch) =
      s.located src (base + (int ++ s.raw).length) := by
    rw [ha.i, ha.src, h.src, ha.huff, huffFlag, hoff, List.length_append]
    rfl
  rw [List.zipIdx_append, feed_append, hf]
  unfold runAction
  simp only [ha.kind, hkey, ha.v, hv]
  by_cases hraw : s.raw = []
  · simp only [hraw, List.length_nil, List.zipIdx_nil, feed_nil, if_true]
    refine ⟨_, rfl, rfl, rfl, ha.src.trans h.src, h.table, h.pres, ha.addToDt.trans h.addToDt,
      ?_, rfl⟩
    rw [ha.cid, h.cid]
    rfl
  · have hpos : s.raw.length ≠ 0 := fun hz => hraw (List.length_eq_zero_iff.mp hz)
    rw [feed_skip _ _ _ _ _ _ rfl hraw]
    simp only [hpos, if_true, if_false, ha.s]
    refine ⟨_, rfl, rfl, rfl, ha.src.trans h.src, h.table, h.pres, ha.addToDt.trans h.addToDt,
      ?_, rfl⟩
    rw [matchHeaderKey_eq, ha.cid, h.cid]

/-- The match of a string of the length `n`, as it is announced in front of the offset `off`. -/
def valueMatch (src : HttpMatchSource) (off n : Nat) (huff : Bool) : HttpMatch :=
  ⟨UInt16.ofNat off, UInt16.ofNat (readLen n), src, huff⟩

variable (ctx buf) in
/-- The length of a value is all that the parser needs to capture it, and to add a field. -/
theorem exec_length (hrd : ReadsReps rd) (h : AtValue src t pres add cid key st) {huff : Bool}
    {int : Bytes} {n : Nat} (hw : IntWire (huffBit huff) 0x7F int n) (base : Nat) :
    ∃ ps, feed rd ctx buf (int.zipIdx base) st =
      (none, ⟨added rd ctx buf t add key (valueMatch src (base + int.length) n huff),
        captured pres cid (valueMatch src (base + int.length) n huff), ps⟩) ∧
      ps.skip = readLen n ∧ ps.s = sField ∧ ps.src = src ∧ ps.isKey = false := by
  obtain ⟨ps, hf, ha⟩ := feed_int ctx buf hrd (valLenRow huff) hw (Nat.zero_le n) base h.s h.skip
  obtain ⟨hv, -⟩ := readLen_eq base hw.ne_nil (rfl : readLen n = readLen n)
  have hoff : ps.i + 1 = base + int.length := by
    have := List.length_pos_iff.mpr hw.ne_nil
    rw [ha.i]
    omega
  have hval : (⟨UInt16.ofNat (ps.i + 1), UInt16.ofNat (readLen n), ps.src,
      decide (ps.flags &&& fHuff ≠ 0)⟩ : HttpMatch) = valueMatch src (base + int.length) n huff := by
    rw [hoff, ha.src, h.src, ha.huff, huffFlag]
    rfl
  unfold runAction at hf
  simp only [ha.kind, ha.v, hv, hval, ha.addToDt, h.addToDt, ha.cid, h.cid, ha.key, h.key, h.table,
    h.pres] at hf
  exact ⟨_, hf, rfl, ha.s, ha.src.trans h.src, rfl⟩

variable (ctx buf) in
theorem exec_value (hrd : ReadsReps rd) (h : AtValue src t pres add cid key st) {s : Str}
    (hw : StrWire readLen s bs) (base : Nat) :
    ∃ st', feed rd ctx buf (bs.zipIdx base) st = (none, st') ∧
      AtField src (added rd ctx buf t add key (s.located src (base + bs.length)))
        (captured pres cid (s.located src (base + bs.length))) st' := by
  cases hw with
  | @mk int n hint hlen =>
  obtain ⟨ps, hf, hskip, hs, hsrc, hkey⟩ := exec_length ctx buf hrd h hint base
  have hval : valueMatch src (base + int.length) n s.huff =
      s.located src (base + (int ++ s.raw).length) := by
    rw [valueMatch, Str.located, hlen, List.length_append, ← Nat.add_assoc, Nat.add_sub_cancel]
  rw [hval] at hf
  rw [List.zipIdx_append, feed_append, hf]
  by_cases hraw : s.raw = []
  · rw [hlen, hraw] at hskip
    simp only [hraw, List.zipIdx_nil, feed_nil]
    exact ⟨_, rfl, hs, hskip, hsrc, rfl, rfl⟩
  · simp only [feed_skip rd ctx buf s.raw _ ⟨_, _, ps⟩ (hskip.trans hlen) hraw, hkey]
    exact ⟨_, rfl, hs, rfl, hsrc, rfl, rfl⟩

/-- Where the literal name of a representation ends, if it has one. -/
def NameEnds (base : Nat) (bs : Bytes) (nameStop : Nat) : Rep → Prop
  | .literal _ (.lit s) _ =>
    ∃ front back, bs = front ++ s.raw ++ back ∧ nameStop = base + (front ++ s.raw).length
  | _ => True

variable (ctx buf) in
theorem exec_rep (hrd : ReadsReps rd) (h : AtField src t pres st) {rep : Rep}
    (hw : RepWire readLen rep bs) (base : Nat) :
    ∃ nameStop st', NameEnds base bs nameStop rep ∧
      feed rd ctx buf (bs.zipIdx base) st = (none, st') ∧
      AtField src (execRep rd ctx buf src nameStop (base + bs.length) t pres rep).1
        (execRep rd ctx buf src nameStop (base + bs.length) t pres rep).2 st' := by
  cases hw with
  | @indexed i _ hi hint =>
    obtain ⟨st', hf, hst⟩ := exec_indexed ctx buf hrd h hi hint base
    exact ⟨0, st', trivial, hf, hst⟩
  | @tableSize n _ hint =>
    obtain ⟨st', hf, hst⟩ := exec_tableSize ctx buf hrd h hint base
    exact ⟨0, st', trivial, hf, hst⟩
  | @named mode i value int vs hi hint hv =>
    obtain ⟨st1, hf1, hst1⟩ := exec_named ctx buf hrd h hi hint base
    obtain ⟨st', hf, hst⟩ := exec_value ctx buf hrd hst1 hv (base + int.length)
    refine ⟨0, st', trivial, ?_, ?_⟩
    · rw [List.zipIdx_append, feed_append, hf1]
      exact hf
    · rw [List.length_append, ← Nat.add_assoc]
      exact hst
  | @new mode name value ns vs c hc hn hv =>
    obtain ⟨st1, hf1, hst1⟩ := exec_new ctx buf hrd h hc base
    obtain ⟨st2, hf2, hst2⟩ := exec_name ctx buf hrd hst1 hn (base + 1)
    obtain ⟨st', hf, hst⟩ := exec_value ctx buf hrd hst2 hv
      (base + 1 + ns.length)
    refine ⟨base + 1 + ns.length, st', ?_, ?_, ?_⟩
    · cases hn with
      | @mk int n hint hlen =>
      refine ⟨c :: int, vs, by simp, ?_⟩
      simp only [List.length_append, List.length_cons]
      omega
    · have hsplit : (c :: (ns ++ vs)).zipIdx base = [(c, base)] ++ (ns.zipIdx (base + 1) ++
          vs.zipIdx (base + 1 + ns.length)) := by
        rw [List.zipIdx_cons, List.zipIdx_append]
        rfl
      rw [hsplit, feed_append, hf1]
      simp only
      rw [feed_append, hf2]
      exact hf
    · have hlen : base + (c :: (ns ++ vs)).length = base + 1 + ns.length + vs.length := by
        simp only [List.length_cons, List.length_append]
        omega
      rw [hlen]
      exact hst

/-- Every block that the parser reads as a concatenation of representations is accepted. -/
theorem feed_complete (hrd : ReadsReps rd) {block : Bytes} (hb : Complete readLen block)
    (ctx : MsgCtx) (buf : BlockBuf) (base : Nat) (h : AtField src t pres st) :
    ∃ t' pres' st', feed rd ctx buf (block.zipIdx base) st = (none, st') ∧
      AtField src t' pres' st' := by
  obtain ⟨reps, hw⟩ := hb
  induction hw generalizing base t pres st with
  | nil => exact ⟨t, pres, st, rfl, h⟩
  | @cons rep reps bs rest hr _ ih =>
    obtain ⟨nameStop, st1, -, hf1, hst1⟩ := exec_rep ctx buf hrd h hr base
    obtain ⟨t', pres', st', hf, hst⟩ := ih (base + bs.length) hst1
    refine ⟨t', pres', st', ?_, hst⟩
    rw [List.zipIdx_append, feed_append, hf1]
    exact hf

/-- A block that goes on to be one is accepted as well. -/
theorem feed_extends (hrd : ReadsReps rd) {block : Bytes} (hb : Extends readLen block)
    (ctx : MsgCtx) (buf : BlockBuf) (base : Nat) (h : AtField src t pres st) :
    (feed rd ctx buf (block.zipIdx base) st).1 = none := by
  obtain ⟨more, -, hc⟩ := hb
  obtain ⟨-, -, st', hf, -⟩ := feed_complete hrd hc ctx buf base h
  rw [List.zipIdx_append, feed_append] at hf
  generalize feed rd ctx buf (block.zipIdx base) st = r at hf
  obtain ⟨e, st1⟩ := r
  cases e with
  | none => rfl
  | some e => cases hf

/-- The index 0 is an error. -/
theorem feed_zeroIndex (hrd : ReadsReps rd) {block : Bytes} (hb : ZeroIndex readLen block)
    (ctx : MsgCtx) (buf : BlockBuf) (base : Nat) (h : AtField src t pres st) :
    (feed rd ctx buf (block.zipIdx base) st).1 = some .EBADMSG := by
  obtain ⟨front, back, hc, rfl⟩ := hb
  obtain ⟨t', pres', st', hf, hst⟩ := feed_complete hrd hc ctx buf base h
  have he := parseHdrByte_rep ctx buf hrd
    { st' with ps := { st'.ps with i := base + front.length } } 0x80 (t := sDead)
    (a := ⟨.err, 0, 0⟩) (by simp only [hst.s]; decide) hst.skip
    (by simp only [hst.s]; decide)
  simp only [reduceCtorEq, if_false, runAction] at he
  rw [List.zipIdx_append, feed_append, hf]
  simp only
  rw [List.zipIdx_cons, feed_cons, he]

end Beeper.Http2
