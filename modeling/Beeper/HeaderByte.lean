import Beeper.DynamicTable

namespace Beeper.Http2

/-- The state of the parser between two bytes of a header block. `cid` is the capture the name
of the field being read matched, `key` is that name and `addToDt` says whether the peer adds the
field to its dynamic table. -/
structure Http2ParseState where
  s : StateId
  k : Nat
  m : Nat
  skip : Nat
  isKey : Bool
  cid : Option Nat
  addToDt : Bool
  key : HttpMatch
  i : Nat
  v : Nat
  kind : Option Kind
  flags : Nat
  src : HttpMatchSource

/-- The state a header block is read from its first byte with, out of `src`. -/
def newHttp2ParseState (src : HttpMatchSource) : Http2ParseState where
  s := sField
  k := 0
  m := 0
  skip := 0
  isKey := false
  cid := none
  addToDt := false
  key := ⟨0, 0, src, false⟩
  i := 0
  v := 0
  kind := none
  flags := 0
  src := src

/-- Everything that reading a byte of a header block changes. -/
structure HdrState where
  table : DynamicTable
  pres : HttpParseRes
  ps : Http2ParseState

/-- Runs the action of a field or a name that is given by index. A name that is an index has to
be read out of a table before it can be matched. -/
def runIndexed (rd : Rodata) (ctx : MsgCtx) (st : HdrState) : HdrState :=
  let ps := st.ps
  let info := st.table.info
  let slot :=
    if isValidHpackIndex info ps.v then
      let slot := if staticTableSize < ps.v then getDynamicTableIndex info ps.v else ps.v
      -- if we overflow, at least we won't report the wrong header
      if 0xffff < slot then 0 else slot
    else 0
  let ps := { ps with
    addToDt := decide (ps.flags &&& fAddDt ≠ 0)
    cid := none
    key := ⟨UInt16.ofNat slot, 0, .table, false⟩ }
  match getTableEntry rd ctx.conn st.table ps.v with
  | none => { st with ps := ps }
  | some hf =>
    match matchHeaderKey rd hf.key hf.keyHuff with
    | none => { st with ps := ps }
    | some mid =>
      if ps.kind = some .idxName then { st with ps := { ps with cid := some mid } }
      else { st with
        pres := st.pres.set mid
          ⟨UInt16.ofNat slot, UInt16.ofNat (headerFieldMaxlen - 1), .table, false⟩
        ps := ps }

/-- Runs the action of the edge `st.ps` holds. -/
def runAction (rd : Rodata) (ctx : MsgCtx) (buf : BlockBuf) (st : HdrState) :
    Option Errno × HdrState :=
  let ps := st.ps
  -- `v & MAX_BYTES`
  let v := ps.v % 2 ^ 15
  match ps.kind with
  | some .indexed => (none, runIndexed rd ctx st)
  | some .idxName => (none, runIndexed rd ctx st)
  | some .litName =>
    (none, { st with ps := { ps with addToDt := decide (ps.flags &&& fAddDt ≠ 0), cid := none } })
  | some .keyLen =>
    (none, { st with ps := { ps with
      key := ⟨UInt16.ofNat (ps.i + 1), UInt16.ofNat v, ps.src, decide (ps.flags &&& fHuff ≠ 0)⟩
      skip := v
      isKey := true
      s := if v = 0 then sValLen else ps.s } })
  | some .valLen =>
    let val : HttpMatch :=
      ⟨UInt16.ofNat (ps.i + 1), UInt16.ofNat v, ps.src, decide (ps.flags &&& fHuff ≠ 0)⟩
    -- the result of the insertion is not looked at
    let table :=
      if ps.addToDt then (addDynamicTableEntry rd ctx buf st.table ps.key val).2 else st.table
    let pres := match ps.cid with
      | some cid => st.pres.set cid val
      | none => st.pres
    (none, ⟨table, pres, { ps with cid := none, skip := v, isKey := false }⟩)
  | some .tableSize =>
    let table := st.table.setMaxSize ps.v
    (none, { st with table := (tryEvictDynamicTableEntries ctx.conn 0 table.info.count table).2 })
  | some .err => (some .EBADMSG, st)
  | some .intStart => (none, st)
  | some .intCont => (none, st)
  | some .capture => (none, st)
  | none => (none, st)

/-- Passes over the byte `c` of a string, which a name takes along the trie. -/
def skipByte (rd : Rodata) (ps : Http2ParseState) (c : UInt8) : Http2ParseState :=
  let (s, a) := rd.next ps.s c.toNat
  let act := rd.action a
  { ps with
    s := if ps.isKey then if ps.skip - 1 = 0 then sValLen else s else ps.s
    cid :=
      if ps.isKey then if act.kind = some .capture then some (act.val % maxMatches) else none
      else ps.cid
    skip := ps.skip - 1 }

/-- The integer being accumulated, with the byte `c` added to it unless it is wider than that. -/
def addInt (ps : Http2ParseState) (c : UInt8) : Nat :=
  if ps.m ≤ 28 then u32 (ps.k + u32 ((c.toNat % 128) <<< ps.m)) else ps.k

/-- Feeds the byte `c` at the offset `st.ps.i` to the header block `st` reads. -/
def parseHdrByte (rd : Rodata) (ctx : MsgCtx) (buf : BlockBuf) (st : HdrState) (c : UInt8) :
    Option Errno × HdrState :=
  let ps := st.ps
  if 0 < ps.skip then (none, { st with ps := skipByte rd ps c })
  else
    let (s, a) := rd.next ps.s c.toNat
    let act := rd.action a
    if act.kind = some .intStart then
      (none, { st with ps := { ps with s := s, k := act.val, m := 0 } })
    else if act.kind = some .intCont then
      -- an integer that is too wide is left short, which makes its field unresolvable
      (none, { st with ps := { ps with
        s := s
        k := addInt ps c
        m := if ps.m ≤ 28 then ps.m + 7 else ps.m } })
    else
      runAction rd ctx buf { st with ps := { ps with
        s := s
        v := if act.flags &&& fCont ≠ 0 then addInt ps c else act.val
        kind := act.kind
        flags := act.flags } }

end Beeper.Http2
