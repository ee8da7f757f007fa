import Beeper.HeaderByte

namespace Beeper.Http2

/-- The maps the parser program keeps between two calls, and what `bpf_error` reported. -/
structure Maps where
  dynamicTable : DynamicTableMap
  dynamicTableInfo : DynamicTableInfoMap
  blockBuf : BlockBuf
  errors : List Nat

/-- The maps the program is loaded with. -/
def Maps.init : Maps := ⟨.empty, .empty, .zero, []⟩

/-- Returns the state of the dynamic table of `conn`, creating an empty table if this is the
first header block seen on the connection, unless there is no room for it. -/
def getDynamicTable (maps : Maps) (conn : Ip4Conn) : Option DynamicTableInfo × Maps :=
  match maps.dynamicTableInfo.lookup conn with
  | some info => (some info, maps)
  | none =>
    let infos := (maps.dynamicTableInfo.update conn .new).getD maps.dynamicTableInfo
    (infos.lookup conn, { maps with dynamicTableInfo := infos })

/-- The dynamic table behind the pointer `_get_dynamic_table` returns. -/
def Maps.table (maps : Maps) (info : DynamicTableInfo) : DynamicTable :=
  ⟨info, maps.dynamicTable, maps.errors⟩

/-- What was written through that pointer. -/
def Maps.setTable (maps : Maps) (conn : Ip4Conn) (t : DynamicTable) : Maps :=
  { maps with
    dynamicTable := t.entries
    dynamicTableInfo := maps.dynamicTableInfo.write conn t.info
    errors := t.errors }

/-- The loop of `_parse_hdr_from` with `rounds` rounds to go, the byte at `i` next and the loop
variable left at `last`. `nullPrefix` is the length of the prefix, where there may be one. -/
def parseHdrLoop (rd : Rodata) (ctx : MsgCtx) (buf : BlockBuf) :
    Nat → Nat → Nat → HdrState → Option Nat → Except Errno Nat × HdrState × Option Nat
  | 0, _, last, st, nullPrefix => (.ok last, st, nullPrefix)
  | rounds + 1, i, _, st, nullPrefix =>
    match ctx.data[i]? with
    | none => (.error .EFAULT, st, nullPrefix)
    | some c =>
      -- skb clears the TLS header, but does not remove it
      if c = 0 ∧ nullPrefix = some i then
        parseHdrLoop rd ctx buf rounds (i + 1) i st (some (i + 1))
      else
        match parseHdrByte rd ctx buf { st with ps := { st.ps with i := i } } c with
        | (some e, st) => (.error e, st, nullPrefix)
        | (none, st) => parseHdrLoop rd ctx buf rounds (i + 1) i st nullPrefix

/-- Decodes the header block between the offsets `start` and `stop`, to the offset of its last
byte. -/
def parseHdrFrom (rd : Rodata) (ctx : MsgCtx) (buf : BlockBuf) (start stop : Nat) (st : HdrState)
    (nullPrefix : Option Nat) : Except Errno Nat × HdrState × Option Nat :=
  let len := min (min ctx.data.length maxBytes) stop
  parseHdrLoop rd ctx buf (len - start) start start st nullPrefix

/-- The loop of `_parse_hdr_buf` with `rounds` rounds to go and the byte at `i` next. -/
def parseHdrBufLoop (rd : Rodata) (ctx : MsgCtx) (buf : BlockBuf) (len : Nat) :
    Nat → Nat → HdrState → Except Errno Nat × HdrState
  | 0, i, st => (.ok i, st)
  | rounds + 1, i, st =>
    if len ≤ i then (.ok i, st)
    else
      match parseHdrByte rd ctx buf { st with ps := { st.ps with i := i } }
        (buf.data (min i (blockMaxlen - 1))) with
      | (some e, st) => (.error e, st)
      | (none, st) => parseHdrBufLoop rd ctx buf len rounds (i + 1) st

/-- Decodes the header block `_collect_block` put together, to the number of bytes consumed. -/
def parseHdrBuf (rd : Rodata) (ctx : MsgCtx) (buf : BlockBuf) (len : Nat) (st : HdrState) :
    Except Errno Nat × HdrState :=
  let len := min len blockMaxlen
  parseHdrBufLoop rd ctx buf len (len + 1) 0 st

/-- The local variables `_parse_stg_from` puts a SETTINGS parameter together in, and the maximum
size the table is left with. -/
structure StgState where
  j : Nat
  id : Nat
  val : Nat
  maxSize : Nat
deriving DecidableEq

/-- The identifier of the SETTINGS parameter announcing the size of the dynamic table. -/
def settingsHeaderTableSize : Nat := 0x1

def stgByte (st : StgState) (c : UInt8) : StgState :=
  let id := if st.j < 2 then (st.id * 256 + c.toNat) % 2 ^ 16 else st.id
  let val := if st.j < 2 then st.val else u32 (st.val * 256 + c.toNat)
  let j := st.j + 1
  if j = 6 then
    ⟨0, 0, 0, if id = settingsHeaderTableSize then val else st.maxSize⟩
  else ⟨j, id, val, st.maxSize⟩

/-- The loop of `_parse_stg_from`, see `parseHdrLoop`. -/
def parseStgLoop (data : Bytes) :
    Nat → Nat → Nat → StgState → Option Nat → Except Errno Nat × StgState × Option Nat
  | 0, _, last, st, nullPrefix => (.ok last, st, nullPrefix)
  | rounds + 1, i, _, st, nullPrefix =>
    match data[i]? with
    | none => (.error .EFAULT, st, nullPrefix)
    | some c =>
      if c = 0 ∧ nullPrefix = some i then parseStgLoop data rounds (i + 1) i st (some (i + 1))
      else parseStgLoop data rounds (i + 1) i (stgByte st c) nullPrefix

end Beeper.Http2
