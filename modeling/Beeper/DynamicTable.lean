import Beeper.HuffmanLength

namespace Beeper.Http2

/-- A hook-agnostic context: the bytes between `data` and `data_end`, and the connection. -/
structure MsgCtx where
  data : Bytes
  conn : Ip4Conn

/-- What the header block of one connection reads and changes: the state of its dynamic table,
the entries of all of them, and the indices `bpf_error` reports no entry at. -/
structure DynamicTable where
  info : DynamicTableInfo
  entries : DynamicTableMap
  errors : List Nat

def DynamicTable.setMaxSize (t : DynamicTable) (v : Nat) : DynamicTable :=
  { t with info := { t.info with maxSize := v } }

def DynamicTable.setDirty (t : DynamicTable) : DynamicTable :=
  { t with info := { t.info with dirty := 1 } }

/-- The index the HPACK index `idx`, which counts backwards from the entry that was added last,
is stored under. -/
def getDynamicTableIndex (info : DynamicTableInfo) (idx : Nat) : Nat :=
  u32 (u32Sub (u32 (staticTableSize + info.count + info.deleted)) idx + dynamicTableBase)

/-- Whether `idx` names an entry either table holds. -/
def isValidHpackIndex (info : DynamicTableInfo) (idx : Nat) : Bool :=
  decide (0 < idx ∧ idx ≤ u32 (staticTableSize + info.count))

/-- Resolves the match `m` into the bytes it refers to and whether they are Huffman coded. -/
def getMatch (rd : Rodata) (ctx : MsgCtx) (buf : BlockBuf) (entries : DynamicTableMap)
    (m : HttpMatch) (isKey : Bool) : Option (Bytes × Bool) :=
  let read (hf : Http2HdrField) := if isKey then (hf.key, hf.keyHuff) else (hf.val, hf.valHuff)
  match m.source with
  | .msg =>
    if ctx.data.length < m.idx.toNat + m.len.toNat then none
    else some (slice ctx.data m.idx.toNat m.len.toNat, m.huff)
  | .buf =>
    if buf.len < m.idx.toNat + m.len.toNat then none
    else some (buf.slice (min m.idx.toNat blockMaxlen) m.len.toNat, m.huff)
  | .table =>
    if dynamicTableBase ≤ m.idx.toNat then
      (entries.lookup ⟨ctx.conn, m.idx.toNat⟩).map fun entry => read entry.field
    else if m.idx.toNat = 0 then none
    else (rd.lookupStatic m.idx.toNat).map read

/-- Looks up the field the HPACK index `idx` refers to. -/
def getTableEntry (rd : Rodata) (conn : Ip4Conn) (t : DynamicTable) (idx : Nat) :
    Option Http2HdrField :=
  if !isValidHpackIndex t.info idx then none
  else if staticTableSize < idx then
    if t.info.dirty ≠ 0 then none
    else (t.entries.lookup ⟨conn, getDynamicTableIndex t.info idx⟩).map DynamicTableEntry.field
  else rd.lookupStatic idx

/-- Walks the name trie over the name of a field the peer only referenced by index, to the
match id of the capture its last edge carries. -/
def matchHeaderKey (rd : Rodata) (key : Bytes) (huff : Bool) : Option Nat :=
  (key.foldl (fun (st : StateId × Option Nat) c =>
    let (s, a) := rd.next st.1 c.toNat
    let act := rd.action a
    (s, if act.kind = some .capture then some (act.val % maxMatches) else none))
    (if huff then sName else sNamePlain, none)).2

/-- Takes the oldest entry, which is stored under `idx`, out of the table. -/
def evictEntry (conn : Ip4Conn) (idx : Nat) (entry : DynamicTableEntry) (t : DynamicTable) :
    DynamicTable :=
  { t with
    info := { t.info with
      size := u32Sub t.info.size entry.size
      count := u32Sub t.info.count 1
      deleted := u32 (t.info.deleted + 1) }
    entries := t.entries.erase ⟨conn, idx⟩ }

@[simp] theorem evictEntry_errors (conn : Ip4Conn) (idx : Nat) (e : DynamicTableEntry)
    (t : DynamicTable) : (evictEntry conn idx e t).errors = t.errors := by
  simp only [evictEntry]

@[simp] theorem evictEntry_maxSize (conn : Ip4Conn) (idx : Nat) (e : DynamicTableEntry)
    (t : DynamicTable) : (evictEntry conn idx e t).info.maxSize = t.info.maxSize := by
  simp only [evictEntry]

@[simp] theorem evictEntry_dirty (conn : Ip4Conn) (idx : Nat) (e : DynamicTableEntry)
    (t : DynamicTable) : (evictEntry conn idx e t).info.dirty = t.info.dirty := by
  simp only [evictEntry]

/-- Evicts the oldest entries, in at most `rounds` rounds, until an entry of `newEntrySize` fits
into the table. Returns the size that was freed along with the table. -/
def tryEvictDynamicTableEntries (conn : Ip4Conn) (newEntrySize : Nat) :
    Nat → DynamicTable → Nat × DynamicTable
  | 0, t => (0, t)
  | rounds + 1, t =>
    if u32 (t.info.size + newEntrySize) ≤ t.info.maxSize then (0, t)
    else
      let idx := u32 (dynamicTableBase + t.info.deleted)
      match t.entries.lookup ⟨conn, idx⟩ with
      | none => (0, { t with errors := t.errors ++ [idx] })
      | some entry =>
        let (freed, t) :=
          tryEvictDynamicTableEntries conn newEntrySize rounds (evictEntry conn idx entry t)
        (u32 (entry.size + freed), t)

/-- What an entry keeps of a name and a value. -/
def keptField (key val : Bytes × Bool) : Http2HdrField where
  key := key.1.take headerFieldMaxlen
  val := val.1.take headerFieldMaxlen
  keyHuff := key.2
  valHuff := val.2
  key_le := List.length_take_le _ _
  val_le := List.length_take_le _ _

/-- The entry made up of a name and a value, sized by everything the peer sent. The decoded
length of a Huffman coded field can only be counted off the bytes the entry keeps, so there is
none for a coded field that was truncated. -/
def sizedEntry (key val : Bytes × Bool) : Option DynamicTableEntry :=
  let keyCut := decide (headerFieldMaxlen < key.1.length)
  let valCut := decide (headerFieldMaxlen < val.1.length)
  if (keyCut && key.2) || (valCut && val.2) then none
  else
    let field := keptField key val
    let keyLenDecoded :=
      if key.2 then hpackHuffmanDecodedLen field false (min key.1.length headerFieldMaxlen)
      else key.1.length
    let valLenDecoded :=
      if val.2 then hpackHuffmanDecodedLen field true (min val.1.length headerFieldMaxlen)
      else val.1.length
    some ⟨field, u32 (keyLenDecoded + valLenDecoded + 32)⟩

/-- The table once `entry` is among `entries`. -/
def storedEntry (t : DynamicTable) (entry : DynamicTableEntry) (entries : DynamicTableMap) :
    DynamicTable :=
  { t with
    info := { t.info with
      size := u32 (t.info.size + entry.size)
      count := u32 (t.info.count + 1) }
    entries := entries }

/-- Makes room for `entry` and stores it under the running count of the entries added so far. -/
def insertEntry (conn : Ip4Conn) (t : DynamicTable) (entry : DynamicTableEntry) :
    Option Errno × DynamicTable :=
  let idx := u32 (dynamicTableBase + t.info.count + t.info.deleted)
  let t := (tryEvictDynamicTableEntries conn entry.size t.info.count t).2
  -- HPACK does not insert entries larger than the table
  if t.info.maxSize < u32 (t.info.size + entry.size) then (none, t)
  else match t.entries.update ⟨conn, idx⟩ entry with
  | none => (some .ENOSPC, t)
  | some entries => (none, storedEntry t entry entries)

/-- Adds the field made up of `key` and `val` to the dynamic table, evicting as many of the
oldest entries as it takes to make room for it. -/
def addDynamicTableEntry (rd : Rodata) (ctx : MsgCtx) (buf : BlockBuf) (t : DynamicTable)
    (key val : HttpMatch) : Option Errno × DynamicTable :=
  if t.info.dirty ≠ 0 then (some .EBADMSG, t)
  else match getMatch rd ctx buf t.entries key true with
  | none => (some (if key.source = .table then .ENOENT else .EBADMSG), t)
  | some k => match getMatch rd ctx buf t.entries val false with
  | none => (some (if val.source = .table then .ENOENT else .EBADMSG), t)
  | some v => match sizedEntry k v with
  | none => (some .E2BIG, t.setDirty)
  | some entry => insertEntry ctx.conn t entry

end Beeper.Http2
