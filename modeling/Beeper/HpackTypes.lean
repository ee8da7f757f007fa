import Beeper.BoundedMap
import Beeper.Message

namespace Beeper.Http2

/-- The number of bytes of a name or a value that are kept in a table entry. -/
def headerFieldMaxlen : Nat := 128

/-- The number of entries of the HPACK static table. -/
def staticTableSize : Nat := 61

/-- The index the first entry of a dynamic table is stored under. -/
def dynamicTableBase : Nat := 62

/-- A field of the static or the dynamic table, the way it appeared on the wire. -/
structure Http2HdrField where
  key : Bytes
  val : Bytes
  keyHuff : Bool
  valHuff : Bool
  key_le : key.length ≤ headerFieldMaxlen
  val_le : val.length ≤ headerFieldMaxlen
deriving DecidableEq

structure DynamicTableKey where
  conn : Ip4Conn
  idx : Nat
deriving DecidableEq

/-- An entry of the dynamic table, along with the size it accounts for in the table. -/
structure DynamicTableEntry where
  field : Http2HdrField
  size : Nat
deriving DecidableEq

/-- The state of the dynamic table of a connection. -/
structure DynamicTableInfo where
  count : Nat
  size : Nat
  maxSize : Nat
  deleted : Nat
  dirty : Nat
deriving DecidableEq

/-- The state an empty table starts with. -/
def DynamicTableInfo.new : DynamicTableInfo := ⟨0, 0, 4096, 0, 0⟩

/-- The number of keys `dynamic_table` and `dynamic_table_info` hold at most. -/
def mapMaxEntries : Nat := 16384

abbrev DynamicTableMap := BoundedMap DynamicTableKey DynamicTableEntry mapMaxEntries

abbrev DynamicTableInfoMap := BoundedMap Ip4Conn DynamicTableInfo mapMaxEntries

/-- The number of bytes of `block_buf` a header block can be put together in. -/
def blockBufSize : Nat := 32768 - 4

def blockMaxlen : Nat := blockBufSize / 2

/-- The header block that was put together last out of more than one frame. -/
structure BlockBuf where
  len : Nat
  data : Nat → UInt8

def BlockBuf.zero : BlockBuf := ⟨0, fun _ => 0⟩

/-- The `len` bytes of the buffer from the offset `off` on. -/
def BlockBuf.slice (buf : BlockBuf) (off len : Nat) : Bytes :=
  (List.range len).map fun i => buf.data (off + i)

/-- Copies `bytes` to the offset `pos`. -/
def BlockBuf.copy (buf : BlockBuf) (pos : Nat) (bytes : Bytes) : BlockBuf :=
  { buf with data := fun i => if pos ≤ i then bytes[i - pos]?.getD (buf.data i) else buf.data i }

/-- The kinds of actions. `HTTP2A_NONE` is the absence of one. -/
inductive Kind
  | indexed
  | idxName
  | litName
  | keyLen
  | valLen
  | tableSize
  | intStart
  | intCont
  | capture
  | err
deriving DecidableEq, Repr

def fHuff : Nat := 1 <<< 0
def fAddDt : Nat := 1 <<< 1
def fCont : Nat := 1 <<< 2

/-- An action as the parser program reads it. -/
structure Http2Action where
  val : Nat
  kind : Option Kind
  flags : Nat
deriving DecidableEq

def sDead : StateId := 2
def sField : StateId := 3
def sKeyLen : StateId := 4
def sValLen : StateId := 5
def sName : StateId := 6
def sIdx7Cont : StateId := 7
def sIdx6Cont : StateId := 8
def sIdx4Cont : StateId := 9
def sStgCont : StateId := 10
def sKeyLenCont : StateId := 11
def sKeyLenContHuff : StateId := 12
def sValLenCont : StateId := 13
def sValLenContHuff : StateId := 14
def sNamePlain : StateId := 15
def sReserved : Nat := 16

def maxStates : Nat := 1024
def maxEdges : Nat := 256
def maxActions : Nat := 1024

/-- What user space loads before the parser program runs: the edges of the DFA, their actions
and the HPACK static table. -/
structure Rodata where
  states : Nat → Nat → Trans
  actions : Nat → Http2Action
  staticTable : Fin (staticTableSize + 1) → Http2HdrField

/-- The read-only data of a program nothing was loaded into. -/
def Rodata.zero : Rodata where
  states _ _ := ⟨0, 0⟩
  actions _ := ⟨0, none, 0⟩
  staticTable _ := ⟨[], [], false, false, Nat.zero_le _, Nat.zero_le _⟩

/-- Reads the action an edge carries. -/
def Rodata.action (rd : Rodata) (id : Nat) : Http2Action := rd.actions (id % maxActions)

/-- Follows the edge `input` takes out of `state`, to the next state and its action. -/
def Rodata.next (rd : Rodata) (state input : Nat) : StateId × Nat :=
  let t := rd.states (state % maxStates) (input % maxEdges)
  if t.state = 0 ∧ t.action = 0 then (sDead, 0) else (t.state, t.action)

/-- Looks a static index up in the array map, which answers for all of its indices. -/
def Rodata.lookupStatic (rd : Rodata) (idx : Nat) : Option Http2HdrField :=
  if h : idx < staticTableSize + 1 then some (rd.staticTable ⟨idx, h⟩) else none

end Beeper.Http2
