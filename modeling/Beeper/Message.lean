import Mathlib.Algebra.Group.Nat.Defs
import Mathlib.Logic.Function.Basic

namespace Beeper

abbrev Bytes := List UInt8

/-- The value a 32 bit unsigned integer keeps of `n`. -/
@[irreducible] def u32 (n : Nat) : Nat := n % 2 ^ 32

/-- The difference of two such values, which wraps around where it is negative. -/
def u32Sub (a b : Nat) : Nat := if b ≤ a then a - b else a + 2 ^ 32 - b

theorem u32Sub_of_le {a b : Nat} (h : b ≤ a) : u32Sub a b = a - b := if_pos h

theorem u32_eq (n : Nat) : u32 n = n % 2 ^ 32 := by unfold u32; rfl

theorem u32_lt (n : Nat) : u32 n < 2 ^ 32 := by
  rw [u32_eq]
  exact Nat.mod_lt _ (by decide)

theorem u32_of_lt {n : Nat} (h : n < 2 ^ 32) : u32 n = n := by
  rw [u32_eq]
  exact Nat.mod_eq_of_lt h

/-- The number of bytes a parser walks at most. -/
def maxBytes : Nat := 0x7FFF

/-- The number of matches any parser can get. -/
abbrev maxMatches : Nat := 32

theorem maxMatches_ne_zero : maxMatches ≠ 0 := by decide

instance : @NeZero Nat Zero.ofOfNat0 maxMatches := ⟨maxMatches_ne_zero⟩

/-- The errors the parser programs return, as negative values. -/
inductive Errno
  | ENOENT
  | E2BIG
  | EAGAIN
  | EFAULT
  | EINVAL
  | ENOSPC
  | EPROTO
  | EBADMSG
deriving DecidableEq, Repr

structure Ip4Addr where
  ip4 : Nat
  port : Nat
deriving DecidableEq, Repr

structure Ip4Conn where
  localAddr : Ip4Addr
  remoteAddr : Ip4Addr
deriving DecidableEq, Repr

/-- The `len` bytes of `data` from the offset `off` on. -/
def slice (data : Bytes) (off len : Nat) : Bytes := (data.drop off).take len

theorem slice_length {data : Bytes} {off len : Nat} (h : off + len ≤ data.length) :
    (slice data off len).length = len := by
  simp only [slice, List.length_take, List.length_drop]
  omega

/-- A message at the `sk_msg` hook. Its first `linear` bytes lie between `data` and `data_end`,
and `pullable` says whether the kernel manages to pull in more of it. -/
structure SkMsg where
  bytes : Bytes
  linear : Nat
  conn : Ip4Conn
  pullable : Bool
  linear_le : linear ≤ bytes.length

/-- An sk_buff, with the same fields. -/
structure SkBuff where
  bytes : Bytes
  linear : Nat
  conn : Ip4Conn
  pullable : Bool
  linear_le : linear ≤ bytes.length

def SkMsg.data (msg : SkMsg) : Bytes := msg.bytes.take msg.linear

def SkBuff.data (skb : SkBuff) : Bytes := skb.bytes.take skb.linear

/-- `bpf_msg_pull_data(msg, 0, stop, 0)`, which sets `data` and `data_end` to the start and the
end of the range. -/
def SkMsg.pullData (msg : SkMsg) (stop : Nat) : Option SkMsg :=
  if h : msg.pullable ∧ 0 < stop ∧ stop ≤ msg.bytes.length then
    some { msg with linear := stop, linear_le := h.2.2 }
  else none

/-- `bpf_skb_pull_data(skb, len)`, which makes at least `len` bytes linear. -/
def SkBuff.pullData (skb : SkBuff) (len : Nat) : Option SkBuff :=
  if h : skb.pullable ∧ len ≤ skb.bytes.length then
    some { skb with linear := max skb.linear len, linear_le := Nat.max_le.mpr ⟨skb.linear_le, h.2⟩ }
  else none

/-- Where the bytes of a captured header field are. -/
inductive HttpMatchSource
  | msg
  | table
  | buf
deriving DecidableEq, Repr

/-- A single captured header field. -/
structure HttpMatch where
  idx : UInt16
  len : UInt16
  source : HttpMatchSource
  huff : Bool
deriving DecidableEq, Repr

/-- What `{ 0 }` initialises a match to. -/
def HttpMatch.zero : HttpMatch := ⟨0, 0, .msg, false⟩

/-- The result of parsing a single message, one match for every match id. -/
structure HttpParseRes where
  ms : Fin maxMatches → HttpMatch

def HttpParseRes.zero : HttpParseRes := ⟨fun _ => .zero⟩

/-- `pres->ms[mid & MAX_MATCH_MASK]`. -/
def HttpParseRes.get (pres : HttpParseRes) (mid : Nat) : HttpMatch :=
  pres.ms (Fin.ofNat maxMatches mid)

def HttpParseRes.set (pres : HttpParseRes) (mid : Nat) (m : HttpMatch) : HttpParseRes :=
  ⟨Function.update pres.ms (Fin.ofNat maxMatches mid) m⟩

abbrev StateId := Nat

abbrev MatchId := Nat

/-- A single edge of the DFA a parser walks, in the read-only data of its program. -/
structure Trans where
  state : StateId
  action : Nat
deriving DecidableEq

/-- The bytes of a text. -/
def ascii (s : String) : Bytes := s.toList.map fun c => UInt8.ofNat c.toNat

end Beeper
