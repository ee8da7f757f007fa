import Beeper.BuilderPaths
import Beeper.Http1Parser

namespace Beeper.Http1

/-- The upper case of an ASCII character. -/
def upperByte (c : UInt8) : UInt8 := if 0x61 ≤ c ∧ c ≤ 0x7a then c - 0x20 else c

theorem lowerByte_toNat (c : UInt8) : (lowerByte c).toNat =
    if 0x41 ≤ c.toNat ∧ c.toNat ≤ 0x5a then c.toNat + 0x20 else c.toNat := by
  have hc := c.toNat_lt
  unfold lowerByte
  simp only [UInt8.le_iff_toNat_le]
  split
  next h =>
    have h' : 0x41 ≤ c.toNat ∧ c.toNat ≤ 0x5a := h
    rw [if_pos h', UInt8.toNat_add]
    exact Nat.mod_eq_of_lt (by simp; omega)
  next h =>
    have h' : ¬(0x41 ≤ c.toNat ∧ c.toNat ≤ 0x5a) := h
    rw [if_neg h']

theorem upperByte_toNat (c : UInt8) : (upperByte c).toNat =
    if 0x61 ≤ c.toNat ∧ c.toNat ≤ 0x7a then c.toNat - 0x20 else c.toNat := by
  have hc := c.toNat_lt
  unfold upperByte
  simp only [UInt8.le_iff_toNat_le]
  split
  next h =>
    have h' : 0x61 ≤ c.toNat ∧ c.toNat ≤ 0x7a := h
    have hle : (0x20 : UInt8) ≤ c := UInt8.le_iff_toNat_le.mpr (by simp; omega)
    rw [if_pos h', UInt8.toNat_sub_of_le _ _ hle]
    rfl
  next h =>
    have h' : ¬(0x61 ≤ c.toNat ∧ c.toNat ≤ 0x7a) := h
    rw [if_neg h']

theorem lowerByte_eq_iff {b c : UInt8} : lowerByte b = c ↔
    (0x41 ≤ b.toNat ∧ b.toNat ≤ 0x5a ∧ c.toNat = b.toNat + 0x20) ∨
      ¬(0x41 ≤ b.toNat ∧ b.toNat ≤ 0x5a) ∧ c.toNat = b.toNat := by
  rw [← UInt8.toNat_inj, lowerByte_toNat]
  split <;> omega

theorem upperByte_eq_iff {b c : UInt8} : upperByte b = c ↔
    (0x61 ≤ b.toNat ∧ b.toNat ≤ 0x7a ∧ c.toNat = b.toNat - 0x20) ∨
      ¬(0x61 ≤ b.toNat ∧ b.toNat ≤ 0x7a) ∧ c.toNat = b.toNat := by
  rw [← UInt8.toNat_inj, upperByte_toNat]
  split <;> omega

theorem ofNat_toNat_of_lt {i : Nat} (h : i < 256) : (UInt8.ofNat i).toNat = i := by
  rw [UInt8.toNat_ofNat']
  exact Nat.mod_eq_of_lt h

/-- The inputs the edges of a lower case letter are pushed for. -/
theorem lower_cases {c : UInt8} (hc : lowerByte c = c) (i : Nat) :
    (i = c.toNat ∨ otherCase c.toNat = some i) ↔ i < 256 ∧ lowerByte (UInt8.ofNat i) = c := by
  have hlt : c.toNat < 256 := c.toNat_lt
  rw [lowerByte_eq_iff] at hc
  rw [otherCase_iff, lowerByte_eq_iff]
  by_cases hi : i < 256
  · rw [ofNat_toNat_of_lt hi]
    omega
  · omega

/-- Those of an upper case letter. -/
theorem upper_cases {c : UInt8} (hc : upperByte c = c) (i : Nat) :
    (i = c.toNat ∨ otherCase c.toNat = some i) ↔ i < 256 ∧ upperByte (UInt8.ofNat i) = c := by
  have hlt : c.toNat < 256 := c.toNat_lt
  rw [upperByte_eq_iff] at hc
  rw [otherCase_iff, upperByte_eq_iff]
  by_cases hi : i < 256
  · rw [ofNat_toNat_of_lt hi]
    omega
  · omega

def tabInput : Nat := 0x09
def lfInput : Nat := 0x0a
def crInput : Nat := 0x0d
def spaceInput : Nat := 0x20
def colonInput : Nat := 0x3a

/-- The longest method, whose state all of them end in. -/
def options : Bytes := ascii "OPTIONS"

/-- A method and the space behind it. -/
def afterMethod : Bytes := ascii "OPTIONS "

/-- What a status line starts with. -/
def statusStart : Bytes := ascii "HTTP/1.1 "

/-- What the states of the DFA stand for. -/
inductive Label
  /-- The text the message starts with. -/
  | start (text : Bytes)
  /-- The target of a request. -/
  | target
  /-- The text behind the target. -/
  | version (text : Bytes)
  | versionCr
  /-- The bytes behind the start of a status line, the last of which repeats. -/
  | code (n : Nat)
  | codeCr
  | any
  | anyCr
  /-- The text a line starts with. -/
  | name (text : Bytes)
  | lfCr
  | stop
  /-- The colon behind a name, and the whitespace that follows it. -/
  | colon (name : Bytes)
  | colonCr (name : Bytes)
  | value (name : Bytes)
  | valueCr (name : Bytes)
deriving DecidableEq

/-- Where the edges lead, whatever patterns they are part of. -/
def Label.goto : Label → Nat → Label
  | .start t, i =>
    if i = anyInput then if t = afterMethod then .target else .code 1
    else if t ++ [upperByte (UInt8.ofNat i)] ∈ methods then .start options
    else .start (t ++ [upperByte (UInt8.ofNat i)])
  | .target, i => if i = anyInput then .target else .version space
  | .version t, i =>
    if i = lfInput then .name []
    else if i = crInput then .versionCr
    else .version (t ++ [upperByte (UInt8.ofNat i)])
  | .versionCr, _ => .name []
  | .code n, i =>
    if i = lfInput then .name []
    else if i = crInput then .codeCr
    else if n = 4 then .code 4
    else .code (n + 1)
  | .codeCr, _ => .name []
  | .any, i => if i = lfInput then .name [] else .anyCr
  | .anyCr, _ => .name []
  | .name t, i =>
    if i = lfInput then .stop
    else if i = crInput then .lfCr
    else if i = tabInput ∨ i = spaceInput then .name t
    else if i = colonInput ∧ t ≠ [] then .colon t
    else .name (t ++ [lowerByte (UInt8.ofNat i)])
  | .lfCr, _ => .stop
  | .stop, _ => .stop
  | .colon n, i =>
    if i = lfInput then .name []
    else if i = crInput then .colonCr n
    else if i = tabInput ∨ i = spaceInput then .colon n
    else .value n
  | .colonCr _, _ => .name []
  | .value n, i => if i = lfInput then .name [] else if i = crInput then .valueCr n else .value n
  | .valueCr _, _ => .name []

/-- The last character of a text, as an input. -/
def lastInput (t : Bytes) : Nat := (t.getLast?.getD 0).toNat

/-- The edge a label is numbered with. -/
def Label.parent : Label → Option (Label × Nat)
  | .start t => if t = [] then none else some (.start t.dropLast, lastInput t)
  | .target => some (.start afterMethod, anyInput)
  | .version t => some (if t = space then .target else .version t.dropLast, lastInput t)
  | .versionCr => some (.version httpVersion, crInput)
  | .code n => some (if n = 1 then .start statusStart else .code (n - 1), anyInput)
  | .codeCr => some (.code 4, crInput)
  | .any => none
  | .anyCr => some (.any, crInput)
  | .name t => some (if t = [] then .any else .name t.dropLast,
      if t = [] then lfInput else lastInput t)
  | .lfCr => some (.name [], crInput)
  | .stop => some (.name [], lfInput)
  | .colon n => some (.name n, colonInput)
  | .colonCr n => some (.colon n, crInput)
  | .value n => some (.colon n, anyInput)
  | .valueCr n => some (.value n, crInput)

/-- The reserved states. -/
def Label.root : Label → Option StateId
  | .start [] => some initState
  | .any => some anyState
  | _ => none

def shape : Shape Label := ⟨Label.goto, Label.parent, Label.root⟩

/-- The edges of a header field. -/
def headerEdge (n : Bytes) : Label → Nat → Prop
  | .any, i => i = lfInput
  | .name t, i => i < 256 ∧ t ++ [lowerByte (UInt8.ofNat i)] <+: n ∨
      t = n ∧ (i = tabInput ∨ i = spaceInput ∨ i = colonInput)
  | .colon m, i => m = n ∧
      (i = tabInput ∨ i = spaceInput ∨ i = anyInput ∨ i = crInput ∨ i = lfInput)
  | .value m, i => m = n ∧ (i = anyInput ∨ i = crInput ∨ i = lfInput)
  | .colonCr m, i => m = n ∧ i = lfInput
  | .valueCr m, i => m = n ∧ i = lfInput
  | _, _ => False

/-- The edges of a request line, whichever part of it is captured. -/
def requestEdge : Label → Nat → Prop
  | .any, i => i = lfInput
  | .start t, i => (i < 256 ∧ ∃ m ∈ methods, t ++ [upperByte (UInt8.ofNat i)] <+: m) ∨
      t = options ∧ i = spaceInput ∨ t = afterMethod ∧ i = anyInput
  | .target, i => i = anyInput ∨ i = spaceInput
  | .version t, i => (i < 256 ∧ t ≠ [] ∧ t ++ [upperByte (UInt8.ofNat i)] <+: httpVersion) ∨
      t = httpVersion ∧ (i = crInput ∨ i = lfInput)
  | .versionCr, i => i = lfInput
  | _, _ => False

/-- The edges of a status line. -/
def statusEdge : Label → Nat → Prop
  | .any, i => i = lfInput
  | .start t, i => (i < 256 ∧ t ++ [upperByte (UInt8.ofNat i)] <+: statusStart) ∨
      t = statusStart ∧ i = anyInput
  | .code n, i => n ∈ [1, 2, 3, 4] ∧ i = anyInput ∨ n = 4 ∧ (i = crInput ∨ i = lfInput)
  | .codeCr, i => i = lfInput
  | _, _ => False

def prefaceEdge : Label → Nat → Prop
  | .start t, i => i < 256 ∧ t ++ [UInt8.ofNat i] <+: http2Preface
  | _, _ => False

/-- The edges of the empty line that ends the header block. -/
def doneEdge : Label → Nat → Prop
  | .any, i => i = crInput ∨ i = lfInput
  | .anyCr, i => i = lfInput
  | .name t, i => t = [] ∧ (i = crInput ∨ i = lfInput)
  | .lfCr, i => i = lfInput
  | _, _ => False

def Item.edge : Item → Label → Nat → Prop
  | .header n => headerEdge n
  | .method => requestEdge
  | .path => requestEdge
  | .status => statusEdge
  | .preface => prefaceEdge

/-- The actions that capture a header field. -/
def headerAct (n : Bytes) (mid : MatchId) : Label → Nat → Action → Prop
  | .name t, i, a => t = n ∧ i = colonInput ∧ a = .startCapture mid
  | .colon m, i, a => m = n ∧ ((i = tabInput ∨ i = spaceInput) ∧ a = .startCapture mid ∨
      i = anyInput ∧ a = .endCapture mid)
  | .value m, i, a => m = n ∧ i = anyInput ∧ a = .endCapture mid
  | _, _, _ => False

def methodAct (mid : MatchId) : Label → Nat → Action → Prop
  | .start t, i, a =>
      i < 256 ∧ t ++ [upperByte (UInt8.ofNat i)] ∈ methods ∧ a = .endCapture mid
  | _, _, _ => False

def pathAct (mid : MatchId) : Label → Nat → Action → Prop
  | .start t, i, a => t = options ∧ i = spaceInput ∧ a = .startCapture mid ∨
      t = afterMethod ∧ i = anyInput ∧ a = .endCapture mid
  | .target, i, a => i = anyInput ∧ a = .endCapture mid
  | _, _, _ => False

def statusAct (mid : MatchId) : Label → Nat → Action → Prop
  | .start t, i, a => i < 256 ∧ t ++ [upperByte (UInt8.ofNat i)] = statusStart ∧ a = .startCapture mid
  | .code n, i, a => n = 2 ∧ i = anyInput ∧ a = .endCapture mid
  | _, _, _ => False

def prefaceAct (mid : MatchId) : Label → Nat → Action → Prop
  | .start t, i, a =>
      i < 256 ∧ t ++ [UInt8.ofNat i] = http2Preface ∧ a = .endCaptureAndDone mid
  | _, _, _ => False

def doneAct : Label → Nat → Action → Prop
  | .name t, i, a => t = [] ∧ i = lfInput ∧ a = .done
  | .lfCr, i, a => i = lfInput ∧ a = .done
  | _, _, _ => False

def Item.act : Item → MatchId → Label → Nat → Action → Prop
  | .header n => headerAct n
  | .method => methodAct
  | .path => pathAct
  | .status => statusAct
  | .preface => prefaceAct

end Beeper.Http1
