import Beeper.Message
import Mathlib.Data.List.Basic

namespace Beeper.Http2

/-- The bytes an integer goes on in, the least significant ones first, see section 5.1 of
RFC 7541. Nothing keeps a peer from sending more of them than it takes. -/
inductive ContWire : Bytes → Nat → Prop
  | last (c : UInt8) (hc : c.toNat < 0x80) : ContWire [c] c.toNat
  | more (c : UInt8) (hc : 0x80 ≤ c.toNat) {bs : Bytes} {n : Nat} (h : ContWire bs n) :
      ContWire (c :: bs) (c.toNat - 0x80 + 0x80 * n)

/-- An integer with the prefix maximum `max`, in a byte whose other bits are `bits`. -/
inductive IntWire (bits max : Nat) : Bytes → Nat → Prop
  | short (c : UInt8) {v : Nat} (hv : v < max) (hc : c.toNat = bits + v) : IntWire bits max [c] v
  | long (c : UInt8) (hc : c.toNat = bits + max) {bs : Bytes} {n : Nat} (h : ContWire bs n) :
      IntWire bits max (c :: bs) (max + n)

/-- A string literal, as it is sent: Huffman coded or not, and its bytes. -/
structure Str where
  huff : Bool
  raw : Bytes
deriving DecidableEq

def huffBit (huff : Bool) : Nat := if huff then 0x80 else 0

/-- The bytes of a string literal. `len` is the length that the integer in front of it stands
for. -/
inductive StrWire (len : Nat → Nat) : Str → Bytes → Prop
  | mk {s : Str} {bs : Bytes} {n : Nat} (h : IntWire (huffBit s.huff) 0x7F bs n)
      (hlen : len n = s.raw.length) : StrWire len s (bs ++ s.raw)

/-- A single letter, as it is. -/
theorem letter_wire {len : Nat → Nat} (c : UInt8) (h : len 1 = 1) :
    StrWire len ⟨false, [c]⟩ ([0x01] ++ [c]) := by
  have hlen : IntWire (huffBit false) 0x7F [0x01] 1 := .short 0x01 (by decide) (by decide)
  exact .mk hlen h

/-- Whether a literal field is added to the dynamic table, see section 6.2. -/
inductive Indexing
  | incremental
  | without
  | never
deriving DecidableEq

def Indexing.bits : Indexing → Nat
  | incremental => 0x40
  | without => 0x00
  | never => 0x10

def Indexing.max : Indexing → Nat
  | incremental => 0x3F
  | without => 0x0F
  | never => 0x0F

/-- The name of a literal field. -/
inductive Name
  | idx (i : Nat)
  | lit (s : Str)
deriving DecidableEq

/-- A representation, see section 6 of RFC 7541. -/
inductive Rep
  | indexed (i : Nat)
  | literal (mode : Indexing) (name : Name) (value : Str)
  | tableSize (n : Nat)
deriving DecidableEq

/-- The bytes of a representation. The index 0 is not used. -/
inductive RepWire (len : Nat → Nat) : Rep → Bytes → Prop
  | indexed {i : Nat} {bs : Bytes} (hi : 0 < i) (h : IntWire 0x80 0x7F bs i) :
      RepWire len (.indexed i) bs
  | named {mode : Indexing} {i : Nat} {value : Str} {bs vs : Bytes} (hi : 0 < i)
      (h : IntWire mode.bits mode.max bs i) (hv : StrWire len value vs) :
      RepWire len (.literal mode (.idx i) value) (bs ++ vs)
  | new {mode : Indexing} {name value : Str} {ns vs : Bytes} (c : UInt8)
      (hc : c.toNat = mode.bits) (hn : StrWire len name ns) (hv : StrWire len value vs) :
      RepWire len (.literal mode (.lit name) value) (c :: (ns ++ vs))
  | tableSize {n : Nat} {bs : Bytes} (h : IntWire 0x20 0x1F bs n) : RepWire len (.tableSize n) bs

/-- The bytes of a header block. -/
inductive BlockWire (len : Nat → Nat) : List Rep → Bytes → Prop
  | nil : BlockWire len [] []
  | cons {rep : Rep} {reps : List Rep} {bs rest : Bytes} (h : RepWire len rep bs)
      (hr : BlockWire len reps rest) : BlockWire len (rep :: reps) (bs ++ rest)

/-- A concatenation of complete representations. -/
def Complete (len : Nat → Nat) (block : Bytes) : Prop := ∃ reps, BlockWire len reps block

/-- A block that uses the index 0 for an indexed field. -/
def ZeroIndex (len : Nat → Nat) (block : Bytes) : Prop :=
  ∃ front back, Complete len front ∧ block = front ++ 0x80 :: back

/-- A block that goes on to be complete. -/
def Extends (len : Nat → Nat) (block : Bytes) : Prop :=
  ∃ more, more ≠ [] ∧ Complete len (block ++ more)

variable {len : Nat → Nat}

theorem IntWire.ne_nil {bits max n : Nat} {bs : Bytes} (h : IntWire bits max bs n) : bs ≠ [] := by
  cases h <;> simp

theorem RepWire.ne_nil {rep : Rep} {bs : Bytes} (h : RepWire len rep bs) : bs ≠ [] := by
  cases h with
  | indexed _ h => exact h.ne_nil
  | named _ h _ => simp [h.ne_nil]
  | new c _ _ _ => simp
  | tableSize h => exact h.ne_nil

theorem BlockWire.append {reps reps' : List Rep} {block block' : Bytes}
    (h : BlockWire len reps block) (h' : BlockWire len reps' block') :
    BlockWire len (reps ++ reps') (block ++ block') := by
  induction h with
  | nil => exact h'
  | cons hr _ ih =>
    rw [List.cons_append, List.append_assoc]
    exact .cons hr ih

theorem Complete.append {block block' : Bytes} (h : Complete len block)
    (h' : Complete len block') : Complete len (block ++ block') := by
  obtain ⟨reps, h⟩ := h
  obtain ⟨reps', h'⟩ := h'
  exact ⟨_, h.append h'⟩

theorem RepWire.complete {rep : Rep} {bs : Bytes} (h : RepWire len rep bs) : Complete len bs :=
  ⟨[rep], by simpa using BlockWire.cons h .nil⟩

/-- An integer that started either ends or goes on to. -/
theorem contWire_cases (bs : Bytes) :
    (∃ int back n, bs = int ++ back ∧ ContWire int n) ∨ ∃ n, ContWire (bs ++ [0]) n := by
  induction bs with
  | nil => exact .inr ⟨0, .last 0 (by decide)⟩
  | cons c bs ih =>
    by_cases hc : c.toNat < 0x80
    · exact .inl ⟨[c], bs, _, rfl, .last c hc⟩
    · rcases ih with ⟨int, back, n, rfl, h⟩ | ⟨n, h⟩
      · exact .inl ⟨c :: int, back, _, rfl, .more c (Nat.not_lt.mp hc) h⟩
      · exact .inr ⟨_, .more c (Nat.not_lt.mp hc) h⟩

theorem intWire_cases (bits : Nat) {max : Nat} (hmax : 0 < max) (c : UInt8) (bs : Bytes)
    (h : bits ≤ c.toNat) (h' : c.toNat ≤ bits + max) :
    (∃ int back n, c :: bs = int ++ back ∧ IntWire bits max int n ∧ (c.toNat ≠ bits → 0 < n)) ∨
      ∃ n, IntWire bits max (c :: bs ++ [0]) n ∧ 0 < n := by
  by_cases hc : c.toNat = bits + max
  · rcases contWire_cases bs with ⟨int, back, n, rfl, hn⟩ | ⟨n, hn⟩
    · exact .inl ⟨c :: int, back, _, rfl, .long c hc hn, fun _ => by omega⟩
    · exact .inr ⟨_, .long c hc hn, by omega⟩
  · exact .inl ⟨[c], bs, c.toNat - bits, rfl, .short c (by omega) (by omega), fun _ => by omega⟩

/-- Zeros, as many as the string literal takes. -/
theorem StrWire.zeros {huff : Bool} {int : Bytes} {n : Nat}
    (h : IntWire (huffBit huff) 0x7F int n) :
    StrWire len ⟨huff, List.replicate (len n) 0⟩ (int ++ List.replicate (len n) 0) :=
  .mk (s := ⟨huff, List.replicate (len n) 0⟩) h (by simp)

/-- What follows the length of a string literal holds the string, or goes on to. -/
theorem StrWire.cases_length {huff : Bool} {int : Bytes} {n : Nat} (back : Bytes)
    (h : IntWire (huffBit huff) 0x7F int n) :
    (∃ str rest s, int ++ back = str ++ rest ∧ StrWire len s str) ∨
      ∃ more s, more ≠ [] ∧ StrWire len s (int ++ back ++ more) := by
  by_cases hlt : back.length < len n
  · refine .inr ⟨List.replicate (len n - back.length) 0,
      ⟨huff, back ++ List.replicate (len n - back.length) 0⟩, ?_, ?_⟩
    · simp only [ne_eq, List.replicate_eq_nil_iff]
      omega
    · rw [List.append_assoc]
      exact .mk h (by simp only [List.length_append, List.length_replicate]; omega)
  · refine .inl ⟨int ++ back.take (len n), back.drop (len n), ⟨huff, back.take (len n)⟩, ?_, ?_⟩
    · rw [List.append_assoc, List.take_append_drop]
    · exact .mk h (by simp only [List.length_take]; omega)

/-- The length 0, in one byte. -/
theorem zeroLength : IntWire (huffBit false) 0x7F [0] 0 :=
  .short 0 (by decide) (by decide)

/-- A string literal that started either ends or goes on to. -/
theorem strWire_cases (len : Nat → Nat) (bs : Bytes) :
    (∃ str back s, bs = str ++ back ∧ StrWire len s str) ∨
      ∃ more s, more ≠ [] ∧ StrWire len s (bs ++ more) := by
  cases bs with
  | nil =>
    exact .inr ⟨[0] ++ List.replicate (len 0) 0, _, by simp, .zeros zeroLength⟩
  | cons c bs =>
    obtain ⟨huff, hb, hb'⟩ : ∃ huff, huffBit huff ≤ c.toNat ∧ c.toNat ≤ huffBit huff + 0x7F := by
      have := c.toNat_lt
      by_cases hc : c.toNat < 0x80
      · exact ⟨false, by simp [huffBit], by simp only [huffBit, Bool.false_eq_true, if_false]; omega⟩
      · exact ⟨true, by simp only [huffBit, if_true]; omega, by simp only [huffBit, if_true]; omega⟩
    rcases intWire_cases _ (by decide) c bs hb hb' with ⟨int, back, n, hbs, h, -⟩ | ⟨n, h, -⟩
    · rw [hbs]
      exact StrWire.cases_length back h
    · refine .inr ⟨[0] ++ List.replicate (len n) 0, ⟨huff, List.replicate (len n) 0⟩, by simp, ?_⟩
      rw [← List.append_assoc]
      exact .zeros h

/-- The value of a field whose name was read. -/
theorem valueWire_cases (len : Nat → Nat) {mk : Str → Rep} (front back : Bytes)
    (h : ∀ {s bs}, StrWire len s bs → RepWire len (mk s) (front ++ bs)) :
    (∃ rep w rest, front ++ back = w ++ rest ∧ RepWire len rep w) ∨
      ∃ rep more, more ≠ [] ∧ RepWire len rep (front ++ back ++ more) := by
  rcases strWire_cases len back with ⟨str, rest, s, rfl, hs⟩ | ⟨more, s, hm, hs⟩
  · exact .inl ⟨_, _, rest, (List.append_assoc _ _ _).symm, h hs⟩
  · exact .inr ⟨_, more, hm, by rw [List.append_assoc]; exact h hs⟩

/-- There is always a value that a field can be ended with. -/
theorem exists_value (len : Nat → Nat) : ∃ s bs, StrWire len s bs :=
  ⟨_, _, .zeros zeroLength⟩

theorem literal_cases (len : Nat → Nat) (mode : Indexing) (c : UInt8) (bs : Bytes)
    (h : mode.bits ≤ c.toNat) (h' : c.toNat ≤ mode.bits + mode.max) :
    (∃ rep w rest, c :: bs = w ++ rest ∧ RepWire len rep w) ∨
      ∃ rep more, more ≠ [] ∧ RepWire len rep (c :: bs ++ more) := by
  obtain ⟨value, vs, hv⟩ := exists_value len
  by_cases hc : c.toNat = mode.bits
  · rcases strWire_cases len bs with ⟨ns, back, name, rfl, hn⟩ | ⟨more, name, hm, hn⟩
    · exact valueWire_cases len (c :: ns) back fun hs => .new c hc hn hs
    · refine .inr ⟨.literal mode (.lit name) value, more ++ vs, by simp [hm], ?_⟩
      have hr := RepWire.new c hc hn hv
      rwa [List.append_assoc] at hr
  · have hmax : 0 < mode.max := by cases mode <;> decide
    rcases intWire_cases _ hmax c bs h h' with ⟨int, back, i, hbs, hint, hi⟩ | ⟨i, hint, hi⟩
    · rw [hbs]
      exact valueWire_cases len int back fun hs => .named (hi hc) hint hs
    · refine .inr ⟨.literal mode (.idx i) value, [0] ++ vs, by simp, ?_⟩
      have hr := RepWire.named hi hint hv
      rwa [List.append_assoc] at hr

/-- A representation that started either ends, goes on to, or is one that uses the index 0. -/
theorem repWire_cases (len : Nat → Nat) (c : UInt8) (bs : Bytes) :
    (∃ rep w rest, c :: bs = w ++ rest ∧ RepWire len rep w) ∨
      (∃ rep more, more ≠ [] ∧ RepWire len rep (c :: bs ++ more)) ∨ c = 0x80 := by
  have hlt := c.toNat_lt
  by_cases h1 : 0x80 ≤ c.toNat
  · by_cases hz : c = 0x80
    · exact .inr (.inr hz)
    · have hne : c.toNat ≠ 0x80 := fun h => hz (UInt8.toNat_inj.mp h)
      rcases intWire_cases 0x80 (show 0 < 0x7F by decide) c bs h1 (by omega) with
        ⟨int, back, i, hbs, hint, hi⟩ | ⟨i, hint, hi⟩
      · exact .inl ⟨_, int, back, hbs, .indexed (hi hne) hint⟩
      · exact .inr (.inl ⟨_, [0], by simp, .indexed hi hint⟩)
  by_cases h2 : 0x40 ≤ c.toNat
  · exact (literal_cases len .incremental c bs h2
      (by simp only [Indexing.bits, Indexing.max]; omega)).imp_right .inl
  by_cases h3 : 0x20 ≤ c.toNat
  · rcases intWire_cases 0x20 (show 0 < 0x1F by decide) c bs h3 (by omega) with
      ⟨int, back, n, hbs, hint, -⟩ | ⟨n, hint, -⟩
    · exact .inl ⟨_, int, back, hbs, .tableSize hint⟩
    · exact .inr (.inl ⟨_, [0], by simp, .tableSize hint⟩)
  by_cases h4 : 0x10 ≤ c.toNat
  · exact (literal_cases len .never c bs h4
      (by simp only [Indexing.bits, Indexing.max]; omega)).imp_right .inl
  · exact (literal_cases len .without c bs (Nat.zero_le _)
      (by simp only [Indexing.bits, Indexing.max]; omega)).imp_right .inl

/-- Every block is complete, goes on to be, or uses the index 0. -/
theorem block_cases (len : Nat → Nat) (block : Bytes) :
    Complete len block ∨ Extends len block ∨ ZeroIndex len block := by
  suffices h : ∀ n (block : Bytes), block.length = n →
      Complete len block ∨ Extends len block ∨ ZeroIndex len block from h _ block rfl
  intro n
  induction n using Nat.strongRecOn with
  | ind n ih =>
    intro block hn
    cases block with
    | nil => exact .inl ⟨[], .nil⟩
    | cons c bs =>
      rcases repWire_cases len c bs with ⟨rep, w, rest, hw, h⟩ | ⟨rep, more, hm, h⟩ | rfl
      · have hpos := List.length_pos_iff.mpr h.ne_nil
        have hlen : rest.length < n := by
          rw [← hn, hw, List.length_append]
          omega
        rw [hw]
        rcases ih _ hlen rest rfl with hr | ⟨more, hm, hr⟩ | ⟨front, back, hf, rfl⟩
        · exact .inl (h.complete.append hr)
        · exact .inr (.inl ⟨more, hm, by rw [List.append_assoc]; exact h.complete.append hr⟩)
        · exact .inr (.inr ⟨w ++ front, back, h.complete.append hf, by rw [List.append_assoc]⟩)
      · exact .inr (.inl ⟨more, hm, h.complete⟩)
      · exact .inr (.inr ⟨[], bs, ⟨[], .nil⟩, rfl⟩)

end Beeper.Http2
