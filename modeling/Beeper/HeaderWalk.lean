import Beeper.Frame
import Beeper.TableWalk

namespace Beeper.Http2

/-- Feeds bytes to the header block `st` reads, each along with its offset, until one fails. -/
def feed (rd : Rodata) (ctx : MsgCtx) (buf : BlockBuf) :
    List (UInt8 × Nat) → HdrState → Option Errno × HdrState
  | [], st => (none, st)
  | (c, i) :: cs, st =>
    match parseHdrByte rd ctx buf { st with ps := { st.ps with i := i } } c with
    | (some e, st) => (some e, st)
    | (none, st) => feed rd ctx buf cs st

/-- What is left of located bytes without the zeros that carry the prefix of length `p` on. -/
def dropNullPrefix : Option Nat → List (UInt8 × Nat) → List (UInt8 × Nat)
  | _, [] => []
  | p, (c, i) :: cs =>
    if c = 0 ∧ p = some i then dropNullPrefix (some (i + 1)) cs else (c, i) :: dropNullPrefix p cs

/-- The bytes of `data` between two offsets, along with their offsets. -/
def located (data : Bytes) (start stop : Nat) : List (UInt8 × Nat) :=
  (slice data start (stop - start)).zipIdx start

variable {rd : Rodata} {ctx : MsgCtx} {buf : BlockBuf}

@[simp] theorem feed_nil (st : HdrState) : feed rd ctx buf [] st = (none, st) := rfl

theorem feed_append (xs ys : List (UInt8 × Nat)) (st : HdrState) :
    feed rd ctx buf (xs ++ ys) st = match feed rd ctx buf xs st with
      | (some e, st) => (some e, st)
      | (none, st) => feed rd ctx buf ys st := by
  induction xs generalizing st with
  | nil => rfl
  | cons x xs ih =>
    obtain ⟨c, i⟩ := x
    simp only [List.cons_append, feed]
    split
    next => rfl
    next st' _ => exact ih st'

theorem dropNullPrefix_none (xs : List (UInt8 × Nat)) : dropNullPrefix none xs = xs := by
  induction xs with
  | nil => rfl
  | cons x xs ih => simp [dropNullPrefix, ih]

theorem dropNullPrefix_length_le (p : Option Nat) (xs : List (UInt8 × Nat)) :
    (dropNullPrefix p xs).length ≤ xs.length := by
  induction xs generalizing p with
  | nil => simp [dropNullPrefix]
  | cons x xs ih =>
    obtain ⟨c, i⟩ := x
    unfold dropNullPrefix
    split
    · have := ih (some (i + 1))
      simp only [List.length_cons]
      omega
    · simpa using ih p

theorem slice_succ {data : Bytes} {i n : Nat} {c : UInt8} (h : data[i]? = some c) :
    slice data i (n + 1) = c :: slice data (i + 1) n := by
  obtain ⟨hi, rfl⟩ := List.getElem?_eq_some_iff.mp h
  unfold slice
  rw [List.drop_eq_getElem_cons hi, List.take_succ_cons]

/-- Turns the outcome of a walk that ended at the offset `last` into a return value. -/
def walked (last : Nat) (r : Option Errno × HdrState) : Except Errno Nat × HdrState :=
  (match r.1 with
    | some e => .error e
    | none => .ok last, r.2)

variable (rd ctx buf) in
theorem parseHdrLoop_eq {rounds i : Nat} (last : Nat) (st : HdrState) (p : Option Nat)
    (hb : i + rounds ≤ ctx.data.length) :
    (parseHdrLoop rd ctx buf rounds i last st p).1 =
        (walked (if rounds = 0 then last else i + rounds - 1)
          (feed rd ctx buf (dropNullPrefix p ((slice ctx.data i rounds).zipIdx i)) st)).1 ∧
      (parseHdrLoop rd ctx buf rounds i last st p).2.1 =
        (feed rd ctx buf (dropNullPrefix p ((slice ctx.data i rounds).zipIdx i)) st).2 := by
  induction rounds generalizing i last st p with
  | zero => simp [parseHdrLoop, slice, dropNullPrefix, walked]
  | succ rounds ih =>
    have hi : i < ctx.data.length := by omega
    have hg := List.getElem?_eq_getElem hi
    have hlast : (if rounds = 0 then i else i + 1 + rounds - 1) = i + (rounds + 1) - 1 := by
      split <;> omega
    rw [slice_succ hg, List.zipIdx_cons]
    simp only [parseHdrLoop, hg, dropNullPrefix]
    split
    next hz =>
      have hrec := ih (i := i + 1) i st (some (i + 1)) (by omega)
      rw [hlast] at hrec
      simpa using hrec
    next hz =>
      simp only [feed]
      generalize parseHdrByte rd ctx buf _ _ = r
      obtain ⟨e, st'⟩ := r
      cases e with
      | some e => simp [walked]
      | none =>
        have hrec := ih (i := i + 1) i st' p (by omega)
        rw [hlast] at hrec
        simpa using hrec

/-- Where the in-place walk of a header block ends. -/
def walkStop (ctx : MsgCtx) (stop : Nat) : Nat := min (min ctx.data.length maxBytes) stop

variable (rd ctx buf) in
/-- The in-place walk feeds the bytes of the block one by one. -/
theorem parseHdrFrom_eq (start stop : Nat) (st : HdrState) (p : Option Nat) :
    let r := feed rd ctx buf (dropNullPrefix p (located ctx.data start (walkStop ctx stop))) st
    (parseHdrFrom rd ctx buf start stop st p).1 =
        (walked (if walkStop ctx stop ≤ start then start else walkStop ctx stop - 1) r).1 ∧
      (parseHdrFrom rd ctx buf start stop st p).2.1 = r.2 := by
  by_cases hs : start ≤ walkStop ctx stop
  · have hle : start + (walkStop ctx stop - start) ≤ ctx.data.length := by
      have : walkStop ctx stop ≤ ctx.data.length := by
        unfold walkStop
        omega
      omega
    have h := parseHdrLoop_eq rd ctx buf start st p hle
    have hlast : (if walkStop ctx stop - start = 0 then start
        else start + (walkStop ctx stop - start) - 1) =
        if walkStop ctx stop ≤ start then start else walkStop ctx stop - 1 := by
      split <;> split <;> omega
    rw [hlast] at h
    exact h
  · have hz : walkStop ctx stop - start = 0 := by omega
    simp only [parseHdrFrom, located]
    change (parseHdrLoop rd ctx buf (walkStop ctx stop - start) start start st p).1 = _ ∧
      (parseHdrLoop rd ctx buf (walkStop ctx stop - start) start start st p).2.1 = _
    rw [hz]
    simp [parseHdrLoop, slice, dropNullPrefix, walked, show walkStop ctx stop ≤ start by omega]

theorem bufSlice_succ (buf : BlockBuf) (i n : Nat) :
    buf.slice i (n + 1) = buf.data i :: buf.slice (i + 1) n := by
  unfold BlockBuf.slice
  rw [List.range_succ_eq_map, List.map_cons, List.map_map]
  congr 1
  exact List.map_congr_left fun j _ => congrArg buf.data (by simp; omega)

theorem parseHdrBufLoop_eq {len rounds i : Nat} {st : HdrState} (hi : i + rounds = len + 1)
    (hr : 0 < rounds) (hl : len ≤ blockMaxlen) :
    parseHdrBufLoop rd ctx buf len rounds i st =
      walked len (feed rd ctx buf ((buf.slice i (len - i)).zipIdx i) st) := by
  induction rounds generalizing i st with
  | zero => omega
  | succ rounds ih =>
    unfold parseHdrBufLoop
    split
    next hle =>
      have hil : i = len := by omega
      subst i
      simp [walked, BlockBuf.slice]
    next hlt =>
      have hn : len - i = (len - (i + 1)) + 1 := by omega
      have hmin : min i (blockMaxlen - 1) = i := by omega
      rw [hn, bufSlice_succ, List.zipIdx_cons, hmin]
      simp only [feed]
      generalize parseHdrByte rd ctx buf _ _ = r
      obtain ⟨e, st'⟩ := r
      cases e with
      | some e => rfl
      | none => exact ih (by omega) (by omega)

/-- So does the walk of a block that was put together. -/
theorem parseHdrBuf_eq (len : Nat) (st : HdrState) :
    parseHdrBuf rd ctx buf len st =
      walked (min len blockMaxlen) (feed rd ctx buf ((buf.slice 0 (min len blockMaxlen)).zipIdx) st) :=
  parseHdrBufLoop_eq (by omega) (by omega) (Nat.min_le_right _ _)

variable (rd ctx buf) in
theorem feed_walk (xs : List (UInt8 × Nat)) (st : HdrState) :
    TableWalk ctx.conn xs.length st.table (feed rd ctx buf xs st).2.table := by
  induction xs generalizing st with
  | nil => exact .nil 0 _
  | cons x xs ih =>
    obtain ⟨c, i⟩ := x
    have hs := parseHdrByte_step rd ctx buf { st with ps := { st.ps with i := i } } c
    simp only [feed]
    generalize parseHdrByte rd ctx buf _ c = r at hs
    obtain ⟨e, st'⟩ := r
    cases e with
    | some e => exact .cons hs (.nil _ _)
    | none => exact .cons hs (ih st')

theorem parseStgLoop_eq {data : Bytes} {rounds i : Nat} (last : Nat) (st : StgState) (p : Option Nat)
    (hb : i + rounds ≤ data.length) :
    (parseStgLoop data rounds i last st p).1 =
        .ok (if rounds = 0 then last else i + rounds - 1) ∧
      (parseStgLoop data rounds i last st p).2.1 =
        ((dropNullPrefix p ((slice data i rounds).zipIdx i)).map Prod.fst).foldl stgByte st := by
  induction rounds generalizing i last st p with
  | zero => simp [parseStgLoop, slice, dropNullPrefix]
  | succ rounds ih =>
    have hi : i < data.length := by omega
    have hg := List.getElem?_eq_getElem hi
    have hlast : (if rounds = 0 then i else i + 1 + rounds - 1) = i + (rounds + 1) - 1 := by
      split <;> omega
    rw [slice_succ hg, List.zipIdx_cons]
    simp only [parseStgLoop, hg, dropNullPrefix]
    split
    next hz =>
      have hrec := ih (i := i + 1) i st (some (i + 1)) (by omega)
      rw [hlast] at hrec
      simpa using hrec
    next hz =>
      have hrec := ih (i := i + 1) i (stgByte st data[i]) p (by omega)
      rw [hlast] at hrec
      simpa using hrec

end Beeper.Http2
