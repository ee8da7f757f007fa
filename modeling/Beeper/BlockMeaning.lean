import Beeper.Agreement
import Beeper.HpackExec

namespace Beeper.Http2

/-- What is captured of a field: a string of the header block, or the value of the entry that is
stored under `slot`. -/
inductive Capture
  | str (s : Str)
  | entry (slot : Nat)

abbrev Captures := Fin maxMatches → Option Capture

/-- The field stored under `slot` in either table. -/
def slotField (rd : Rodata) (conn : Ip4Conn) (entries : DynamicTableMap) (slot : Nat) :
    Option Http2HdrField :=
  if dynamicTableBase ≤ slot then (entries.lookup ⟨conn, slot⟩).map DynamicTableEntry.field
  else if slot = 0 then none
  else rd.lookupStatic slot

/-- The name a field is added to the table under. -/
def nameBytes (rd : Rodata) (conn : Ip4Conn) (t : DynamicTable) : Name → Option (Bytes × Bool)
  | .idx i => (slotField rd conn t.entries (slotOf t.info (u32 i))).map fun hf =>
      (hf.key, hf.keyHuff)
  | .lit s => some (s.raw, s.huff)

/-- The capture that a name matches. -/
def nameCapture (rd : Rodata) (conn : Ip4Conn) (t : DynamicTable) : Name → Option Nat
  | .idx i => refCapture rd conn t (u32 i)
  | .lit s => matchHeaderKey rd s.raw s.huff

/-- The table once a field was added to it. -/
def addField (conn : Ip4Conn) (t : DynamicTable) (name : Option (Bytes × Bool)) (value : Str) :
    DynamicTable :=
  if t.info.dirty ≠ 0 then t
  else match name with
  | none => t
  | some name => match sizedEntry name (value.raw, value.huff) with
  | none => t.setDirty
  | some entry => (insertEntry conn t entry).2

def capture (cs : Captures) (mid : Option Nat) (c : Capture) : Captures :=
  match mid with
  | none => cs
  | some mid => Function.update cs (Fin.ofNat maxMatches mid) (some c)

/-- What a representation means for a table and what was captured before, wherever its bytes are
read. -/
def meaning (rd : Rodata) (conn : Ip4Conn) (t : DynamicTable) (cs : Captures) :
    Rep → DynamicTable × Captures
  | .indexed i =>
    (t, capture cs (refCapture rd conn t (u32 i)) (.entry (slotOf t.info (u32 i))))
  | .literal mode name value =>
    (if mode = .incremental then addField conn t (nameBytes rd conn t name) value else t,
      capture cs (nameCapture rd conn t name) (.str value))
  | .tableSize n => (resized conn t (u32 n), cs)

def blockMeaning (rd : Rodata) (conn : Ip4Conn) (reps : List Rep) (t : DynamicTable)
    (cs : Captures) : DynamicTable × Captures :=
  reps.foldl (fun x => meaning rd conn x.1 x.2) (t, cs)

/-- The value of the field stored under `slot`. -/
def slotValue (rd : Rodata) (conn : Ip4Conn) (entries : DynamicTableMap) (slot : Nat) :
    Except Errno Bytes :=
  match slotField rd conn entries slot with
  | none => .error .ENOENT
  | some hf => .ok hf.val

/-- The value that a capture stands for, still Huffman coded if that is how it was sent. -/
def captureValue (rd : Rodata) (conn : Ip4Conn) (entries : DynamicTableMap) :
    Option Capture → Except Errno Bytes
  | none => .error .ENOENT
  | some (.str s) => .ok s.raw
  | some (.entry slot) => slotValue rd conn entries slot

/-- Every string of `block` can be read through the view. -/
structure Legible (rd : Rodata) (v : View) (block : Bytes) : Prop where
  src : v.src ≠ .table
  small : v.base + block.length < 2 ^ 16
  read : ∀ entries i len huff isKey, i + len ≤ block.length → len < 2 ^ 15 →
    getMatch rd v.ctx v.buf entries (v.at i len huff) isKey = some (slice block i len, huff)

/-- The match `m` holds a capture of a string of `block`, or of an entry. -/
inductive Shows (v : View) (block : Bytes) : HttpMatch → Option Capture → Prop
  | unset : Shows v block .zero none
  | entry {slot : Nat} (h : slot ≤ 0xffff) :
      Shows v block (tableMatch slot (headerFieldMaxlen - 1)) (some (.entry slot))
  | str {i : Nat} {s : Str} (hp : 0 < i) (hi : i + s.raw.length ≤ block.length)
      (hs : slice block i s.raw.length = s.raw) (hl : s.raw.length < 2 ^ 15) :
      Shows v block (v.at i s.raw.length s.huff) (some (.str s))

variable {rd : Rodata} {v : View} {block : Bytes} {t : DynamicTable} {cs : Captures}
  {pres : HttpParseRes}

theorem Exact.legible (h : Exact rd v block) : Legible rd v block where
  src := h.src
  small := h.small
  read entries i len huff isKey hi hl := by
    rw [h.read entries i len huff isKey (by omega) hl, if_neg (by omega)]

/-- A block that is read in place, whatever stands around it. -/
theorem legible_msg (ctx : MsgCtx) (pre block post : Bytes) (buf : BlockBuf)
    (hd : ctx.data = pre ++ block ++ post) (hs : pre.length + block.length < 2 ^ 16) :
    Legible rd ⟨ctx, buf, .msg, pre.length⟩ block where
  src := by simp
  small := hs
  read entries i len huff isKey hi hl := by
    have hlen : ctx.data.length = pre.length + block.length + post.length := by
      rw [hd, List.length_append, List.length_append]
    have hslice : slice ctx.data (pre.length + i) len = slice block i len := by
      rw [hd, List.append_assoc, slice_append]
      unfold slice
      rw [List.drop_append_of_le_length (by omega), List.take_append_of_le_length]
      rw [List.length_drop]
      omega
    simp only [getMatch, View.at, toNat_ofNat_of_lt (show pre.length + i < 2 ^ 16 by omega),
      toNat_ofNat_of_lt (show len < 2 ^ 16 by omega), hslice]
    rw [if_neg (by omega)]

theorem slotOf_le (info : DynamicTableInfo) (n : Nat) : slotOf info n ≤ 0xffff := by
  unfold slotOf
  simp only
  generalize (if staticTableSize < n then getDynamicTableIndex info n else n) = slot
  split
  · split
    · omega
    · omega
  · omega

/-- The match of an entry reads what is stored under its slot. -/
theorem getMatch_table (ctx : MsgCtx) (buf : BlockBuf) (entries : DynamicTableMap) {slot : Nat}
    (h : slot ≤ 0xffff) (len : Nat) (isKey : Bool) :
    getMatch rd ctx buf entries (tableMatch slot len) isKey =
      (slotField rd ctx.conn entries slot).map fun hf =>
        if isKey then (hf.key, hf.keyHuff) else (hf.val, hf.valHuff) := by
  have hidx : (UInt16.ofNat slot).toNat = slot := toNat_ofNat_of_lt (by omega)
  unfold getMatch slotField tableMatch
  simp only [hidx]
  split
  · rw [Option.map_map]
    rfl
  · split <;> rfl

/-- An insertion of a name and a value that could be read. -/
theorem added_eq (ctx : MsgCtx) (buf : BlockBuf) (t : DynamicTable) (add : Bool)
    {key val : HttpMatch} {name : Option (Bytes × Bool)} {value : Str}
    (hk : getMatch rd ctx buf t.entries key true = name)
    (hv : getMatch rd ctx buf t.entries val false = some (value.raw, value.huff)) :
    added rd ctx buf t add key val = if add then addField ctx.conn t name value else t := by
  unfold added addField addDynamicTableEntry
  rw [hk, hv]
  cases add with
  | false => rfl
  | true =>
    simp only [if_true]
    split
    · rfl
    · cases name with
      | none => rfl
      | some name =>
        simp only
        cases sizedEntry name (value.raw, value.huff) with
        | none => rfl
        | some entry => rfl

theorem captured_shows (hp : ∀ i, Shows v block (pres.ms i) (cs i)) (cid : Option Nat)
    {m : HttpMatch} {c : Capture} (hm : Shows v block m (some c)) (i : Fin maxMatches) :
    Shows v block ((captured pres cid m).ms i) (capture cs cid c i) := by
  cases cid with
  | none => exact hp i
  | some mid =>
    simp only [captured, capture, HttpParseRes.set, Function.update_apply]
    split
    · exact hm
    · exact hp i

/-- A string literal ends in the bytes of the string. -/
theorem StrWire.split {s : Str} {bs : Bytes} (h : StrWire readLen s bs) :
    ∃ int, bs = int ++ s.raw ∧ int ≠ [] ∧ s.raw.length < 2 ^ 15 := by
  cases h with
  | @mk int n hint hlen =>
    refine ⟨int, rfl, hint.ne_nil, ?_⟩
    rw [← hlen]
    exact Nat.mod_lt _ (by decide)

/-- Where the string behind `front` is found. -/
theorem Legible.located (hv : Legible rd v block) {front back : Bytes} {s : Str}
    (hb : block = front ++ s.raw ++ back) (hl : s.raw.length < 2 ^ 15) :
    s.located v.src (v.base + (front ++ s.raw).length) =
        v.at front.length s.raw.length s.huff ∧
      ∀ entries isKey, getMatch rd v.ctx v.buf entries
        (v.at front.length s.raw.length s.huff) isKey = some (s.raw, s.huff) := by
  have hlen : block.length = front.length + s.raw.length + back.length := by
    rw [hb, List.length_append, List.length_append]
  have hslice : slice block front.length s.raw.length = s.raw := by
    unfold slice
    rw [hb, List.append_assoc, List.drop_left, List.take_left]
  refine ⟨?_, fun entries isKey => ?_⟩
  · have hstop : v.base + (front ++ s.raw).length - s.raw.length = v.base + front.length := by
      rw [List.length_append]
      omega
    rw [Str.located, hstop]
    rfl
  · rw [hv.read entries _ _ _ _ (by omega) hl, hslice]

theorem shows_str {front back : Bytes} {s : Str} (hb : block = front ++ s.raw ++ back)
    (hne : front ≠ []) (hl : s.raw.length < 2 ^ 15) :
    Shows v block (v.at front.length s.raw.length s.huff) (some (.str s)) := by
  have hlen : block.length = front.length + s.raw.length + back.length := by
    rw [hb, List.length_append, List.length_append]
  refine .str (List.length_pos_iff.mpr hne) (by omega) ?_ hl
  unfold slice
  rw [hb, List.append_assoc, List.drop_left, List.take_left]

section Reading

variable {src : HttpMatchSource} {st : HdrState} {nameStop stop : Nat} {mode : Indexing}
  {name : Name} {value : Str}

/-- A literal field whose name and value can be read. -/
theorem execRep_literal (hv : Legible rd v block) (hp : ∀ i, Shows v block (pres.ms i) (cs i))
    {key : HttpMatch} (hkey : nameRead rd v.ctx.conn v.src nameStop t name =
      (nameCapture rd v.ctx.conn t name, key))
    (hk : getMatch rd v.ctx v.buf t.entries key true = nameBytes rd v.ctx.conn t name)
    {front back : Bytes} (hb : block = front ++ value.raw ++ back) (hne : front ≠ [])
    (hl : value.raw.length < 2 ^ 15) :
    let r := execRep rd v.ctx v.buf v.src nameStop (v.base + (front ++ value.raw).length) t pres
      (.literal mode name value)
    let m := meaning rd v.ctx.conn t cs (.literal mode name value)
    r.1 = m.1 ∧ ∀ i, Shows v block (r.2.ms i) (m.2 i) := by
  obtain ⟨hloc, hread⟩ := hv.located hb hl
  simp only [execRep, meaning, hkey, hloc]
  refine ⟨?_, captured_shows hp _ (shows_str hb hne hl)⟩
  rw [added_eq v.ctx v.buf t _ hk (hread _ _)]
  simp only [decide_eq_true_eq]

/-- A representation comes to what it means, wherever in the block it stands. -/
theorem exec_meaning (hrd : ReadsReps rd) (hv : Legible rd v block)
    (h : AtField v.src t pres st) (hp : ∀ i, Shows v block (pres.ms i) (cs i)) {rep : Rep}
    {front bs back : Bytes} (hw : RepWire readLen rep bs) (hb : block = front ++ bs ++ back) :
    ∃ pres' st', feed rd v.ctx v.buf (bs.zipIdx (v.base + front.length)) st = (none, st') ∧
      AtField v.src (meaning rd v.ctx.conn t cs rep).1 pres' st' ∧
      ∀ i, Shows v block (pres'.ms i) ((meaning rd v.ctx.conn t cs rep).2 i) := by
  obtain ⟨nameStop, st', hname, hfeed, hst⟩ := exec_rep v.ctx v.buf hrd h hw (v.base + front.length)
  suffices hx : (execRep rd v.ctx v.buf v.src nameStop (v.base + front.length + bs.length) t pres
        rep).1 = (meaning rd v.ctx.conn t cs rep).1 ∧
      ∀ i, Shows v block ((execRep rd v.ctx v.buf v.src nameStop
        (v.base + front.length + bs.length) t pres rep).2.ms i)
        ((meaning rd v.ctx.conn t cs rep).2 i) from
    ⟨_, st', hfeed, hx.1 ▸ hst, hx.2⟩
  cases hw with
  | indexed hi hint => exact ⟨rfl, captured_shows hp _ (.entry (slotOf_le _ _))⟩
  | tableSize hint => exact ⟨rfl, hp⟩
  | @named mode i value int vs hi hint hval =>
    obtain ⟨len, rfl, hne, hl⟩ := hval.split
    have hstop : v.base + front.length + (int ++ (len ++ value.raw)).length =
        v.base + (front ++ (int ++ len) ++ value.raw).length := by
      simp only [List.length_append]
      omega
    rw [hstop]
    exact execRep_literal hv hp rfl (getMatch_table v.ctx v.buf t.entries (slotOf_le _ _) 0 true)
      (show block = front ++ (int ++ len) ++ value.raw ++ back by
        rw [hb]; simp only [List.append_assoc]) (by simp [hne]) hl
  | @new mode s value ns vs c hc hn hval =>
    obtain ⟨-, -, -, hl⟩ := hn.split
    obtain ⟨len, rfl, hne, hl'⟩ := hval.split
    obtain ⟨front', back', hbs, rfl⟩ := hname
    have hnameStop : v.base + front.length + (front' ++ s.raw).length =
        v.base + (front ++ front' ++ s.raw).length := by
      simp only [List.length_append]
      omega
    have hstop : v.base + front.length + (c :: (ns ++ (len ++ value.raw))).length =
        v.base + (front ++ (c :: (ns ++ len)) ++ value.raw).length := by
      simp only [List.length_append, List.length_cons]
      omega
    obtain ⟨hloc, hread⟩ := hv.located
      (show block = front ++ front' ++ s.raw ++ (back' ++ back) by
        rw [hb, hbs]; simp only [List.append_assoc]) hl
    rw [hstop, hnameStop]
    refine execRep_literal hv hp ?_ (hread t.entries true)
      (show block = front ++ (c :: (ns ++ len)) ++ value.raw ++ back by
        rw [hb]; simp only [List.append_assoc, List.cons_append]) (by simp) hl'
    rw [nameRead, hloc]
    rfl

theorem feed_meaning (hrd : ReadsReps rd) (hv : Legible rd v block) {reps : List Rep}
    {front bs back : Bytes} (hw : BlockWire readLen reps bs) (hb : block = front ++ bs ++ back)
    (h : AtField v.src t pres st) (hp : ∀ i, Shows v block (pres.ms i) (cs i)) :
    ∃ pres' st', feed rd v.ctx v.buf (bs.zipIdx (v.base + front.length)) st = (none, st') ∧
      AtField v.src (blockMeaning rd v.ctx.conn reps t cs).1 pres' st' ∧
      ∀ i, Shows v block (pres'.ms i) ((blockMeaning rd v.ctx.conn reps t cs).2 i) := by
  induction hw generalizing front t cs pres st with
  | nil => exact ⟨pres, st, rfl, h, hp⟩
  | @cons rep reps bs rest hr _ ih =>
    obtain ⟨pres₁, st₁, hfeed₁, hst₁, hp₁⟩ := exec_meaning hrd hv h hp hr
      (show block = front ++ bs ++ (rest ++ back) by rw [hb]; simp only [List.append_assoc])
    obtain ⟨pres', st', hfeed, hst, hp'⟩ := @ih _ _ _ _ (front ++ bs)
      (by rw [hb]; simp only [List.append_assoc]) hst₁ hp₁
    refine ⟨pres', st', ?_, hst, hp'⟩
    rw [List.zipIdx_append, feed_append, hfeed₁]
    rw [List.length_append, ← Nat.add_assoc] at hfeed
    exact hfeed

/-- A block that consists of whole representations comes to what they mean. -/
theorem feed_block (hrd : ReadsReps rd) (hv : Legible rd v block) {reps : List Rep}
    (hw : BlockWire readLen reps block) (t : DynamicTable) :
    let r := feed rd v.ctx v.buf (block.zipIdx v.base) ⟨t, .zero, newHttp2ParseState v.src⟩
    let m := blockMeaning rd v.ctx.conn reps t fun _ => none
    r.1 = none ∧ r.2.table = m.1 ∧ ∀ i, Shows v block (r.2.pres.ms i) (m.2 i) := by
  have hunset : ∀ i, Shows v block (HttpParseRes.zero.ms i) ((fun _ => none : Captures) i) :=
    fun _ => .unset
  obtain ⟨pres', st', hfeed, hst, hp⟩ := feed_meaning hrd hv hw
    (show block = [] ++ block ++ [] by simp)
    (show AtField v.src t .zero ⟨t, .zero, newHttp2ParseState v.src⟩ from ⟨rfl, rfl, rfl, rfl, rfl⟩)
    hunset
  rw [List.length_nil, Nat.add_zero] at hfeed
  simp only [hfeed, hst.table, hst.pres]
  exact ⟨trivial, trivial, hp⟩

end Reading

/-- What a match reads is the value of the capture it holds. -/
theorem Shows.read {m : HttpMatch} {c : Option Capture} (h : Shows v block m c)
    (hv : Legible rd v block) (entries : DynamicTableMap) :
    (if ¬isCaptured m then .error .ENOENT
      else match getMatch rd v.ctx v.buf entries m false with
      | none => .error .ENOENT
      | some (bytes, _) => .ok bytes) = captureValue rd v.ctx.conn entries c := by
  cases h with
  | unset => rfl
  | @entry slot h =>
    have hpos : 0 < (UInt16.ofNat (headerFieldMaxlen - 1)).toNat := by decide
    have hlen : isCaptured (tableMatch slot (headerFieldMaxlen - 1)) = true :=
      decide_eq_true (.inl hpos)
    rw [hlen, if_neg (not_not_intro rfl), getMatch_table v.ctx v.buf entries h]
    rw [captureValue, slotValue]
    cases slotField rd v.ctx.conn entries slot with
    | none => rfl
    | some hf => rfl
  | @str i s hp hi hs hl =>
    have hsmall := hv.small
    have hidx : isCaptured (v.at i s.raw.length s.huff) = true := by
      refine decide_eq_true (.inr ?_)
      rw [View.at, toNat_ofNat_of_lt (by omega)]
      omega
    rw [hidx, if_neg (not_not_intro rfl), hv.read entries i _ _ _ hi hl, hs]
    rfl

end Beeper.Http2
