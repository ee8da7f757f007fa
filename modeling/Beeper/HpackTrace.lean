import Beeper.BlockAcceptance

namespace Beeper.Http2

/-- What the parser does at a byte of a header block: it runs the action of an edge, takes the byte
of a name along the trie or passes over the byte of a value. An action that announces a string finds
it at the offset `off`. -/
inductive HdrEvent
  | run (kind : Kind) (v : Nat) (huff addToDt : Bool) (off : Nat)
  | walk (s : StateId) (c : UInt8)
  | skip (c : UInt8)
deriving DecidableEq

/-- What the parser does at the byte `c`. -/
def hdrEvents (rd : Rodata) (ps : Http2ParseState) (c : UInt8) : List HdrEvent :=
  if 0 < ps.skip then [if ps.isKey then .walk ps.s c else .skip c]
  else
    let act := rd.action (rd.next ps.s c.toNat).2
    match act.kind with
    | none => []
    | some kind =>
      if kind = .intStart ∨ kind = .intCont then []
      else
        [.run kind (if act.flags &&& fCont ≠ 0 then addInt ps c else act.val)
          (decide (act.flags &&& fHuff ≠ 0)) (decide (act.flags &&& fAddDt ≠ 0))
          (UInt16.ofNat (ps.i + 1)).toNat]

/-- What the parser does at the bytes it is fed, until one fails. -/
def hdrTrace (rd : Rodata) (ctx : MsgCtx) (buf : BlockBuf) :
    List (UInt8 × Nat) → HdrState → List HdrEvent
  | [], _ => []
  | (c, i) :: cs, st =>
    hdrEvents rd { st.ps with i := i } c ++
      match parseHdrByte rd ctx buf { st with ps := { st.ps with i := i } } c with
      | (some _, _) => []
      | (none, st) => hdrTrace rd ctx buf cs st

/-- The bytes of a name, taken along the trie from the state `s` on. -/
def walkEvents (rd : Rodata) : StateId → Bytes → List HdrEvent
  | _, [] => []
  | s, c :: cs => .walk s c :: walkEvents rd (rd.next s c.toNat).1 cs

/-- What has to be done for a string of a field, whose bytes start at the offset `off`. -/
def nameEvents (rd : Rodata) (off : Nat) (s : Str) : List HdrEvent :=
  .run .keyLen s.raw.length s.huff false off ::
    walkEvents rd (if s.huff then sName else sNamePlain) s.raw

def valueEvents (off : Nat) (s : Str) : List HdrEvent :=
  .run .valLen s.raw.length s.huff false off :: s.raw.map .skip

/-- What has to be done for a representation whose bytes `bs` start at the offset `base`. -/
inductive RepEvents (rd : Rodata) (base : Nat) : Rep → Bytes → List HdrEvent → Prop
  | indexed {i : Nat} {bs : Bytes} (hi : 0 < i) (h : IntWire 0x80 0x7F bs i) :
      RepEvents rd base (.indexed i) bs [.run .indexed i false false (base + bs.length)]
  | tableSize {n : Nat} {bs : Bytes} (h : IntWire 0x20 0x1F bs n) :
      RepEvents rd base (.tableSize n) bs [.run .tableSize n false false (base + bs.length)]
  | named {mode : Indexing} {i : Nat} {value : Str} {int len : Bytes} (hi : 0 < i)
      (h : IntWire mode.bits mode.max int i)
      (hv : IntWire (huffBit value.huff) 0x7F len value.raw.length) :
      RepEvents rd base (.literal mode (.idx i) value) (int ++ (len ++ value.raw))
        (.run .idxName i false (decide (mode = .incremental)) (base + int.length) ::
          valueEvents (base + (int ++ len).length) value)
  | new {mode : Indexing} {name value : Str} (c : UInt8) {nlen vlen : Bytes}
      (hc : c.toNat = mode.bits) (hn : IntWire (huffBit name.huff) 0x7F nlen name.raw.length)
      (hv : IntWire (huffBit value.huff) 0x7F vlen value.raw.length) :
      RepEvents rd base (.literal mode (.lit name) value)
        (c :: (nlen ++ name.raw ++ (vlen ++ value.raw)))
        (.run .litName 0 false (decide (mode = .incremental)) (base + 1) ::
          nameEvents rd (base + (c :: nlen).length) name ++
          valueEvents (base + (c :: (nlen ++ name.raw ++ vlen)).length) value)

/-- What has to be done for a header block that starts at the offset `base`. -/
inductive BlockEvents (rd : Rodata) : Nat → List Rep → Bytes → List HdrEvent → Prop
  | nil (base : Nat) : BlockEvents rd base [] [] []
  | cons {base : Nat} {rep : Rep} {reps : List Rep} {bs rest : Bytes} {es es' : List HdrEvent}
      (h : RepEvents rd base rep bs es) (hr : BlockEvents rd (base + bs.length) reps rest es') :
      BlockEvents rd base (rep :: reps) (bs ++ rest) (es ++ es')

/-- The numbers of a representation fit the 32 bits they are read into. -/
def Rep.Fits : Rep → Prop
  | .indexed i => i < 2 ^ 32
  | .literal _ (.idx i) _ => i < 2 ^ 32
  | .literal _ (.lit _) _ => True
  | .tableSize n => n < 2 ^ 32

section Bytes

variable {rd : Rodata} {ctx : MsgCtx} {buf : BlockBuf} {st : HdrState} {c : UInt8}

/-- The event of a byte that runs an action is that run. -/
theorem parseHdrByte_run {kind : Kind} {v off : Nat} {huff add : Bool}
    (h : hdrEvents rd st.ps c = [.run kind v huff add off]) :
    ∃ ps', parseHdrByte rd ctx buf st c = runAction rd ctx buf ⟨st.table, st.pres, ps'⟩ ∧
      ps'.kind = some kind ∧ ps'.v = v ∧ decide (ps'.flags &&& fHuff ≠ 0) = huff ∧
      decide (ps'.flags &&& fAddDt ≠ 0) = add ∧ (UInt16.ofNat (ps'.i + 1)).toNat = off := by
  unfold hdrEvents at h
  by_cases hskip : 0 < st.ps.skip
  · rw [if_pos hskip] at h
    cases hk : st.ps.isKey <;> simp [hk] at h
  rw [if_neg hskip] at h
  cases hkind : (rd.action (rd.next st.ps.s c.toNat).2).kind with
  | none => simp [hkind] at h
  | some k =>
    simp only [hkind] at h
    split at h
    next => cases h
    next hint =>
      simp only [List.cons.injEq, HdrEvent.run.injEq, and_true] at h
      obtain ⟨rfl, hv, hhuff, hadd, hoff⟩ := h
      obtain ⟨hstart, hcont⟩ := not_or.mp hint
      unfold parseHdrByte
      simp only [if_neg hskip, hkind, Option.some.injEq, if_neg hstart, if_neg hcont]
      exact ⟨_, rfl, rfl, hv, hhuff, hadd, hoff⟩

/-- The other bytes run none: they are part of an integer or a string. -/
theorem parseHdrByte_quiet (h : ∀ kind v huff add off,
    hdrEvents rd st.ps c ≠ [.run kind v huff add off]) :
    ∃ ps', parseHdrByte rd ctx buf st c = (none, ⟨st.table, st.pres, ps'⟩) := by
  unfold hdrEvents at h
  unfold parseHdrByte
  by_cases hskip : 0 < st.ps.skip
  · simp only [if_pos hskip]
    exact ⟨_, rfl⟩
  simp only [if_neg hskip] at h ⊢
  cases hkind : (rd.action (rd.next st.ps.s c.toNat).2).kind with
  | none => exact ⟨_, rfl⟩
  | some k =>
    simp only [hkind, Option.some.injEq] at h ⊢
    by_cases hstart : k = .intStart
    · rw [if_pos hstart]
      exact ⟨_, rfl⟩
    by_cases hcont : k = .intCont
    · rw [if_neg hstart, if_pos hcont]
      exact ⟨_, rfl⟩
    rw [if_neg (not_or.mpr ⟨hstart, hcont⟩)] at h
    exact absurd rfl (h _ _ _ _ _)

/-- What is logged of the byte `c` is what the parser does there: it runs the one action, or takes a
byte of a string, or changes nothing but its own state. -/
structure Logged (rd : Rodata) (ctx : MsgCtx) (buf : BlockBuf) (st : HdrState) (c : UInt8) : Prop where
  run : ∀ kind v huff add off, hdrEvents rd st.ps c = [.run kind v huff add off] →
    ∃ ps', parseHdrByte rd ctx buf st c = runAction rd ctx buf ⟨st.table, st.pres, ps'⟩ ∧
      ps'.kind = some kind ∧ ps'.v = v ∧ decide (ps'.flags &&& fHuff ≠ 0) = huff ∧
      decide (ps'.flags &&& fAddDt ≠ 0) = add ∧ (UInt16.ofNat (ps'.i + 1)).toNat = off
  string : 0 < st.ps.skip → hdrEvents rd st.ps c = [if st.ps.isKey then .walk st.ps.s c else .skip c] ∧
    parseHdrByte rd ctx buf st c = (none, { st with ps := skipByte rd st.ps c })
  quiet : (∀ kind v huff add off, hdrEvents rd st.ps c ≠ [.run kind v huff add off]) →
    ∃ ps', parseHdrByte rd ctx buf st c = (none, ⟨st.table, st.pres, ps'⟩)

variable (rd ctx buf st c) in
theorem parseHdrByte_logged : Logged rd ctx buf st c := by
  refine ⟨fun _ _ _ _ _ => parseHdrByte_run, fun hskip => ⟨if_pos hskip, ?_⟩, parseHdrByte_quiet⟩
  unfold parseHdrByte
  simp only [if_pos hskip]

theorem hdrTrace_append (xs ys : List (UInt8 × Nat)) (st : HdrState) :
    hdrTrace rd ctx buf (xs ++ ys) st = hdrTrace rd ctx buf xs st ++
      match feed rd ctx buf xs st with
      | (some _, _) => []
      | (none, st) => hdrTrace rd ctx buf ys st := by
  induction xs generalizing st with
  | nil => rfl
  | cons x xs ih =>
    obtain ⟨c, i⟩ := x
    rw [List.cons_append, hdrTrace, hdrTrace, feed_cons, List.append_assoc]
    congr 1
    generalize parseHdrByte rd ctx buf _ c = r
    obtain ⟨e, st'⟩ := r
    cases e with
    | some e => rfl
    | none => exact ih st'

theorem hdrTrace_single (c : UInt8) (i : Nat) (st : HdrState) :
    hdrTrace rd ctx buf [(c, i)] st = hdrEvents rd { st.ps with i := i } c := by
  rw [hdrTrace]
  generalize parseHdrByte rd ctx buf _ c = r
  obtain ⟨e, st'⟩ := r
  cases e <;> exact List.append_nil _

end Bytes

section Integers

variable {rd : Rodata} {ctx : MsgCtx} {buf : BlockBuf} {s bits max least cont target flags : Nat}
  {kind : Kind}

/-- A byte of a representation that is not one of a string. -/
theorem hdrEvents_rep (hrd : ReadsReps rd) (ps : Http2ParseState) {c : UInt8} {t : StateId}
    {a : Action} (hs : ps.s ∈ repStates) (hskip : ps.skip = 0)
    (he : repEdge ps.s c.toNat = (t, a)) :
    hdrEvents rd ps c = if a.kind = .intStart ∨ a.kind = .intCont then [] else
      [.run a.kind (if a.flags &&& fCont ≠ 0 then addInt ps c else a.val)
        (decide (a.flags &&& fHuff ≠ 0)) (decide (a.flags &&& fAddDt ≠ 0))
        (UInt16.ofNat (ps.i + 1)).toNat] := by
  obtain ⟨-, ha⟩ := hrd ps.s hs c.toNat c.toNat_lt
  rw [he] at ha
  unfold hdrEvents
  simp only [hskip, Nat.lt_irrefl, if_false, ha, Action.toHttp2Action]

/-- The run of the action that an integer leads to, which ends in front of the offset `stop`. -/
def intEvent (kind : Kind) (flags v stop : Nat) : HdrEvent :=
  .run kind v (decide (flags &&& fHuff ≠ 0)) (decide (flags &&& fAddDt ≠ 0))
    (UInt16.ofNat stop).toNat

variable (ctx buf) in
theorem trace_cont (hrd : ReadsReps rd) (hrow : IntRow s bits max least cont target kind flags)
    {bs : Bytes} {n : Nat} (hw : ContWire bs n) (base j : Nat) (st : HdrState)
    (hs : st.ps.s = cont) (hskip : st.ps.skip = 0) (hk : st.ps.k < 2 ^ 32)
    (hm : st.ps.m = 7 * j) (hj : j ≤ 5) :
    hdrTrace rd ctx buf (bs.zipIdx base) st =
      [intEvent kind flags (u32 (st.ps.k + n * 2 ^ (7 * j))) (base + bs.length)] := by
  induction hw generalizing base j st with
  | last c hc =>
    obtain ⟨hcont, hadd, hhuff⟩ := hrow.cont_flags
    have hv := addInt_eq { st.ps with i := base } c hk hm hj
    rw [Nat.mod_eq_of_lt (by omega)] at hv
    have he := hdrEvents_rep hrd { st.ps with i := base } (c := c)
      (by simp only [hs]; exact hrow.cont_mem) hskip
      (by simp only [hs]; exact hrow.last c.toNat hc)
    simp only [if_neg (not_or.mpr hrow.kind_ne), if_pos hcont, hv, hadd, hhuff] at he
    rw [List.zipIdx_singleton, hdrTrace_single, he]
    rfl
  | @more c hc bs n h ih =>
    have hlt := c.toNat_lt
    have hedge := hrow.more c.toNat hlt hc
    have he := hdrEvents_rep hrd { st.ps with i := base } (c := c)
      (by simp only [hs]; exact hrow.cont_mem) hskip (by simp only [hs]; exact hedge)
    have hb := parseHdrByte_rep ctx buf hrd { st with ps := { st.ps with i := base } } c
      (by simp only [hs]; exact hrow.cont_mem) hskip (by simp only [hs]; exact hedge)
    simp only [reduceCtorEq, or_true, if_false, if_true] at he hb
    have hv := addInt_eq { st.ps with i := base } c hk hm hj
    have hmod : c.toNat % 128 = c.toNat - 0x80 := by omega
    rw [hmod] at hv
    rw [List.zipIdx_cons, hdrTrace, he, hb, List.nil_append]
    simp only
    rw [ih (base + 1) (min (j + 1) 5)]
    · simp only
      rw [hv, cont_value st.ps.k (c.toNat - 0x80) n hj, List.length_cons]
      congr 2
      omega
    · rfl
    · exact hskip
    · simp only [hv]
      exact u32_lt _
    · simp only [hm]
      split <;> omega
    · exact Nat.min_le_right _ _

variable (ctx buf) in
/-- The bytes of an integer run one action, once its value is known. -/
theorem trace_int (hrd : ReadsReps rd) (hrow : IntRow s bits max least cont target kind flags)
    {bs : Bytes} {n : Nat} (hw : IntWire bits max bs n) (hn : least ≤ n) (base : Nat)
    {st : HdrState} (hs : st.ps.s = s) (hskip : st.ps.skip = 0) :
    hdrTrace rd ctx buf (bs.zipIdx base) st =
      [intEvent kind flags (u32 n) (base + bs.length)] := by
  have hlt := hrow.bits_lt
  cases hw with
  | short c hv hc =>
    have he := hdrEvents_rep hrd { st.ps with i := base } (c := c)
      (by simp only [hs]; exact hrow.s_mem) hskip
      (by simp only [hs, hc]; exact hrow.short n hv hn)
    simp only [if_neg (not_or.mpr hrow.kind_ne), hrow.flags_cont, ne_eq, not_true_eq_false,
      if_false] at he
    rw [List.zipIdx_singleton, hdrTrace_single, he, u32_of_lt (by omega)]
    rfl
  | @long c hc bs n h =>
    have hedge := hrow.long
    have he := hdrEvents_rep hrd { st.ps with i := base } (c := c)
      (by simp only [hs]; exact hrow.s_mem) hskip (by simp only [hs, hc]; exact hedge)
    have hb := parseHdrByte_rep ctx buf hrd { st with ps := { st.ps with i := base } } c
      (by simp only [hs]; exact hrow.s_mem) hskip (by simp only [hs, hc]; exact hedge)
    simp only [true_or, if_true] at he hb
    rw [List.zipIdx_cons, hdrTrace, he, hb, List.nil_append]
    simp only
    rw [trace_cont ctx buf hrd hrow h (base + 1) 0]
    · simp only [Nat.mul_zero, Nat.pow_zero, Nat.mul_one, List.length_cons]
      congr 2
      omega
    · rfl
    · exact hskip
    · simp only
      omega
    · rfl
    · omega

end Integers

section Representations

variable {rd : Rodata} {ctx : MsgCtx} {buf : BlockBuf} {src : HttpMatchSource} {t : DynamicTable}
  {pres : HttpParseRes} {st : HdrState} {add : Bool} {cid : Option Nat} {key : HttpMatch}

variable (ctx buf) in
theorem trace_skip (raw : Bytes) (base : Nat) (st : HdrState) (hs : st.ps.skip = raw.length) :
    hdrTrace rd ctx buf (raw.zipIdx base) st =
      if st.ps.isKey then walkEvents rd st.ps.s raw else raw.map .skip := by
  induction raw generalizing base st with
  | nil => cases st.ps.isKey <;> rfl
  | cons c raw ih =>
    have hpos : 0 < st.ps.skip := by simp [hs]
    have hsub : st.ps.skip - 1 = raw.length := by simp [hs]
    have hb : parseHdrByte rd ctx buf { st with ps := { st.ps with i := base } } c =
        (none, { st with ps := skipByte rd { st.ps with i := base } c }) := by
      unfold parseHdrByte
      simp only [hpos, if_true]
    rw [List.zipIdx_cons, hdrTrace, hb]
    simp only
    rw [ih (base + 1) _ hsub]
    unfold hdrEvents
    simp only [hpos, if_true, skipByte, hsub]
    cases hk : st.ps.isKey with
    | false => rfl
    | true =>
      cases raw with
      | nil => rfl
      | cons d raw =>
        simp only [if_true, List.length_cons, Nat.add_one_ne_zero, if_false]
        rfl

/-- An offset that is kept in 16 bits. -/
theorem toNat_ofNat_stop {stop : Nat} (h : stop < 2 ^ 16) : (UInt16.ofNat stop).toNat = stop :=
  UInt16.toNat_ofNat_of_lt' h

/-- The length that is read for a string that is announced to be of the length `n`. -/
theorem u32_len {n : Nat} (h : n < 2 ^ 15) : u32 n = n ∧ u32 n % 2 ^ 15 = n := by
  rw [u32_of_lt (by omega)]
  exact ⟨rfl, Nat.mod_eq_of_lt h⟩

variable (ctx buf) in
theorem trace_name (hrd : ReadsReps rd) (h : AtName src t pres add st) {s : Str} {int : Bytes}
    (hint : IntWire (huffBit s.huff) 0x7F int s.raw.length) (base : Nat)
    (hlen : s.raw.length < 2 ^ 15) (hoff : base + int.length < 2 ^ 16) :
    hdrTrace rd ctx buf ((int ++ s.raw).zipIdx base) st =
      nameEvents rd (base + int.length) s := by
  obtain ⟨ps', hf, ha⟩ := feed_int ctx buf hrd (keyLenRow s.huff) hint (Nat.zero_le _) base h.s
    h.skip
  obtain ⟨hv, hvl⟩ := u32_len hlen
  have he : intEvent .keyLen (if s.huff then fHuff else 0) (u32 s.raw.length) (base + int.length) =
      .run .keyLen s.raw.length s.huff false (base + int.length) := by
    unfold intEvent
    rw [hv, toNat_ofNat_stop hoff, huffFlag]
    cases s.huff <;> rfl
  rw [List.zipIdx_append, hdrTrace_append, hf,
    trace_int ctx buf hrd (keyLenRow s.huff) hint (Nat.zero_le _) base h.s h.skip, he]
  unfold runAction
  simp only [ha.kind, ha.v, hvl]
  by_cases hraw : s.raw = []
  · simp only [nameEvents, hraw, List.length_nil, List.zipIdx_nil]
    rfl
  · have hpos : s.raw.length ≠ 0 := fun hz => hraw (List.length_eq_zero_iff.mp hz)
    rw [trace_skip ctx buf _ _ _ rfl]
    simp only [hpos, if_true, if_false, ha.s]
    rfl

variable (ctx buf) in
theorem trace_value (hrd : ReadsReps rd) (h : AtValue src t pres add cid key st) {s : Str}
    {int : Bytes} (hint : IntWire (huffBit s.huff) 0x7F int s.raw.length) (base : Nat)
    (hlen : s.raw.length < 2 ^ 15) (hoff : base + int.length < 2 ^ 16) :
    hdrTrace rd ctx buf ((int ++ s.raw).zipIdx base) st = valueEvents (base + int.length) s := by
  obtain ⟨ps', hf, ha⟩ := feed_int ctx buf hrd (valLenRow s.huff) hint (Nat.zero_le _) base h.s
    h.skip
  obtain ⟨hv, hvl⟩ := u32_len hlen
  have he : intEvent .valLen (if s.huff then fHuff else 0) (u32 s.raw.length) (base + int.length) =
      .run .valLen s.raw.length s.huff false (base + int.length) := by
    unfold intEvent
    rw [hv, toNat_ofNat_stop hoff, huffFlag]
    cases s.huff <;> rfl
  rw [List.zipIdx_append, hdrTrace_append, hf,
    trace_int ctx buf hrd (valLenRow s.huff) hint (Nat.zero_le _) base h.s h.skip, he]
  unfold runAction
  simp only [ha.kind, ha.v, hvl]
  rw [trace_skip ctx buf _ _ _ rfl]
  rfl

variable (ctx buf) in
theorem trace_new (hrd : ReadsReps rd) (h : AtField src t pres st) {mode : Indexing} {c : UInt8}
    (hc : c.toNat = mode.bits) {base : Nat} (hoff : base + 1 < 2 ^ 16) :
    hdrTrace rd ctx buf [(c, base)] st =
      [.run .litName 0 false (decide (mode = .incremental)) (base + 1)] := by
  have he : repEdge st.ps.s c.toNat =
      (sKeyLen, ⟨.litName, 0, if mode = .incremental then fAddDt else 0⟩) := by
    rw [h.s, hc]
    cases mode <;> decide
  have hb := hdrEvents_rep hrd { st.ps with i := base } (c := c)
    (by simp only [h.s]; decide) h.skip he
  rw [hdrTrace_single, hb]
  simp only [reduceCtorEq, or_self, if_false, toNat_ofNat_stop hoff]
  cases mode <;> rfl

variable (ctx buf) in
/-- The bytes of a representation do what the representation asks for. -/
theorem trace_rep (hrd : ReadsReps rd) (h : AtField src t pres st) {rep : Rep} {bs : Bytes}
    (hw : RepWire id rep bs) (hfit : rep.Fits) (base : Nat) (hlen : bs.length < 2 ^ 15)
    (hoff : base + bs.length < 2 ^ 16) :
    RepEvents rd base rep bs (hdrTrace rd ctx buf (bs.zipIdx base) st) := by
  cases hw with
  | @indexed i _ hi hint =>
    rw [trace_int ctx buf hrd indexedRow hint hi base h.s h.skip, intEvent, u32_of_lt hfit,
      toNat_ofNat_stop hoff]
    exact .indexed hi hint
  | @tableSize n _ hint =>
    rw [trace_int ctx buf hrd tableSizeRow hint (Nat.zero_le _) base h.s h.skip, intEvent,
      u32_of_lt hfit, toNat_ofNat_stop hoff]
    exact .tableSize hint
  | @named mode i value int vs hi hint hv =>
    cases hv with
    | @mk len n hlenw hn =>
    subst hn
    simp only [List.length_append] at hlen hoff
    obtain ⟨st1, hf1, hst1⟩ := exec_named ctx buf hrd h hi hint base
    have he : intEvent .idxName (if mode = .incremental then fAddDt else 0) (u32 i)
        (base + int.length) =
        .run .idxName i false (decide (mode = .incremental)) (base + int.length) := by
      rw [intEvent, u32_of_lt hfit, toNat_ofNat_stop (by omega)]
      cases mode <;> rfl
    rw [List.zipIdx_append, hdrTrace_append, hf1,
      trace_int ctx buf hrd (namedRow mode) hint hi base h.s h.skip, he]
    simp only
    rw [trace_value ctx buf hrd hst1 hlenw _ (by omega) (by omega), Nat.add_assoc,
      ← List.length_append]
    exact .named hi hint hlenw
  | @new mode name value ns vs c hc hn hv =>
    cases hn with
    | @mk nlen n hnlen hn =>
    cases hv with
    | @mk vlen m hvlen hm =>
    subst hn hm
    simp only [List.length_cons, List.length_append] at hlen hoff
    obtain ⟨st1, hf1, hst1⟩ := exec_new ctx buf hrd h hc base
    have hname : StrWire readLen name (nlen ++ name.raw) :=
      .mk hnlen (Nat.mod_eq_of_lt (show name.raw.length < 2 ^ 15 by omega))
    obtain ⟨st2, hf2, hst2⟩ := exec_name ctx buf hrd hst1 hname (base + 1)
    have hsplit : (c :: (nlen ++ name.raw ++ (vlen ++ value.raw))).zipIdx base =
        [(c, base)] ++ ((nlen ++ name.raw).zipIdx (base + 1) ++
          (vlen ++ value.raw).zipIdx (base + 1 + (nlen ++ name.raw).length)) := by
      rw [List.zipIdx_cons, List.zipIdx_append]
      rfl
    have hfirst := trace_new ctx buf hrd h hc (show base + 1 < 2 ^ 16 by omega)
    have hn := trace_name ctx buf hrd hst1 hnlen (base + 1) (by omega) (by omega)
    have hv := trace_value ctx buf hrd hst2 hvlen (base + 1 + (nlen ++ name.raw).length)
      (by omega) (by rw [List.length_append]; omega)
    have hns : base + 1 + nlen.length = base + (c :: nlen).length := by
      rw [List.length_cons]
      omega
    have hvs : base + 1 + (nlen ++ name.raw).length + vlen.length =
        base + (c :: (nlen ++ name.raw ++ vlen)).length := by
      simp only [List.length_cons, List.length_append]
      omega
    rw [hsplit, hdrTrace_append, hf1, hfirst]
    simp only
    rw [hdrTrace_append, hf2, hn, hns]
    simp only
    rw [hv, hvs]
    exact .new c hc hnlen hvlen

variable (ctx buf) in
/-- What the parser has to do for a block is what it does, and in front of every representation of
it is where a field is read from, with no byte of a string left. -/
theorem trace_block (hrd : ReadsReps rd) {reps : List Rep} {block : Bytes}
    (hw : BlockWire id reps block) (hfit : ∀ rep ∈ reps, rep.Fits) (base : Nat)
    (hlen : block.length < 2 ^ 15) (hoff : base + block.length < 2 ^ 16)
    (h : AtField src t pres st) :
    BlockEvents rd base reps block (hdrTrace rd ctx buf (block.zipIdx base) st) ∧
      ∀ front back, reps = front ++ back → ∃ bs rest st', block = bs ++ rest ∧
        BlockWire id front bs ∧ BlockWire id back rest ∧
        feed rd ctx buf (bs.zipIdx base) st = (none, st') ∧ st'.ps.s = sField ∧
        st'.ps.skip = 0 := by
  induction hw generalizing base t pres st with
  | nil =>
    refine ⟨.nil base, ?_⟩
    intro front back hfb
    obtain ⟨rfl, rfl⟩ := List.append_eq_nil_iff.mp hfb.symm
    exact ⟨[], [], st, rfl, .nil, .nil, rfl, h.s, h.skip⟩
  | @cons rep reps bs rest hr hw ih =>
    rw [List.length_append] at hlen hoff
    have hread : RepWire readLen rep bs :=
      hr.congr fun n hn => Nat.mod_eq_of_lt (by simp only [id_eq] at hn; omega)
    obtain ⟨nameStop, st1, -, hf1, hst1⟩ := exec_rep ctx buf hrd h hread base
    have hrep := trace_rep ctx buf hrd h hr (hfit rep List.mem_cons_self) base (by omega)
      (by omega)
    obtain ⟨hrest, hsplits⟩ := ih (fun r hm => hfit r (List.mem_cons_of_mem rep hm))
      (base + bs.length) (by omega) (by omega) hst1
    constructor
    · rw [List.zipIdx_append, hdrTrace_append, hf1]
      exact .cons hrep hrest
    · intro front back hfb
      cases front with
      | nil =>
        refine ⟨[], bs ++ rest, st, rfl, .nil, ?_, rfl, h.s, h.skip⟩
        rw [List.nil_append] at hfb
        exact hfb ▸ .cons hr hw
      | cons r front =>
        obtain ⟨rfl, htail⟩ := List.cons.inj hfb
        obtain ⟨bs', rest', st', rfl, hfront, hback, hf', hs', hskip'⟩ := hsplits front back htail
        refine ⟨bs ++ bs', rest', st', (List.append_assoc _ _ _).symm, .cons hr hfront, hback, ?_,
          hs', hskip'⟩
        rw [List.zipIdx_append, feed_append, hf1]
        exact hf'

/-- What the parser does with the bytes of a block is what its representations ask for, each of them
starts and ends in the state a field is read from, with no byte of a string left, and what is logged
of a byte is what is done there. -/
structure Undone (rd : Rodata) (ctx : MsgCtx) (buf : BlockBuf) (base : Nat) (reps : List Rep)
    (block : Bytes) (st : HdrState) : Prop where
  events : BlockEvents rd base reps block (hdrTrace rd ctx buf (block.zipIdx base) st)
  between : ∀ front back, reps = front ++ back → ∃ bs rest st', block = bs ++ rest ∧
    BlockWire id front bs ∧ BlockWire id back rest ∧
    feed rd ctx buf (bs.zipIdx base) st = (none, st') ∧ st'.ps.s = sField ∧ st'.ps.skip = 0
  logged : ∀ front c back e st', block = front ++ c :: back →
    feed rd ctx buf (front.zipIdx base) st = (e, st') →
    Logged rd ctx buf { st' with ps := { st'.ps with i := base + front.length } } c

/-- Reading a block undoes encoding it, however its integers and strings are encoded. -/
theorem feed_undoes {encode : Bytes → Option Bytes} {captures : List (Bytes × MatchId)}
    (h : Attached encode captures rd) {reps : List Rep} {block : Bytes}
    (hw : BlockWire id reps block) (hfit : ∀ rep ∈ reps, rep.Fits) (hmax : block.length ≤ maxBytes)
    (ctx : MsgCtx) (buf : BlockBuf) {base : Nat} (hoff : base + block.length < 2 ^ 16)
    (hs : st.ps.s = sField) (hskip : st.ps.skip = 0) : Undone rd ctx buf base reps block st := by
  have hlen : block.length < 2 ^ 15 := by
    unfold maxBytes at hmax
    omega
  have hat : AtField st.ps.src st.table st.pres st := ⟨hs, hskip, rfl, rfl, rfl⟩
  obtain ⟨hevents, hbetween⟩ := trace_block ctx buf h.readsReps hw hfit base hlen
    hoff hat
  exact ⟨hevents, hbetween, fun _ c _ _ _ _ _ => parseHdrByte_logged rd ctx buf _ c⟩

end Representations

/-- A field with a new name and a Huffman coded value, and an index in more bytes than it takes. -/
theorem feed_undoesTwo : ∃ rd, Attached (fun s => some (Huffman.encode s)) [] rd ∧
    Undone rd ⟨[], tableConn⟩ .zero 9
      [.literal .incremental (.lit ⟨false, [0x61]⟩) ⟨true, [0x1f]⟩, .indexed 0x7F]
      [0x40, 0x01, 0x61, 0x81, 0x1f, 0xff, 0x80, 0x00]
      ⟨⟨.new, Maps.init.dynamicTable, []⟩, .zero, newHttp2ParseState .msg⟩ := by
  obtain ⟨rd, ha⟩ := @attached_exists (fun s => some (Huffman.encode s)) fun s => ⟨_, rfl⟩
  have hname : StrWire id ⟨false, [0x61]⟩ ([0x01] ++ [0x61]) :=
    .mk (.short 0x01 (by decide) (by decide)) rfl
  have hvalue : StrWire id ⟨true, [0x1f]⟩ ([0x81] ++ [0x1f]) :=
    .mk (.short 0x81 (by decide) (by decide)) rfl
  have hindex : IntWire 0x80 0x7F [0xff, 0x80, 0x00] 0x7F :=
    .long 0xff (by decide) (.more 0x80 (by decide) (.last 0x00 (by decide)))
  have hw : BlockWire id [.literal .incremental (.lit ⟨false, [0x61]⟩) ⟨true, [0x1f]⟩,
      .indexed 0x7F] [0x40, 0x01, 0x61, 0x81, 0x1f, 0xff, 0x80, 0x00] :=
    .cons (.new 0x40 rfl hname hvalue) (.cons (.indexed (by decide) hindex) .nil)
  refine ⟨rd, ha, feed_undoes ha hw ?_ (by decide) _ _ (by decide) rfl rfl⟩
  intro rep hm
  rcases List.mem_pair.mp hm with rfl | rfl
  · exact trivial
  · exact show 0x7F < 2 ^ 32 by decide

end Beeper.Http2
