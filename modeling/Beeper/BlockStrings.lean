import Beeper.NamedEntries

namespace Beeper.Http2

/-- What a literal field has in front of the length of its value, the way the parser reads it: an
index, or a literal name that `n` bytes are announced for. -/
inductive Opens (mode : Indexing) : Name → Nat → Bytes → Prop
  | idx {i : Nat} {bs : Bytes} (hi : 0 < i) (h : IntWire mode.bits mode.max bs i) :
      Opens mode (.idx i) 0 bs
  | lit (c : UInt8) (hc : c.toNat = mode.bits) {s : Str} {int : Bytes} {n : Nat}
      (h : IntWire (huffBit s.huff) 0x7F int n) (hlen : readLen n = s.raw.length) :
      Opens mode (.lit s) n (c :: (int ++ s.raw))

/-- The bytes a name takes up behind its length. -/
def Name.size : Name → Nat
  | .idx _ => 0
  | .lit s => s.raw.length

/-- The length of a value, with the fields in front of its own one, wherever the parser finds one
in `block`. -/
structure ValueAt (block : Bytes) where
  reps : List Rep
  front : Bytes
  mode : Indexing
  name : Name
  nameLength : Nat
  opening : Bytes
  huff : Bool
  length : Nat
  int : Bytes
  back : Bytes
  fields : BlockWire readLen reps front
  opens : Opens mode name nameLength opening
  wire : IntWire (huffBit huff) 0x7F int length
  split : block = front ++ (opening ++ (int ++ back))

variable {block : Bytes}

/-- Where the value starts. -/
def ValueAt.start (f : ValueAt block) : Nat := (f.front ++ (f.opening ++ f.int)).length

/-- Neither the name nor the value is announced to be longer than what is left of the block, of which
`unread` bytes are not read. -/
def ValueAt.Inside (f : ValueAt block) (unread : Nat) : Prop :=
  f.nameLength ≤ f.name.size + (f.int ++ f.back).length + unread ∧
    f.length ≤ f.back.length + unread

/-- A string of the block is recorded, or an entry is added to the table. -/
def Writes (st st' : HdrState) : Prop :=
  (∃ i, st'.pres.ms i ≠ st.pres.ms i ∧ (st'.pres.ms i).source ≠ .table) ∨
    newEntries st.table st'.table ≠ 0

/-- Reading the bytes `bs` changes nothing but the state of the parser, at none of them. -/
def Quiet (rd : Rodata) (ctx : MsgCtx) (buf : BlockBuf) (base : Nat) (bs : Bytes) (st : HdrState) :
    Prop :=
  ∀ xs ys, bs = xs ++ ys → ∃ ps', feed rd ctx buf (xs.zipIdx base) st = (none, ⟨st.table, st.pres, ps'⟩)

variable {rd : Rodata} {ctx : MsgCtx} {buf : BlockBuf} {src : HttpMatchSource} {t : DynamicTable}
  {pres : HttpParseRes} {st st' : HdrState} {base : Nat} {bs : Bytes}

section Quiet

theorem Quiet.append {xs ys : Bytes} {ps : Http2ParseState} (h : Quiet rd ctx buf base xs st)
    (hf : feed rd ctx buf (xs.zipIdx base) st = (none, ⟨st.table, st.pres, ps⟩))
    (h' : Quiet rd ctx buf (base + xs.length) ys ⟨st.table, st.pres, ps⟩) :
    Quiet rd ctx buf base (xs ++ ys) st := by
  intro as bs hs
  rcases List.append_eq_append_iff.mp hs with ⟨m, rfl, hb⟩ | ⟨m, rfl, hb⟩
  · obtain ⟨ps', hm⟩ := h' m bs hb
    refine ⟨ps', ?_⟩
    rw [List.zipIdx_append, feed_append, hf]
    exact hm
  · exact h as m rfl

variable {s bits max least cont target flags : Nat} {kind : Kind}

variable (ctx buf) in
/-- The bytes of an integer that goes on run no action. -/
theorem feed_cont_front (hrd : ReadsReps rd) (hrow : IntRow s bits max least cont target kind flags)
    {n : Nat} (hw : ContWire bs n) (base : Nat) (st : HdrState) (hs : st.ps.s = cont)
    (hskip : st.ps.skip = 0) {xs ys : Bytes} (hb : bs = xs ++ ys) (hne : ys ≠ []) :
    ∃ ps', feed rd ctx buf (xs.zipIdx base) st = (none, ⟨st.table, st.pres, ps'⟩) := by
  induction hw generalizing base st xs with
  | last c hc =>
    cases xs with
    | nil => exact ⟨_, rfl⟩
    | cons d xs =>
      have hnil := (List.cons.inj hb).2
      exact absurd (List.append_eq_nil_iff.mp hnil.symm).2 hne
  | @more c hc bs n h ih =>
    cases xs with
    | nil => exact ⟨_, rfl⟩
    | cons d xs =>
      obtain ⟨rfl, hrest⟩ := List.cons.inj hb
      have hbyte := parseHdrByte_rep ctx buf hrd { st with ps := { st.ps with i := base } } c
        (by simp only [hs]; exact hrow.cont_mem) hskip
        (by simp only [hs]; exact hrow.more c.toNat c.toNat_lt hc)
      simp only [reduceCtorEq, if_false, if_true] at hbyte
      obtain ⟨ps, hbyte, hs', hskip'⟩ : ∃ ps, parseHdrByte rd ctx buf
          { st with ps := { st.ps with i := base } } c = (none, ⟨st.table, st.pres, ps⟩) ∧
          ps.s = cont ∧ ps.skip = 0 := ⟨_, hbyte, rfl, hskip⟩
      rw [List.zipIdx_cons, feed_cons, hbyte]
      exact ih (base + 1) ⟨st.table, st.pres, ps⟩ hs' hskip' hrest

variable (ctx buf) in
theorem feed_int_front (hrd : ReadsReps rd) (hrow : IntRow s bits max least cont target kind flags)
    {n : Nat} (hw : IntWire bits max bs n) (base : Nat) (hs : st.ps.s = s) (hskip : st.ps.skip = 0)
    {xs ys : Bytes} (hb : bs = xs ++ ys) (hne : ys ≠ []) :
    ∃ ps', feed rd ctx buf (xs.zipIdx base) st = (none, ⟨st.table, st.pres, ps'⟩) := by
  cases xs with
  | nil => exact ⟨_, rfl⟩
  | cons d xs =>
    cases hw with
    | short c hv hc =>
      have hnil := (List.cons.inj hb).2
      exact absurd (List.append_eq_nil_iff.mp hnil.symm).2 hne
    | @long c hc bs n h =>
      obtain ⟨rfl, hrest⟩ := List.cons.inj hb
      have hbyte := parseHdrByte_rep ctx buf hrd { st with ps := { st.ps with i := base } } c
        (by simp only [hs]; exact hrow.s_mem) hskip
        (by simp only [hs, hc]; exact hrow.long)
      simp only [if_true] at hbyte
      obtain ⟨ps, hbyte, hs', hskip'⟩ : ∃ ps, parseHdrByte rd ctx buf
          { st with ps := { st.ps with i := base } } c = (none, ⟨st.table, st.pres, ps⟩) ∧
          ps.s = cont ∧ ps.skip = 0 := ⟨_, hbyte, rfl, hskip⟩
      rw [List.zipIdx_cons, feed_cons, hbyte]
      exact feed_cont_front ctx buf hrd hrow h (base + 1) ⟨st.table, st.pres, ps⟩ hs' hskip' hrest
        hne

/-- An integer whose action changes nothing but the state of the parser. -/
theorem quiet_int (hrd : ReadsReps rd) (hrow : IntRow s bits max least cont target kind flags)
    {n : Nat} (hw : IntWire bits max bs n) (hs : st.ps.s = s) (hskip : st.ps.skip = 0)
    {ps : Http2ParseState}
    (hf : feed rd ctx buf (bs.zipIdx base) st = (none, ⟨st.table, st.pres, ps⟩)) :
    Quiet rd ctx buf base bs st := by
  intro xs ys hb
  by_cases hne : ys = []
  · subst hne
    rw [List.append_nil] at hb
    rw [← hb]
    exact ⟨ps, hf⟩
  · exact feed_int_front ctx buf hrd hrow hw base hs hskip hb hne

variable (rd ctx buf) in
/-- The bytes of a string. -/
theorem quiet_string (raw : Bytes) (base : Nat) (st : HdrState) (hs : st.ps.skip = raw.length) :
    Quiet rd ctx buf base raw st := by
  induction raw generalizing base st with
  | nil =>
    intro xs ys hb
    rw [(List.append_eq_nil_iff.mp hb.symm).1]
    exact ⟨_, rfl⟩
  | cons c raw ih =>
    intro xs ys hb
    cases xs with
    | nil => exact ⟨_, rfl⟩
    | cons d xs =>
      obtain ⟨rfl, hrest⟩ := List.cons.inj hb
      have hbyte : parseHdrByte rd ctx buf { st with ps := { st.ps with i := base } } c =
          (none, { st with ps := skipByte rd { st.ps with i := base } c }) := by
        unfold parseHdrByte
        simp only [hs, List.length_cons, Nat.zero_lt_succ, if_true]
      rw [List.zipIdx_cons, feed_cons, hbyte]
      refine ih (base + 1) ⟨st.table, st.pres, _⟩ ?_ xs ys hrest
      simp only [skipByte, hs, List.length_cons, Nat.add_sub_cancel]

end Quiet

section Fields

theorem Quiet.single {c : UInt8} {ps : Http2ParseState}
    (hf : feed rd ctx buf [(c, base)] st = (none, ⟨st.table, st.pres, ps⟩)) :
    Quiet rd ctx buf base [c] st := by
  intro xs ys hb
  cases xs with
  | nil => exact ⟨_, rfl⟩
  | cons d xs =>
    obtain ⟨rfl, hrest⟩ := List.cons.inj hb
    rw [(List.append_eq_nil_iff.mp hrest.symm).1]
    exact ⟨ps, hf⟩

theorem AtValue.eq {add : Bool} {cid : Option Nat} {key : HttpMatch} (h : AtField src t pres st)
    (h' : AtValue src t pres add cid key st') : st' = ⟨st.table, st.pres, st'.ps⟩ := by
  rw [h.table, h.pres, ← h'.table, ← h'.pres]

variable (ctx buf) in
/-- The literal name of a field is taken along the trie, whatever it is. -/
theorem quiet_name (hrd : ReadsReps rd) {add : Bool} (h : AtName src t pres add st) {s : Str}
    {int : Bytes} {n : Nat} (hw : IntWire (huffBit s.huff) 0x7F int n)
    (hlen : readLen n = s.raw.length) (base : Nat) :
    Quiet rd ctx buf base (int ++ s.raw) st := by
  obtain ⟨ps, hf, ha⟩ := feed_int ctx buf hrd (keyLenRow s.huff) hw (Nat.zero_le n) base h.s h.skip
  obtain ⟨hv, -⟩ := readLen_eq base hw.ne_nil hlen
  unfold runAction at hf
  simp only [ha.kind, ha.v, hv] at hf
  refine (quiet_int hrd (keyLenRow s.huff) hw h.s h.skip hf).append hf ?_
  exact quiet_string rd ctx buf s.raw _ _ rfl

variable (ctx buf) in
/-- What a literal field has in front of its value is read to the state the value is read from. -/
theorem Opens.reads (hrd : ReadsReps rd) (h : AtField src t pres st) {mode : Indexing} {name : Name}
    {n : Nat} {opening : Bytes} (ho : Opens mode name n opening) (base : Nat) :
    Quiet rd ctx buf base opening st ∧
      ∃ st', feed rd ctx buf (opening.zipIdx base) st = (none, st') ∧
        AtValue src t pres (decide (mode = .incremental))
          (nameRead rd ctx.conn src (base + opening.length) t name).1
          (nameRead rd ctx.conn src (base + opening.length) t name).2 st' := by
  cases ho with
  | idx hi hint =>
    obtain ⟨st', hf, hst⟩ := exec_named ctx buf hrd h hi hint base
    refine ⟨?_, st', hf, hst⟩
    rw [AtValue.eq h hst] at hf
    exact quiet_int hrd (namedRow mode) hint h.s h.skip hf
  | @lit c hc s int n hint hlen =>
    obtain ⟨st1, hf1, hst1⟩ := exec_new ctx buf hrd h hc base
    obtain ⟨st', hf, hst⟩ := exec_name ctx buf hrd hst1 (.mk hint hlen) (base + 1)
    have hst1' : st1 = ⟨st.table, st.pres, st1.ps⟩ := by
      rw [h.table, h.pres, ← hst1.table, ← hst1.pres]
    have hstop : base + 1 + (int ++ s.raw).length = base + (c :: (int ++ s.raw)).length := by
      rw [List.length_cons]
      omega
    rw [hstop] at hst
    refine ⟨?_, st', ?_, hst⟩
    · have hname := quiet_name ctx buf hrd hst1 hint hlen (base + 1)
      rw [hst1'] at hf1 hname
      exact (Quiet.single hf1).append hf1 hname
    · rw [List.zipIdx_cons, ← List.singleton_append, feed_append, hf1]
      exact hf

end Fields

section Insertions

variable {conn : Ip4Conn} {items : List DynamicTableEntry} {entry : DynamicTableEntry}

theorem newEntries_of_running {t' : DynamicTable} (h : t'.info.running = t.info.running) :
    newEntries t t' = 0 := by
  rw [newEntries, h, u32Sub_of_le (Nat.le_refl _), Nat.sub_self]

theorem newEntries_self (t : DynamicTable) : newEntries t t = 0 := newEntries_of_running rfl

/-- An entry is stored if it is no larger than the table, and there is room for it. -/
theorem Holds.insertEntry_new (h : Holds conn t items) (he : entry.size ≤ maxEntrySize) :
    newEntries t (insertEntry conn t entry).2 ≠ 0 ↔
      entry.size ≤ t.info.maxSize ∧ MapRoom conn t entry := by
  have hev := tryEvictDynamicTableEntries_evicted h h.count.symm he
  unfold insertEntry MapRoom
  generalize tryEvictDynamicTableEntries conn entry.size t.info.count t = r at hev ⊢
  have hs := hev.holds.size_le
  have hz := hev.holds.size
  have hl := hev.holds.length_le
  simp only [mapMaxEntries, maxEntrySize] at hs hl he
  have hu : u32 (r.2.info.size + entry.size) = r.2.info.size + entry.size :=
    u32_of_lt (by omega)
  have hold : newEntries t r.2 = 0 := newEntries_of_running hev.running
  simp only [hu, hev.maxSize]
  split
  next hbig =>
    simp only [hold, ne_eq, not_true_eq_false, false_iff]
    rintro ⟨hle, -⟩
    have hroom := WeightedQueue.trim_total_le DynamicTableEntry.size items hle
    omega
  next hfit =>
    have hidx : u32 (dynamicTableBase + t.info.count + t.info.deleted) =
        u32 (dynamicTableBase + r.2.info.running) := by
      rw [hev.running]
      simp only [DynamicTableInfo.running, u32]
      omega
    split
    next hfull =>
      simp only [hold, ne_eq, not_true_eq_false, false_iff]
      rintro ⟨-, hroom⟩
      exact Nat.ne_of_lt (hroom (Nat.not_lt.mp hfit)) (BoundedMap.update_eq_none hfull).2
    next entries hup =>
      have habsent : r.2.entries.lookup ⟨conn, u32 (dynamicTableBase + t.info.count +
          t.info.deleted)⟩ = none := by
        have hc := hev.holds.count
        refine hev.holds.store.absent fun j hj hk => ?_
        rw [hidx] at hk
        simp only [DynamicTableInfo.running, u32] at hk
        omega
      have hgrew := (hev.grew.trans (Grew.stored entry entries hev.holds)).1
      rw [Nat.zero_add] at hgrew
      have hone : newEntries t (storedEntry r.2 entry entries) ≠ 0 := by
        have hlt : t.info.running < 2 ^ 32 := u32_lt _
        rw [newEntries, hgrew]
        simp only [u32Sub, u32_eq]
        split <;> omega
      exact ⟨fun _ => ⟨by omega, fun _ => BoundedMap.card_lt_of_update hup habsent⟩, fun _ => hone⟩

/-- A field with this name and this value is added to the table `t`. -/
def Adds (conn : Ip4Conn) (t : DynamicTable) (name value : Option (Bytes × Bool)) : Prop :=
  t.info.dirty = 0 ∧ ∃ k w entry, name = some k ∧ value = some w ∧ sizedEntry k w = some entry ∧
    entry.size ≤ t.info.maxSize ∧ MapRoom conn t entry

theorem Holds.adds_iff (h : Holds ctx.conn t items) (key val : HttpMatch) :
    newEntries t (addDynamicTableEntry rd ctx buf t key val).2 ≠ 0 ↔
      Adds ctx.conn t (getMatch rd ctx buf t.entries key true)
        (getMatch rd ctx buf t.entries val false) := by
  unfold addDynamicTableEntry Adds
  split
  next hd => simp [newEntries_self, hd]
  next hd =>
  split
  next hk => simp [newEntries_self, hk]
  next k hk =>
  split
  next hv => simp [newEntries_self, hv]
  next w hv =>
  split
  next hs =>
    have hdirty : newEntries t t.setDirty = 0 := newEntries_of_running rfl
    simp [hdirty, hk, hv, hs]
  next entry hs =>
  rw [h.insertEntry_new (sizedEntry_size_le (getMatch_length_le hk) (getMatch_length_le hv) hs)]
  simp [hk, hv, hs, not_not.mp hd]

end Insertions

section Values

variable {v : View} {items : List DynamicTableEntry}

theorem Legible.front {front back : Bytes} (h : Legible rd v (front ++ back)) :
    Legible rd v front where
  src := h.src
  small := by
    have hs := h.small
    rw [List.length_append] at hs
    omega
  read entries i len huff isKey hi hl := by
    rw [h.read entries i len huff isKey (by rw [List.length_append]; omega) hl]
    unfold slice
    rw [List.drop_append_of_le_length (by omega), List.take_append_of_le_length]
    rw [List.length_drop]
    omega

/-- The name of a field is the one that it is added to the table under. -/
theorem Opens.key (hv : Legible rd v block) {mode : Indexing} {name : Name} {n : Nat}
    {front opening back : Bytes} (ho : Opens mode name n opening)
    (hb : block = front ++ (opening ++ back)) (t : DynamicTable) :
    (nameRead rd v.ctx.conn v.src (v.base + (front ++ opening).length) t name).1 =
        nameCapture rd v.ctx.conn t name ∧
      getMatch rd v.ctx v.buf t.entries
        (nameRead rd v.ctx.conn v.src (v.base + (front ++ opening).length) t name).2 true =
        nameBytes rd v.ctx.conn t name := by
  cases ho with
  | idx hi hint => exact ⟨rfl, getMatch_table v.ctx v.buf t.entries (slotOf_le _ _) 0 true⟩
  | @lit c hc s int n hint hlen =>
    refine ⟨rfl, ?_⟩
    obtain ⟨hloc, hread⟩ := hv.located (s := s) (show block = front ++ (c :: int) ++ s.raw ++ back by
        rw [hb]
        simp only [List.append_assoc, List.cons_append])
      (by rw [← hlen]; exact Nat.mod_lt _ (by decide))
    have hstop : (front ++ (c :: (int ++ s.raw))).length = (front ++ (c :: int) ++ s.raw).length := by
      simp only [List.append_assoc, List.cons_append]
    rw [nameRead, hstop, hloc]
    exact hread t.entries true

/-- The table in front of the field. -/
def ValueAt.table (f : ValueAt block) (rd : Rodata) (conn : Ip4Conn) (t : DynamicTable) :
    DynamicTable := tableAfter rd conn f.reps t

/-- The match of the value, which has the low 15 bits of the length that is announced. -/
def ValueAt.located (f : ValueAt block) (v : View) : HttpMatch :=
  v.at f.start (readLen f.length) f.huff

/-- The name of the field is captured, or the field is added to the table. -/
def ValueAt.Taken (f : ValueAt block) (rd : Rodata) (v : View) (t : DynamicTable) : Prop :=
  nameCapture rd v.ctx.conn (f.table rd v.ctx.conn t) f.name ≠ none ∨
    f.mode = .incremental ∧ Adds v.ctx.conn (f.table rd v.ctx.conn t)
      (nameBytes rd v.ctx.conn (f.table rd v.ctx.conn t) f.name)
      (getMatch rd v.ctx v.buf (f.table rd v.ctx.conn t).entries (f.located v) false)

/-- The parser comes to the length of a value with what the fields in front of it mean, and goes on
with the value captured and the field added, wherever the value ends. -/
theorem ValueAt.reads (f : ValueAt block) (hrd : ReadsReps rd) (hv : Legible rd v block)
    (t : DynamicTable) : ∃ pres key st ps,
    feed rd v.ctx v.buf ((f.front ++ f.opening).zipIdx v.base) ⟨t, .zero, newHttp2ParseState v.src⟩ =
        (none, st) ∧
      AtValue v.src (f.table rd v.ctx.conn t) pres (decide (f.mode = .incremental))
        (nameCapture rd v.ctx.conn (f.table rd v.ctx.conn t) f.name) key st ∧
      feed rd v.ctx v.buf (f.int.zipIdx (v.base + (f.front ++ f.opening).length)) st =
        (none, ⟨added rd v.ctx v.buf (f.table rd v.ctx.conn t) (decide (f.mode = .incremental)) key
          (f.located v), captured pres
            (nameCapture rd v.ctx.conn (f.table rd v.ctx.conn t) f.name) (f.located v), ps⟩) ∧
      getMatch rd v.ctx v.buf (f.table rd v.ctx.conn t).entries key true =
        nameBytes rd v.ctx.conn (f.table rd v.ctx.conn t) f.name ∧
      ∀ i, ∃ c, Shows v f.front (pres.ms i) c := by
  have hblock := f.split
  have hfront : Legible rd v f.front := Legible.front
    (show Legible rd v (f.front ++ (f.opening ++ (f.int ++ f.back))) from hblock ▸ hv)
  obtain ⟨pres, st1, hf1, hst1, hshows⟩ := feed_meaning hrd hfront f.fields
    (show f.front = [] ++ f.front ++ [] by rw [List.nil_append, List.append_nil])
    (show AtField v.src t .zero ⟨t, .zero, newHttp2ParseState v.src⟩ from ⟨rfl, rfl, rfl, rfl, rfl⟩)
    (fun _ => .unset)
  rw [List.length_nil, Nat.add_zero] at hf1
  obtain ⟨-, st2, hf2, hst2⟩ := f.opens.reads v.ctx v.buf hrd hst1 (v.base + f.front.length)
  obtain ⟨hcap, hkey⟩ := f.opens.key hv hblock (f.table rd v.ctx.conn t)
  have hstop : v.base + f.front.length + f.opening.length =
      v.base + (f.front ++ f.opening).length := by
    rw [List.length_append, Nat.add_assoc]
  rw [hstop] at hst2
  obtain ⟨ps, hf3, -⟩ := exec_length v.ctx v.buf hrd hst2 f.wire
    (v.base + (f.front ++ f.opening).length)
  have hval : valueMatch v.src (v.base + (f.front ++ f.opening).length + f.int.length) f.length
      f.huff = f.located v := by
    rw [ValueAt.located, ValueAt.start, View.at, valueMatch, ← List.append_assoc f.front,
      @List.length_append _ (f.front ++ f.opening), Nat.add_assoc]
  rw [hval] at hf3
  refine ⟨pres, _, st2, ps, ?_, hcap ▸ hst2, hcap ▸ hf3, hkey, fun i => ⟨_, hshows i⟩⟩
  rw [List.zipIdx_append, feed_append, hf1]
  exact hf2

end Values

section Steps

variable {items : List DynamicTableEntry} {conn : Ip4Conn} {c : UInt8} {sa sb : HdrState}
  {e : Option Errno} {rep : Rep}

theorem append_cons_cases {α : Type} {as bs xs ys : List α} {a : α} (h : as ++ bs = xs ++ a :: ys) :
    (∃ m, as = xs ++ a :: m ∧ ys = m ++ bs) ∨ ∃ m, xs = as ++ m ∧ bs = m ++ a :: ys := by
  rcases List.append_eq_append_iff.mp h with ⟨m, rfl, hb⟩ | ⟨m, rfl, hb⟩
  · exact .inr ⟨m, rfl, hb⟩
  · cases m with
    | nil => exact .inr ⟨[], by rw [List.append_nil, List.append_nil], hb.symm⟩
    | cons b m =>
      obtain ⟨rfl, hys⟩ := List.cons.inj hb
      exact .inl ⟨m, rfl, hys⟩

/-- The representation that a byte of a block is part of. -/
theorem BlockWire.at {len : Nat → Nat} {reps : List Rep} {pre more : Bytes}
    (h : BlockWire len reps (pre ++ c :: more)) : ∃ reps' front part rep rest,
      pre = front ++ part ∧ BlockWire len reps' front ∧ RepWire len rep (part ++ c :: rest) := by
  generalize hb : pre ++ c :: more = block at h
  induction h generalizing pre with
  | nil => exact absurd hb (by simp)
  | @cons rep reps bs rest hr hrest ih =>
    rcases append_cons_cases hb.symm with ⟨m, rfl, -⟩ | ⟨pre', rfl, hpre'⟩
    · exact ⟨[], [], pre, rep, m, rfl, .nil, hr⟩
    · obtain ⟨reps', front, part, rep', w, rfl, hfront, hrep⟩ := ih hpre'.symm
      exact ⟨rep :: reps', bs ++ front, part, rep', w, (List.append_assoc _ _ _).symm,
        .cons hr hfront, hrep⟩

/-- A literal field has a name, and the length of a value in front of it. -/
theorem RepWire.literal {mode : Indexing} {name : Name} {value : Str}
    (h : RepWire readLen (.literal mode name value) bs) : ∃ nameLength opening int n,
      Opens mode name nameLength opening ∧ IntWire (huffBit value.huff) 0x7F int n ∧
      readLen n = value.raw.length ∧ bs = opening ++ (int ++ value.raw) := by
  cases h with
  | named hi hint hv =>
    cases hv with
    | mk hlen heq => exact ⟨_, _, _, _, .idx hi hint, hlen, heq, rfl⟩
  | new c hc hn hv =>
    cases hn with
    | mk hname hneq =>
    cases hv with
    | mk hlen heq => exact ⟨_, _, _, _, .lit c hc hname hneq, hlen, heq, by
        simp only [List.cons_append, List.append_assoc]⟩

theorem Quiet.not_writes (h : Quiet rd ctx buf base bs st) {xs ys : Bytes} (hb : bs = xs ++ c :: ys)
    (ha : feed rd ctx buf (xs.zipIdx base) st = (none, sa))
    (hb' : feed rd ctx buf ((xs ++ [c]).zipIdx base) st = (e, sb)) : ¬Writes sa sb := by
  obtain ⟨ps, hx⟩ := h xs (c :: ys) hb
  obtain ⟨ps', hxc⟩ := h (xs ++ [c]) ys (by rw [hb, List.append_assoc]; rfl)
  rw [ha] at hx
  rw [hb'] at hxc
  obtain ⟨-, rfl⟩ := Prod.mk.inj hx
  obtain ⟨-, rfl⟩ := Prod.mk.inj hxc
  rintro (⟨i, hne, -⟩ | hnew)
  · exact hne rfl
  · exact hnew (newEntries_self _)

/-- The bytes of an integer are quiet but for the last one. -/
theorem int_not_writes (hrd : ReadsReps rd) {s bits max least cont target flags n : Nat} {kind : Kind}
    (hrow : IntRow s bits max least cont target kind flags) (hw : IntWire bits max bs n)
    (hs : st.ps.s = s) (hskip : st.ps.skip = 0) {xs ys : Bytes} (hb : bs = xs ++ c :: ys)
    (ha : feed rd ctx buf (xs.zipIdx base) st = (none, sa))
    (hb' : feed rd ctx buf ((xs ++ [c]).zipIdx base) st = (e, sb)) (hwrites : Writes sa sb) :
    ys = [] ∧ sa.table = st.table ∧ sa.pres = st.pres := by
  obtain ⟨ps, hx⟩ := feed_int_front ctx buf hrd hrow hw base hs hskip hb (by simp)
  rw [ha] at hx
  obtain ⟨-, rfl⟩ := Prod.mk.inj hx
  refine ⟨?_, rfl, rfl⟩
  by_contra hne
  obtain ⟨ps', hxc⟩ := feed_int_front ctx buf hrd hrow hw base hs hskip
    (show bs = xs ++ [c] ++ ys by rw [hb, List.append_assoc]; rfl) hne
  rw [hb'] at hxc
  obtain ⟨-, rfl⟩ := Prod.mk.inj hxc
  rcases hwrites with ⟨i, hdiff, -⟩ | hnew
  · exact hdiff rfl
  · exact hnew (newEntries_self _)

theorem Holds.newEntries_resized (h : Holds conn t items) (n : Nat) :
    newEntries t (resized conn t n) = 0 := newEntries_of_running (h.resize n).running

/-- Within a representation, strings are recorded and entries are added at the length of a value
only. -/
theorem RepWire.writes (hrd : ReadsReps rd) (h : AtField src t pres st) (hi : Holds ctx.conn t items)
    {part rest : Bytes} (hw : RepWire readLen rep (part ++ c :: rest))
    (ha : feed rd ctx buf (part.zipIdx base) st = (none, sa))
    (hb : feed rd ctx buf ((part ++ [c]).zipIdx base) st = (e, sb)) (hwrites : Writes sa sb) :
    ∃ mode name nameLength opening huff n int, Opens mode name nameLength opening ∧
      IntWire (huffBit huff) 0x7F int n ∧ part ++ [c] = opening ++ int := by
  generalize hbs : part ++ c :: rest = bs at hw
  cases rep with
  | indexed i =>
    cases hw with
    | indexed hpos hint =>
    obtain ⟨rfl, htable, hpres⟩ := int_not_writes hrd indexedRow hint h.s h.skip hbs.symm ha hb hwrites
    obtain ⟨st', hf, hst⟩ := exec_indexed ctx buf hrd h hpos hint base
    rw [← hbs, hb] at hf
    obtain ⟨-, rfl⟩ := Prod.mk.inj hf
    exfalso
    rcases hwrites with ⟨j, hne, hsrc⟩ | hnew
    · rw [hst.pres, hpres, h.pres] at hne
      rw [hst.pres] at hsrc
      cases hc : refCapture rd ctx.conn t (u32 i) with
      | none =>
        rw [hc] at hne
        exact hne rfl
      | some mid =>
        simp only [hc, captured, HttpParseRes.set, Function.update_apply] at hne hsrc
        split at hsrc
        · exact hsrc rfl
        next hj =>
          rw [if_neg hj] at hne
          exact hne rfl
    · rw [hst.table, htable, h.table] at hnew
      exact hnew (newEntries_self _)
  | tableSize n =>
    cases hw with
    | tableSize hint =>
    obtain ⟨rfl, htable, hpres⟩ := int_not_writes hrd tableSizeRow hint h.s h.skip hbs.symm ha hb
      hwrites
    obtain ⟨st', hf, hst⟩ := exec_tableSize ctx buf hrd h hint base
    rw [← hbs, hb] at hf
    obtain ⟨-, rfl⟩ := Prod.mk.inj hf
    exfalso
    rcases hwrites with ⟨j, hne, -⟩ | hnew
    · rw [hst.pres, hpres, h.pres] at hne
      exact hne rfl
    · rw [hst.table, htable, h.table] at hnew
      exact hnew (hi.newEntries_resized _)
  | literal mode name value =>
    obtain ⟨nameLength, opening, int, n, hopens, hint, hlen, rfl⟩ := hw.literal
    obtain ⟨hquiet, st1, hf1, hst1⟩ := hopens.reads ctx buf hrd h base
    rcases append_cons_cases hbs.symm with ⟨m, hopening, -⟩ | ⟨part', rfl, hvalue⟩
    · exact absurd hwrites (hquiet.not_writes hopening ha hb)
    have ha' : feed rd ctx buf (part'.zipIdx (base + opening.length)) st1 = (none, sa) := by
      rw [List.zipIdx_append, feed_append, hf1] at ha
      exact ha
    have hb' : feed rd ctx buf ((part' ++ [c]).zipIdx (base + opening.length)) st1 = (e, sb) := by
      rw [List.append_assoc, List.zipIdx_append, feed_append, hf1] at hb
      exact hb
    rcases append_cons_cases hvalue with ⟨m, hlength, -⟩ | ⟨part'', rfl, hraw⟩
    · obtain ⟨rfl, -, -⟩ := int_not_writes hrd (valLenRow value.huff) hint hst1.s hst1.skip hlength
        ha' hb' hwrites
      exact ⟨mode, name, nameLength, opening, value.huff, n, int, hopens, hint, by
        rw [List.append_assoc, hlength]⟩
    · obtain ⟨ps, hf2, hskip, -⟩ := exec_length ctx buf hrd hst1 hint (base + opening.length)
      rw [List.zipIdx_append, feed_append, hf2] at ha'
      rw [List.append_assoc, List.zipIdx_append, feed_append, hf2] at hb'
      exact absurd hwrites ((quiet_string rd ctx buf value.raw _ _ (hskip.trans hlen)).not_writes hraw
        ha' hb')

end Steps

end Beeper.Http2
