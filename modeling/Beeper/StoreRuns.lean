import Beeper.BlockOutcome
import Beeper.Fragmentation
import Beeper.Loaded
import Beeper.StoreInvariant

namespace Beeper.Http2

/-- The state of the table of `conn`, which is empty as long as nothing was read. -/
def Maps.infoOf (maps : Maps) (conn : Ip4Conn) : DynamicTableInfo :=
  (maps.dynamicTableInfo.lookup conn).getD .new

/-- The number of entries a call added to the table of `conn`, by which the running count of the
entries ever added went up. -/
def insertions (maps maps' : Maps) (conn : Ip4Conn) : Nat :=
  u32Sub (maps'.infoOf conn).running (maps.infoOf conn).running

/-- The states of the maps that calls lead to, with the number of entries added to the table of
every connection since it was last forgotten. -/
inductive Run (rd : Rodata) : Maps → (Ip4Conn → Nat) → Prop
  | init : Run rd .init fun _ => 0
  | msg {maps : Maps} {ins : Ip4Conn → Nat} (h : Run rd maps ins) (msg : SkMsg)
      (pres : HttpParseRes) (frame : Http2Frame) :
      Run rd (parseMsg rd maps msg pres frame).maps fun conn =>
        ins conn + insertions maps (parseMsg rd maps msg pres frame).maps conn
  | skb {maps : Maps} {ins : Ip4Conn → Nat} (h : Run rd maps ins) (skb : SkBuff) (off : Nat)
      (pres : HttpParseRes) (frame : Http2Frame) (p : Option Nat) :
      Run rd (parseSkb rd maps skb off pres frame p).maps fun conn =>
        ins conn + insertions maps (parseSkb rd maps skb off pres frame p).maps conn
  | forget {maps maps' : Maps} {ins : Ip4Conn → Nat} (h : Run rd maps ins) (conn : Ip4Conn)
      (hf : forgetConn maps conn = some maps') : Run rd maps' (Function.update ins conn 0)

section Forget

variable {maps maps' : Maps} {conn : Ip4Conn}

theorem deleteEntries_lookup (conn : Ip4Conn) (first n : Nat) (entries : DynamicTableMap)
    (k : DynamicTableKey) : (deleteEntries conn first n entries).lookup k =
      if k.conn = conn ∧ first ≤ k.idx ∧ k.idx < first + n then none else entries.lookup k := by
  induction n generalizing first entries with
  | zero => simp only [deleteEntries, show ¬(first ≤ k.idx ∧ k.idx < first + 0) by omega, and_false,
      if_false]
  | succ n ih =>
    rw [deleteEntries, ih, BoundedMap.lookup_erase]
    obtain ⟨c, idx⟩ := k
    simp only [DynamicTableKey.mk.injEq]
    by_cases hc : c = conn
    · by_cases hi : idx = first
      · simp [hc, hi]
      · have hiff : (first + 1 ≤ idx ∧ idx < first + 1 + n) ↔
            (first ≤ idx ∧ idx < first + (n + 1)) := by omega
        simp only [hc, hi, true_and, hiff, and_false, if_false]
    · simp [hc]

/-- Forgetting a connection removes all of it and nothing else. -/
theorem forgetConn_spec (hs : StoreOk maps) (h : forgetConn maps conn = some maps') :
    maps'.dynamicTableInfo.lookup conn = none ∧
      (∀ idx, maps'.dynamicTable.lookup ⟨conn, idx⟩ = none) ∧
      (∀ c, c ≠ conn → SameConn c maps maps') ∧ maps'.errors = maps.errors := by
  unfold forgetConn at h
  split at h
  next hn =>
    cases Option.some.inj h
    exact ⟨hn, (hs.stored conn).absent hn, fun c _ => .refl c maps, rfl⟩
  next info hi =>
    simp only at h
    split at h
    · simp at h
    next hlt =>
    obtain ⟨items, ho⟩ := (hs.stored conn).present info hi
    have hc : info.count = items.length := ho.count
    cases Option.some.inj h
    refine ⟨by simp, fun idx => ?_, fun c hne => ⟨?_, fun idx => ?_⟩, rfl⟩
    · rw [deleteEntries_lookup]
      split
      next => rfl
      next hk =>
        have habs := ho.store.isSome_iff_of_le (k := idx)
          (by simp only [Maps.table]; omega)
        cases hl : maps.dynamicTable.lookup ⟨conn, idx⟩ with
        | none => rfl
        | some e =>
          refine absurd ⟨rfl, ?_⟩ hk
          rw [hc]
          exact habs.mp (by simp only [Maps.table, hl, Option.isSome_some])
    · simp [hne]
    · rw [deleteEntries_lookup, if_neg (by simp [hne])]

theorem forgetConn_storeOk (hs : StoreOk maps) (h : forgetConn maps conn = some maps') :
    StoreOk maps' := by
  obtain ⟨hn, he, hsame, herr⟩ := forgetConn_spec hs h
  refine ⟨fun c => ?_, herr.trans hs.errors⟩
  by_cases hc : c = conn
  · subst c
    exact ⟨fun _ => he, fun info hi => by simp [hn] at hi⟩
  · exact (hsame c hc).stored (hs.stored c)

end Forget

section Counts

variable {maps maps' : Maps} {conn : Ip4Conn} {header : Prop} {ann : Option Nat}

theorem SameConn.infoOf (h : SameConn conn maps maps') : maps'.infoOf conn = maps.infoOf conn := by
  unfold Maps.infoOf
  rw [h.info]

theorem MapsStep.grew (h : MapsStep conn header ann maps maps') (hs : StoreOk maps) :
    ∃ k ≤ maxBytes, Grew k (maps.infoOf conn) (maps'.infoOf conn) := by
  have hset : ∀ {m m' : Maps} {info : DynamicTableInfo} {t : DynamicTable} {k : Nat},
      getDynamicTable m conn = (some info, m') → Grew k info t.info →
      Grew k (m.infoOf conn) ((m'.setTable conn t).infoOf conn) := by
    intro m m' info t k hg hgr
    obtain ⟨-, -, -, hl, hi, -⟩ := getDynamicTable_some hg
    simp only [Maps.infoOf, ← hi, setTable_lookup hl, Option.getD_some]
    exact hgr
  cases h with
  | same buf => exact ⟨0, by omega, .refl _⟩
  | @walk buf info m n t _ hg hn hw =>
    have hs' : Stored { maps with blockBuf := buf } conn :=
      (sameConn_buf conn maps buf).stored (hs.stored conn)
    obtain ⟨items, hi⟩ := hs'.holds hg
    obtain ⟨-, -, k, hk, hgr⟩ := hw.holds hi
    have hset' := hset hg hgr
    exact ⟨k, by omega, hset'⟩
  | settings hg => exact ⟨0, by omega, hset hg (.refl _)⟩

theorem insertions_eq {k : Nat} (hk : k ≤ maxBytes)
    (h : Grew k (maps.infoOf conn) (maps'.infoOf conn)) : insertions maps maps' conn = k := by
  have hr : (maps.infoOf conn).running < 2 ^ 32 := u32_lt _
  unfold maxBytes at hk
  simp only [insertions, h.1, u32_eq, u32Sub]
  split <;> omega

theorem SameConn.insertions_eq (h : SameConn conn maps maps') : insertions maps maps' conn = 0 := by
  simp [insertions, h.infoOf, u32Sub]

end Counts

variable {rd : Rodata} {maps : Maps} {ins : Ip4Conn → Nat}

/-- The running count is exact while it fits into 32 bits. -/
def Counted (maps : Maps) (ins : Ip4Conn → Nat) : Prop :=
  ∀ conn, ins conn < 2 ^ 32 →
    (maps.infoOf conn).deleted + (maps.infoOf conn).count = ins conn

theorem MapsStep.counted {maps' : Maps} {conn : Ip4Conn} {header : Prop} {ann : Option Nat}
    (h : MapsStep conn header ann maps maps') (hs : StoreOk maps) (hc : Counted maps ins) :
    Counted maps' fun c => ins c + insertions maps maps' c := by
  intro c hlt
  by_cases hcc : c = conn
  · subst c
    obtain ⟨k, hk, hg⟩ := h.grew hs
    simp only [insertions_eq hk hg] at hlt ⊢
    have := hc conn (by omega)
    rw [hg.2 (by omega), this]
  · have hsame := (h.storeOk hs).2 c hcc
    simp only [hsame.insertions_eq, Nat.add_zero] at hlt ⊢
    rw [hsame.infoOf]
    exact hc c hlt

/-- What every run keeps. -/
theorem Run.invariant (h : Run rd maps ins) : StoreOk maps ∧ Counted maps ins := by
  induction h with
  | init => exact ⟨.init, fun conn _ => rfl⟩
  | @msg maps ins h msg pres frame ih =>
    have hstep := parseMsg_step rd maps msg pres frame
    exact ⟨(hstep.storeOk ih.1).1, hstep.counted ih.1 ih.2⟩
  | @skb maps ins h skb off pres frame p ih =>
    have hstep := parseSkb_step rd maps skb off pres frame p
    exact ⟨(hstep.storeOk ih.1).1, hstep.counted ih.1 ih.2⟩
  | @forget maps maps' ins h conn hf ih =>
    refine ⟨forgetConn_storeOk ih.1 hf, fun c hlt => ?_⟩
    obtain ⟨hn, -, hsame, -⟩ := forgetConn_spec ih.1 hf
    by_cases hc : c = conn
    · subst c
      simp [Maps.infoOf, hn, DynamicTableInfo.new]
    · rw [Function.update_of_ne hc] at hlt ⊢
      rw [(hsame c hc).infoOf]
      exact ih.2 c hlt

/-- The size of the entry of `conn` at the index `idx`, if there is one. -/
def entrySize (maps : Maps) (conn : Ip4Conn) (idx : Nat) : Nat :=
  ((maps.dynamicTable.lookup ⟨conn, idx⟩).map DynamicTableEntry.size).getD 0

/-- What the maps hold and do about the connection `conn`, `ins` entries of which were added. -/
structure ConnSound (rd : Rodata) (maps : Maps) (ins : Nat) (conn : Ip4Conn) : Prop where
  /-- A connection without a `dynamic_table_info` has no entries. -/
  absent : maps.dynamicTableInfo.lookup conn = none →
    ∀ idx, maps.dynamicTable.lookup ⟨conn, idx⟩ = none
  /-- The keys of its entries are the ones its counters span. -/
  keys : ∀ info, maps.dynamicTableInfo.lookup conn = some info → ins < 2 ^ 32 - 62 →
    ∀ idx, (maps.dynamicTable.lookup ⟨conn, idx⟩).isSome ↔
      dynamicTableBase + info.deleted ≤ idx ∧ idx < dynamicTableBase + info.deleted + info.count
  /-- Its size is that of the entries under these keys. -/
  size : ∀ info, maps.dynamicTableInfo.lookup conn = some info → ins < 2 ^ 32 - 62 →
    info.size = ((List.range info.count).map fun j =>
      entrySize maps conn (dynamicTableBase + info.deleted + j)).sum
  /-- Wherever a header block is left off, evicting takes what it frees off the size, and finds
  an entry in every round. -/
  evicts : ∀ info maps' ctx buf bytes pres ps n v,
    getDynamicTable maps conn = (some info, maps') → ctx.conn = conn → n ≤ maxEntrySize →
    let t := (feed rd ctx buf bytes ⟨maps'.table info, pres, ps⟩).2.table
    let r := tryEvictDynamicTableEntries conn n t.info.count (t.setMaxSize v)
    r.1 + r.2.info.size = t.info.size ∧ r.2.errors = []
  /-- What an index and a match resolve to depends on no entry of another connection. -/
  isolated : ∀ entries errors,
    (∀ idx, entries.lookup ⟨conn, idx⟩ = maps.dynamicTable.lookup ⟨conn, idx⟩) →
    (∀ info idx, getTableEntry rd conn ⟨info, entries, errors⟩ idx =
      getTableEntry rd conn (maps.table info) idx) ∧
    ∀ ctx buf m isKey, ctx.conn = conn →
      getMatch rd ctx buf entries m isKey = getMatch rd ctx buf maps.dynamicTable m isKey
  /-- Calls on other connections leave it alone. -/
  apart : (∀ msg pres frame, msg.conn ≠ conn →
      SameConn conn maps (parseMsg rd maps msg pres frame).maps) ∧
    ∀ skb off pres frame p, skb.conn ≠ conn →
      SameConn conn maps (parseSkb rd maps skb off pres frame p).maps
  /-- Forgetting it leaves nothing of it, and the other connections as they were. -/
  forgets : ∀ maps', forgetConn maps conn = some maps' →
    maps'.dynamicTableInfo.lookup conn = none ∧
      (∀ idx, maps'.dynamicTable.lookup ⟨conn, idx⟩ = none) ∧
      ∀ c, c ≠ conn → SameConn c maps maps'

theorem sum_range_eq (items : List DynamicTableEntry) {f : Nat → Nat}
    (h : ∀ j (hj : j < items.length), f j = items[j].size) :
    ((List.range items.length).map f).sum = WeightedQueue.total DynamicTableEntry.size items := by
  unfold WeightedQueue.total
  congr 1
  apply List.ext_getElem (by simp)
  intro j hj _
  simpa using h j (by simpa using hj)

/-- The invariant of the two maps over whole runs, and what follows from it. -/
theorem run_connSound (h : Run rd maps ins) :
    maps.errors = [] ∧ ∀ conn, ConnSound rd maps (ins conn) conn := by
  obtain ⟨hs, hc⟩ := h.invariant
  refine ⟨hs.errors, fun conn => ?_⟩
  have hbound : ∀ info, maps.dynamicTableInfo.lookup conn = some info →
      ins conn < 2 ^ 32 - 62 → dynamicTableBase + info.deleted + info.count ≤ 2 ^ 32 := by
    intro info hi hlt
    have := hc conn (by omega)
    simp only [Maps.infoOf, hi, Option.getD_some] at this
    unfold dynamicTableBase
    omega
  refine ⟨(hs.stored conn).absent, ?_, ?_, ?_, ?_, ⟨?_, ?_⟩, ?_⟩
  · intro info hi hlt idx
    obtain ⟨items, ho⟩ := (hs.stored conn).present info hi
    have hcount : info.count = items.length := ho.count
    rw [hcount]
    exact ho.store.isSome_iff_of_le (by rw [← hcount]; exact hbound info hi hlt)
  · intro info hi hlt
    obtain ⟨items, ho⟩ := (hs.stored conn).present info hi
    have hcount : info.count = items.length := ho.count
    have hb := hbound info hi hlt
    rw [hcount, sum_range_eq items]
    · exact ho.size
    · intro j hj
      have hl := ho.store.lookup (List.getElem?_eq_getElem hj)
      simp only [Maps.table] at hl
      rw [Nat.mod_eq_of_lt (by omega)] at hl
      simp [entrySize, hl]
  · intro info maps' ctx buf bytes pres ps n v hg hctx hn
    obtain ⟨items, hi⟩ := (hs.stored conn).holds hg
    subst hctx
    have hw := feed_walk rd ctx buf bytes ⟨maps'.table info, pres, ps⟩
    obtain ⟨⟨items', ho⟩, hk, -⟩ := hw.holds hi
    have he := tryEvictDynamicTableEntries_evicted (ho.setMaxSize v) ho.count.symm hn
    obtain ⟨-, hr, -⟩ := getDynamicTable_some hg
    exact ⟨he.freed, (he.keeps.errors.trans hk.errors).trans (hr.trans hs.errors)⟩
  · intro entries errors he
    refine ⟨fun info idx => ?_, fun ctx buf m isKey hctx => ?_⟩
    · unfold getTableEntry
      simp only [he]
      rfl
    · subst hctx
      unfold getMatch
      simp only [he]
  · intro msg pres frame hne
    exact ((parseMsg_step rd maps msg pres frame).storeOk hs).2 conn (Ne.symm hne)
  · intro skb off pres frame p hne
    exact ((parseSkb_step rd maps skb off pres frame p).storeOk hs).2 conn (Ne.symm hne)
  · intro maps' hf
    obtain ⟨hn, he, hsame, -⟩ := forgetConn_spec hs hf
    exact ⟨hn, he, hsame⟩

section Frames

variable {m : Maps} {info : DynamicTableInfo} {conn : Ip4Conn} {reps : List Rep} {block : Bytes}

/-- What a message leaves of the tables that holds a single frame with a few fields. -/
theorem plainFrame_tables (hrd : ReadsReps rd) (hw : BlockWire readLen reps block)
    (hl : block.length ≤ 100) (hg : getDynamicTable maps conn = (some info, m)) :
    SameTables (m.setTable conn (blockMeaning rd conn reps (m.table info) fun _ => none).1)
      (parseMsg rd maps (linearMsg (plainFrame block).bytes conn true) .zero
        (newHttp2Frame [] 0)).maps := by
  have hplain := plainFrame_plain block
  have hblock : (plainFrame block).block = block := rfl
  have hsmall : http2FrameHdrLen + block.length ≤ maxBytes := by
    unfold http2FrameHdrLen maxBytes
    omega
  have h9 : http2FrameHdrLen ≤ (plainFrame block).bytes.length := by
    rw [Whole.bytes_length]
    exact Nat.le_add_right _ _
  obtain ⟨-, hread⟩ := @Whole.read (linearMsg (plainFrame block).bytes conn true) []
    (plainFrame block) rd maps (newHttp2Frame [] 0) (List.append_nil _).symm h9 rfl
    (by simp [plainFrame]) [] [] hplain.parts hsmall
  have hlegible := (hplain.exact rd conn maps.blockBuf
    (show http2FrameHdrLen + block.length < 2 ^ 16 by unfold maxBytes at hsmall; omega)).legible
  obtain ⟨-, htable, -⟩ := feed_block hrd hlegible hw (m.table info)
  obtain ⟨-, hmaps, -⟩ := hread.walk info m hg
  rw [← htable]
  exact hmaps

theorem getDynamicTable_fresh (conn : Ip4Conn) : ∃ m, getDynamicTable .init conn = (some .new, m) ∧
    m.table .new = ⟨.new, .empty, []⟩ := by
  obtain ⟨m, hg⟩ := getDynamicTable_init conn
  obtain ⟨he, hr, -⟩ := getDynamicTable_some hg
  refine ⟨m, hg, ?_⟩
  unfold Maps.table
  rw [he, hr]
  rfl

/-- A field with a name and a value of one byte each. -/
def shortRep (c d : UInt8) : Rep := .literal .incremental (.lit ⟨false, [c]⟩) ⟨false, [d]⟩

theorem shortRep_wire {len : Nat → Nat} (c d : UInt8) (h : len 1 = 1) :
    RepWire len (shortRep c d) [0x40, 0x01, c, 0x01, d] :=
  .new 0x40 rfl (letter_wire c h) (letter_wire d h)

end Frames

def tableConn : Ip4Conn := ⟨⟨1, 1⟩, ⟨2, 2⟩⟩

/-- A field, a size that just it fits into, and another field, which takes the place of the first. -/
def turnover : List Rep := [shortRep 0x61 0x62, .tableSize 34, shortRep 0x63 0x64]

def turnoverBlock : Bytes := [0x40, 0x01, 0x61, 0x01, 0x62, 0x3f, 0x03, 0x40, 0x01, 0x63, 0x01, 0x64]

theorem turnover_wire {len : Nat → Nat} (h : len 1 = 1) : BlockWire len turnover turnoverBlock := by
  have hsize : IntWire 0x20 0x1F [0x3f, 0x03] 34 := .long 0x3f (by decide) (.last 0x03 (by decide))
  have hw := BlockWire.cons (shortRep_wire 0x61 0x62 h)
    (.cons (.tableSize hsize) (.cons (shortRep_wire 0x63 0x64 h) .nil))
  exact hw

theorem turnover_info (rd : Rodata) : (blockMeaning rd tableConn turnover ⟨.new, .empty, []⟩
    fun _ => none).1.info = ⟨1, 34, 34, 1, 0⟩ := by
  have hu : u32 34 = 34 := u32_of_lt (by decide)
  unfold blockMeaning turnover shortRep
  simp only [List.foldl_cons, List.foldl_nil, meaning, if_true, nameBytes, hu]
  decide +kernel

/-- Two fields are added, the first of them is evicted, and the connection is forgotten. -/
theorem turnover_connSound : ∃ rd maps maps' ins,
    Attached (fun s => some (Huffman.encode s)) [] rd ∧
    maps.dynamicTableInfo.lookup tableConn = some ⟨1, 34, 34, 1, 0⟩ ∧
    forgetConn maps tableConn = some maps' ∧
    (maps.errors = [] ∧ ∀ conn, ConnSound rd maps (ins conn) conn) ∧
    (maps'.errors = [] ∧
      ∀ conn, ConnSound rd maps' (Function.update ins tableConn 0 conn) conn) := by
  obtain ⟨rd, ha⟩ := @attached_exists (fun s => some (Huffman.encode s)) fun s => ⟨_, rfl⟩
  obtain ⟨m, hg, hm⟩ := getDynamicTable_fresh tableConn
  have htables := plainFrame_tables ha.readsReps (turnover_wire rfl) (by decide) hg
  obtain ⟨-, -, -, hl, -⟩ := getDynamicTable_some hg
  have hinfo := htables.infos ▸ setTable_lookup hl (blockMeaning rd tableConn turnover
    (m.table .new) fun _ => none).1
  rw [hm, turnover_info] at hinfo
  have hrun := @Run.msg rd _ _ .init (linearMsg (plainFrame turnoverBlock).bytes tableConn true)
    .zero (newHttp2Frame [] 0)
  have hforget : ∃ maps', forgetConn (parseMsg rd .init
      (linearMsg (plainFrame turnoverBlock).bytes tableConn true) .zero
      (newHttp2Frame [] 0)).maps tableConn = some maps' := by
    unfold forgetConn
    rw [hinfo]
    exact ⟨_, rfl⟩
  obtain ⟨maps', hf⟩ := hforget
  exact ⟨rd, _, maps', _, ha, hinfo, hf, run_connSound hrun, run_connSound (.forget hrun tableConn hf)⟩

end Beeper.Http2
