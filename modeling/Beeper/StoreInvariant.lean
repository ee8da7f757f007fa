import Beeper.Calls

namespace Beeper.Http2

/-- The entries of `conn` are stored where its `dynamic_table_info` says, and a connection without
one has no entries. -/
structure Stored (maps : Maps) (conn : Ip4Conn) : Prop where
  absent : maps.dynamicTableInfo.lookup conn = none →
    ∀ idx, maps.dynamicTable.lookup ⟨conn, idx⟩ = none
  present : ∀ info, maps.dynamicTableInfo.lookup conn = some info →
    ∃ items, Holds conn (maps.table info) items

/-- The invariant of the two maps, for every connection. -/
structure StoreOk (maps : Maps) : Prop where
  stored : ∀ conn, Stored maps conn
  errors : maps.errors = []

/-- Nothing about `conn` differs between two states of the maps. -/
structure SameConn (conn : Ip4Conn) (maps maps' : Maps) : Prop where
  info : maps'.dynamicTableInfo.lookup conn = maps.dynamicTableInfo.lookup conn
  entries : ∀ idx, maps'.dynamicTable.lookup ⟨conn, idx⟩ = maps.dynamicTable.lookup ⟨conn, idx⟩

theorem SameConn.refl (conn : Ip4Conn) (maps : Maps) : SameConn conn maps maps :=
  ⟨rfl, fun _ => rfl⟩

theorem SameConn.trans {conn : Ip4Conn} {maps maps' maps'' : Maps} (h : SameConn conn maps maps')
    (h' : SameConn conn maps' maps'') : SameConn conn maps maps'' :=
  ⟨h'.info.trans h.info, fun idx => (h'.entries idx).trans (h.entries idx)⟩

theorem SameConn.stored {conn : Ip4Conn} {maps maps' : Maps} (h : SameConn conn maps maps')
    (hs : Stored maps conn) : Stored maps' conn := by
  constructor
  · intro hn idx
    rw [h.entries idx]
    exact hs.absent (h.info ▸ hn) idx
  · intro info hi
    obtain ⟨items, ho⟩ := hs.present info (h.info ▸ hi)
    exact ⟨items, ho.store.ext h.entries, ho.count, ho.size, ho.sizes, ho.deleted_lt⟩

theorem sameConn_buf (conn : Ip4Conn) (maps : Maps) (buf : BlockBuf) :
    SameConn conn maps { maps with blockBuf := buf } := ⟨rfl, fun _ => rfl⟩

theorem StoreOk.init : StoreOk Maps.init where
  stored conn := ⟨fun _ idx => BoundedMap.lookup_empty _, fun info hi => by simp [Maps.init] at hi⟩
  errors := rfl

theorem holds_new {maps : Maps} {conn : Ip4Conn}
    (h : ∀ idx, maps.dynamicTable.lookup ⟨conn, idx⟩ = none) :
    Holds conn (maps.table .new) [] where
  store := RingStore.holds_nil h
  count := rfl
  size := rfl
  sizes := fun e he => by simp at he
  deleted_lt := by simp [Maps.table, DynamicTableInfo.new]

/-- Looking up the table of a connection finds the one it had, or an empty one. -/
theorem getDynamicTable_some {maps maps' : Maps} {conn : Ip4Conn} {info : DynamicTableInfo}
    (h : getDynamicTable maps conn = (some info, maps')) :
    maps'.dynamicTable = maps.dynamicTable ∧ maps'.errors = maps.errors ∧
      maps'.blockBuf = maps.blockBuf ∧ maps'.dynamicTableInfo.lookup conn = some info ∧
      info = (maps.dynamicTableInfo.lookup conn).getD .new ∧
      ∀ c, c ≠ conn → maps'.dynamicTableInfo.lookup c = maps.dynamicTableInfo.lookup c := by
  unfold getDynamicTable at h
  split at h
  next hi =>
    obtain ⟨h1, rfl⟩ := Prod.mk.inj h
    exact ⟨rfl, rfl, rfl, by rw [← h1]; exact hi, by rw [hi]; exact (Option.some.inj h1).symm,
      fun _ _ => rfl⟩
  next hn =>
    obtain ⟨h1, rfl⟩ := Prod.mk.inj h
    refine ⟨rfl, rfl, rfl, h1, ?_, ?_⟩
    all_goals
      cases hu : maps.dynamicTableInfo.update conn .new with
      | none => simp [hu, hn] at h1
      | some infos => ?_
    · simp only [hu, Option.getD_some, BoundedMap.lookup_update hu, if_true] at h1
      rw [hn]
      exact (Option.some.inj h1).symm
    · intro c hc
      simp only [Option.getD_some, BoundedMap.lookup_update hu, if_neg hc]

/-- There is room for the first table. -/
theorem getDynamicTable_init (conn : Ip4Conn) :
    ∃ m, getDynamicTable .init conn = (some .new, m) := by
  have hroom : (Maps.init.dynamicTableInfo.lookup conn).isSome ∨
      Maps.init.dynamicTableInfo.card < mapMaxEntries := .inr (by decide)
  obtain ⟨infos, hu⟩ := BoundedMap.update_isSome (v := DynamicTableInfo.new) hroom
  have hnone : Maps.init.dynamicTableInfo.lookup conn = none := BoundedMap.lookup_empty conn
  refine ⟨{ Maps.init with dynamicTableInfo := infos }, ?_⟩
  unfold getDynamicTable
  simp only [hnone, hu, Option.getD_some, BoundedMap.lookup_update hu, if_true]

section Steps

variable {maps maps' maps'' : Maps} {conn : Ip4Conn} {info : DynamicTableInfo} {t : DynamicTable}
  {ann : Option Nat}

theorem Stored.holds (hs : Stored maps conn)
    (hg : getDynamicTable maps conn = (some info, maps')) :
    ∃ items, Holds conn (maps'.table info) items := by
  obtain ⟨he, hr, -, -, hi, -⟩ := getDynamicTable_some hg
  have ht : maps'.table info = maps.table info := by simp only [Maps.table, he, hr]
  rw [ht, hi]
  cases hl : maps.dynamicTableInfo.lookup conn with
  | none => exact ⟨[], holds_new (hs.absent hl)⟩
  | some i => exact hs.present i hl

theorem setTable_lookup (hi : maps.dynamicTableInfo.lookup conn = some info) (t : DynamicTable) :
    (maps.setTable conn t).dynamicTableInfo.lookup conn = some t.info := by
  simp only [Maps.setTable]
  rw [BoundedMap.lookup_write (by rw [hi]; rfl), if_pos rfl]

/-- Writing the table of `conn` back concerns no other connection. -/
theorem setTable_sameConn {c : Ip4Conn} (hc : c ≠ conn)
    (hk : Keeps conn (maps.table info) t) : SameConn c maps (maps.setTable conn t) where
  info := BoundedMap.lookup_write_ne hc
  entries idx := hk.others ⟨c, idx⟩ hc

theorem setTable_stored {items : List DynamicTableEntry}
    (hi : maps.dynamicTableInfo.lookup conn = some info) (h : Holds conn t items) :
    Stored (maps.setTable conn t) conn := by
  have hl := setTable_lookup hi t
  constructor
  · intro hn
    rw [hl] at hn
    simp at hn
  · intro info' hi'
    rw [hl] at hi'
    cases Option.some.inj hi'
    exact ⟨items, h⟩

theorem getDynamicTable_sameConn {c : Ip4Conn} (hc : c ≠ conn)
    (hg : getDynamicTable maps conn = (some info, maps')) : SameConn c maps maps' := by
  obtain ⟨he, -, -, -, -, ho⟩ := getDynamicTable_some hg
  exact ⟨ho c hc, fun idx => by rw [he]⟩

/-- A call keeps the invariant, and concerns no connection but its own. -/
theorem MapsStep.storeOk {header : Prop} (h : MapsStep conn header ann maps maps') (hs : StoreOk maps) :
    StoreOk maps' ∧ ∀ c, c ≠ conn → SameConn c maps maps' := by
  have hset : ∀ {m m' : Maps} {info : DynamicTableInfo} {t : DynamicTable}, StoreOk m →
      getDynamicTable m conn = (some info, m') → (∃ items, Holds conn t items) →
      Keeps conn (m'.table info) t →
      StoreOk (m'.setTable conn t) ∧ ∀ c, c ≠ conn → SameConn c m (m'.setTable conn t) := by
    intro m m' info t hm hg ⟨items, hi⟩ hk
    obtain ⟨-, hr, -, hl, -, -⟩ := getDynamicTable_some hg
    have hsame : ∀ c, c ≠ conn → SameConn c m (m'.setTable conn t) := fun c hc =>
      (getDynamicTable_sameConn hc hg).trans (setTable_sameConn hc hk)
    refine ⟨⟨fun c => ?_, ?_⟩, hsame⟩
    · by_cases hc : c = conn
      · subst c
        exact setTable_stored hl hi
      · exact (hsame c hc).stored (hm.stored c)
    · have := hk.errors
      simp only [Maps.setTable, this, Maps.table, hr, hm.errors]
  cases h with
  | same buf =>
    exact ⟨⟨fun c => (sameConn_buf c maps buf).stored (hs.stored c), hs.errors⟩,
      fun c _ => sameConn_buf c maps buf⟩
  | @walk buf info m n t _ hg hn hw =>
    have hs' : StoreOk { maps with blockBuf := buf } :=
      ⟨fun c => (sameConn_buf c maps buf).stored (hs.stored c), hs.errors⟩
    obtain ⟨items, hi⟩ := (hs'.stored conn).holds hg
    obtain ⟨hex, hk, -⟩ := hw.holds hi
    obtain ⟨hok, hsame⟩ := hset hs' hg hex hk
    exact ⟨hok, fun c hc => (sameConn_buf c maps buf).trans (hsame c hc)⟩
  | settings hg =>
    obtain ⟨items, hi⟩ := (hs.stored conn).holds hg
    exact hset hs hg ⟨items, hi.setMaxSize _⟩ (.setMaxSize _ _)

end Steps

end Beeper.Http2
