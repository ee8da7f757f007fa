import Beeper.HpackTypes
import Beeper.Inject

namespace Beeper.Http2

/-- The DFA actions, the way user space configures them. -/
structure Action where
  kind : Kind
  val : Nat
  flags : Nat
deriving DecidableEq

/-- The action capturing the value of the field whose name the DFA just matched. -/
def Action.capture (mid : MatchId) : Action := ⟨.capture, mid, 0⟩

/-- Converts the action into the one the parser program reads. -/
def Action.toHttp2Action (a : Action) : Http2Action := ⟨a.val, some a.kind, a.flags⟩

/-- The edges out of a state, each with its input, its target and its action. -/
abbrev Row := StateId × List (Input × StateId × Action)

def Row.edges (row : Row) : List (StateId × Input × StateId × Action) :=
  row.2.map fun e => (row.1, e)

/-- The edges of the first byte of a representation. -/
def fieldRow : Row := (sField,
  -- an indexed field, 7 bit prefix. The index 0 is not used
  [(0x80, sDead, ⟨.err, 0, 0⟩)] ++
  (List.range' 1 0x7E).map (fun idx => (0x80 ||| idx, sField, ⟨.indexed, idx, 0⟩)) ++
  [(0xFF, sIdx7Cont, ⟨.intStart, 0x7F, 0⟩)] ++
  -- a literal field that is added to the dynamic table, 6 bit prefix
  [(0x40, sKeyLen, ⟨.litName, 0, fAddDt⟩)] ++
  (List.range' 1 0x3E).map (fun idx => (0x40 ||| idx, sValLen, ⟨.idxName, idx, fAddDt⟩)) ++
  [(0x7F, sIdx6Cont, ⟨.intStart, 0x3F, 0⟩)] ++
  -- a dynamic table size update, 5 bit prefix
  (List.range 0x1F).map (fun size => (0x20 ||| size, sField, ⟨.tableSize, size, 0⟩)) ++
  [(0x3F, sStgCont, ⟨.intStart, 0x1F, 0⟩)] ++
  -- a literal field that is not, 4 bit prefix
  [0x00, 0x10].flatMap fun base =>
    [(base, sKeyLen, ⟨.litName, 0, 0⟩)] ++
    (List.range' 1 0x0E).map (fun idx => (base ||| idx, sValLen, ⟨.idxName, idx, 0⟩)) ++
    [(base ||| 0x0F, sIdx4Cont, ⟨.intStart, 0x0F, 0⟩)])

/-- The edges of the byte announcing the length of a name or a value. -/
def lengthRow (source : StateId) (kind : Kind) (toPlain toHuff cont contHuff : StateId) : Row :=
  (source, [(0x00, 0, toPlain, cont), (0x80, fHuff, toHuff, contHuff)].flatMap
    fun (base, flags, target, cont) =>
      (List.range 0x7F).map (fun len => (base ||| len, target, ⟨kind, len, flags⟩)) ++
      [(base ||| 0x7F, cont, ⟨.intStart, 0x7F, 0⟩)])

/-- A name is matched against the trie of the names to capture in the form it is sent in. -/
def lengthRows : List Row :=
  [lengthRow sKeyLen .keyLen sNamePlain sName sKeyLenCont sKeyLenContHuff,
   lengthRow sValLen .valLen sField sField sValLenCont sValLenContHuff]

/-- The edges of the bytes of an integer that did not fit into the prefix of its first byte. -/
def continuationRow (source : StateId) (kind : Kind) (target : StateId) (flags : Nat) : Row :=
  (source, (List.range 0x80).flatMap fun input =>
    [(input, target, ⟨kind, 0, flags ||| fCont⟩),
     (0x80 ||| input, source, ⟨.intCont, 0, 0⟩)])

def continuationRows : List Row :=
  [continuationRow sIdx7Cont .indexed sField 0,
   continuationRow sIdx6Cont .idxName sValLen fAddDt,
   continuationRow sIdx4Cont .idxName sValLen 0,
   continuationRow sStgCont .tableSize sField 0,
   continuationRow sKeyLenCont .keyLen sNamePlain 0,
   continuationRow sKeyLenContHuff .keyLen sName fHuff,
   continuationRow sValLenCont .valLen sField 0,
   continuationRow sValLenContHuff .valLen sField fHuff]

def insertRows (rows : List Row) (dfa : Dfa Action) : Option (Dfa Action) :=
  Dfa.insertEdges (rows.flatMap Row.edges) dfa

/-- Builds the states and edges of every field representation of RFC 7541. -/
def hpackDfa : Option (Dfa Action) := do
  let dfa ← insertRows [fieldRow] (.withReservedStates sReserved)
  let dfa ← insertRows lengthRows dfa
  insertRows continuationRows dfa

/-- The edge the byte `c` takes out of a state of a representation. -/
def repEdge (s : StateId) (c : Nat) : StateId × Action :=
  if s = sField then
    if c = 0x80 then (sDead, ⟨.err, 0, 0⟩)
    else if c = 0xFF then (sIdx7Cont, ⟨.intStart, 0x7F, 0⟩)
    else if 0x80 ≤ c then (sField, ⟨.indexed, c - 0x80, 0⟩)
    else if c = 0x40 then (sKeyLen, ⟨.litName, 0, fAddDt⟩)
    else if c = 0x7F then (sIdx6Cont, ⟨.intStart, 0x3F, 0⟩)
    else if 0x40 ≤ c then (sValLen, ⟨.idxName, c - 0x40, fAddDt⟩)
    else if c = 0x3F then (sStgCont, ⟨.intStart, 0x1F, 0⟩)
    else if 0x20 ≤ c then (sField, ⟨.tableSize, c - 0x20, 0⟩)
    else if c % 0x10 = 0 then (sKeyLen, ⟨.litName, 0, 0⟩)
    else if c % 0x10 = 0x0F then (sIdx4Cont, ⟨.intStart, 0x0F, 0⟩)
    else (sValLen, ⟨.idxName, c % 0x10, 0⟩)
  else if s = sKeyLen then
    if c % 0x80 = 0x7F then
      (if c < 0x80 then sKeyLenCont else sKeyLenContHuff, ⟨.intStart, 0x7F, 0⟩)
    else (if c < 0x80 then sNamePlain else sName,
      ⟨.keyLen, c % 0x80, if c < 0x80 then 0 else fHuff⟩)
  else if s = sValLen then
    if c % 0x80 = 0x7F then
      (if c < 0x80 then sValLenCont else sValLenContHuff, ⟨.intStart, 0x7F, 0⟩)
    else (sField, ⟨.valLen, c % 0x80, if c < 0x80 then 0 else fHuff⟩)
  else if 0x80 ≤ c then (s, ⟨.intCont, 0, 0⟩)
  else if s = sIdx7Cont then (sField, ⟨.indexed, 0, fCont⟩)
  else if s = sIdx6Cont then (sValLen, ⟨.idxName, 0, fAddDt ||| fCont⟩)
  else if s = sIdx4Cont then (sValLen, ⟨.idxName, 0, fCont⟩)
  else if s = sStgCont then (sField, ⟨.tableSize, 0, fCont⟩)
  else if s = sKeyLenCont then (sNamePlain, ⟨.keyLen, 0, fCont⟩)
  else if s = sKeyLenContHuff then (sName, ⟨.keyLen, 0, fHuff ||| fCont⟩)
  else if s = sValLenCont then (sField, ⟨.valLen, 0, fCont⟩)
  else (sField, ⟨.valLen, 0, fHuff ||| fCont⟩)

/-- The states a representation is walked with, all but those of the tries of the names. -/
def repStates : List StateId :=
  [sField, sKeyLen, sValLen, sIdx7Cont, sIdx6Cont, sIdx4Cont, sStgCont, sKeyLenCont,
   sKeyLenContHuff, sValLenCont, sValLenContHuff]

def hpackRows : List Row := fieldRow :: lengthRows ++ continuationRows

theorem hpackDfa_eq : hpackDfa = insertRows hpackRows (.withReservedStates sReserved) := by
  have h : hpackRows.flatMap Row.edges = [fieldRow].flatMap Row.edges ++
      (lengthRows.flatMap Row.edges ++ continuationRows.flatMap Row.edges) := by
    simp [hpackRows, List.flatMap_append]
  unfold insertRows
  rw [h, Dfa.insertEdges_append]
  simp only [hpackDfa, insertRows, Option.bind_eq_bind]
  congr 1
  funext dfa
  rw [Dfa.insertEdges_append]

/-- Whether the numbers are distinct, and none of them a bit of `mask`. -/
def distinctBits : List Nat → Nat → Bool
  | [], _ => true
  | n :: ns, mask => !mask.testBit n && distinctBits ns (mask ||| 1 <<< n)

theorem distinctBits_nodup {ns : List Nat} {mask : Nat} (h : distinctBits ns mask = true) :
    ns.Nodup ∧ ∀ n ∈ ns, mask.testBit n = false := by
  induction ns generalizing mask with
  | nil => exact ⟨List.nodup_nil, fun n hn => absurd hn List.not_mem_nil⟩
  | cons n ns ih =>
    simp only [distinctBits, Bool.and_eq_true, Bool.not_eq_true'] at h
    obtain ⟨hnd, hbits⟩ := ih h.2
    simp only [Nat.testBit_or, Bool.or_eq_false_iff] at hbits
    refine ⟨List.nodup_cons.mpr ⟨fun hm => ?_, hnd⟩, fun k hk => ?_⟩
    · have := (hbits n hm).2
      simp at this
    · rcases List.mem_cons.mp hk with rfl | hk
      · exact h.1
      · exact (hbits k hk).1

theorem hpackRows_distinct : ∀ row ∈ hpackRows, row.1 ∈ repStates ∧ row.2.length = 256 ∧
    distinctBits (row.2.map Prod.fst) 0 = true := by
  decide +kernel

theorem hpackRows_edge : ∀ row ∈ hpackRows, ∀ e ∈ row.2, e.1 < 256 ∧ e.2 = repEdge row.1 e.1 := by
  decide +kernel

/-- Every row has one edge for every byte. -/
theorem hpackRows_perm {row : Row} (h : row ∈ hpackRows) :
    (row.2.map Prod.fst).Perm (List.range 256) := by
  obtain ⟨-, hl, hd⟩ := hpackRows_distinct row h
  refine (List.subperm_of_subset (distinctBits_nodup hd).1 fun c hc => ?_).perm_of_length_le
    (by simp [hl])
  obtain ⟨e, he, rfl⟩ := List.mem_map.mp hc
  exact List.mem_range.mpr (hpackRows_edge row h e he).1

theorem hpackRows_sources : (hpackRows.map Prod.fst).Nodup ∧
    ∀ s, s ∈ hpackRows.map Prod.fst ↔ s ∈ repStates := by
  have hs : hpackRows.map Prod.fst = repStates := by decide +kernel
  rw [hs]
  exact ⟨by decide, fun s => Iff.rfl⟩

theorem mem_hpackEdges {s c t : Nat} {a : Action} :
    (s, c, t, a) ∈ hpackRows.flatMap Row.edges ↔ s ∈ repStates ∧ c < 256 ∧ (t, a) = repEdge s c := by
  simp only [List.mem_flatMap, Row.edges, List.mem_map, Prod.mk.injEq]
  constructor
  · rintro ⟨row, hrow, ⟨c', t', a'⟩, he, rfl, rfl, rfl, rfl⟩
    exact ⟨(hpackRows_distinct row hrow).1, hpackRows_edge row hrow _ he⟩
  · rintro ⟨hs, hc, he⟩
    obtain ⟨row, hrow, rfl⟩ := List.mem_map.mp ((hpackRows_sources.2 s).mpr hs)
    have hm := (hpackRows_perm hrow).mem_iff.mpr (List.mem_range.mpr hc)
    obtain ⟨e, he', rfl⟩ := List.mem_map.mp hm
    have heq := (hpackRows_edge row hrow _ he').2
    rw [← he] at heq
    exact ⟨row, hrow, e, he', rfl, Prod.ext rfl heq⟩

theorem hpackEdges_nodup : ((hpackRows.flatMap Row.edges).map fun x => (x.1, x.2.1)).Nodup := by
  rw [List.map_flatMap, List.nodup_flatMap]
  refine ⟨fun row hrow => ?_, ?_⟩
  · have hn := (hpackRows_perm hrow).nodup_iff.mpr List.nodup_range
    have hm := hn.map (f := fun c => (row.1, c)) fun a b hab => (Prod.mk.inj hab).2
    rw [List.map_map] at hm
    rw [Row.edges, List.map_map]
    exact hm
  · have hp := hpackRows_sources.1
    rw [List.Nodup, List.pairwise_map] at hp
    refine hp.imp fun hne => ?_
    intro x hx hy
    simp only [Row.edges, List.map_map, List.mem_map, Function.comp] at hx hy
    obtain ⟨_, -, rfl⟩ := hx
    obtain ⟨_, -, heq⟩ := hy
    exact hne (Prod.mk.inj heq).1.symm

/-- The DFA of the representations. -/
structure IsHpackDfa (dfa : Dfa Action) : Prop where
  numStates : dfa.numStates = sReserved
  edge : ∀ s ∈ repStates, ∀ c < 256,
    dfa.lookup s c = some ⟨(repEdge s c).1, some (repEdge s c).2⟩
  others : ∀ s c, ¬(s ∈ repStates ∧ c < 256) → dfa.lookup s c = none

theorem hpackDfa_spec {dfa : Dfa Action} (h : hpackDfa = some dfa) : IsHpackDfa dfa := by
  rw [hpackDfa_eq] at h
  obtain ⟨-, hn, hmem, hother⟩ := Dfa.insertEdges_some h
  refine ⟨hn, fun s hs c hc => hmem s c _ _ (mem_hpackEdges.mpr ⟨hs, hc, rfl⟩), fun s c hnot => ?_⟩
  rw [hother s c fun t a hm => hnot ⟨(mem_hpackEdges.mp hm).1, (mem_hpackEdges.mp hm).2.1⟩]
  exact Dfa.lookup_empty _

/-- Building it never panics. -/
theorem hpackDfa_exists : ∃ dfa, hpackDfa = some dfa := by
  rw [hpackDfa_eq]
  exact Dfa.insertEdges_exists hpackEdges_nodup fun x _ => Dfa.lookup_empty _

end Beeper.Http2
