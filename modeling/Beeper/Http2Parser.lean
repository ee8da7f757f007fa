import Beeper.DfaPatterns
import Beeper.Hpack

namespace Beeper.Http2

/-- The fields of the HPACK static table that come without a value. -/
def headersWithoutValues : List (String × Nat) :=
  [(":authority", 1), ("accept-charset", 15), ("accept-language", 17), ("accept-ranges", 18),
   ("accept", 19), ("access-control-allow-origin", 20), ("age", 21), ("allow", 22),
   ("authorization", 23), ("cache-control", 24), ("content-disposition", 25),
   ("content-encoding", 26), ("content-language", 27), ("content-length", 28),
   ("content-location", 29), ("content-range", 30), ("content-type", 31), ("cookie", 32),
   ("date", 33), ("etag", 34), ("expect", 35), ("expires", 36), ("from", 37), ("host", 38),
   ("if-match", 39), ("if-modified-since", 40), ("if-none-match", 41), ("if-range", 42),
   ("if-unmodified-since", 43), ("last-modified", 44), ("link", 45), ("location", 46),
   ("max-forwards", 47), ("proxy-authenticate", 48), ("proxy-authorization", 49), ("range", 50),
   ("referer", 51), ("refresh", 52), ("retry-after", 53), ("server", 54), ("set-cookie", 55),
   ("strict-transport-security", 56), ("transfer-encoding", 57), ("user-agent", 58),
   ("vary", 59), ("via", 60), ("www-authenticate", 61)]

/-- Those that come with one. -/
def headersWithValues : List (String × List (String × Nat)) :=
  [(":method", [("GET", 2), ("POST", 3)]),
   (":path", [("/", 4), ("/index.html", 5)]),
   (":scheme", [("http", 6), ("https", 7)]),
   (":status", [("200", 8), ("204", 9), ("206", 10), ("304", 11), ("400", 12), ("404", 13),
     ("500", 14)]),
   ("accept-encoding", [("gzip, deflate", 16)])]

/-- The HPACK static table, as indices with their names and values. -/
def staticHeaders : List (Nat × Bytes × Option Bytes) :=
  headersWithValues.flatMap (fun (key, vals) =>
    vals.map fun (val, idx) => (idx, ascii key, some (ascii val))) ++
  headersWithoutValues.map fun (key, idx) => (idx, ascii key, none)

/-- A parser for HTTP/2 messages: the patterns configured so far, and the match id of every
header captured so far. -/
structure Parser where
  dfa : Dfa Action
  numMatches : Nat
  captures : List (Bytes × MatchId)

def Parser.new : Except Error Parser := do
  let dfa ← orPanic hpackDfa
  .ok ⟨dfa, 0, []⟩

/-- Returns an unused match id. -/
def Parser.newMatch (p : Parser) : Except Error (MatchId × Parser) :=
  if maxMatches ≤ p.numMatches then .error (.matchLimitExceeded maxMatches)
  else .ok (p.numMatches, { p with numMatches := p.numMatches + 1 })

/-- Pushes a name onto the trie at `root`, and captures `mid` at its end. -/
def captureName (dfa : Dfa Action) (root : StateId) (name : Bytes) (mid : MatchId) :
    Option (Dfa Action) := do
  let b ← (dfa.startPattern root).push name
  let b ← b.withAction (.capture mid)
  some b.dfa

/-- Configures the parser to capture the value of a header field. `encode` is the Huffman encoding
of a name. -/
def Parser.captureHdr (encode : Bytes → Option Bytes) (p : Parser) (name : Bytes) :
    Except Error (MatchId × Parser) :=
  match p.captures.lookup name with
  | some mid => .ok (mid, p)
  | none =>
    match encode name with
    | none => .error .invalidEncoding
    | some nameEncoded => do
      let (mid, p) ← p.newMatch
      -- a peer may send the name Huffman coded or not
      let dfa ← orPanic (captureName p.dfa sName nameEncoded mid)
      let dfa ← orPanic (captureName dfa sNamePlain name mid)
      .ok (mid, { p with dfa := dfa, captures := (name, mid) :: p.captures })

/-- A field of the static table, written out Huffman coded. -/
def staticField (encode : Bytes → Option Bytes) (key : Bytes) (val : Option Bytes) :
    Except Error Http2HdrField :=
  match encode key, (val.map encode).getD (some []) with
  | some key, some val => .ok
    { key := key.take headerFieldMaxlen
      val := val.take headerFieldMaxlen
      keyHuff := true
      valHuff := true
      key_le := List.length_take_le _ _
      val_le := List.length_take_le _ _ }
  | _, _ => .error .invalidEncoding

/-- What an entry of the static table is before it is written. -/
def zeroField : Http2HdrField := ⟨[], [], false, false, by decide, by decide⟩

/-- Fills the static table with the Huffman encoded entries of the HPACK static table. -/
def populateStaticTable (encode : Bytes → Option Bytes) :
    List (Nat × Bytes × Option Bytes) → Except Error (Fin (staticTableSize + 1) → Http2HdrField)
  | [] => .ok fun _ => zeroField
  | (idx, key, val) :: rest => do
    let table ← populateStaticTable encode rest
    let field ← staticField encode key val
    .ok fun i => if i.val = idx then field else table i

def limits : Limits := ⟨maxStates, maxEdges, maxActions⟩

def noAction : Http2Action := ⟨0, none, 0⟩

/-- An action, or the noop action, as the parser program reads it. -/
def readAction (a : Option Action) : Http2Action := (a.map Action.toHttp2Action).getD noAction

/-- Loads the configured parser. `order` is the order the transitions are iterated over in. -/
def Parser.attach (encode : Bytes → Option Bytes) (p : Parser)
    (order : List (StateId × Input × Edge Action)) : Except Error Rodata := do
  let inj ← inject limits p.dfa order
  let staticTable ← populateStaticTable encode staticHeaders
  .ok ⟨inj.states, fun id => readAction (inj.action id), staticTable⟩

/-- The parsers that calls of `capture_hdr` lead to. -/
inductive Configured (encode : Bytes → Option Bytes) : Parser → Prop
  | new {p : Parser} (h : Parser.new = .ok p) : Configured encode p
  | capture {p p' : Parser} {name : Bytes} {mid : MatchId} (h : Configured encode p)
      (hc : p.captureHdr encode name = .ok (mid, p')) : Configured encode p'

/-- The data a parser that captures `captures` is loaded with. -/
def Attached (encode : Bytes → Option Bytes) (captures : List (Bytes × MatchId)) (rd : Rodata) :
    Prop :=
  ∃ p order, Configured encode p ∧ p.captures = captures ∧ order.Perm p.dfa.transitions ∧
    p.attach encode order = .ok rd

variable {encode : Bytes → Option Bytes} {p p' : Parser} {rd : Rodata}

/-- What a DFA has for the representations, whatever names are captured. -/
def HasReps (dfa : Dfa Action) : Prop :=
  ∀ s ∈ repStates, ∀ c < 256, dfa.lookup s c = some ⟨(repEdge s c).1, some (repEdge s c).2⟩

theorem HasReps.extends {dfa dfa' : Dfa Action} (h : HasReps dfa) (he : dfa.Extends dfa') :
    HasReps dfa' := by
  intro s hs c hc
  obtain ⟨⟨t, a⟩, hl, ht, ha⟩ := he.edge s c _ (h s hs c hc)
  rw [hl]
  simp only at ht ha
  rw [ht, ha _ rfl]

theorem captureName_extends {dfa dfa' : Dfa Action} {root : StateId} {name : Bytes} {mid : MatchId}
    (h : captureName dfa root name mid = some dfa') : dfa.Extends dfa' := by
  simp only [captureName, Option.bind_eq_bind, Option.bind_eq_some_iff] at h
  obtain ⟨b, h1, b', h2, h3⟩ := h
  cases Option.some.inj h3
  have hext := DfaBuilder.pushInner_extends h1
  exact hext.trans (DfaBuilder.withAction_extends h2)

theorem orPanic_ok {α : Type} {o : Option α} {a : α} (h : orPanic o = .ok a) : o = some a := by
  cases o with
  | none => cases h
  | some b =>
    cases h
    rfl

/-- What capturing a name that is not captured yet comes to. -/
theorem captureHdr_new {name : Bytes} {mid : MatchId} (hn : p.captures.lookup name = none)
    (h : p.captureHdr encode name = .ok (mid, p')) :
    mid = p.numMatches ∧ p.numMatches < maxMatches ∧ ∃ enc dfa, encode name = some enc ∧
      captureName p.dfa sName enc mid = some dfa ∧
      captureName dfa sNamePlain name mid = some p'.dfa ∧
      p'.numMatches = p.numMatches + 1 ∧ p'.captures = (name, mid) :: p.captures := by
  unfold Parser.captureHdr at h
  rw [hn] at h
  simp only at h
  split at h
  · cases h
  next enc henc =>
  unfold Parser.newMatch at h
  split at h
  · cases h
  next hlt =>
  simp only [bind, Except.bind] at h
  split at h
  · cases h
  next dfa hd =>
  split at h
  · cases h
  next dfa' hd' =>
  cases h
  exact ⟨rfl, Nat.not_le.mp hlt, enc, dfa, henc, orPanic_ok hd, orPanic_ok hd', rfl, rfl⟩

theorem captureHdr_again {name : Bytes} {mid m : MatchId} (hm : p.captures.lookup name = some m)
    (h : p.captureHdr encode name = .ok (mid, p')) : mid = m ∧ p' = p := by
  unfold Parser.captureHdr at h
  rw [hm] at h
  cases h
  exact ⟨rfl, rfl⟩

theorem new_ok (h : Parser.new = .ok p) :
    IsHpackDfa p.dfa ∧ p.numMatches = 0 ∧ p.captures = [] := by
  unfold Parser.new at h
  cases hd : hpackDfa with
  | none =>
    rw [hd] at h
    cases h
  | some dfa =>
    rw [hd] at h
    cases h
    exact ⟨hpackDfa_spec hd, rfl, rfl⟩

theorem Configured.hasReps (h : Configured encode p) : HasReps p.dfa := by
  induction h with
  | new h => exact (new_ok h).1.edge
  | @capture p p' name mid h hc ih =>
    cases hl : p.captures.lookup name with
    | some m =>
      rw [(captureHdr_again hl hc).2]
      exact ih
    | none =>
      obtain ⟨-, -, enc, dfa, -, h1, h2, -, -⟩ := captureHdr_new hl hc
      exact (ih.extends (captureName_extends h1)).extends (captureName_extends h2)

/-- The parser program reads every representation the way the rows say. -/
def ReadsReps (rd : Rodata) : Prop :=
  ∀ s ∈ repStates, ∀ c < 256, (rd.next s c).1 = (repEdge s c).1 ∧
    rd.action (rd.next s c).2 = (repEdge s c).2.toHttp2Action

theorem attach_ok {order : List (StateId × Input × Edge Action)}
    (h : p.attach encode order = .ok rd) : ∃ inj, inject limits p.dfa order = .ok inj ∧
      rd.states = inj.states ∧ (∀ id, rd.actions id = readAction (inj.action id)) ∧
      populateStaticTable encode staticHeaders = .ok rd.staticTable := by
  unfold Parser.attach at h
  simp only [bind, Except.bind] at h
  split at h
  · cases h
  next inj hi =>
  split at h
  · cases h
  next table ht =>
  cases h
  exact ⟨inj, hi, rfl, fun _ => rfl, ht⟩

/-- An edge of the DFA is what the parser program follows. -/
theorem next_edge {inj : Injected Action} {dfa : Dfa Action} (hr : Realises limits dfa inj)
    (hs : rd.states = inj.states) (ha : ∀ id, rd.actions id = readAction (inj.action id))
    {s c : Nat} {e : Edge Action} (he : dfa.lookup s c = some e) (hlt : s < maxStates)
    (ht : e.target ≠ 0) :
    (rd.next s c).1 = e.target ∧ rd.action (rd.next s c).2 = readAction e.action := by
  obtain ⟨id, hid, hst, hact, -⟩ := hr.edge s c e he
  have hc := hr.input_lt s c e he
  simp only [limits] at hid hc
  have hn : rd.next s c = (e.target, id) := by
    unfold Rodata.next
    rw [Nat.mod_eq_of_lt hlt, Nat.mod_eq_of_lt hc, hs, hst]
    exact if_neg fun hz => ht hz.1
  rw [hn]
  refine ⟨rfl, ?_⟩
  unfold Rodata.action
  rw [Nat.mod_eq_of_lt hid, ha, hact]

theorem repEdge_target : ∀ s ∈ repStates, s < maxStates ∧ ∀ c < 256, (repEdge s c).1 ≠ 0 := by
  decide +kernel

theorem Attached.readsReps {captures : List (Bytes × MatchId)} (h : Attached encode captures rd) :
    ReadsReps rd := by
  obtain ⟨p, order, hc, -, hp, hat⟩ := h
  obtain ⟨inj, hi, hs, ha, -⟩ := attach_ok hat
  have hr := inject_realises hp hi
  intro s hs' c hc'
  obtain ⟨hlt, ht⟩ := repEdge_target s hs'
  exact next_edge hr hs ha (hc.hasReps s hs' c hc') hlt (ht c hc')

end Beeper.Http2
