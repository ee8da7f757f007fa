import Beeper.Http1Walk
import Beeper.Inject

namespace Beeper.Http1

/-- The actions of the DFA. -/
inductive Action
  /-- Starts capturing a range from the next byte on. -/
  | startCapture (mid : MatchId)
  /-- Ends capturing a range with the byte of the edge. -/
  | endCapture (mid : MatchId)
  | done
  | endCaptureAndDone (mid : MatchId)
deriving DecidableEq, Repr

/-- Converts an action into the one of the parser program. -/
def Action.toHttp1Action : Action → Http1Action
  | .done => ⟨none, fDone, 0⟩
  | .startCapture mid => ⟨some .startCapture, 0, mid⟩
  | .endCapture mid => ⟨some .endCapture, 0, mid⟩
  | .endCaptureAndDone mid => ⟨some .endCapture, fDone, mid⟩

def cr : Bytes := ascii "\r"
def lf : Bytes := ascii "\n"
def tab : Bytes := ascii "\t"
def space : Bytes := ascii " "

def methods : List Bytes :=
  [ascii "POST", ascii "GET", ascii "PUT", ascii "PATCH", ascii "DELETE", ascii "HEAD",
   ascii "OPTIONS", ascii "TRACE"]

def httpVersion : Bytes := ascii " HTTP/1.1"

def http2Preface : Bytes := ascii "PRI * HTTP/2.0\r\n\r\nSM\r\n\r\n"

/-- The pseudo-headers that are part of the first line of a message. -/
def pseudoMethod : Bytes := ascii ":method"
def pseudoPath : Bytes := ascii ":path"
def pseudoStatus : Bytes := ascii ":status"

/-- The pattern of a header field, captured up to the end of the line without the whitespace that
may follow the colon. -/
def headerPattern (dfa : Dfa Action) (name : Bytes) (mid : MatchId) : Option (Dfa Action) := do
  let b ← (dfa.startPattern anyState).push lf
  let b ← b.pushCi name
  let b ← ((b.pushOptional tab true).pushOptional space true).pushCi (ascii ":")
  let b ← ((b.pushOptional tab true).pushOptional space true).withAction (.startCapture mid)
  let value := b.state
  let b ← b.pushAny 1 none
  let b ← b.withAction (.endCapture mid)
  let b ← (b.pushOptional cr false).restartWith lf
  let b ← ((b.dfa.startPattern value).pushOptional cr false).restartWith lf
  some b.dfa

/-- The end of a request line, once its target was captured. -/
def endOfRequestLine (b : DfaBuilder Action) : Option (Dfa Action) := do
  let b ← b.pushCi httpVersion
  let b ← (b.pushOptional cr false).restartWith lf
  some b.dfa

def methodPattern (dfa : Dfa Action) (mid : MatchId) : Option (Dfa Action) := do
  let b ← (dfa.startPattern initState).withAction (.startCapture mid)
  let b ← b.pushOptionsCi methods
  let b ← b.withAction (.endCapture mid)
  let b ← b.push space
  let b ← b.pushAny 1 none
  endOfRequestLine b

def pathPattern (dfa : Dfa Action) (mid : MatchId) : Option (Dfa Action) := do
  let b ← (dfa.startPattern initState).pushOptionsCi methods
  let b ← b.push space
  let b ← b.withAction (.startCapture mid)
  let b ← b.pushAny 1 none
  let b ← b.withAction (.endCapture mid)
  endOfRequestLine b

/-- The pattern of the status code of a response. -/
def statusPattern (dfa : Dfa Action) (mid : MatchId) : Option (Dfa Action) := do
  let b ← (dfa.startPattern initState).pushCi (ascii "HTTP/1.1 ")
  let b ← b.withAction (.startCapture mid)
  let b ← b.pushAny 3 (some 3)
  let b ← b.withAction (.endCapture mid)
  let b ← b.pushAny 1 none
  let b ← (b.pushOptional cr false).restartWith lf
  some b.dfa

def prefacePattern (dfa : Dfa Action) (mid : MatchId) : Option (Dfa Action) := do
  let b ← (dfa.startPattern initState).withAction (.startCapture mid)
  let b ← b.push http2Preface
  let b ← b.withAction (.endCaptureAndDone mid)
  some b.dfa

/-- The pattern of the empty line that ends the header block. -/
def donePattern (dfa : Dfa Action) : Option (Dfa Action) := do
  let b ← ((dfa.startPattern anyState).pushOptional cr false).push lf
  let b ← (b.pushOptional cr false).push lf
  let b ← b.withAction .done
  some b.dfa

/-- A parser for HTTP/1.1 messages: the patterns configured so far, and the match id of every
header captured so far. -/
structure Parser where
  dfa : Dfa Action
  numMatches : Nat
  captures : List (Bytes × MatchId)

def Parser.new : Parser := ⟨.new, 0, []⟩

/-- Returns an unused match id. -/
def Parser.newMatch (p : Parser) : Except Error (MatchId × Parser) :=
  if maxMatches ≤ p.numMatches then .error (.matchLimitExceeded maxMatches)
  else .ok (p.numMatches, { p with numMatches := p.numMatches + 1 })

/-- Captures what `pattern` adds to the DFA under an unused match id. -/
def Parser.capturePattern (p : Parser)
    (pattern : Dfa Action → MatchId → Option (Dfa Action)) : Except Error (MatchId × Parser) := do
  let (mid, p) ← p.newMatch
  let dfa ← orPanic (pattern p.dfa mid)
  .ok (mid, { p with dfa := dfa })

/-- Matches a pseudo-header of the request line. -/
def Parser.captureStatusLine (p : Parser) (name : Bytes) : Except Error (MatchId × Parser) :=
  p.capturePattern fun dfa mid =>
    if name = pseudoMethod then methodPattern dfa mid
    else if name = pseudoPath then pathPattern dfa mid
    else none

def Parser.captureStatusCode (p : Parser) : Except Error (MatchId × Parser) :=
  p.capturePattern statusPattern

def Parser.captureNewHdr (p : Parser) (name : Bytes) : Except Error (MatchId × Parser) :=
  if name = pseudoMethod ∨ name = pseudoPath then p.captureStatusLine name
  else if name = pseudoStatus then p.captureStatusCode
  else p.capturePattern fun dfa mid => headerPattern dfa name mid

/-- The lower case of an ASCII character. -/
def lowerByte (c : UInt8) : UInt8 := if 0x41 ≤ c ∧ c ≤ 0x5a then c + 0x20 else c

def lowercase (name : Bytes) : Bytes := name.map lowerByte

/-- Configures the parser to capture the value of a header field, or of a pseudo-header. -/
def Parser.captureHdr (p : Parser) (name : Bytes) : Except Error (MatchId × Parser) :=
  match p.captures.lookup (lowercase name) with
  | some mid => .ok (mid, p)
  | none => do
    let (mid, p) ← p.captureNewHdr (lowercase name)
    .ok (mid, { p with captures := (lowercase name, mid) :: p.captures })

/-- Configures the parser to match an HTTP/2 preface. -/
def Parser.matchHttp2Preface (p : Parser) : Except Error (MatchId × Parser) :=
  p.capturePattern prefacePattern

/-- Configures the parser to stop at the empty line that ends the header block. -/
def Parser.doneOnHdrEnd (p : Parser) : Except Error Parser := do
  let dfa ← orPanic (donePattern p.dfa)
  .ok { p with dfa := dfa }

def limits : Limits := ⟨maxStates, maxEdges, maxActions⟩

def noAction : Http1Action := ⟨none, 0, 0⟩

/-- An action, or the noop action, as the parser program reads it. -/
def readAction (a : Option Action) : Http1Action := (a.map Action.toHttp1Action).getD noAction

/-- The data the parser program is loaded with. `order` is the order the transitions are iterated
over in. -/
def injectDfa (dfa : Dfa Action) (order : List (StateId × Input × Edge Action)) :
    Except Error Rodata := do
  let inj ← inject limits dfa order
  .ok ⟨inj.states, fun id => readAction (inj.action id)⟩

/-- The program holds `dfa`, written in some order. -/
def Injects (dfa : Dfa Action) (rd : Rodata) : Prop :=
  ∃ order, order.Perm dfa.transitions ∧ injectDfa dfa order = .ok rd

/-- Loads the configured parser. -/
def Parser.attach (p : Parser) (order : List (StateId × Input × Edge Action)) :
    Except Error Rodata := do
  let p ← p.doneOnHdrEnd
  injectDfa p.dfa order

/-- What can be captured. -/
inductive Item
  | header (name : Bytes)
  | method
  | path
  | status
  | preface
deriving DecidableEq

/-- What capturing `name` stands for. -/
def Item.ofName (name : Bytes) : Item :=
  if name = pseudoMethod then .method
  else if name = pseudoPath then .path
  else if name = pseudoStatus then .status
  else .header name

/-- The characters of a header name, see section 5.6.2 of RFC 9110. -/
def isTokenChar (c : UInt8) : Bool :=
  decide (0x21 ≤ c ∧ c ≤ 0x7e ∧ c ∉ ascii "\"(),/:;<=>?@[\\]\x7b\x7d")

/-- The names that can be captured: those of header fields, and the pseudo-headers. -/
def ValidName (name : Bytes) : Prop :=
  name ≠ [] ∧ (∀ c ∈ name, isTokenChar c) ∨
    lowercase name ∈ [pseudoMethod, pseudoPath, pseudoStatus, ascii ":authority", ascii ":scheme"]

/-- The parsers that calls of `capture_hdr` and at most one of `match_http2_preface` lead to, with
what each of them captures. -/
inductive Configured : List (Item × MatchId) → Parser → Prop
  | new : Configured [] .new
  | capture {items : List (Item × MatchId)} {p p' : Parser} {name : Bytes} {mid : MatchId}
      (h : Configured items p) (hv : ValidName name)
      (hn : p.captures.lookup (lowercase name) = none) (hc : p.captureHdr name = .ok (mid, p')) :
      Configured ((.ofName (lowercase name), mid) :: items) p'
  | again {items : List (Item × MatchId)} {p p' : Parser} {name : Bytes} {mid mid' : MatchId}
      (h : Configured items p) (hv : ValidName name)
      (hn : p.captures.lookup (lowercase name) = some mid')
      (hc : p.captureHdr name = .ok (mid, p')) : Configured items p'
  | preface {items : List (Item × MatchId)} {p p' : Parser} {mid : MatchId}
      (h : Configured items p) (hn : ∀ m, (.preface, m) ∉ items)
      (hc : p.matchHttp2Preface = .ok (mid, p')) : Configured ((.preface, mid) :: items) p'

/-- The calls that configure a parser. -/
inductive Call
  | captureHdr (name : Bytes)
  | matchHttp2Preface
deriving DecidableEq

/-- The calls one after the other, the last of which comes first. -/
def configure : List Call → Except Error (List (Item × MatchId) × Parser)
  | [] => .ok ([], .new)
  | .captureHdr name :: calls => do
    let (items, p) ← configure calls
    let (mid, p') ← p.captureHdr name
    .ok (if (p.captures.lookup (lowercase name)).isSome then items
      else (.ofName (lowercase name), mid) :: items, p')
  | .matchHttp2Preface :: calls => do
    let (items, p) ← configure calls
    let (mid, p') ← p.matchHttp2Preface
    .ok ((.preface, mid) :: items, p')

/-- The data a parser that captures `items` is loaded with. -/
def Attached (items : List (Item × MatchId)) (rd : Rodata) : Prop :=
  ∃ p p', Configured items p ∧ p.doneOnHdrEnd = .ok p' ∧ Injects p'.dfa rd

/-- The data the calls lead to, with the transitions in the order they were inserted in. -/
def load (calls : List Call) : Except Error (List (Item × MatchId) × Rodata) := do
  let (items, p) ← configure calls
  let p ← p.doneOnHdrEnd
  let rd ← injectDfa p.dfa p.dfa.transitions
  .ok (items, rd)

instance (name : Bytes) : Decidable (ValidName name) :=
  inferInstanceAs (Decidable (_ ∨ _))

theorem bind_ok {α β : Type} {x : Except Error α} {f : α → Except Error β} {b : β}
    (h : (x >>= f) = .ok b) : ∃ a, x = .ok a ∧ f a = .ok b := by
  cases x with
  | error e => cases h
  | ok a => exact ⟨a, rfl, h⟩

def Call.Valid : Call → Prop
  | .captureHdr name => ValidName name
  | .matchHttp2Preface => True

instance (call : Call) : Decidable call.Valid :=
  match call with
  | .captureHdr name => inferInstanceAs (Decidable (ValidName name))
  | .matchHttp2Preface => inferInstanceAs (Decidable True)

/-- Valid names, and at most one call for the preface. -/
def ValidCalls (calls : List Call) : Prop :=
  (∀ call ∈ calls, call.Valid) ∧ calls.count .matchHttp2Preface ≤ 1

instance (calls : List Call) : Decidable (ValidCalls calls) :=
  inferInstanceAs (Decidable (_ ∧ _))

theorem ofName_ne_preface (name : Bytes) : Item.ofName name ≠ .preface := by
  unfold Item.ofName
  split <;> [skip; split <;> [skip; split]] <;> exact nofun

theorem configure_spec {calls : List Call} {items : List (Item × MatchId)} {p : Parser}
    (hv : ValidCalls calls) (h : configure calls = .ok (items, p)) :
    Configured items p ∧ ((∃ m, (.preface, m) ∈ items) → .matchHttp2Preface ∈ calls) := by
  induction calls generalizing items p with
  | nil =>
    cases h
    exact ⟨.new, fun ⟨m, hm⟩ => absurd hm List.not_mem_nil⟩
  | cons call calls ih =>
    have hv' : ValidCalls calls := ⟨fun call hm => hv.1 call (List.mem_cons_of_mem _ hm),
      Nat.le_trans (List.count_le_count_cons) hv.2⟩
    cases call with
    | captureHdr name =>
      obtain ⟨⟨items0, p0⟩, h0, h⟩ := bind_ok h
      obtain ⟨⟨mid, p1⟩, h1, h⟩ := bind_ok h
      cases h
      obtain ⟨hc, hpre⟩ := ih hv' h0
      have hname : ValidName name := hv.1 _ List.mem_cons_self
      cases hl : p0.captures.lookup (lowercase name) with
      | some m =>
        refine ⟨.again hc hname hl h1, fun hm => List.mem_cons_of_mem _ (hpre hm)⟩
      | none =>
        refine ⟨.capture hc hname hl h1, fun ⟨m, hm⟩ => ?_⟩
        rcases List.mem_cons.mp hm with heq | hm
        · exact absurd (Prod.mk.inj heq).1.symm (ofName_ne_preface _)
        · exact List.mem_cons_of_mem _ (hpre ⟨m, hm⟩)
    | matchHttp2Preface =>
      obtain ⟨⟨items0, p0⟩, h0, h⟩ := bind_ok h
      obtain ⟨⟨mid, p1⟩, h1, h⟩ := bind_ok h
      cases h
      obtain ⟨hc, hpre⟩ := ih hv' h0
      refine ⟨.preface hc (fun m hm => ?_) h1, fun _ => List.mem_cons_self⟩
      have hcount := hv.2
      rw [List.count_cons_self] at hcount
      have := List.count_pos_iff.mpr (hpre ⟨m, hm⟩)
      omega

/-- What loading the configuration says about it. -/
theorem load_attached {calls : List Call} {items : List (Item × MatchId)} {rd : Rodata}
    (hv : ValidCalls calls) (h : load calls = .ok (items, rd)) : Attached items rd := by
  obtain ⟨⟨items0, p⟩, h0, h⟩ := bind_ok h
  obtain ⟨p', h1, h⟩ := bind_ok h
  obtain ⟨rd', h2, h⟩ := bind_ok h
  cases h
  exact ⟨p, p', (configure_spec hv h0).1, h1, _, List.Perm.refl _, h2⟩

/-- A check of the data that calls lead to. -/
def checkLoad (calls : List Call) (items : List (Item × MatchId)) (P : Rodata → Bool) : Bool :=
  match load calls with
  | .ok (items', rd) => decide (items' = items) && P rd
  | .error _ => false

theorem attached_of_check {calls : List Call} {items : List (Item × MatchId)} {P : Rodata → Bool}
    (hv : ValidCalls calls) (h : checkLoad calls items P = true) :
    ∃ rd, Attached items rd ∧ P rd = true := by
  unfold checkLoad at h
  split at h
  next items' rd hl =>
    simp only [Bool.and_eq_true, decide_eq_true_eq] at h
    obtain ⟨rfl, hp⟩ := h
    exact ⟨rd, load_attached hv hl, hp⟩
  next => cases h

end Beeper.Http1
