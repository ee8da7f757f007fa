import Beeper.Message
import Mathlib.Data.List.AList

namespace Beeper

/-- The state a message is parsed from. -/
def initState : StateId := 0

/-- The fallback state, to which all edges lead to if no input matched. -/
def anyState : StateId := 1

/-- What a transition is matched on: a byte of the message, or `anyInput`. -/
abbrev Input := Nat

/-- The input a state matches any byte with. -/
def anyInput : Input := 0x100

/-- A single transition of a DFA. -/
structure Edge (A : Type) where
  target : StateId
  action : Option A
deriving DecidableEq

/-- The DFA the patterns of a parser are compiled into. -/
structure Dfa (A : Type) where
  numStates : Nat
  edges : AList fun _ : StateId × Input => Edge A

/-- The other case of `input`, if it is a letter. -/
def otherCase (input : Input) : Option Input :=
  if 0x61 ≤ input ∧ input ≤ 0x7a then some (input - 0x20)
  else if 0x41 ≤ input ∧ input ≤ 0x5a then some (input + 0x20)
  else none

variable {A : Type}

/-- Creates a DFA that leaves the first `reserved` state ids to the caller. -/
def Dfa.withReservedStates (reserved : Nat) : Dfa A := ⟨max reserved 2, ∅⟩

def Dfa.new : Dfa A := .withReservedStates 2

def Dfa.lookup (dfa : Dfa A) (source : StateId) (input : Input) : Option (Edge A) :=
  dfa.edges.lookup (source, input)

def Dfa.setEdge (dfa : Dfa A) (source : StateId) (input : Input) (e : Edge A) : Dfa A :=
  { dfa with edges := dfa.edges.insert (source, input) e }

/-- Returns an unused state id. The count of the states is kept in 16 bits and does not
overflow. -/
def Dfa.newState (dfa : Dfa A) : Option (StateId × Dfa A) :=
  if dfa.numStates + 1 < 2 ^ 16 then some (dfa.numStates, { dfa with numStates := dfa.numStates + 1 })
  else none

/-- The next state from a given state and input, which is a new one if none exists. -/
def Dfa.nextState (dfa : Dfa A) (source : StateId) (input : Input) : Option (StateId × Dfa A) :=
  match dfa.lookup source input with
  | some e => some (e.target, dfa)
  | none => dfa.newState

section Edges

variable [DecidableEq A]

/-- Inserts an edge, unless `source` already has one for `input` that leads somewhere else or
carries another action. -/
def Dfa.insertEdge (dfa : Dfa A) (source : StateId) (input : Input) (target : StateId)
    (action : Option A) : Option (Dfa A) :=
  match dfa.lookup source input with
  | none => some (dfa.setEdge source input ⟨target, action⟩)
  | some old =>
    if old.target ≠ target then none
    else match old.action, action with
    | _, none => some dfa
    | none, some a => some (dfa.setEdge source input ⟨old.target, some a⟩)
    | some old, some a => if old = a then some dfa else none

/-- Adds an action to an existing edge, unless it carries another one. -/
def Dfa.addAction (dfa : Dfa A) (source : StateId) (input : Input) (action : A) :
    Option (Dfa A) :=
  match dfa.lookup source input with
  | none => none
  | some old =>
    match old.action with
    | none => some (dfa.setEdge source input ⟨old.target, some action⟩)
    | some a => if a = action then some (dfa.setEdge source input ⟨old.target, some action⟩) else none

/-- Inserts the edge for the other case of `input` as well, unless it is case sensitive. -/
def Dfa.insertOther (dfa : Dfa A) (source : StateId) (input : Input) (target : StateId)
    (caseSensitive : Bool) : Option (Dfa A) :=
  if caseSensitive then some dfa
  else match otherCase input with
  | some other => dfa.insertEdge source other target none
  | none => some dfa

def Dfa.addOther (dfa : Dfa A) (source : StateId) (input : Input) (action : A)
    (caseSensitive : Bool) : Option (Dfa A) :=
  if caseSensitive then some dfa
  else match otherCase input with
  | some other => dfa.addAction source other action
  | none => some dfa

end Edges

/-- An input of a pattern that may be skipped. -/
structure OptionalPrefix where
  inputs : List Input
  caseSensitive : Bool
  repeats : Bool

/-- Builds a single pattern into a DFA. -/
structure DfaBuilder (A : Type) where
  dfa : Dfa A
  /-- The state the pattern has been built up to. -/
  state : StateId
  /-- Inputs that may appear before the next one. -/
  optionalPrefixes : List OptionalPrefix
  /-- The states the optional prefixes that were pushed since the last input end in. -/
  optionalStates : List StateId
  /-- All edges that lead into `state`, and whether they are case sensitive. -/
  lastEdges : List (StateId × Input × Bool)

/-- Starts a new pattern anchored at `state`. -/
def Dfa.startPattern (dfa : Dfa A) (state : StateId) : DfaBuilder A := ⟨dfa, state, [], [], []⟩

namespace DfaBuilder

def pushOptional (b : DfaBuilder A) (input : Bytes) (repeats : Bool) : DfaBuilder A :=
  { b with optionalPrefixes :=
      b.optionalPrefixes ++ [⟨input.map UInt8.toNat, true, repeats⟩] }

variable [DecidableEq A]

/-- Inserts an edge for both the lower and the upper case of `input` unless it is case sensitive,
to the state the DFA already has for `input`, or a new one, if `target` is none. The argument of
`unwrap_or` is evaluated either way. -/
def pushEdgeFrom (b : DfaBuilder A) (source : StateId) (input : Input) (target : Option StateId)
    (caseSensitive : Bool) : Option (StateId × DfaBuilder A) := do
  let (next, dfa) ← b.dfa.nextState source input
  let target := target.getD next
  let dfa ← dfa.insertEdge source input target none
  let dfa ← dfa.insertOther source input target caseSensitive
  some (target, { b with dfa := dfa })

/-- Builds the inputs of an optional prefix that branches off of `source`. One that may repeat
loops back into it. -/
def pushPrefixInputs (source : StateId) (p : OptionalPrefix) :
    List Input → StateId → DfaBuilder A → Option (StateId × DfaBuilder A)
  | [], state, b => some (state, b)
  | [input], state, b =>
    { b with lastEdges := b.lastEdges ++ [(state, input, p.caseSensitive)] }.pushEdgeFrom state input
      (if p.repeats then some source else none) p.caseSensitive
  | input :: inputs, state, b => do
    let (state, b) ← b.pushEdgeFrom state input none p.caseSensitive
    pushPrefixInputs source p inputs state b

/-- Builds an optional prefix that branches off of each of `sources`. -/
def pushPrefixSources (p : OptionalPrefix) :
    List StateId → DfaBuilder A → Option (DfaBuilder A)
  | [], b => some b
  | source :: sources, b => do
    let (state, b) ← pushPrefixInputs source p p.inputs source b
    pushPrefixSources p sources
      (if ¬p.repeats ∧ state ≠ b.state ∧ state ∉ b.optionalStates then
        { b with optionalStates := b.optionalStates ++ [state] }
      else b)

/-- A prefix may be skipped, so it branches off of every state the prefixes before it may end in
as well. -/
def pushPrefixes : List OptionalPrefix → DfaBuilder A → Option (DfaBuilder A)
  | [], b => some b
  | p :: ps, b => do
    let b ← pushPrefixSources p (b.state :: b.optionalStates) b
    pushPrefixes ps b

/-- Builds the optional prefixes that were pushed since the last input. -/
def pushOptionalPrefixes (b : DfaBuilder A) : Option (DfaBuilder A) :=
  pushPrefixes b.optionalPrefixes { b with optionalPrefixes := [] }

/-- Lets `input` follow each of `states`, just like it follows the state of the pattern. -/
def pushStates (input : Input) (target : StateId) (caseSensitive : Bool) :
    List StateId → DfaBuilder A → Option (DfaBuilder A)
  | [], b => some b
  | state :: states, b => do
    let (_, b) ← b.pushEdgeFrom state input (some target) caseSensitive
    pushStates input target caseSensitive states
      { b with lastEdges := b.lastEdges ++ [(state, input, caseSensitive)] }

/-- Appends a single input to the pattern, first building the optional prefixes that were pushed
since the last input. -/
def pushEdge (b : DfaBuilder A) (input : Input) (target : Option StateId) (caseSensitive : Bool) :
    Option (DfaBuilder A) := do
  let b ← b.pushOptionalPrefixes
  let (target, b) ← b.pushEdgeFrom b.state input target caseSensitive
  let b ← pushStates input target caseSensitive b.optionalStates
    { b with lastEdges := [(b.state, input, caseSensitive)], optionalStates := [] }
  some { b with state := target }

/-- Attaches `action` to the edges, in both cases where they are not case sensitive. -/
def addActions (action : A) : List (StateId × Input × Bool) → Dfa A → Option (Dfa A)
  | [], dfa => some dfa
  | (source, input, caseSensitive) :: edges, dfa => do
    let dfa ← dfa.addAction source input action
    let dfa ← dfa.addOther source input action caseSensitive
    addActions action edges dfa

/-- Attaches `action` to every transition that leads into the state the pattern has been built
up to. -/
def withAction (b : DfaBuilder A) (action : A) : Option (DfaBuilder A) := do
  let b ← b.pushOptionalPrefixes
  let dfa ← addActions action b.lastEdges b.dfa
  some { b with dfa := dfa }

/-- Appends `input` to the pattern, one edge per character. -/
def pushInner : Bytes → Bool → DfaBuilder A → Option (DfaBuilder A)
  | [], _, b => some b
  | c :: cs, caseSensitive, b => do
    let b ← b.pushEdge c.toNat none caseSensitive
    pushInner cs caseSensitive b

def push (b : DfaBuilder A) (input : Bytes) : Option (DfaBuilder A) := pushInner input true b

def pushCi (b : DfaBuilder A) (input : Bytes) : Option (DfaBuilder A) := pushInner input false b

/-- Appends an input to the pattern that leads on to `target` with its last character. -/
def pushTo (target : StateId) (caseSensitive : Bool) : Bytes → DfaBuilder A → Option (DfaBuilder A)
  | [], b => some b
  | c :: cs, b => do
    let b ← b.pushEdge c.toNat (if cs = [] then some target else none) caseSensitive
    pushTo target caseSensitive cs b

/-- Pushes `n` transitions any byte takes. -/
def pushAnys : Nat → DfaBuilder A → Option (DfaBuilder A)
  | 0, b => some b
  | n + 1, b => do
    let b ← b.pushEdge anyInput none true
    pushAnys n b

/-- Pushes the transition any byte takes, `minLen` to `maxLen` times, or without an upper bound
if there is no `maxLen`. -/
def pushAny (b : DfaBuilder A) (minLen : Nat) (maxLen : Option Nat) : Option (DfaBuilder A) := do
  if maxLen.getD minLen < minLen then none
  let b ← pushAnys minLen b
  -- these are optional, and none of them may repeat
  let optional := List.replicate (maxLen.getD minLen - minLen) ⟨[anyInput], true, false⟩
  let b := { b with optionalPrefixes := b.optionalPrefixes ++ optional }
  match maxLen with
  | some _ => some b
  | none => do
    let (_, b) ← b.pushEdgeFrom b.state anyInput (some b.state) true
    some { b with lastEdges := b.lastEdges ++ [(b.state, anyInput, true)] }

/-- The last of the longest of `inputs`. -/
def longest : List Bytes → Option Bytes
  | [] => none
  | input :: inputs =>
    match longest inputs with
    | none => some input
    | some l => if l.length < input.length then some input else some l

/-- Pushes the options, all of which end in the state `last`, each from `start`. -/
def pushOthers (start last : StateId) :
    List Bytes → List (StateId × Input × Bool) → DfaBuilder A → Option (DfaBuilder A)
  | [], lastEdges, b => some { b with lastEdges := lastEdges }
  | input :: inputs, lastEdges, b => do
    if input = [] then none
    let b ← pushTo last false input { b with state := start }
    pushOthers start last inputs (lastEdges ++ b.lastEdges) { b with lastEdges := [] }

/-- Adds a set of case-insensitive patterns, one of which must match. -/
def pushOptionsCi (b : DfaBuilder A) (inputs : List Bytes) : Option (DfaBuilder A) :=
  match longest inputs with
  | none => some b
  | some l => do
    let start := b.state
    let b ← pushInner l false b
    pushOthers start b.state (inputs.filter (· ≠ l)) b.lastEdges { b with lastEdges := [] }

/-- The path of `input` out of `state`, to the state it ends in. -/
def restartStates : Bytes → StateId → DfaBuilder A → Option (StateId × DfaBuilder A)
  | [], state, b => some (state, b)
  | c :: cs, state, b => do
    let (next, dfa) ← b.dfa.nextState state c.toNat
    let (_, b) ← { b with dfa := dfa }.pushEdgeFrom state c.toNat (some next) false
    restartStates cs next b

/-- Matches the given input string but sets the final state to the state the DFA would be in if
it started from `anyState`. -/
def restartWith (b : DfaBuilder A) (input : Bytes) : Option (DfaBuilder A) := do
  let (last, b) ← restartStates input anyState b
  pushTo last false input b

end DfaBuilder

end Beeper
