import Beeper.Http1Room
import Mathlib.Data.Fintype.Card

namespace Beeper.Http1

variable {items : List (Item × MatchId)} {p p' : Parser} {mid : MatchId} {call : Call}
  {log : List (Call × Except Error MatchId)}

def Call.run : Call → Parser → Except Error (MatchId × Parser)
  | .captureHdr name, p => p.captureHdr name
  | .matchHttp2Preface, p => p.matchHttp2Preface

/-- Captures what `pattern` adds to the DFA, in place: what is returned, and the parser that is left
behind, for which a panic comes too late to keep the match id. -/
def Parser.capturePatternIn (p : Parser) (pattern : Dfa Action → MatchId → Option (Dfa Action)) :
    Except Error MatchId × Parser :=
  match p.newMatch with
  | .error e => (.error e, p)
  | .ok (mid, p) =>
    match pattern p.dfa mid with
    | none => (.error .panic, p)
    | some dfa => (.ok mid, { p with dfa := dfa })

/-- A call, as it changes the parser in place. -/
def Call.exec : Call → Parser → Except Error MatchId × Parser
  | .captureHdr name, p =>
    match p.captures.lookup (lowercase name) with
    | some mid => (.ok mid, p)
    | none =>
      match p.capturePatternIn fun dfa mid => (Item.ofName (lowercase name)).pattern dfa mid with
      | (.ok mid, p) => (.ok mid, { p with captures := (lowercase name, mid) :: p.captures })
      | (.error e, p) => (.error e, p)
  | .matchHttp2Preface, p => p.capturePatternIn prefacePattern

/-- What a call captures. -/
def Call.item : Call → Item
  | .captureHdr name => .ofName (lowercase name)
  | .matchHttp2Preface => .preface

/-- Runs of calls that each meet `C`, with what they return, the last of which comes first. -/
inductive Calls (C : List (Call × Except Error MatchId) → Parser → Call → Prop) :
    List (Call × Except Error MatchId) → Parser → Prop
  | new : Calls C [] .new
  | ok {log : List (Call × Except Error MatchId)} {p p' : Parser} {call : Call} {mid : MatchId}
      (h : Calls C log p) (hv : call.Valid) (hc : C log p call)
      (hr : call.run p = .ok (mid, p')) : Calls C ((call, .ok mid) :: log) p'
  | error {log : List (Call × Except Error MatchId)} {p : Parser} {call : Call} {e : Error}
      (h : Calls C log p) (hv : call.Valid) (hc : C log p call)
      (hr : call.run p = .error e) : Calls C ((call, .error e) :: log) (call.exec p).2

/-- The ids that were handed out, and what for. -/
def handedOut : List (Call × Except Error MatchId) → List (Item × MatchId)
  | [] => []
  | (call, .ok mid) :: log => (call.item, mid) :: handedOut log
  | (_, .error _) :: log => handedOut log

open Classical in
/-- The ids of states the pattern of `it` takes: one for every edge that it adds, and one more if
it restarts at a newline that nothing was added for before. -/
noncomputable def newStates (items : List (Item × MatchId)) (it : Item) : Nat :=
  it.pushes.countP (fun x => x ∉ itemEdges items) +
    if it.Restarts ∧ (.any, lfInput) ∉ itemEdges items then 1 else 0

/-- What a call needs: it captures what is captured already, other than the preface, or there is
no match id left for it, or there are state ids left for its pattern, which is not the one of the
preface for the second time. -/
def Call.Fits (log : List (Call × Except Error MatchId)) (p : Parser) (call : Call) : Prop :=
  (call.item ≠ .preface ∧ call.item ∈ (handedOut log).map Prod.fst) ∨
    maxMatches ≤ p.numMatches ∨
    (call.item ∉ (handedOut log).map Prod.fst ∧
      p.dfa.numStates + newStates (handedOut log) call.item < 2 ^ 16)

theorem mem_handedOut : (call.item, mid) ∈ handedOut ((call, .ok mid) :: log) :=
  List.mem_cons_self

theorem handedOut_of_mem (h : (call, .ok mid) ∈ log) : (call.item, mid) ∈ handedOut log := by
  induction log with
  | nil => cases h
  | cons x log ih =>
    rcases List.mem_cons.mp h with rfl | hm
    · exact mem_handedOut
    · obtain ⟨c, r⟩ := x
      cases r with
      | ok m => exact List.mem_cons_of_mem _ (ih hm)
      | error e => exact ih hm

/-- What is known of a parser behind calls that handed out `out`. -/
structure Known (out : List (Item × MatchId)) (p : Parser) : Prop where
  configured : ∃ items, Configured items p ∧ ∀ y, y ∈ items ↔ y ∈ out
  captures : ∀ name m, p.captures.lookup name = some m → (.ofName name, m) ∈ out

theorem itemEdges_congr {items' : List (Item × MatchId)} (h : ∀ y, y ∈ items ↔ y ∈ items') :
    itemEdges items = itemEdges items' := by
  ext x
  simp only [itemEdges, h, Set.mem_ofPred_eq]

theorem room_of_newStates {it : Item} {dfa : Dfa Action}
    (h : dfa.numStates + newStates items it < 2 ^ 16) :
    ∃ k, Room dfa (itemEdges items) it.pushes k ∧
      (it.Restarts → (.any, lfInput) ∉ itemEdges items → 0 < k) := by
  classical
  refine ⟨_, by rw [newStates, ← Nat.add_assoc] at h; exact h, fun hr hn => ?_⟩
  rw [if_pos ⟨hr, hn⟩]
  exact Nat.one_pos

/-- An item that nothing was handed out for is captured, if there are ids left. -/
theorem Known.capture {out : List (Item × MatchId)} (it : Item) (h : Known out p)
    (hn : it.Named) (hnew : it ∉ out.map Prod.fst) (hlt : p.numMatches < maxMatches)
    (hs : p.dfa.numStates + newStates out it < 2 ^ 16) :
    ∃ p', p.capturePattern (fun dfa mid => it.pattern dfa mid) = .ok (p.numMatches, p') := by
  obtain ⟨items, hc, hiff⟩ := h.configured
  obtain ⟨num, hrep⟩ := hc.configuration.represents
  obtain ⟨k, hroom, hk⟩ := room_of_newStates hs
  rw [← itemEdges_congr hiff] at hroom hk
  have hfresh : it ∉ items.map Prod.fst := by
    intro hm
    obtain ⟨y, hy, rfl⟩ := List.mem_map.mp hm
    exact hnew (List.mem_map_of_mem ((hiff y).mp hy))
  obtain ⟨dfa', hp⟩ := it.pattern_runs p.numMatches hn hrep (free_of_new hfresh) hk hroom
  refine ⟨⟨dfa', p.numMatches + 1, p.captures⟩, ?_⟩
  unfold Parser.capturePattern Parser.newMatch
  rw [if_neg (Nat.not_le_of_lt hlt)]
  show (orPanic (it.pattern p.dfa p.numMatches) >>= _) = _
  rw [hp]
  rfl

theorem capturePattern_limit {pattern : Dfa Action → MatchId → Option (Dfa Action)}
    (h : maxMatches ≤ p.numMatches) :
    p.capturePattern pattern = .error (.matchLimitExceeded maxMatches) := by
  unfold Parser.capturePattern Parser.newMatch
  rw [if_pos h]
  rfl

theorem Known.new : Known [] .new :=
  ⟨⟨[], .new, fun _ => Iff.rfl⟩, fun _ _ h => by cases h⟩

/-- What is captured already is found under its name. -/
theorem Known.lookup {out : List (Item × MatchId)} {name : Bytes} (h : Known out p)
    (hm : .ofName name ∈ out.map Prod.fst) : ∃ mid, p.captures.lookup name = some mid := by
  obtain ⟨items, hc, hiff⟩ := h.configured
  obtain ⟨⟨it, mid⟩, hy, heq⟩ := List.mem_map.mp hm
  have heq : it = .ofName name := heq
  subst heq
  have hcap := hc.configuration.captures _ mid ((hiff _).mpr hy) (ofName_ne_preface name)
  rw [name_ofName] at hcap
  exact ⟨mid, hcap⟩

theorem Known.captureHdr {out : List (Item × MatchId)} {name : Bytes} (h : Known out p)
    (hv : ValidName name) (hf : p.captures.lookup (lowercase name) = none →
      p.numMatches < maxMatches → .ofName (lowercase name) ∉ out.map Prod.fst →
      p.dfa.numStates + newStates out (.ofName (lowercase name)) < 2 ^ 16) :
    (∃ mid p', p.captureHdr name = .ok (mid, p') ∧
      Known ((.ofName (lowercase name), mid) :: out) p') ∨
      p.captureHdr name = .error (.matchLimitExceeded maxMatches) := by
  obtain ⟨items, hc, hiff⟩ := h.configured
  cases hl : p.captures.lookup (lowercase name) with
  | some mid =>
    have hmem := h.captures _ _ hl
    refine .inl ⟨mid, p, ?_, ⟨items, hc, fun y => ?_⟩, fun name' m hm => ?_⟩
    · unfold Parser.captureHdr
      rw [hl]
    · rw [hiff, List.mem_cons]
      refine ⟨.inr, fun hy => hy.elim (fun heq => ?_) id⟩
      rw [heq]
      exact hmem
    · exact List.mem_cons_of_mem _ (h.captures _ _ hm)
  | none =>
    by_cases hlimit : maxMatches ≤ p.numMatches
    · right
      unfold Parser.captureHdr
      rw [hl]
      simp only [captureNewHdr_eq, capturePattern_limit hlimit]
      rfl
    · have hlt := Nat.lt_of_not_le hlimit
      have hnew : .ofName (lowercase name) ∉ out.map Prod.fst := by
        intro hm
        obtain ⟨mid, hmid⟩ := h.lookup hm
        cases hl.symm.trans hmid
      obtain ⟨p1, hp1⟩ := h.capture _ (ofName_named hv) hnew hlt (hf hl hlt hnew)
      have hrun : p.captureHdr name = .ok (p.numMatches,
          { p1 with captures := (lowercase name, p.numMatches) :: p1.captures }) := by
        unfold Parser.captureHdr
        rw [hl]
        simp only [captureNewHdr_eq, hp1]
        rfl
      refine .inl ⟨_, _, hrun, ⟨_, .capture hc hv hl hrun, fun y => ?_⟩, fun name' m hm => ?_⟩
      · rw [List.mem_cons, List.mem_cons, hiff]
      · have hm : List.lookup name' ((lowercase name, p.numMatches) :: p1.captures) = some m := hm
        rw [List.lookup_cons] at hm
        by_cases heq : name' = lowercase name
        · subst heq
          simp only [beq_self_eq_true] at hm
          cases hm
          exact List.mem_cons_self
        · rw [beq_eq_false_iff_ne.mpr heq, (Http1.capturePattern_ok hp1).2.2.2.1] at hm
          exact List.mem_cons_of_mem _ (h.captures _ _ hm)

theorem Known.matchHttp2Preface {out : List (Item × MatchId)} (h : Known out p)
    (hf : p.numMatches < maxMatches → .preface ∉ out.map Prod.fst ∧
      p.dfa.numStates + newStates out .preface < 2 ^ 16) :
    (∃ mid p', p.matchHttp2Preface = .ok (mid, p') ∧ Known ((.preface, mid) :: out) p') ∨
      p.matchHttp2Preface = .error (.matchLimitExceeded maxMatches) := by
  obtain ⟨items, hc, hiff⟩ := h.configured
  by_cases hlimit : maxMatches ≤ p.numMatches
  · exact .inr (capturePattern_limit hlimit)
  · have hlt := Nat.lt_of_not_le hlimit
    obtain ⟨hnew, hs⟩ := hf hlt
    obtain ⟨p1, hp1⟩ := h.capture .preface trivial hnew hlt hs
    have hfresh : ∀ m, (.preface, m) ∉ items := fun m hm =>
      hnew (List.mem_map.mpr ⟨_, (hiff _).mp hm, rfl⟩)
    refine .inl ⟨_, p1, hp1, ⟨_, .preface hc hfresh hp1, fun y => ?_⟩, fun name m hm => ?_⟩
    · rw [List.mem_cons, List.mem_cons, hiff]
    · rw [(Http1.capturePattern_ok hp1).2.2.2.1] at hm
      exact List.mem_cons_of_mem _ (h.captures _ _ hm)

variable {pattern : Dfa Action → MatchId → Option (Dfa Action)}

theorem capturePatternIn_eq (p : Parser) (pattern : Dfa Action → MatchId → Option (Dfa Action)) :
    p.capturePattern pattern = (p.capturePatternIn pattern).1.map fun mid =>
      (mid, (p.capturePatternIn pattern).2) := by
  unfold Parser.capturePattern Parser.capturePatternIn
  cases hm : p.newMatch with
  | error e => rfl
  | ok x =>
    obtain ⟨mid, p'⟩ := x
    show (orPanic (pattern p'.dfa mid) >>= _) = _
    simp only
    cases pattern p'.dfa mid <;> rfl

/-- The calls that change the parser in place are the ones that return it. -/
theorem Call.run_eq (call : Call) (p : Parser) :
    call.run p = (call.exec p).1.map fun mid => (mid, (call.exec p).2) := by
  cases call with
  | captureHdr name =>
    cases hl : p.captures.lookup (lowercase name) with
    | some mid =>
      simp only [Call.run, Call.exec, Parser.captureHdr, hl]
      rfl
    | none =>
      simp only [Call.run, Call.exec, Parser.captureHdr, hl, captureNewHdr_eq, capturePatternIn_eq]
      generalize p.capturePatternIn _ = r
      obtain ⟨x, p'⟩ := r
      cases x <;> rfl
  | matchHttp2Preface => exact capturePatternIn_eq p prefacePattern

theorem capturePatternIn_limit {n : Nat}
    (h : (p.capturePatternIn pattern).1 = .error (.matchLimitExceeded n)) :
    (p.capturePatternIn pattern).2 = p := by
  unfold Parser.capturePatternIn at h ⊢
  cases hm : p.newMatch with
  | error e => rfl
  | ok x =>
    obtain ⟨mid, p'⟩ := x
    simp only [hm] at h
    cases hp : pattern p'.dfa mid <;> simp [hp] at h

/-- A call that finds no match id left leaves the parser as it was. -/
theorem Call.exec_limit {n : Nat} (h : call.run p = .error (.matchLimitExceeded n)) :
    (call.exec p).2 = p := by
  have herr : (call.exec p).1 = .error (.matchLimitExceeded n) := by
    rw [call.run_eq] at h
    cases hx : (call.exec p).1 with
    | error e =>
      rw [hx] at h
      exact congrArg Except.error (Except.error.inj h)
    | ok mid =>
      rw [hx] at h
      cases h
  cases call with
  | captureHdr name =>
    cases hl : p.captures.lookup (lowercase name) with
    | some mid => simp only [Call.exec, hl]
    | none =>
      simp only [Call.exec, hl] at herr ⊢
      have hlimit := @capturePatternIn_limit p
        (fun dfa mid => (Item.ofName (lowercase name)).pattern dfa mid) n
      generalize p.capturePatternIn _ = r at herr hlimit
      obtain ⟨x, p'⟩ := r
      cases x with
      | error e => exact hlimit herr
      | ok mid => cases herr
  | matchHttp2Preface => exact capturePatternIn_limit herr

/-- What a call that fits comes to. -/
theorem Known.run (h : Known (handedOut log) p) (hv : call.Valid) (hf : call.Fits log p) :
    (∃ mid p', call.run p = .ok (mid, p') ∧ Known ((call.item, mid) :: handedOut log) p') ∨
      call.run p = .error (.matchLimitExceeded maxMatches) := by
  cases call with
  | captureHdr name =>
    refine h.captureHdr hv fun _ hlt hnew => ?_
    rcases hf with ⟨-, hm⟩ | hlimit | ⟨-, hs⟩
    · exact absurd hm hnew
    · exact absurd hlimit (Nat.not_le_of_lt hlt)
    · exact hs
  | matchHttp2Preface =>
    refine h.matchHttp2Preface fun hlt => ?_
    rcases hf with ⟨hne, -⟩ | hlimit | hfit
    · exact absurd rfl hne
    · exact absurd hlimit (Nat.not_le_of_lt hlt)
    · exact hfit

theorem Calls.known (h : Calls (fun log p call => call.Fits log p) log p) :
    Known (handedOut log) p ∧ ∀ x ∈ log,
      (∃ mid, x.2 = .ok mid) ∨ x.2 = .error (.matchLimitExceeded maxMatches) := by
  induction h with
  | new => exact ⟨.new, fun x hx => absurd hx List.not_mem_nil⟩
  | ok h hv hf hr ih =>
    obtain ⟨hknown, hlog⟩ := ih
    rcases hknown.run hv hf with ⟨mid', p2, hr', hknown'⟩ | herr
    · cases hr.symm.trans hr'
      exact ⟨hknown', List.forall_mem_cons.mpr ⟨.inl ⟨_, rfl⟩, hlog⟩⟩
    · cases hr.symm.trans herr
  | error h hv hf hr ih =>
    obtain ⟨hknown, hlog⟩ := ih
    rcases hknown.run hv hf with ⟨mid', p2, hr', -⟩ | herr
    · cases hr.symm.trans hr'
    · cases hr.symm.trans herr
      rw [Call.exec_limit herr]
      exact ⟨hknown, List.forall_mem_cons.mpr ⟨.inr rfl, hlog⟩⟩

/-- Two items are told apart by their ids, and two ids by their items. -/
theorem Known.mid_eq_iff {out : List (Item × MatchId)} (h : Known out p) {x y : Item × MatchId}
    (hx : x ∈ out) (hy : y ∈ out) : x.2 = y.2 ↔ x.1 = y.1 := by
  obtain ⟨items, hc, hiff⟩ := h.configured
  have hconf := hc.configuration
  have hx := (hiff x).mpr hx
  have hy := (hiff y).mpr hy
  constructor
  · intro heq
    rw [List.inj_on_of_nodup_map hconf.mids_nodup hx hy heq]
  · intro heq
    rw [List.inj_on_of_nodup_map hconf.nodup hx hy heq]

/-- In a run of calls that fit, every call returns a match id or says that there is none left, in
which case it leaves the parser as it was, and two calls return the same id if and only if they
capture the same. -/
theorem Calls.answers (h : Calls (fun log p call => call.Fits log p) log p) :
    (∀ x ∈ log, (∃ mid, x.2 = .ok mid) ∨ x.2 = .error (.matchLimitExceeded maxMatches)) ∧
      (∀ c d m m', (c, .ok m) ∈ log → (d, .ok m') ∈ log → (m = m' ↔ c.item = d.item)) ∧
      ∀ (call : Call) n, call.run p = .error (.matchLimitExceeded n) → (call.exec p).2 = p := by
  obtain ⟨hknown, hlog⟩ := h.known
  exact ⟨hlog, fun c d m m' hc hd => hknown.mid_eq_iff (handedOut_of_mem hc) (handedOut_of_mem hd),
    fun call n hlimit => Call.exec_limit hlimit⟩

theorem newStates_le (items : List (Item × MatchId)) (it : Item) :
    newStates items it ≤ it.pushes.length + 1 := by
  classical
  have hcount : it.pushes.countP (fun x => x ∉ itemEdges items) ≤ it.pushes.length :=
    List.countP_le_length
  unfold newStates
  split <;> omega

/-- A name that is captured twice, in either case. -/
theorem Calls.answersAgain : ∃ log p, Calls (fun log p call => call.Fits log p) log p ∧
    log.map Prod.fst = [.captureHdr (ascii "A"), .captureHdr (ascii "a")] ∧
    (∀ x ∈ log, (∃ mid, x.2 = .ok mid) ∨ x.2 = .error (.matchLimitExceeded maxMatches)) ∧
      (∀ c d m m', (c, .ok m) ∈ log → (d, .ok m') ∈ log → (m = m' ↔ c.item = d.item)) ∧
      ∀ (call : Call) n, call.run p = .error (.matchLimitExceeded n) → (call.exec p).2 = p := by
  have hvalid : (Call.captureHdr (ascii "a")).Valid ∧ (Call.captureHdr (ascii "A")).Valid := by
    decide +kernel
  have hitem : (Call.captureHdr (ascii "A")).item = (Call.captureHdr (ascii "a")).item := by
    decide +kernel
  have hfits : (Call.captureHdr (ascii "a")).Fits [] .new := by
    refine .inr (.inr ⟨List.not_mem_nil, ?_⟩)
    have hsmall : (Call.captureHdr (ascii "a")).item.pushes.length + 1 < 100 := by
      decide +kernel
    have hle := newStates_le (handedOut []) (Call.captureHdr (ascii "a")).item
    have hnum : Parser.new.dfa.numStates = 2 := rfl
    omega
  have hcheck : (match (Call.captureHdr (ascii "a")).run .new with
      | .ok (_, p) => (match (Call.captureHdr (ascii "A")).run p with
        | .ok _ => true
        | .error _ => false)
      | .error _ => false) = true := by decide +kernel
  split at hcheck
  next mid p hr =>
    split at hcheck
    next x hr' =>
      obtain ⟨mid', p'⟩ := x
      have hrun := Calls.ok .new hvalid.1 hfits hr
      have hagain : (Call.captureHdr (ascii "A")).Fits [(.captureHdr (ascii "a"), .ok mid)] p :=
        .inl ⟨ofName_ne_preface _, by rw [hitem]; exact List.mem_cons_self⟩
      exact ⟨_, p', hrun.ok hvalid.2 hagain hr', rfl, (hrun.ok hvalid.2 hagain hr').answers⟩
    next => cases hcheck
  next => cases hcheck

/-- The preface is matched under an id of its own each time, unlike the header fields, and the
second of the ids is in the way of the first. -/
theorem Calls.prefaceAgain : ¬∀ log p, Calls (fun _ _ _ => True) log p →
    (∀ x ∈ log, (∃ mid, x.2 = .ok mid) ∨ x.2 = .error (.matchLimitExceeded maxMatches)) ∧
      ∀ c d m m', (c, .ok m) ∈ log → (d, .ok m') ∈ log → (m = m' ↔ c.item = d.item) := by
  intro hall
  have hcheck : (match Call.matchHttp2Preface.run .new with
      | .ok (_, p) => (match Call.matchHttp2Preface.run p with
        | .ok _ => false
        | .error e => decide (e = .panic))
      | .error _ => false) = true := by decide +kernel
  split at hcheck
  next mid p hr =>
    split at hcheck
    next => cases hcheck
    next e hr' =>
      obtain rfl := of_decide_eq_true hcheck
      have hvalid : Call.matchHttp2Preface.Valid := trivial
      have hrun := Calls.ok (C := fun _ _ _ => True) .new hvalid trivial hr
      rcases (hall _ _ (hrun.error hvalid trivial hr')).1 _ List.mem_cons_self with ⟨m, hm⟩ | hm
      · cases hm
      · cases hm
  next => cases hcheck

/-- A name that has more characters than there are states cannot be pushed. -/
theorem headerPattern_long {E : Set (Label × Input)} {T : Set (Label × Input × Action)}
    {num : Label → Option StateId} {dfa : Dfa Action} {n : Bytes} (hn : HeaderName n)
    (h : Represents shape E T num dfa) (hlt : dfa.numStates < 2 ^ 16) (hlong : 2 ^ 16 ≤ n.length) :
    headerPattern dfa n mid = none := by
  rw [Option.eq_none_iff_forall_not_mem]
  intro dfa' hp
  unfold headerPattern at hp
  simp only [Option.bind_eq_bind, Option.mem_def, Option.bind_eq_some_iff] at hp
  obtain ⟨b1, h1, b2, h2, -⟩ := hp
  obtain ⟨num1, -, hat1, hpre1⟩ := pushLine h h1
  obtain ⟨num2, -, hat2, -⟩ := hat1.pushInner hpre1 hn.grows h2
  have hsmall : b2.dfa.numStates < 2 ^ 16 := by
    have hext := (DfaBuilder.pushInner_extends h1).trans (DfaBuilder.pushInner_extends h2)
    exact hext.counted.elim (fun heq => heq ▸ hlt) id
  -- every front of the name has a state of its own
  have hstate : ∀ k : Fin n.length, ∃ s : Fin b2.dfa.numStates,
      num2 (.name (n.take k)) = some s.val := by
    intro k
    have hget : n.take k ++ [n[k]] = n.take (k + 1) := List.take_append_getElem k.isLt
    have hmem : (Label.name (n.take k), (n[k]).toNat) ∈ shape.pathSet false (.name []) n := by
      refine hn.mem_pathSet.mpr ⟨_, rfl, (n[k]).toNat_lt, ?_⟩
      have hlower : lowerByte n[k] = n[k] := hn.lower _ (List.getElem_mem k.isLt)
      rw [UInt8.ofNat_toNat, hlower, hget]
      exact List.take_prefix _ _
    obtain ⟨s, -, hs, -⟩ := hat2.rep.present _ _ (.inr hmem)
    exact ⟨⟨s, hat2.rep.lt _ _ hs⟩, hs⟩
  choose f hf using hstate
  have hinj : Function.Injective f := by
    intro j k heq
    have hname := hat2.rep.inj _ _ _ (hf j) (heq ▸ hf k)
    have hlen := congrArg List.length (Label.name.inj hname)
    rw [List.length_take_of_le (Nat.le_of_lt j.isLt), List.length_take_of_le (Nat.le_of_lt k.isLt)]
      at hlen
    exact Fin.ext hlen
  have hcard := Fintype.card_le_of_injective f hinj
  rw [Fintype.card_fin, Fintype.card_fin] at hcard
  omega

/-- The counter of the states overflows where a name is that long. -/
theorem captureHdr_long {name : Bytes} (hne : name ≠ []) (ht : ∀ c ∈ name, isTokenChar c)
    (hlong : 2 ^ 16 ≤ name.length) : Parser.new.captureHdr name = .error .panic := by
  have hlen : (lowercase name).length = name.length := List.length_map _
  have hpseudo : ∀ w : Bytes, w.length < 2 ^ 16 → lowercase name ≠ w := by
    rintro w hw rfl
    omega
  have hit : Item.ofName (lowercase name) = .header (lowercase name) := by
    unfold Item.ofName
    rw [if_neg (hpseudo _ (by decide)), if_neg (hpseudo _ (by decide)),
      if_neg (hpseudo _ (by decide))]
  obtain ⟨num, hrep⟩ := Configured.new.configuration.represents
  have hnone : headerPattern Parser.new.dfa (lowercase name) 0 = none :=
    headerPattern_long (headerName_of_token hne ht) hrep (by decide) (by rw [hlen]; exact hlong)
  have hpattern : (Item.header (lowercase name)).pattern Parser.new.dfa 0 = none := hnone
  have hcap : Parser.new.capturePattern (fun dfa mid =>
      (Item.ofName (lowercase name)).pattern dfa mid) = .error .panic := by
    unfold Parser.capturePattern
    show (orPanic ((Item.ofName (lowercase name)).pattern Parser.new.dfa 0) >>= _) = _
    rw [hit, hpattern]
    rfl
  unfold Parser.captureHdr
  show (Parser.new.captureNewHdr (lowercase name) >>= _) = _
  rw [captureNewHdr_eq, hcap]
  rfl

/-- So the run of a single call with such a name returns neither an id nor that none is left. -/
theorem Calls.longName : ∃ log p, Calls (fun _ _ _ => True) log p ∧
    log = [(.captureHdr (List.replicate (2 ^ 16) 0x61), .error .panic)] := by
  have hlen : (List.replicate (2 ^ 16) (0x61 : UInt8)).length = 2 ^ 16 := List.length_replicate
  have hne : List.replicate (2 ^ 16) (0x61 : UInt8) ≠ [] := by
    intro hnil
    rw [hnil] at hlen
    cases hlen
  have ht : ∀ c ∈ List.replicate (2 ^ 16) (0x61 : UInt8), isTokenChar c := by
    intro c hc
    rw [List.eq_of_mem_replicate hc]
    decide
  have hvalid : (Call.captureHdr (List.replicate (2 ^ 16) 0x61)).Valid := .inl ⟨hne, ht⟩
  exact ⟨_, _, Calls.new.error hvalid trivial (captureHdr_long hne ht (Nat.le_of_eq hlen.symm)), rfl⟩

end Beeper.Http1
