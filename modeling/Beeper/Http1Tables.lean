import Beeper.BuilderTargets
import Beeper.Http1Inject

namespace Beeper

/-- An action a transition may carry. -/
def Dfa.Carries {A : Type} (dfa : Dfa A) (a : Option A) : Prop :=
  a = none ∨ ∃ s i e, dfa.lookup s i = some e ∧ e.action = a

namespace Http1

/-- The parsers that calls of the configuration lead to, whatever the names are. -/
inductive Built : Parser → Prop
  | new : Built .new
  | capture {p p' : Parser} {name : Bytes} {mid : MatchId} (h : Built p)
      (hc : p.captureHdr name = .ok (mid, p')) : Built p'
  | preface {p p' : Parser} {mid : MatchId} (h : Built p)
      (hc : p.matchHttp2Preface = .ok (mid, p')) : Built p'
  | done {p p' : Parser} (h : Built p) (hc : p.doneOnHdrEnd = .ok p') : Built p'

section Patterns

variable {dfa dfa' : Dfa Action} {b b' : DfaBuilder Action} {name : Bytes} {mid : MatchId}

theorem startPattern_avoids (h : dfa.Avoids initState) (s : StateId) :
    (dfa.startPattern s).Avoids initState :=
  ⟨h, List.not_mem_nil, fun _ _ hp => absurd hp List.not_mem_nil⟩

theorem pushAny_moves {minLen : Nat} {maxLen : Option Nat} (h : b.Avoids initState)
    (hmin : 0 < minLen) (hp : b.pushAny minLen maxLen = some b') :
    b'.Avoids initState ∧ b'.state ≠ initState := by
  obtain ⟨hb, hs⟩ := DfaBuilder.pushAny_avoids h (fun _ hz => absurd hz (Nat.ne_of_gt hmin)) hp
  exact ⟨hb, hs.resolve_left fun hz => absurd hz.1 (Nat.ne_of_gt hmin)⟩

theorem pushInner_moves {bytes : Bytes} {cs : Bool} (h : b.Avoids initState) (hne : bytes ≠ [])
    (hp : DfaBuilder.pushInner bytes cs b = some b') :
    b'.Avoids initState ∧ b'.state ≠ initState := by
  obtain ⟨hb, hs⟩ := DfaBuilder.pushInner_avoids h hp
  exact ⟨hb, (hs.resolve_left fun hnil => hne hnil.1).1⟩

theorem restartLine_avoids (h : b.Avoids initState)
    (hp : (b.pushOptional cr false).restartWith lf = some b') : b'.dfa.Avoids initState :=
  (DfaBuilder.restartWith_avoids (DfaBuilder.pushOptional_avoids h fun _ => rfl) nofun hp).1.dfa

theorem headerPattern_avoids (h : dfa.Avoids initState)
    (hp : headerPattern dfa name mid = some dfa') : dfa'.Avoids initState := by
  simp only [headerPattern, Option.bind_eq_bind, Option.bind_eq_some_iff] at hp
  obtain ⟨b1, h1, b2, h2, b3, h3, b4, h4, b5, h5, b6, h6, b7, h7, b8, h8, heq⟩ := hp
  cases Option.some.inj heq
  obtain ⟨hb1, hs1⟩ := pushInner_moves (startPattern_avoids h anyState) (by decide) h1
  obtain ⟨hb2, hs2⟩ := DfaBuilder.pushInner_avoids hb1 h2
  have hs2 : b2.state ≠ initState := by
    rcases hs2 with ⟨-, rfl⟩ | hs2
    · exact hs1
    · exact hs2.1
  have hblank : ∀ {b : DfaBuilder Action}, b.Avoids initState → b.state ≠ initState →
      ((b.pushOptional tab true).pushOptional space true).Avoids initState := fun hb hs =>
    DfaBuilder.pushOptional_avoids (DfaBuilder.pushOptional_avoids hb fun heq => absurd heq hs)
      fun heq => absurd heq hs
  obtain ⟨hb3, hs3⟩ := pushInner_moves (hblank hb2 hs2) (by decide) h3
  obtain ⟨hb4, -⟩ := DfaBuilder.withAction_avoids (hblank hb3 hs3) h4
  obtain ⟨hb5, -⟩ := pushAny_moves hb4 Nat.zero_lt_one h5
  obtain ⟨hb6, -⟩ := DfaBuilder.withAction_avoids hb5 h6
  have hd7 := restartLine_avoids hb6 h7
  exact restartLine_avoids (startPattern_avoids hd7 _) h8

theorem endOfRequestLine_avoids (h : b.Avoids initState) (hp : endOfRequestLine b = some dfa') :
    dfa'.Avoids initState := by
  simp only [endOfRequestLine, Option.bind_eq_bind, Option.bind_eq_some_iff] at hp
  obtain ⟨b1, h1, b2, h2, heq⟩ := hp
  cases Option.some.inj heq
  exact restartLine_avoids (DfaBuilder.pushInner_avoids h h1).1 h2

theorem methodPattern_avoids (h : dfa.Avoids initState)
    (hp : methodPattern dfa mid = some dfa') : dfa'.Avoids initState := by
  simp only [methodPattern, Option.bind_eq_bind, Option.bind_eq_some_iff] at hp
  obtain ⟨b1, h1, b2, h2, b3, h3, b4, h4, b5, h5, hend⟩ := hp
  obtain ⟨hb1, -⟩ := DfaBuilder.withAction_avoids (startPattern_avoids h initState) h1
  obtain ⟨hb2, -⟩ := DfaBuilder.pushOptionsCi_avoids hb1 h2
  obtain ⟨hb3, -⟩ := DfaBuilder.withAction_avoids hb2 h3
  obtain ⟨hb4, -⟩ := DfaBuilder.pushInner_avoids hb3 h4
  obtain ⟨hb5, -⟩ := pushAny_moves hb4 Nat.zero_lt_one h5
  exact endOfRequestLine_avoids hb5 hend

theorem pathPattern_avoids (h : dfa.Avoids initState)
    (hp : pathPattern dfa mid = some dfa') : dfa'.Avoids initState := by
  simp only [pathPattern, Option.bind_eq_bind, Option.bind_eq_some_iff] at hp
  obtain ⟨b1, h1, b2, h2, b3, h3, b4, h4, b5, h5, hend⟩ := hp
  obtain ⟨hb1, -⟩ := DfaBuilder.pushOptionsCi_avoids (startPattern_avoids h initState) h1
  obtain ⟨hb2, -⟩ := DfaBuilder.pushInner_avoids hb1 h2
  obtain ⟨hb3, -⟩ := DfaBuilder.withAction_avoids hb2 h3
  obtain ⟨hb4, -⟩ := pushAny_moves hb3 Nat.zero_lt_one h4
  obtain ⟨hb5, -⟩ := DfaBuilder.withAction_avoids hb4 h5
  exact endOfRequestLine_avoids hb5 hend

theorem statusPattern_avoids (h : dfa.Avoids initState)
    (hp : statusPattern dfa mid = some dfa') : dfa'.Avoids initState := by
  simp only [statusPattern, Option.bind_eq_bind, Option.bind_eq_some_iff] at hp
  obtain ⟨b1, h1, b2, h2, b3, h3, b4, h4, b5, h5, b6, h6, heq⟩ := hp
  cases Option.some.inj heq
  obtain ⟨hb1, -⟩ := DfaBuilder.pushInner_avoids (startPattern_avoids h initState) h1
  obtain ⟨hb2, -⟩ := DfaBuilder.withAction_avoids hb1 h2
  obtain ⟨hb3, -⟩ := pushAny_moves hb2 (by decide) h3
  obtain ⟨hb4, -⟩ := DfaBuilder.withAction_avoids hb3 h4
  obtain ⟨hb5, -⟩ := pushAny_moves hb4 Nat.zero_lt_one h5
  exact restartLine_avoids hb5 h6

theorem prefacePattern_avoids (h : dfa.Avoids initState)
    (hp : prefacePattern dfa mid = some dfa') : dfa'.Avoids initState := by
  simp only [prefacePattern, Option.bind_eq_bind, Option.bind_eq_some_iff] at hp
  obtain ⟨b1, h1, b2, h2, b3, h3, heq⟩ := hp
  cases Option.some.inj heq
  obtain ⟨hb1, -⟩ := DfaBuilder.withAction_avoids (startPattern_avoids h initState) h1
  obtain ⟨hb2, -⟩ := DfaBuilder.pushInner_avoids hb1 h2
  exact (DfaBuilder.withAction_avoids hb2 h3).1.dfa

theorem donePattern_avoids (h : dfa.Avoids initState) (hp : donePattern dfa = some dfa') :
    dfa'.Avoids initState := by
  simp only [donePattern, Option.bind_eq_bind, Option.bind_eq_some_iff] at hp
  obtain ⟨b1, h1, b2, h2, b3, h3, heq⟩ := hp
  cases Option.some.inj heq
  have hb0 := @DfaBuilder.pushOptional_avoids _ _ _ cr _ (startPattern_avoids h anyState)
    (fun _ => rfl : _ → false = false)
  obtain ⟨hb1, -⟩ := DfaBuilder.pushInner_avoids hb0 h1
  obtain ⟨hb2, -⟩ := DfaBuilder.pushInner_avoids (DfaBuilder.pushOptional_avoids hb1 fun _ => rfl) h2
  exact (DfaBuilder.withAction_avoids hb2 h3).1.dfa

end Patterns

variable {p p' : Parser} {name : Bytes} {mid : MatchId} {rd : Rodata}

theorem orPanic_ok {α : Type} {x : Option α} {a : α} (h : orPanic x = .ok a) : x = some a := by
  cases x with
  | none => cases h
  | some y => cases h; rfl

theorem capturePattern_avoids {pattern : Dfa Action → MatchId → Option (Dfa Action)}
    (hpat : ∀ {dfa dfa' mid}, dfa.Avoids initState → pattern dfa mid = some dfa' →
      dfa'.Avoids initState) (h : p.dfa.Avoids initState)
    (hc : p.capturePattern pattern = .ok (mid, p')) : p'.dfa.Avoids initState := by
  unfold Parser.capturePattern at hc
  obtain ⟨⟨m, q⟩, hm, hc⟩ := bind_ok hc
  obtain ⟨dfa, hd, hc⟩ := bind_ok hc
  cases hc
  have hq : q.dfa = p.dfa := by
    unfold Parser.newMatch at hm
    split at hm
    · cases hm
    · cases hm
      rfl
  exact hpat (hq ▸ h) (orPanic_ok hd)

/-- No edge leads back to where a message is parsed from. -/
theorem Built.avoids (h : Built p) : p.dfa.Avoids initState := by
  induction h with
  | new => exact ⟨by decide, fun s i e he => absurd he nofun⟩
  | @capture p p' name mid _ hc ih =>
    unfold Parser.captureHdr at hc
    split at hc
    · cases hc
      exact ih
    obtain ⟨⟨m, q⟩, hq, hc⟩ := bind_ok hc
    cases hc
    show q.dfa.Avoids initState
    unfold Parser.captureNewHdr at hq
    split at hq
    · refine capturePattern_avoids (fun hd hpat => ?_) ih hq
      split at hpat
      · exact methodPattern_avoids hd hpat
      · split at hpat
        · exact pathPattern_avoids hd hpat
        · cases hpat
    · split at hq
      · exact capturePattern_avoids statusPattern_avoids ih hq
      · exact capturePattern_avoids headerPattern_avoids ih hq
  | preface _ hc ih => exact capturePattern_avoids prefacePattern_avoids ih hc
  | @done p p' _ hc ih =>
    unfold Parser.doneOnHdrEnd at hc
    obtain ⟨dfa, hd, hc⟩ := bind_ok hc
    cases hc
    exact donePattern_avoids ih (orPanic_ok hd)

/-- Every action has an index of its own, and index 0 stands for none. -/
theorem inject_numbers {dfa : Dfa Action} {order : List (StateId × Input × Edge Action)}
    {inj : Injected Action} (hp : order.Perm dfa.transitions)
    (h : inject limits dfa order = .ok inj) : ∃ index : Option Action → Nat, index none = 0 ∧
      (∀ a, dfa.Carries a → index a < maxActions ∧ inj.action (index a) = a) ∧
      ∀ s i e, dfa.lookup s i = some e → inj.states s i = ⟨e.target, index e.action⟩ := by
  have hr := inject_realises hp h
  unfold inject at h
  split at h
  · cases h
  have hmem : ∀ s i e, (s, i, e) ∈ order ↔ dfa.lookup s i = some e := fun s i e =>
    hp.mem_iff.trans Dfa.mem_transitions
  have hall := injectLoop_ok ((hp.map _).nodup_iff.mpr dfa.transitions_nodup) h
  obtain ⟨more, hmore⟩ := hall.actions
  refine ⟨fun a => inj.actionIdx.idxOf a, ?_, fun a ha => ?_, fun s i e he =>
    (hall.edge s i e ((hmem s i e).mpr he)).1⟩
  · rw [← hmore]
    rfl
  · rcases ha with rfl | ⟨s, i, e, he, rfl⟩
    · have hzero : inj.actionIdx.idxOf none = 0 := by
        rw [← hmore]
        rfl
      simp only [hzero]
      exact ⟨by decide, hr.noop⟩
    · obtain ⟨hst, hin, hlt, -⟩ := hall.edge s i e ((hmem s i e).mpr he)
      refine ⟨hlt, ?_⟩
      unfold Injected.action
      rw [List.getElem?_eq_getElem (List.idxOf_lt_length_of_mem hin), List.getElem_idxOf]
      rfl

/-- The program takes the transitions of the DFA, each with the action it carries. -/
theorem next_transition (h : Built p) (hi : Injects p.dfa rd) :
    ∃ index : Option Action → Nat, index none = 0 ∧
      (∀ a a', p.dfa.Carries a → p.dfa.Carries a' → index a = index a' → a = a') ∧
      ∀ s < p.dfa.numStates, ∀ c : UInt8,
        rd.next s c.toNat =
          ((p.dfa.transition s c.toNat).1, index (p.dfa.transition s c.toNat).2) ∧
        rd.action (rd.next s c.toNat).2 = readAction (p.dfa.transition s c.toNat).2 := by
  obtain ⟨order, hperm, hinj⟩ := hi
  unfold injectDfa at hinj
  obtain ⟨inj, hinject, heq⟩ := bind_ok hinj
  cases heq
  obtain ⟨index, hzero, hindex, hstates⟩ := inject_numbers hperm hinject
  have hr := inject_realises hperm hinject
  refine ⟨index, hzero, fun a a' ha ha' hsame => ?_, fun s hs c => ?_⟩
  · rw [← (hindex a ha).2, ← (hindex a' ha').2, hsame]
  have hmod : s % maxStates = s := Nat.mod_eq_of_lt (Nat.lt_of_lt_of_le hs hr.numStates)
  -- an edge never looks like an empty slot, since none leads to the initial state
  have hslot : ∀ i e, p.dfa.lookup s i = some e →
      inj.states s i = ⟨e.target, index e.action⟩ ∧ ¬(e.target = 0 ∧ index e.action = 0) :=
    fun i e he => ⟨hstates s i e he, fun hz => h.avoids.target s i e he hz.1⟩
  have hnext : (⟨inj.states, fun id => readAction (inj.action id)⟩ : Rodata).next s c.toNat =
      ((p.dfa.transition s c.toNat).1, index (p.dfa.transition s c.toNat).2) ∧
      p.dfa.Carries (p.dfa.transition s c.toNat).2 := by
    unfold Dfa.transition Rodata.next
    rw [hmod]
    cases hc : p.dfa.lookup s c.toNat with
    | some e =>
      obtain ⟨hst, hne⟩ := hslot _ e hc
      simp only [hst, if_neg hne]
      exact ⟨trivial, .inr ⟨s, _, e, hc, rfl⟩⟩
    | none =>
      have hempty := hr.absent s _ hc
      simp only [hempty, and_self, if_true]
      cases ha : p.dfa.lookup s anyInput with
      | some e =>
        obtain ⟨hst, hne⟩ := hslot _ e ha
        have hany : inj.states s Http1.anyEdge = ⟨e.target, index e.action⟩ := hst
        simp only [hany, if_neg hne]
        exact ⟨trivial, .inr ⟨s, _, e, ha, rfl⟩⟩
      | none =>
        have hany : inj.states s Http1.anyEdge = ⟨0, 0⟩ := hr.absent s anyInput ha
        simp only [hany, and_self, if_true, hzero]
        exact ⟨rfl, .inl rfl⟩
  refine ⟨hnext.1, ?_⟩
  obtain ⟨hlt, hact⟩ := hindex _ hnext.2
  rw [hnext.1]
  unfold Rodata.action
  simp only
  rw [Nat.mod_eq_of_lt hlt, hact]

theorem Configured.built {items : List (Item × MatchId)} (h : Configured items p) : Built p := by
  induction h with
  | new => exact .new
  | capture _ _ _ hc ih => exact .capture ih hc
  | again _ _ _ hc ih => exact .capture ih hc
  | preface _ _ hc ih => exact .preface ih hc

/-- The first byte of a request, if the method is captured. -/
theorem next_transitionMethod : ∃ p rd, Built p ∧ Injects p.dfa rd ∧
    ∃ index : Option Action → Nat, rd.next initState 0x47 =
      ((p.dfa.transition initState 0x47).1, index (p.dfa.transition initState 0x47).2) := by
  have hcheck : checkLoad [.captureHdr pseudoMethod] [(.method, 0)] (fun _ => true) = true := by
    decide +kernel
  obtain ⟨rd, ⟨p, p', hc, hd, hi⟩, -⟩ := attached_of_check (by decide) hcheck
  have hb : Built p' := .done hc.built hd
  obtain ⟨index, -, -, hnext⟩ := next_transition hb hi
  exact ⟨p', rd, hb, hi, index, (hnext initState hb.avoids.lt 0x47).1⟩

end Http1

end Beeper
