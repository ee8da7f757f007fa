import Beeper.HuffmanForms
import Beeper.Loaded

namespace Beeper

namespace DfaBuilder

variable {A : Type} [DecidableEq A] {b b' : DfaBuilder A}

/-- What pushing a single byte of a name comes to. -/
structure BytePushed (b b' : DfaBuilder A) (i : Input) : Prop where
  prefixes : b'.optionalPrefixes = []
  states : b'.optionalStates = []
  last : b'.lastEdges = [(b.state, i, true)]
  numStates : b'.dfa.numStates ≤ b.dfa.numStates + 1
  edges : ∀ s j e, b'.dfa.lookup s j = some e →
    b.dfa.lookup s j = some e ∨ j = i ∧ e.action = none

theorem pushByte_exists (hp : b.optionalPrefixes = []) (hs : b.optionalStates = [])
    (hn : b.dfa.numStates + 1 < 2 ^ 16) (i : Input) :
    ∃ b', b.pushEdge i none true = some b' ∧ b.BytePushed b' i := by
  obtain ⟨dfa, state, prefixes, states, last⟩ := b
  cases hp
  cases hs
  have hpush : (⟨dfa, state, [], [], last⟩ : DfaBuilder A).pushEdge i none true =
      (dfa.nextState state i).bind fun x => (x.2.insertEdge state i x.1 none).bind fun d =>
        some ⟨d, x.1, [], [], [(state, i, true)]⟩ := by
    simp only [pushEdge, pushOptionalPrefixes, pushPrefixes, pushEdgeFrom, Dfa.insertOther,
      Option.bind_eq_bind, Option.bind_some, if_true, Option.getD_none]
    cases dfa.nextState state i with
    | none => rfl
    | some x => cases hi : x.2.insertEdge state i x.1 none <;> simp [hi, pushStates]
  rw [hpush]
  cases hl : dfa.lookup state i with
  | some e =>
    have hnext : dfa.nextState state i = some (e.target, dfa) := by
      unfold Dfa.nextState
      rw [hl]
    have hins : dfa.insertEdge state i e.target none = some dfa := by
      unfold Dfa.insertEdge
      rw [hl]
      simp
    rw [hnext, Option.bind_some, hins, Option.bind_some]
    exact ⟨_, rfl, rfl, rfl, rfl, Nat.le_succ _, fun _ _ _ he => .inl he⟩
  | none =>
    have hnext : dfa.nextState state i =
        some (dfa.numStates, { dfa with numStates := dfa.numStates + 1 }) := by
      unfold Dfa.nextState
      rw [hl]
      exact if_pos hn
    have hins : ({ dfa with numStates := dfa.numStates + 1 } : Dfa A).insertEdge state i
        dfa.numStates none = some _ := Dfa.insertEdge_new _ none hl
    rw [hnext, Option.bind_some, hins, Option.bind_some]
    refine ⟨_, rfl, rfl, rfl, rfl, Nat.le_refl _, fun s j e he => ?_⟩
    rw [Dfa.lookup_setEdge] at he
    split at he
    next heq =>
      cases he
      exact .inr ⟨(Prod.mk.inj heq).2, rfl⟩
    next => exact .inl he

/-- What pushing a name comes to. -/
theorem pushName_exists (w : Bytes) (hp : b.optionalPrefixes = []) (hs : b.optionalStates = [])
    (hn : b.dfa.numStates + w.length < 2 ^ 16) :
    ∃ b', pushInner w true b = some b' ∧ b'.optionalPrefixes = [] ∧
      b'.dfa.numStates ≤ b.dfa.numStates + w.length ∧
      ∀ s j e, b'.dfa.lookup s j = some e → b.dfa.lookup s j = some e ∨ j < 256 ∧ e.action = none := by
  induction w generalizing b with
  | nil => exact ⟨b, rfl, hp, Nat.le_refl _, fun _ _ _ he => .inl he⟩
  | cons c w ih =>
    rw [List.length_cons] at hn ⊢
    obtain ⟨b1, h1, hpush⟩ := pushByte_exists hp hs (by omega) c.toNat
    have hle := hpush.numStates
    obtain ⟨b2, h2, hp2, hn2, he2⟩ := ih hpush.prefixes hpush.states (by omega)
    refine ⟨b2, ?_, hp2, by omega, fun s j e he => ?_⟩
    · simp only [pushInner, h1, Option.bind_eq_bind, Option.bind_some, h2]
    · rcases he2 s j e he with he | he
      · rcases hpush.edges s j e he with he | ⟨rfl, ha⟩
        · exact .inl he
        · exact .inr ⟨c.toNat_lt, ha⟩
      · exact .inr he

end DfaBuilder

namespace Http2

variable {encode : Bytes → Option Bytes} {captures : List (Bytes × MatchId)} {name w : Bytes}
  {huff : Bool} {mid : MatchId} {num : NameLabel → Option StateId} {dfa dfa' : Dfa Action}
  {acts : List Action}

theorem EdgesCarry.mono {acts' : List Action} (h : EdgesCarry acts dfa)
    (hm : ∀ a ∈ acts, a ∈ acts') : EdgesCarry acts' dfa := by
  intro s i e he
  exact ⟨fun a ha => hm a ((h s i e he).1 a ha), (h s i e he).2⟩

/-- A name that no edge captures yet can be captured. -/
theorem captureName_exists {E : Set (NameLabel × Input)} {T : Set (NameLabel × Input × Action)}
    (h : Represents nameShape E T num dfa) (hw : w ≠ [])
    (hnew : ∀ t c a, w = t ++ [c] → ((nameRoot huff, t), c.toNat, a) ∉ T)
    (hn : dfa.numStates + w.length < 2 ^ 16) (hacts : EdgesCarry acts dfa) (mid : MatchId) :
    ∃ dfa', captureName dfa (nameRoot huff) w mid = some dfa' ∧
      dfa'.numStates ≤ dfa.numStates + w.length ∧
      EdgesCarry (.capture mid :: acts) dfa' := by
  obtain ⟨b, hpush, hp, hle, hedges⟩ := @DfaBuilder.pushName_exists _ _
    (dfa.startPattern (nameRoot huff)) w rfl rfl hn
  have hroot := h.roots _ _ (nameShape_reserved (nameRoot_reserved huff))
  obtain ⟨num', -, hat, hb⟩ := (h.startPattern hroot).pushInner rfl (nameShape_growsPath huff w)
    hpush
  rcases List.eq_nil_or_concat w with rfl | ⟨t, c, rfl⟩
  · exact absurd rfl hw
  rw [List.concat_eq_append] at *
  rw [Shape.pathLast_concat, Shape.path_chain (nameShape_chain huff t), List.nil_append] at hat
  obtain ⟨⟨s, i, cs⟩, rest, ⟨hs, heq⟩, hrest, hlast⟩ := List.forall₂_cons_left_iff.mp hat.lastEdges
  cases heq
  cases List.forall₂_nil_left_iff.mp hrest
  obtain ⟨e, he, -, hact⟩ := hat.rep.lookup_some hs
    (.inr (mem_namePath.mpr (List.prefix_refl _)))
  have hnone : e.action = none := by
    rw [Option.eq_none_iff_forall_not_mem]
    intro a ha
    exact hnew t c a rfl ((hact a).mp ha)
  have hadd : b.dfa.addAction s c.toNat (.capture mid) =
      some (b.dfa.setEdge s c.toNat ⟨e.target, some (.capture mid)⟩) := by
    unfold Dfa.addAction
    rw [he]
    simp only [hnone]
  have hwith : b.withAction (.capture mid) =
      some { b with dfa := b.dfa.setEdge s c.toNat ⟨e.target, some (.capture mid)⟩ } := by
    unfold DfaBuilder.withAction
    rw [pushOptionalPrefixes_nil hb]
    simp only [Option.bind_eq_bind, Option.bind_some, hlast, DfaBuilder.addActions, hadd,
      Dfa.addOther, if_true]
  refine ⟨b.dfa.setEdge s c.toNat ⟨e.target, some (.capture mid)⟩, ?_, hle, ?_⟩
  · unfold captureName
    simp only [Option.bind_eq_bind, DfaBuilder.push, hpush, Option.bind_some, hwith]
  · intro s' i' e' he'
    rw [Dfa.lookup_setEdge] at he'
    split at he'
    next heq =>
      cases he'
      refine ⟨fun a ha => ?_, (Prod.mk.inj heq).2 ▸ c.toNat_lt⟩
      cases ha
      exact List.mem_cons_self
    next =>
      rcases hedges s' i' e' he' with hold | ⟨hlt, hnil⟩
      · exact ⟨fun a ha => List.mem_cons_of_mem _ ((hacts s' i' e' hold).1 a ha),
          (hacts s' i' e' hold).2⟩
      · refine ⟨fun a ha => ?_, hlt⟩
        rw [hnil] at ha
        cases ha

variable {p : Parser} {enc : Bytes}

/-- A name that is not captured yet can be, where there is room for it. -/
theorem captureHdr_exists (hc : Configured encode p) (hne : name ≠ []) (he : encode name = some enc)
    (hene : enc ≠ []) (hnew : ∀ x ∈ p.captures, x.1 ≠ name ∧ encode x.1 ≠ some enc)
    (hlim : p.numMatches < maxMatches)
    (hn : p.dfa.numStates + enc.length + name.length < 2 ^ 16) (hacts : EdgesCarry acts p.dfa) :
    ∃ p', p.captureHdr encode name = .ok (p.numMatches, p') ∧
      p'.captures = (name, p.numMatches) :: p.captures ∧
      p'.dfa.numStates ≤ p.dfa.numStates + enc.length + name.length ∧
      EdgesCarry (.capture p.numMatches :: .capture p.numMatches :: acts) p'.dfa := by
  obtain ⟨num, htrie⟩ := hc.namesOk.trie
  obtain ⟨dfa1, h1, hn1, hacts1⟩ := @captureName_exists enc true num p.dfa acts _ _ htrie hene
    (fun t c a hw hm => by
      obtain ⟨m, ⟨x, hx, hform⟩, -⟩ := mem_trieActions.mp hm
      rw [← hw] at hform
      exact (hnew _ hx).2 hform) (by omega) hacts p.numMatches
  obtain ⟨num1, hrep1⟩ := captureName_represents htrie h1
  obtain ⟨dfa2, h2, hn2, hacts2⟩ := @captureName_exists name false num1 dfa1 _ _ _ hrep1 hne
    (fun t c a hw hm => by
      rcases hm with hm | hm
      · obtain ⟨m, ⟨x, hx, hform⟩, -⟩ := mem_trieActions.mp hm
        rw [← hw] at hform
        exact (hnew _ hx).1 (Option.some.inj hform)
      · exact Bool.false_ne_true (mem_nameLast.mp hm).1) (by omega) hacts1 p.numMatches
  have hlookup : p.captures.lookup name = none := by
    rw [List.lookup_eq_none_iff]
    intro x hx
    simpa using (hnew x hx).1.symm
  have hcap : p.captureHdr encode name = .ok (p.numMatches,
      ⟨dfa2, p.numMatches + 1, (name, p.numMatches) :: p.captures⟩) := by
    have h1' : captureName p.dfa sName enc p.numMatches = some dfa1 := h1
    have h2' : captureName dfa1 sNamePlain name p.numMatches = some dfa2 := h2
    unfold Parser.captureHdr Parser.newMatch
    simp only [hlookup, he, if_neg (Nat.not_le.mpr hlim), bind, Except.bind, h1', h2', orPanic]
  exact ⟨_, hcap, rfl, by simp only; omega, hacts2⟩

/-- A single name can be captured. -/
theorem handed_single (hne : name ≠ []) (he : encode name = some enc) (hene : enc ≠ [])
    (hn : sReserved + enc.length + name.length ≤ maxStates) :
    ∃ p, Handed encode [(name, 0)] p ∧ p.captures = [(name, 0)] ∧ p.dfa.numStates ≤ maxStates ∧
      EdgesCarry (.capture 0 :: .capture 0 :: repActions) p.dfa := by
  obtain ⟨p, hp⟩ := new_exists
  obtain ⟨hdfa, hnum, hcs⟩ := new_ok hp
  have hstates := hdfa.numStates
  have hmax : maxStates < 2 ^ 16 := by decide
  obtain ⟨p', hcap, hcs', hn', hacts'⟩ := captureHdr_exists (.new hp) hne he hene
    (fun x hx => by rw [hcs] at hx; cases hx) (by rw [hnum]; decide) (by omega) hdfa.edgesCarry
  rw [hnum] at hcap hcs' hacts'
  rw [hcs] at hcs'
  exact ⟨p', .capture (.new hp) hcap, hcs', by omega, hacts'⟩

/-- A parser that captures a single name can be loaded. -/
theorem attached_single (htotal : ∀ s, ∃ enc, encode s = some enc) (hne : name ≠ [])
    (he : encode name = some enc) (hene : enc ≠ [])
    (hn : sReserved + enc.length + name.length ≤ maxStates) :
    ∃ rd, Attached encode [(name, 0)] rd := by
  obtain ⟨p, hh, hcs, hs, hacts⟩ := handed_single hne he hene hn
  obtain ⟨rd, hrd⟩ := attach_exists hs (by
    rw [List.length_cons, List.length_cons, repActions_length]
    decide) hacts htotal
  exact ⟨rd, p, _, hh.configured, hcs, List.Perm.refl _, hrd⟩

theorem attached_letter : ∃ rd, Attached huffmanCode [([0x61], 0)] rd :=
  attached_single (fun s => ⟨_, rfl⟩) (by decide) rfl (by decide) (by decide)

/-- What the tries of `p` match, once `calls` handed out match ids: a name exactly in the form it
was captured in, whatever was captured before or after. -/
structure MatchesExactly (encode : Bytes → Option Bytes) (calls : List (Bytes × MatchId))
    (p : Parser) : Prop where
  plain : ∀ w m, (trieWalk p.dfa false w).2 = some m ↔ (w, m) ∈ calls
  huffman : ∀ w m, (trieWalk p.dfa true w).2 = some m ↔
    ∃ name, encode name = some w ∧ (name, m) ∈ calls
  distinct : ∀ name m name' m', (name, m) ∈ calls → (name', m') ∈ calls → (name = name' ↔ m = m')
  later : ∀ name m p', p.captureHdr encode name = .ok (m, p') →
    ∀ huff w m', (trieWalk p.dfa huff w).2 = some m' → (trieWalk p'.dfa huff w).2 = some m'
  loaded : ∀ order rd, order.Perm p.dfa.transitions → p.attach encode order = .ok rd →
    ∀ huff w, Http2.matchHeaderKey rd w huff = (trieWalk p.dfa huff w).2

/-- The calls of `capture_hdr` build tries that match exactly the names they were given, in either
form, with distinct match ids for distinct names. -/
theorem captureHdr_matches {calls : List (Bytes × MatchId)} {p : Parser}
    (hinj : ∀ name name' enc, encode name = some enc → encode name' = some enc → name = name')
    (hnil : encode [] = some []) (h : Handed encode calls p) (hne : ∀ x ∈ calls, x.1 ≠ []) :
    MatchesExactly encode calls p := by
  have hc := h.configured
  refine ⟨fun w m => ?_, fun w m => ?_, fun name m name' m' hm hm' => ?_,
    fun name m p' hcap huff w m' hw => ?_, fun order rd hp hat huff w => hc.matchHeaderKey hp hat huff w⟩
  · rw [hc.trieWalk_iff]
    constructor
    · rintro ⟨-, name, hm, hw⟩
      cases Option.some.inj hw
      exact (h.mem_captures _).mp hm
    · intro hm
      exact ⟨hne _ hm, w, (h.mem_captures _).mpr hm, rfl⟩
  · rw [hc.trieWalk_iff]
    constructor
    · rintro ⟨-, name, hm, hw⟩
      exact ⟨name, hw, (h.mem_captures _).mp hm⟩
    · rintro ⟨name, hw, hm⟩
      refine ⟨?_, name, (h.mem_captures _).mpr hm, hw⟩
      rintro rfl
      exact hne _ hm (hinj name [] [] hw hnil)
  · exact hc.namesOk.name_inj _ ((h.mem_captures _).mpr hm) _ ((h.mem_captures _).mpr hm')
  · rw [hc.trieWalk_iff] at hw
    rw [(hc.capture hcap).trieWalk_iff]
    refine ⟨hw.1, ?_⟩
    obtain ⟨name', hm, hform⟩ := hw.2
    exact ⟨name', captureHdr_keeps hcap hm, hform⟩

/-- Two names, the second of which is the front of the first, and the first one again. -/
theorem captureHdr_matchesAgain : ∃ p,
    Handed huffmanCode [([0x61, 0x62], 0), ([0x61], 1), ([0x61, 0x62], 0)] p ∧
      MatchesExactly huffmanCode
        [([0x61, 0x62], 0), ([0x61], 1), ([0x61, 0x62], 0)] p := by
  have hab : huffmanCode [0x61, 0x62] = some [0x1c, 0x7f] := by decide +kernel
  have ha : huffmanCode [0x61] = some [0x1f] := by decide +kernel
  have hinj : ∀ name name' enc, huffmanCode name = some enc → huffmanCode name' = some enc →
      name = name' := fun name name' enc h h' =>
    encode_inj (Option.some.inj (h.trans h'.symm))
  obtain ⟨p0, hp⟩ := new_exists
  obtain ⟨hdfa, hnum, hcs⟩ := new_ok hp
  have hmax : p0.dfa.numStates = sReserved ∧ sReserved + 7 < 2 ^ 16 := ⟨hdfa.numStates, by decide⟩
  obtain ⟨p1, hcap1, hcs1, hn1, hacts1⟩ := captureHdr_exists (.new hp) (List.cons_ne_nil _ _)
    hab (by decide) (fun x hx => by rw [hcs] at hx; cases hx)
    (by rw [hnum]; decide) (by simp only [List.length_cons, List.length_nil]; omega) hdfa.edgesCarry
  have hh1 : Handed huffmanCode [([0x61, 0x62], p0.numMatches)] p1 :=
    .capture (.new hp) hcap1
  obtain ⟨-, -, _, _, -, -, -, hnum1, -⟩ := captureHdr_new (by rw [hcs]; rfl) hcap1
  simp only [List.length_cons, List.length_nil] at hn1
  obtain ⟨p2, hcap2, hcs2, -⟩ := captureHdr_exists hh1.configured (List.cons_ne_nil _ _)
    ha (by decide) (fun x hx => by
      rw [hcs1, hcs] at hx
      rw [List.mem_singleton.mp hx, hab]
      exact ⟨by simp, by simp⟩)
    (by rw [hnum1, hnum]; decide) (by simp only [List.length_cons, List.length_nil]; omega) hacts1
  rw [hnum1, hnum] at hcap2
  rw [hnum] at hcap1
  have hcap3 : p2.captureHdr huffmanCode [0x61, 0x62] = .ok (0, p2) := by
    have hlookup : p2.captures.lookup [0x61, 0x62] = some 0 := by
      rw [hcs2, hcs1, hnum]
      rfl
    unfold Parser.captureHdr
    rw [hlookup]
  have hh : Handed huffmanCode
      [([0x61, 0x62], 0), ([0x61], 1), ([0x61, 0x62], 0)] p2 :=
    .capture (.capture (.capture (.new hp) hcap1) hcap2) hcap3
  exact ⟨p2, hh, captureHdr_matches hinj rfl hh (by decide)⟩

end Http2

end Beeper
