import Beeper.BuilderPaths
import Beeper.HpackExec
import Beeper.Http2Parser
import Mathlib.Data.List.Induction

namespace Beeper.Http2

/-- The state the names of one form are matched from. -/
def nameRoot (huff : Bool) : StateId := if huff then sName else sNamePlain

/-- A name as a peer sends it, Huffman coded or not. -/
def nameForm (encode : Bytes → Option Bytes) (huff : Bool) (name : Bytes) : Option Bytes :=
  if huff then encode name else some name

/-- A reserved state, and the bytes of a name that lead on from there. -/
abbrev NameLabel := StateId × Bytes

def NameLabel.goto (l : NameLabel) (i : Input) : NameLabel :=
  if l.2 = [] ∧ l.1 ∈ repStates ∧ i < 256 then ((repEdge l.1 i).1, [])
  else (l.1, l.2 ++ [UInt8.ofNat i])

def NameLabel.parent (l : NameLabel) : Option (NameLabel × Input) :=
  match l.2.getLast? with
  | some c => some ((l.1, l.2.dropLast), c.toNat)
  | none => none

def NameLabel.root (l : NameLabel) : Option StateId :=
  if l.2 = [] ∧ l.1 < sReserved then some l.1 else none

def nameShape : Shape NameLabel := ⟨NameLabel.goto, NameLabel.parent, NameLabel.root⟩

/-- The bytes `w` are those of a captured name in the form `huff`. -/
def IsCaptured (encode : Bytes → Option Bytes) (captures : List (Bytes × MatchId)) (huff : Bool)
    (w : Bytes) (mid : MatchId) : Prop :=
  ∃ name, (name, mid) ∈ captures ∧ nameForm encode huff name = some w

def trieEdges (encode : Bytes → Option Bytes) (captures : List (Bytes × MatchId)) :
    Set (NameLabel × Input) :=
  {x | (x.1.2 = [] ∧ x.1.1 ∈ repStates ∧ x.2 < 256) ∨ ∃ huff w mid,
    IsCaptured encode captures huff w mid ∧ x ∈ nameShape.pathSet true (nameRoot huff, []) w}

def trieActions (encode : Bytes → Option Bytes) (captures : List (Bytes × MatchId)) :
    Set (NameLabel × Input × Action) :=
  {x | (x.1.2 = [] ∧ x.1.1 ∈ repStates ∧ x.2.1 < 256 ∧ x.2.2 = (repEdge x.1.1 x.2.1).2) ∨
    ∃ huff w mid, IsCaptured encode captures huff w mid ∧
      x ∈ lastActions (nameShape.pathLast true (nameRoot huff, []) w []) (.capture mid)}

variable {encode : Bytes → Option Bytes} {captures : List (Bytes × MatchId)}
  {name w t : Bytes} {huff : Bool} {mid : MatchId} {c : UInt8}
  {num : NameLabel → Option StateId} {dfa dfa' : Dfa Action}

theorem nameRoot_not_mem (huff : Bool) : nameRoot huff ∉ repStates := by
  revert huff
  decide

theorem nameRoot_reserved (huff : Bool) : nameRoot huff < sReserved := by
  revert huff
  decide

theorem nameRoot_inj {huff' : Bool} (h : nameRoot huff = nameRoot huff') : huff = huff' := by
  revert huff huff'
  decide

theorem nameShape_goto (huff : Bool) (t : Bytes) (c : UInt8) :
    nameShape.goto (nameRoot huff, t) c.toNat = (nameRoot huff, t ++ [c]) := by
  have hnot : ¬(t = [] ∧ nameRoot huff ∈ repStates ∧ c.toNat < 256) :=
    fun h => nameRoot_not_mem huff h.2.1
  have hc : UInt8.ofNat c.toNat = c := UInt8.ofNat_toNat
  simp only [nameShape, NameLabel.goto, if_neg hnot, hc]

theorem nameShape_parent (s : StateId) (t : Bytes) (c : UInt8) :
    nameShape.parent (s, t ++ [c]) = some ((s, t), c.toNat) := by
  simp only [nameShape, NameLabel.parent, List.getLast?_append, List.getLast?_singleton,
    Option.some_or, List.dropLast_concat]

theorem nameShape_root (s : StateId) (t : Bytes) (c : UInt8) :
    nameShape.root (s, t ++ [c]) = none := by
  simp only [nameShape, NameLabel.root, List.append_eq_nil_iff, List.cons_ne_nil, and_false,
    false_and, if_false]

theorem nameShape_reserved {s : StateId} (h : s < sReserved) :
    nameShape.root (s, []) = some s := if_pos ⟨rfl, h⟩

theorem nameShape_grows (huff : Bool) (t : Bytes) (c : UInt8) :
    nameShape.Grows (nameRoot huff, t) c.toNat := by
  unfold Shape.Grows
  rw [nameShape_goto]
  exact ⟨nameShape_parent _ _ _, nameShape_root _ _ _⟩

/-- The bytes of a name lead from its root to a label of its own. -/
theorem nameShape_chain (huff : Bool) (w : Bytes) :
    nameShape.Chain (fun t => (nameRoot huff, t)) [] w :=
  fun t c _ _ => nameShape_goto huff t c

theorem nameShape_growsPath (huff : Bool) (w : Bytes) :
    nameShape.GrowsPath true false (nameRoot huff, []) w :=
  Shape.growsPath_chain (nameShape_chain huff w) fun t c _ _ =>
    ⟨.inl (nameShape_grows huff t c), nameShape.foldsCase_true _ _⟩

theorem mem_namePath : ((nameRoot huff, t), c.toNat) ∈
    nameShape.pathSet true (nameRoot huff, []) w ↔ t ++ [c] <+: w := by
  rw [Shape.mem_pathSet_chain (nameShape_chain huff w)]
  constructor
  · rintro ⟨t', d, -, hd, hl, hi⟩
    have hc : c = d := UInt8.toNat_inj.mp (hi.resolve_right fun h => Bool.noConfusion h.1)
    cases (Prod.mk.inj hl).2
    rw [hc]
    exact hd
  · intro h
    exact ⟨t, c, List.nil_prefix, h, rfl, .inl rfl⟩

theorem mem_nameLast {huff' : Bool} {a : Action} : ((nameRoot huff, t), c.toNat, a) ∈
    lastActions (nameShape.pathLast true (nameRoot huff', []) w []) (.capture mid) ↔
      huff = huff' ∧ t ++ [c] = w ∧ a = .capture mid := by
  rcases List.eq_nil_or_concat w with rfl | ⟨w, d, rfl⟩
  · constructor
    · rintro ⟨e, he, -⟩
      exact absurd he List.not_mem_nil
    · rintro ⟨-, ht, -⟩
      exact absurd ht (List.append_ne_nil_of_right_ne_nil t (List.cons_ne_nil c []))
  · rw [List.concat_eq_append]
    rw [Shape.pathLast_concat, Shape.path_chain (nameShape_chain huff' w)]
    simp only [lastActions, actionSet, edgeSet, List.mem_singleton, exists_eq_left,
      Set.mem_ofPred_eq, Prod.mk.injEq, List.nil_append, Bool.true_eq_false, false_and, or_false,
      UInt8.toNat_inj]
    constructor
    · rintro ⟨⟨⟨hr, rfl⟩, rfl⟩, rfl⟩
      exact ⟨nameRoot_inj hr, rfl, rfl⟩
    · rintro ⟨rfl, ht, rfl⟩
      obtain ⟨rfl, hc⟩ := List.append_inj' ht rfl
      cases hc
      exact ⟨⟨⟨rfl, rfl⟩, rfl⟩, rfl⟩

theorem mem_trieActions {a : Action} :
    ((nameRoot huff, t), c.toNat, a) ∈ trieActions encode captures ↔
      ∃ mid, IsCaptured encode captures huff (t ++ [c]) mid ∧ a = .capture mid := by
  constructor
  · rintro (⟨-, hrep, -⟩ | ⟨huff', w, mid, hw, hm⟩)
    · exact absurd hrep (nameRoot_not_mem huff)
    · obtain ⟨rfl, rfl, rfl⟩ := mem_nameLast.mp hm
      exact ⟨mid, hw, rfl⟩
  · rintro ⟨mid, hw, rfl⟩
    exact .inr ⟨huff, _, mid, hw, mem_nameLast.mpr ⟨rfl, rfl, rfl⟩⟩

/-- No edge leads out of the state that stands for none. -/
theorem dead_not_mem (i : Input) : ((sDead, []), i) ∉ trieEdges encode captures := by
  rintro (⟨-, hrep, -⟩ | ⟨huff, w, mid, -, hm⟩)
  · have hdead : sDead ∉ repStates := by decide
    exact hdead hrep
  · rw [Shape.mem_pathSet_chain (nameShape_chain huff w)] at hm
    obtain ⟨t', d, -, -, hl, -⟩ := hm
    have hroot : sDead = nameRoot huff := (Prod.mk.inj hl).1
    revert hroot
    cases huff <;> decide

/-- The DFA of the captured names. -/
def IsTrie (encode : Bytes → Option Bytes) (captures : List (Bytes × MatchId))
    (num : NameLabel → Option StateId) (dfa : Dfa Action) : Prop :=
  Represents nameShape (trieEdges encode captures) (trieActions encode captures) num dfa

theorem not_isCaptured_nil : ¬IsCaptured encode [] huff w mid := by
  rintro ⟨name, hm, -⟩
  exact absurd hm List.not_mem_nil

theorem repEdge_reserved : ∀ s ∈ repStates, s < sReserved ∧ ∀ i < 256, (repEdge s i).1 < sReserved := by
  decide +kernel

/-- Without any names there are only the representations. -/
theorem IsHpackDfa.isTrie (h : IsHpackDfa dfa) : IsTrie encode [] NameLabel.root dfa := by
  have hedges (l : NameLabel) (i : Input) : (l, i) ∈ trieEdges encode [] ↔
      l.2 = [] ∧ l.1 ∈ repStates ∧ i < 256 := by
    apply or_iff_left
    rintro ⟨huff, w, mid, hc, -⟩
    exact not_isCaptured_nil hc
  have hacts (l : NameLabel) (i : Input) (a : Action) : (l, i, a) ∈ trieActions encode [] ↔
      l.2 = [] ∧ l.1 ∈ repStates ∧ i < 256 ∧ a = (repEdge l.1 i).2 := by
    apply or_iff_left
    rintro ⟨huff, w, mid, hc, -⟩
    exact not_isCaptured_nil hc
  have hroot {l : NameLabel} {s : StateId} (hl : l.root = some s) : l = (s, []) ∧ s < sReserved := by
    unfold NameLabel.root at hl
    split at hl
    next hr =>
      cases Option.some.inj hl
      exact ⟨Prod.ext rfl hr.1, hr.2⟩
    next => cases hl
  have hlookup {s : StateId} {i : Input} {e : Edge Action} (he : dfa.lookup s i = some e) :
      s ∈ repStates ∧ i < 256 ∧ e = ⟨(repEdge s i).1, some (repEdge s i).2⟩ := by
    by_cases hm : s ∈ repStates ∧ i < 256
    · rw [h.edge s hm.1 i hm.2] at he
      exact ⟨hm.1, hm.2, (Option.some.inj he).symm⟩
    · rw [h.others s i hm] at he
      cases he
  refine ⟨fun _ _ hl => hl, fun l s hl => ?_, fun l l' s hl hl' => ?_, fun _ _ hl => .inl hl,
    fun s i e he => ?_, fun l s i e hl he => ?_, fun l i hm => ?_, fun l i a hm => ?_⟩
  · rw [h.numStates]
    exact (hroot hl).2
  · rw [(hroot hl).1, (hroot hl').1]
  · rw [h.numStates]
    exact (repEdge_reserved s (hlookup he).1).1
  · obtain ⟨rfl, -⟩ := hroot hl
    obtain ⟨hs, hi, rfl⟩ := hlookup he
    refine ⟨(hedges _ _).mpr ⟨rfl, hs, hi⟩, ?_, fun a => ?_⟩
    · have hgoto : nameShape.goto (s, []) i = ((repEdge s i).1, []) := if_pos ⟨rfl, hs, hi⟩
      rw [hgoto]
      exact nameShape_reserved ((repEdge_reserved s hs).2 i hi)
    · rw [hacts]
      exact ⟨fun ha => ⟨rfl, hs, hi, (Option.some.inj ha).symm⟩, fun ha => by rw [ha.2.2.2]⟩
  · obtain ⟨hnil, hs, hi⟩ := (hedges _ _).mp hm
    obtain ⟨s, t⟩ := l
    cases hnil
    exact ⟨s, _, nameShape_reserved (repEdge_reserved s hs).1, h.edge s hs i hi⟩
  · obtain ⟨hnil, hs, hi, -⟩ := (hacts _ _ _).mp hm
    exact (hedges _ _).mpr ⟨hnil, hs, hi⟩

/-- Pushing a name in one of its forms. -/
theorem captureName_represents {E : Set (NameLabel × Input)} {T : Set (NameLabel × Input × Action)}
    (h : Represents nameShape E T num dfa)
    (hc : captureName dfa (nameRoot huff) w mid = some dfa') :
    ∃ num', Represents nameShape (E ∪ nameShape.pathSet true (nameRoot huff, []) w)
      (T ∪ lastActions (nameShape.pathLast true (nameRoot huff, []) w []) (.capture mid)) num'
      dfa' := by
  simp only [captureName, Option.bind_eq_bind, Option.bind_eq_some_iff] at hc
  obtain ⟨b, hpush, b', hwith, heq⟩ := hc
  cases Option.some.inj heq
  have hroot := h.roots _ _ (nameShape_reserved (nameRoot_reserved huff))
  obtain ⟨num', -, hat, hb⟩ := (h.startPattern hroot).pushInner rfl (nameShape_growsPath huff w)
    hpush
  exact ⟨num', (hat.withAction (pushOptionalPrefixes_nil hb) hb hwith).1.rep⟩

theorem isCaptured_cons {m : MatchId} :
    IsCaptured encode ((name, mid) :: captures) huff w m ↔
      nameForm encode huff name = some w ∧ m = mid ∨ IsCaptured encode captures huff w m := by
  constructor
  · rintro ⟨n, hm, hw⟩
    rcases List.mem_cons.mp hm with heq | hm
    · obtain ⟨rfl, rfl⟩ := Prod.mk.inj heq
      exact .inl ⟨hw, rfl⟩
    · exact .inr ⟨n, hm, hw⟩
  · rintro (⟨hw, rfl⟩ | ⟨n, hm, hw⟩)
    · exact ⟨name, List.mem_cons_self, hw⟩
    · exact ⟨n, List.mem_cons_of_mem _ hm, hw⟩

/-- A name is pushed in both of its forms. -/
theorem IsTrie.captureName {enc : Bytes} {dfa1 : Dfa Action} (h : IsTrie encode captures num dfa)
    (he : encode name = some enc)
    (h1 : Http2.captureName dfa sName enc mid = some dfa1)
    (h2 : Http2.captureName dfa1 sNamePlain name mid = some dfa') :
    ∃ num', IsTrie encode ((name, mid) :: captures) num' dfa' := by
  obtain ⟨num1, hrep1⟩ := captureName_represents (show Represents _ _ _ num dfa from h)
    (show Http2.captureName dfa (nameRoot true) enc mid = some dfa1 from h1)
  obtain ⟨num2, hrep2⟩ := captureName_represents hrep1
    (show Http2.captureName dfa1 (nameRoot false) name mid = some dfa' from h2)
  have hform (huff : Bool) (w : Bytes) : nameForm encode huff name = some w ↔
      huff = true ∧ w = enc ∨ huff = false ∧ w = name := by
    cases huff with
    | true => simp [nameForm, he, eq_comm]
    | false => simp [nameForm, eq_comm]
  have hedges : trieEdges encode ((name, mid) :: captures) = trieEdges encode captures ∪
      nameShape.pathSet true (nameRoot true, []) enc ∪
      nameShape.pathSet true (nameRoot false, []) name := by
    ext x
    simp only [trieEdges, Set.mem_union, Set.mem_ofPred_eq, isCaptured_cons, hform]
    constructor
    · rintro (hrep | ⟨huff, w, m, (⟨⟨rfl, rfl⟩ | ⟨rfl, rfl⟩, rfl⟩ | hc), hx⟩)
      · exact .inl (.inl (.inl hrep))
      · exact .inl (.inr hx)
      · exact .inr hx
      · exact .inl (.inl (.inr ⟨huff, w, m, hc, hx⟩))
    · rintro (((hrep | ⟨huff, w, m, hc, hx⟩) | hx) | hx)
      · exact .inl hrep
      · exact .inr ⟨huff, w, m, .inr hc, hx⟩
      · exact .inr ⟨true, enc, mid, .inl ⟨.inl ⟨rfl, rfl⟩, rfl⟩, hx⟩
      · exact .inr ⟨false, name, mid, .inl ⟨.inr ⟨rfl, rfl⟩, rfl⟩, hx⟩
  have hacts : trieActions encode ((name, mid) :: captures) = trieActions encode captures ∪
      lastActions (nameShape.pathLast true (nameRoot true, []) enc []) (.capture mid) ∪
      lastActions (nameShape.pathLast true (nameRoot false, []) name []) (.capture mid) := by
    ext x
    simp only [trieActions, Set.mem_union, Set.mem_ofPred_eq, isCaptured_cons, hform]
    constructor
    · rintro (hrep | ⟨huff, w, m, (⟨⟨rfl, rfl⟩ | ⟨rfl, rfl⟩, rfl⟩ | hc), hx⟩)
      · exact .inl (.inl (.inl hrep))
      · exact .inl (.inr hx)
      · exact .inr hx
      · exact .inl (.inl (.inr ⟨huff, w, m, hc, hx⟩))
    · rintro (((hrep | ⟨huff, w, m, hc, hx⟩) | hx) | hx)
      · exact .inl hrep
      · exact .inr ⟨huff, w, m, .inr hc, hx⟩
      · exact .inr ⟨true, enc, mid, .inl ⟨.inl ⟨rfl, rfl⟩, rfl⟩, hx⟩
      · exact .inr ⟨false, name, mid, .inl ⟨.inr ⟨rfl, rfl⟩, rfl⟩, hx⟩
  unfold IsTrie
  rw [hedges, hacts]
  exact ⟨num2, hrep2⟩

/-- What the names captured so far come to. -/
structure NamesOk (encode : Bytes → Option Bytes) (p : Parser) : Prop where
  trie : ∃ num, IsTrie encode p.captures num p.dfa
  limit : p.numMatches ≤ maxMatches
  lt : ∀ x ∈ p.captures, x.2 < p.numMatches
  name_inj : ∀ x ∈ p.captures, ∀ y ∈ p.captures, x.1 = y.1 ↔ x.2 = y.2

theorem Configured.namesOk {p : Parser} (h : Configured encode p) : NamesOk encode p := by
  induction h with
  | new h =>
    obtain ⟨hdfa, hn, hc⟩ := new_ok h
    refine ⟨⟨NameLabel.root, ?_⟩, ?_, ?_, ?_⟩
    · rw [hc]
      exact hdfa.isTrie
    · rw [hn]
      exact Nat.zero_le _
    · rw [hc]
      exact fun x hx => absurd hx List.not_mem_nil
    · rw [hc]
      exact fun x hx => absurd hx List.not_mem_nil
  | @capture p p' name mid h hc ih =>
    cases hl : p.captures.lookup name with
    | some m =>
      rw [(captureHdr_again hl hc).2]
      exact ih
    | none =>
      obtain ⟨rfl, hlt, enc, dfa, he, h1, h2, hn, hcs⟩ := captureHdr_new hl hc
      obtain ⟨num, htrie⟩ := ih.trie
      have hnew : ∀ x ∈ p.captures, x.1 ≠ name := by
        rintro ⟨n, m⟩ hx rfl
        exact absurd hx (fun hm => by simpa using List.lookup_eq_none_iff.mp hl _ hm)
      refine ⟨?_, ?_, ?_, ?_⟩
      · rw [hcs]
        exact htrie.captureName he h1 h2
      · rw [hn]
        exact hlt
      · rw [hcs, hn]
        intro x hx
        rcases List.mem_cons.mp hx with rfl | hx
        · exact Nat.lt_succ_self _
        · exact Nat.lt_succ_of_lt (ih.lt x hx)
      · rw [hcs]
        intro x hx y hy
        rcases List.mem_cons.mp hx with rfl | hx <;> rcases List.mem_cons.mp hy with rfl | hy
        · exact ⟨fun _ => rfl, fun _ => rfl⟩
        · exact ⟨fun he => absurd he.symm (hnew y hy),
            fun he => absurd (ih.lt y hy) (he ▸ Nat.lt_irrefl _)⟩
        · exact ⟨fun he => absurd he (hnew x hx),
            fun he => absurd (ih.lt x hx) (he ▸ Nat.lt_irrefl _)⟩
        · exact ih.name_inj x hx y hy

/-- The match that an edge captures. -/
def Action.capturedMatch (a : Action) : Option MatchId :=
  if a.kind = .capture then some a.val else none

/-- A step along the trie of the names, to the next state and the match that its edge captures. -/
def trieStep (dfa : Dfa Action) (st : StateId × Option MatchId) (c : UInt8) :
    StateId × Option MatchId :=
  match dfa.lookup st.1 c.toNat with
  | some e => (e.target, e.action.bind Action.capturedMatch)
  | none => (sDead, none)

/-- What the walk over the name `w` ends on. -/
def trieWalk (dfa : Dfa Action) (huff : Bool) (w : Bytes) : StateId × Option MatchId :=
  w.foldl (trieStep dfa) (nameRoot huff, none)

theorem trieWalk_concat (dfa : Dfa Action) (huff : Bool) (w : Bytes) (c : UInt8) :
    trieWalk dfa huff (w ++ [c]) = trieStep dfa (trieWalk dfa huff w) c := by
  unfold trieWalk
  rw [List.foldl_append]
  rfl

/-- A label of a name is numbered when the edge that leads to it is there. -/
theorem IsTrie.numbered (h : IsTrie encode captures num dfa) {s : StateId}
    (hs : num (nameRoot huff, t ++ [c]) = some s) :
    ((nameRoot huff, t), c.toNat) ∈ trieEdges encode captures := by
  rcases h.reached _ _ hs with hr | ⟨x, hx, hp⟩
  · rw [nameShape_root] at hr
    cases hr
  · rw [nameShape_parent] at hp
    cases hp
    exact hx

/-- The walk is in the state of the bytes it has taken, if these begin a name at all. -/
theorem IsTrie.walk_state (h : IsTrie encode captures num dfa) (huff : Bool) (w : Bytes) :
    (trieWalk dfa huff w).1 = (num (nameRoot huff, w)).getD sDead := by
  induction w using List.reverseRecOn with
  | nil =>
    rw [h.roots _ _ (nameShape_reserved (nameRoot_reserved huff))]
    rfl
  | append_singleton w c ih =>
    rw [trieWalk_concat, trieStep, ih]
    cases hs : num (nameRoot huff, w) with
    | none =>
      have hnone : num (nameRoot huff, w ++ [c]) = none := by
        rw [Option.eq_none_iff_forall_not_mem]
        intro s hw
        obtain ⟨s', -, hs', -⟩ := h.present _ _ (h.numbered hw)
        rw [hs] at hs'
        cases hs'
      have hdead : dfa.lookup sDead c.toNat = none :=
        h.lookup_none (h.roots _ _ (nameShape_reserved (by decide))) (dead_not_mem _)
      rw [Option.getD_none, hdead, hnone]
      rfl
    | some s =>
      rw [Option.getD_some]
      cases he : dfa.lookup s c.toNat with
      | none =>
        have hnone : num (nameRoot huff, w ++ [c]) = none := by
          rw [Option.eq_none_iff_forall_not_mem]
          intro s' hw
          obtain ⟨e, hl, -⟩ := h.lookup_some hs (h.numbered hw)
          rw [he] at hl
          cases hl
        rw [hnone]
        rfl
      | some e =>
        obtain ⟨-, htarget, -⟩ := h.edge _ _ _ _ hs he
        rw [nameShape_goto] at htarget
        rw [htarget]
        rfl

/-- The walk ends on a capture exactly when its last byte completes a name. -/
theorem IsTrie.walk_capture (h : IsTrie encode captures num dfa) (huff : Bool) (w : Bytes)
    (m : MatchId) : (trieWalk dfa huff w).2 = some m ↔
      w ≠ [] ∧ IsCaptured encode captures huff w m := by
  rcases List.eq_nil_or_concat w with rfl | ⟨w, c, rfl⟩
  · constructor
    · intro hm
      cases hm
    · intro hm
      exact absurd rfl hm.1
  rw [List.concat_eq_append, trieWalk_concat, trieStep, h.walk_state]
  have hne : w ++ [c] ≠ [] := List.append_ne_nil_of_right_ne_nil w (List.cons_ne_nil c [])
  rw [and_iff_right hne]
  have hedge (hc : IsCaptured encode captures huff (w ++ [c]) m) :
      ((nameRoot huff, w), c.toNat, Action.capture m) ∈ trieActions encode captures :=
    mem_trieActions.mpr ⟨m, hc, rfl⟩
  cases hs : num (nameRoot huff, w) with
  | none =>
    have hdead : dfa.lookup sDead c.toNat = none :=
      h.lookup_none (h.roots _ _ (nameShape_reserved (by decide))) (dead_not_mem _)
    rw [Option.getD_none, hdead]
    refine ⟨fun hm => (by cases hm), fun hc => ?_⟩
    obtain ⟨s', -, hs', -⟩ := h.present _ _ (h.acts _ _ _ (hedge hc))
    rw [hs] at hs'
    cases hs'
  | some s =>
    rw [Option.getD_some]
    cases he : dfa.lookup s c.toNat with
    | none =>
      refine ⟨fun hm => (by cases hm), fun hc => ?_⟩
      obtain ⟨e, hl, -⟩ := h.lookup_some hs (h.acts _ _ _ (hedge hc))
      rw [he] at hl
      cases hl
    | some e =>
      obtain ⟨-, -, hact⟩ := h.edge _ _ _ _ hs he
      constructor
      · intro hm
        obtain ⟨a, ha, hmid⟩ := Option.bind_eq_some_iff.mp hm
        obtain ⟨m', hc, rfl⟩ := mem_trieActions.mp ((hact a).mp ha)
        cases hmid
        exact hc
      · intro hc
        have ha := (hact _).mpr (hedge hc)
        simp only [ha]
        rfl

/-- The parser program walks the trie the way the DFA has it. -/
theorem IsTrie.nameStep {inj : Injected Action} {rd : Rodata}
    (h : IsTrie encode captures num dfa) (hr : Realises limits dfa inj)
    (hs : rd.states = inj.states) (ha : ∀ id, rd.actions id = readAction (inj.action id))
    (hlt : ∀ x ∈ captures, x.2 < maxMatches) (huff : Bool) (w : Bytes) (c : UInt8) :
    Http2.nameStep rd (trieWalk dfa huff w) c = trieWalk dfa huff (w ++ [c]) := by
  have hdeadlt : sDead < maxStates := by decide
  have hbyte : c.toNat % maxEdges = c.toNat := Nat.mod_eq_of_lt c.toNat_lt
  have hstate := h.walk_state huff w
  rw [trieWalk_concat]
  generalize trieWalk dfa huff w = st at hstate ⊢
  have hlts : st.1 < maxStates := by
    rw [hstate]
    cases hn : num (nameRoot huff, w) with
    | none => exact hdeadlt
    | some s => exact Nat.lt_of_lt_of_le (h.lt _ _ hn) hr.numStates
  unfold Http2.nameStep trieStep
  cases he : dfa.lookup st.1 c.toNat with
  | none =>
    have hnext : rd.next st.1 c.toNat = (sDead, 0) := by
      unfold Rodata.next
      rw [Nat.mod_eq_of_lt hlts, hbyte, hs, hr.absent _ _ he]
      rfl
    have hnoop : rd.action 0 = noAction := by
      unfold Rodata.action
      rw [Nat.zero_mod, ha, hr.noop]
      rfl
    rw [hnext, hnoop]
    rfl
  | some e =>
    have hnum : num (nameRoot huff, w) = some st.1 := by
      cases hn : num (nameRoot huff, w) with
      | some s => rw [hstate, hn, Option.getD_some]
      | none =>
        rw [hn, Option.getD_none] at hstate
        rw [hstate, h.lookup_none (h.roots _ _ (nameShape_reserved (by decide)))
          (dead_not_mem _)] at he
        cases he
    obtain ⟨-, htarget, hact⟩ := h.edge _ _ _ _ hnum he
    have hne : e.target ≠ 0 := by
      intro hz
      rw [nameShape_goto, hz] at htarget
      have hlabel := h.inj _ _ _ htarget (h.roots _ _ (nameShape_reserved (by decide : 0 < sReserved)))
      exact List.append_ne_nil_of_right_ne_nil w (List.cons_ne_nil c []) (Prod.mk.inj hlabel).2
    obtain ⟨hn1, hn2⟩ := next_edge hr hs ha he hlts hne
    rw [hn1, hn2]
    obtain ⟨target, action⟩ := e
    simp only at hact ⊢
    cases action with
    | none => rfl
    | some a =>
      obtain ⟨m, ⟨name, hm, -⟩, rfl⟩ := mem_trieActions.mp ((hact a).mp rfl)
      have hmod : m % maxMatches = m := Nat.mod_eq_of_lt (hlt _ hm)
      simp only [readAction, Option.map_some, Option.getD_some, Action.toHttp2Action,
        Action.capture, if_true, hmod, Option.bind_some, Action.capturedMatch]

/-- What the parser program matches a name with is what the tries hold. -/
theorem Configured.matchHeaderKey {p : Parser} {order : List (StateId × Input × Edge Action)}
    {rd : Rodata} (hc : Configured encode p) (hp : order.Perm p.dfa.transitions)
    (hat : p.attach encode order = .ok rd) (huff : Bool) (w : Bytes) :
    Http2.matchHeaderKey rd w huff = (trieWalk p.dfa huff w).2 := by
  obtain ⟨⟨num, htrie⟩, hlimit, hlt, -⟩ := hc.namesOk
  obtain ⟨inj, hi, hs, ha, -⟩ := attach_ok hat
  have hr := inject_realises hp hi
  have hmax : ∀ x ∈ p.captures, x.2 < maxMatches :=
    fun x hx => Nat.lt_of_lt_of_le (hlt x hx) hlimit
  have hwalk : w.foldl (Http2.nameStep rd) (nameRoot huff, none) = trieWalk p.dfa huff w := by
    induction w using List.reverseRecOn with
    | nil => rfl
    | append_singleton w c ih =>
      rw [List.foldl_append, ih]
      exact htrie.nameStep hr hs ha hmax huff w c
  rw [matchHeaderKey_eq, ← hwalk]
  rfl

theorem Configured.trieWalk_iff {p : Parser} (hc : Configured encode p) (m : MatchId) :
    (trieWalk p.dfa huff w).2 = some m ↔ w ≠ [] ∧ IsCaptured encode p.captures huff w m := by
  obtain ⟨num, htrie⟩ := hc.namesOk.trie
  exact htrie.walk_capture huff w m

/-- A loaded parser matches exactly the names it captures, in the form that is asked for. -/
theorem Attached.matchHeaderKey_iff {rd : Rodata} (h : Attached encode captures rd) (m : MatchId) :
    Http2.matchHeaderKey rd w huff = some m ↔
      w ≠ [] ∧ IsCaptured encode captures huff w m := by
  obtain ⟨p, order, hc, rfl, hp, hat⟩ := h
  rw [hc.matchHeaderKey hp hat, hc.trieWalk_iff]

theorem mem_of_lookup {p : Parser} {m : MatchId} (h : p.captures.lookup name = some m) :
    (name, m) ∈ p.captures := by
  obtain ⟨front, back, heq, -⟩ := List.lookup_eq_some_iff.mp h
  rw [heq]
  exact List.mem_append_right _ List.mem_cons_self

theorem captureHdr_keeps {p p' : Parser} {m : MatchId} {x : Bytes × MatchId}
    (h : p.captureHdr encode name = .ok (m, p')) (hx : x ∈ p.captures) : x ∈ p'.captures := by
  cases hl : p.captures.lookup name with
  | some m' =>
    rw [(captureHdr_again hl h).2]
    exact hx
  | none =>
    obtain ⟨-, -, enc, dfa, -, -, -, -, hcs⟩ := captureHdr_new hl h
    rw [hcs]
    exact List.mem_cons_of_mem _ hx

/-- The calls of `capture_hdr` so far, with the match ids they handed out. -/
inductive Handed (encode : Bytes → Option Bytes) : List (Bytes × MatchId) → Parser → Prop
  | new {p : Parser} (h : Parser.new = .ok p) : Handed encode [] p
  | capture {p p' : Parser} {calls : List (Bytes × MatchId)} {name : Bytes} {mid : MatchId}
      (h : Handed encode calls p) (hc : p.captureHdr encode name = .ok (mid, p')) :
      Handed encode ((name, mid) :: calls) p'

theorem Handed.configured {p : Parser} {calls : List (Bytes × MatchId)}
    (h : Handed encode calls p) : Configured encode p := by
  induction h with
  | new h => exact .new h
  | capture _ hc ih => exact .capture ih hc

/-- The parser keeps exactly what it handed out. -/
theorem Handed.mem_captures {p : Parser} {calls : List (Bytes × MatchId)}
    (h : Handed encode calls p) (x : Bytes × MatchId) : x ∈ p.captures ↔ x ∈ calls := by
  induction h generalizing x with
  | new h => rw [(new_ok h).2.2]
  | @capture p p' calls name mid h hc ih =>
    cases hl : p.captures.lookup name with
    | some m =>
      obtain ⟨rfl, rfl⟩ := captureHdr_again hl hc
      constructor
      · intro hx
        exact List.mem_cons_of_mem _ ((ih x).mp hx)
      · intro hx
        rcases List.mem_cons.mp hx with rfl | hx
        · exact mem_of_lookup hl
        · exact (ih x).mpr hx
    | none =>
      obtain ⟨rfl, -, enc, dfa, -, -, -, -, hcs⟩ := captureHdr_new hl hc
      rw [hcs, List.mem_cons, List.mem_cons, ih]

end Beeper.Http2
