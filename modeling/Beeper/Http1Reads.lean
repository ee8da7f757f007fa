import Beeper.Http1Loaded
import Beeper.Http1Stability

namespace Beeper.Http1

variable {items : List (Item × MatchId)} {num : Label → Option StateId} {rd : Rodata} {l : Label}
  {it : Item} {m : MatchId} {s : StateId}

def Captures (items : List (Item × MatchId)) (it : Item) : Prop := ∃ m, (it, m) ∈ items

/-- The edges of the DFA, pattern by pattern. -/
theorem mem_edges {i : Nat} : (l, i) ∈ edges items ↔
    (∃ n, Captures items (.header n) ∧ headerEdge n l i) ∨
      ((Captures items .method ∨ Captures items .path) ∧ requestEdge l i) ∨
      (Captures items .status ∧ statusEdge l i) ∨ (Captures items .preface ∧ prefaceEdge l i) ∨
      doneEdge l i := by
  constructor
  · rintro (⟨⟨it, m⟩, hm, he⟩ | h)
    · cases it with
      | header n => exact .inl ⟨n, ⟨m, hm⟩, he⟩
      | method => exact .inr (.inl ⟨.inl ⟨m, hm⟩, he⟩)
      | path => exact .inr (.inl ⟨.inr ⟨m, hm⟩, he⟩)
      | status => exact .inr (.inr (.inl ⟨⟨m, hm⟩, he⟩))
      | preface => exact .inr (.inr (.inr (.inl ⟨⟨m, hm⟩, he⟩)))
    · exact .inr (.inr (.inr (.inr h)))
  · rintro (⟨n, ⟨m, hm⟩, he⟩ | ⟨⟨m, hm⟩ | ⟨m, hm⟩, he⟩ | ⟨⟨m, hm⟩, he⟩ | ⟨⟨m, hm⟩, he⟩ | h)
    · exact .inl ⟨(.header n, m), hm, he⟩
    · exact .inl ⟨(.method, m), hm, he⟩
    · exact .inl ⟨(.path, m), hm, he⟩
    · exact .inl ⟨(.status, m), hm, he⟩
    · exact .inl ⟨(.preface, m), hm, he⟩
    · exact .inr h

open Classical in
/-- The edge a byte takes out of a label: its own, or else that of any byte. Where there is
neither, the byte is read again from the fallback state. -/
noncomputable def edgeOf (items : List (Item × MatchId)) (l : Label) (c : Nat) :
    Option (Label × Nat) :=
  if (l, c) ∈ edges items then some (l, c)
  else if (l, anyInput) ∈ edges items then some (l, anyInput)
  else if (.any, c) ∈ edges items then some (.any, c)
  else none

/-- The label a byte leads to. -/
noncomputable def readLabel (items : List (Item × MatchId)) (l : Label) (c : Nat) : Label :=
  match edgeOf items l c with
  | some x => x.1.goto x.2
  | none => .any

/-- The edge of an item that its capture starts behind, and those it ends with. -/
def Item.opens (it : Item) (x : Label × Nat) : Prop := it.act 0 x.1 x.2 (.startCapture 0)

def Item.closes (it : Item) (x : Label × Nat) : Prop :=
  it.act 0 x.1 x.2 (.endCapture 0) ∨ it.act 0 x.1 x.2 (.endCaptureAndDone 0)

/-- The edges the DFA is done with. -/
def stops (items : List (Item × MatchId)) (x : Label × Nat) : Prop :=
  doneAct x.1 x.2 .done ∨ Captures items .preface ∧ Item.preface.closes x

/-- The actions of an item are the same under every match id. -/
theorem act_cases {i : Nat} {a : Action} (h : it.act m l i a) :
    a = .startCapture m ∧ it.opens (l, i) ∨ a = .endCapture m ∧ it.closes (l, i) ∧ it ≠ .preface ∨
      a = .endCaptureAndDone m ∧ it.closes (l, i) ∧ it = .preface := by
  cases it <;> cases l <;>
    simp only [Item.act, headerAct, methodAct, pathAct, statusAct, prefaceAct] at h <;>
    simp only [Item.opens, Item.closes, Item.act, headerAct, methodAct, pathAct, statusAct,
      prefaceAct, reduceCtorEq, and_true, and_false, or_false, false_or, and_self, ne_eq,
      not_false_eq_true, not_true_eq_false] <;>
    tauto

theorem act_of_opens {x : Label × Nat} (h : it.opens x) (m : MatchId) :
    it.act m x.1 x.2 (.startCapture m) := by
  obtain ⟨l, i⟩ := x
  cases it <;> cases l <;> simp_all [Item.opens, Item.act, headerAct, methodAct, pathAct, statusAct,
    prefaceAct]

theorem act_of_closes {x : Label × Nat} (h : it.closes x) (m : MatchId) :
    it.act m x.1 x.2 (if it = .preface then .endCaptureAndDone m else .endCapture m) := by
  obtain ⟨l, i⟩ := x
  cases it <;> cases l <;> simp_all [Item.closes, Item.act, headerAct, methodAct, pathAct, statusAct,
    prefaceAct]

/-- No edge leads to a reserved state. -/
theorem root_goto (l : Label) (i : Nat) : (l.goto i).root = none := by
  cases l with
  | start t =>
    simp only [Label.goto]
    split
    · split <;> rfl
    split
    · rfl
    · exact root_start _ _
  | _ =>
    simp only [Label.goto]
    repeat' split
    all_goals rfl

theorem not_mem_any_any : (Label.any, anyInput) ∉ edges items := by
  rw [mem_edges]
  simp [headerEdge, requestEdge, statusEdge, prefaceEdge, doneEdge, anyInput, lfInput, crInput]

/-- The state an edge leads to is none of the reserved ones, so that its slot is not empty. -/
theorem Loaded.target_ne (h : Loaded items num rd) {i : Nat} {t : StateId}
    (ht : num (l.goto i) = some t) : t ≠ sInit ∧ t ≠ sAny := by
  obtain ⟨dfa, hrep, -⟩ := h.runs
  have hroot : ∀ (l' : Label) t', l'.root = some t' → t ≠ t' := by
    rintro l' t' hr rfl
    have heq := hrep.inj _ _ _ ht (hrep.roots l' _ hr)
    have hnone := root_goto l i
    rw [heq, hr] at hnone
    cases hnone
  exact ⟨hroot (.start []) _ rfl, hroot .any _ rfl⟩

/-- What the program makes of the byte `c` in the state of `l`. -/
theorem Loaded.next (h : Loaded items num rd) (hs : num l = some s) (c : Nat) :
    (∃ i, ((l, i) ∈ edges items ∧ (i = c ∨ i = anyInput ∧ (l, c) ∉ edges items)) ∧
      num (l.goto i) = some (rd.next s c).1 ∧
      ∃ act, rd.action (rd.next s c).2 = readAction act ∧ ∀ a, act = some a ↔ (l, i, a) ∈ acts items) ∨
    (l, c) ∉ edges items ∧ (l, anyInput) ∉ edges items ∧ (rd.next s c).1 = sAny ∧
      rd.action (rd.next s c).2 = noAction := by
  obtain ⟨dfa, hrep, hruns⟩ := h.runs
  have hlt : s < maxStates := Nat.lt_of_lt_of_le (hrep.lt l s hs) hruns.numStates
  have hmem : ∀ i, (l, i) ∈ edges items → ∃ e, dfa.lookup s i = some e ∧
      num (l.goto i) = some e.target ∧ (∀ a, e.action = some a ↔ (l, i, a) ∈ acts items) ∧
      (e.target = 0 → e.action ≠ none) := by
    intro i hi
    obtain ⟨e, he, ht, ha⟩ := hrep.lookup_some hs hi
    exact ⟨e, he, ht, ha, fun hz => absurd hz (h.target_ne ht).1⟩
  by_cases hc : (l, c) ∈ edges items
  · obtain ⟨e, he, ht, ha, hz⟩ := hmem c hc
    obtain ⟨hstate, hact⟩ := hruns.edge s c e hlt he hz
    exact .inl ⟨c, ⟨hc, .inl rfl⟩, by rw [hstate]; exact ht, e.action, hact, ha⟩
  have hnone := hrep.lookup_none hs hc
  by_cases hany : (l, anyInput) ∈ edges items
  · obtain ⟨e, he, ht, ha, hz⟩ := hmem anyInput hany
    obtain ⟨hstate, hact⟩ := hruns.anyEdge s c e hlt hnone he hz
    exact .inl ⟨anyInput, ⟨hany, .inr ⟨rfl, hc⟩⟩, by rw [hstate]; exact ht, e.action, hact, ha⟩
  · obtain ⟨hstate, hact⟩ := hruns.fallback s c hlt hnone (hrep.lookup_none hs hany)
    exact .inr ⟨hc, hany, hstate, hact⟩

theorem edgeOf_own {c : Nat} (h : (l, c) ∈ edges items) : edgeOf items l c = some (l, c) := if_pos h

theorem edgeOf_any {c : Nat} (h : (l, c) ∉ edges items) (hany : (l, anyInput) ∈ edges items) :
    edgeOf items l c = some (l, anyInput) := by
  rw [edgeOf, if_neg h, if_pos hany]

theorem edgeOf_again {c : Nat} (h : (l, c) ∉ edges items) (hany : (l, anyInput) ∉ edges items)
    (hc : (.any, c) ∈ edges items) : edgeOf items l c = some (.any, c) := by
  rw [edgeOf, if_neg h, if_neg hany, if_pos hc]

theorem edgeOf_none {c : Nat} (h : (l, c) ∉ edges items) (hany : (l, anyInput) ∉ edges items)
    (hc : (.any, c) ∉ edges items) : edgeOf items l c = none := by
  rw [edgeOf, if_neg h, if_neg hany, if_neg hc]

theorem edgeOf_cases {c : Nat} {x : Label × Nat} (h : edgeOf items l c = some x) :
    x = (l, c) ∧ (l, c) ∈ edges items ∨
      x = (l, anyInput) ∧ (l, c) ∉ edges items ∧ (l, anyInput) ∈ edges items ∨
        x = (.any, c) ∧ (l, c) ∉ edges items ∧ (l, anyInput) ∉ edges items ∧
          (.any, c) ∈ edges items := by
  unfold edgeOf at h
  split at h
  next hown =>
    cases h
    exact .inl ⟨rfl, hown⟩
  split at h
  next hno hany =>
    cases h
    exact .inr (.inl ⟨rfl, hno, hany⟩)
  split at h
  next hno hany hc =>
    cases h
    exact .inr (.inr ⟨rfl, hno, hany, hc⟩)
  next => cases h

/-- The program reads a byte as the labels do. -/
theorem Loaded.follow (h : Loaded items num rd) (hs : num l = some s) (c : Nat) :
    num (readLabel items l c) = some (rd.follow s c).1 ∧
      ∃ act, rd.action (rd.follow s c).2 = readAction act ∧
        ∀ a, act = some a ↔ ∃ x, edgeOf items l c = some x ∧ (x.1, x.2, a) ∈ acts items := by
  have hany : num .any = some sAny := by
    obtain ⟨dfa, hrep, -⟩ := h.runs
    exact anyState_num hrep
  rcases h.next hs c with ⟨i, hi, ht, act, hact, ha⟩ | ⟨hc, hl, hstate, -⟩
  · have hedge : edgeOf items l c = some (l, i) := by
      obtain ⟨hmem, rfl | ⟨rfl, hc⟩⟩ := hi
      · exact edgeOf_own hmem
      · exact edgeOf_any hc hmem
    have hfollow : rd.follow s c = rd.next s c := if_neg (h.target_ne ht).2
    rw [readLabel, hedge, hfollow]
    exact ⟨ht, act, hact, fun a => by simp [ha]⟩
  · have hfollow : rd.follow s c = rd.next sAny c := if_pos hstate
    rw [hfollow]
    rcases h.next hany c with ⟨i, hi, ht, act, hact, ha⟩ | ⟨hc', -, hstate', hact⟩
    · have hedge : edgeOf items l c = some (.any, i) := by
        obtain ⟨hmem, rfl | ⟨rfl, -⟩⟩ := hi
        · exact edgeOf_again hc hl hmem
        · exact absurd hmem not_mem_any_any
      rw [readLabel, hedge]
      exact ⟨ht, act, hact, fun a => by simp [ha]⟩
    · rw [readLabel, edgeOf_none hc hl hc', hstate']
      exact ⟨hany, none, hact, fun a => by simp⟩

open Classical in
/-- A step of the DFA, in terms of its labels. -/
noncomputable def labelStep (items : List (Item × MatchId)) (_ : Nat) (c : UInt8) (l : Label) :
    Label × Bool :=
  (readLabel items l c.toNat, decide (∃ x, edgeOf items l c.toNat = some x ∧ stops items x))

theorem labelStep_done {i : Nat} {c : UInt8} : (labelStep items i c l).2 = true ↔
    ∃ x, edgeOf items l c.toNat = some x ∧ stops items x := by
  simp only [labelStep, decide_eq_true_eq]

/-- What a walk comes to as far as an item is concerned. -/
structure View where
  label : Label
  start : Nat
  range : HttpMatch

open Classical in
noncomputable def viewStep (items : List (Item × MatchId)) (it : Item) (i : Nat) (c : UInt8)
    (v : View) : View × Bool :=
  let opens := ∃ x, edgeOf items v.label c.toNat = some x ∧ it.opens x
  let closes := ∃ x, edgeOf items v.label c.toNat = some x ∧ it.closes x
  (⟨(labelStep items i c v.label).1, if opens then i + 1 else v.start,
    if closes then rangeTo v.start i else v.range⟩, (labelStep items i c v.label).2)

/-- The walk `w` looks like `v` to the item that `m` is the match of. -/
structure Sees (num : Label → Option StateId) (m : MatchId) (v : View) (w : Walk) : Prop where
  state : num v.label = some w.s
  start : w.cidx (Fin.ofNat maxMatches m) = v.start
  range : w.pres.get m = v.range

/-- The actions an edge can carry. -/
theorem mem_acts {x : Label × Nat} {a : Action} (h : (x.1, x.2, a) ∈ acts items) :
    (∃ it m, (it, m) ∈ items ∧ (a = .startCapture m ∧ it.opens x ∨
      a = .endCapture m ∧ it.closes x ∧ it ≠ .preface ∨
        a = .endCaptureAndDone m ∧ it.closes x ∧ it = .preface)) ∨ a = .done ∧ doneAct x.1 x.2 .done := by
  rcases h with ⟨⟨it, m⟩, hm, ha⟩ | h
  · exact .inl ⟨it, m, hm, act_cases ha⟩
  · right
    obtain ⟨l, i⟩ := x
    cases l <;> simp_all [doneAct]

theorem acts_of_opens {x : Label × Nat} (hm : (it, m) ∈ items) (h : it.opens x) :
    (x.1, x.2, .startCapture m) ∈ acts items :=
  .inl ⟨(it, m), hm, act_of_opens h m⟩

theorem acts_of_closes {x : Label × Nat} (hm : (it, m) ∈ items) (h : it.closes x) :
    (x.1, x.2, if it = .preface then .endCaptureAndDone m else .endCapture m) ∈ acts items :=
  .inl ⟨(it, m), hm, act_of_closes h m⟩

/-- The DFA is done with the edges that stop it. -/
theorem Loaded.done (h : Loaded items num rd) (hs : num l = some s) (c : UInt8) :
    decide ((rd.action (rd.follow s c.toNat).2).flags &&& fDone ≠ 0) =
      (labelStep items 0 c l).2 := by
  obtain ⟨-, act, hact, ha⟩ := h.follow hs c.toNat
  rw [hact]
  simp only [labelStep]
  rw [decide_eq_decide]
  have hflags : (readAction act).flags &&& fDone ≠ 0 ↔
      act = some .done ∨ ∃ m, act = some (.endCaptureAndDone m) := by
    cases act with
    | none => simp [readAction, noAction]
    | some a => cases a <;> simp [readAction, Action.toHttp1Action, fDone]
  rw [hflags]
  constructor
  · rintro (heq | ⟨m, heq⟩)
    · obtain ⟨x, hx, hmem⟩ := (ha _).mp heq
      refine ⟨x, hx, ?_⟩
      rcases mem_acts hmem with ⟨it, m, -, ⟨hno, -⟩ | ⟨hno, -⟩ | ⟨hno, -⟩⟩ | ⟨-, hdone⟩
      · cases hno
      · cases hno
      · cases hno
      · exact .inl hdone
    · obtain ⟨x, hx, hmem⟩ := (ha _).mp heq
      refine ⟨x, hx, ?_⟩
      rcases mem_acts hmem with ⟨it, m', hm, ⟨hno, -⟩ | ⟨hno, -⟩ | ⟨hno, hcl, rfl⟩⟩ | ⟨hno, -⟩
      · cases hno
      · cases hno
      · exact .inr ⟨⟨m', hm⟩, hcl⟩
      · cases hno
  · rintro ⟨x, hx, hdone | ⟨⟨m, hm⟩, hcl⟩⟩
    · exact .inl ((ha _).mpr ⟨x, hx, .inr hdone⟩)
    · exact .inr ⟨m, (ha _).mpr ⟨x, hx, acts_of_closes hm hcl⟩⟩

/-- Other items have other matches. -/
theorem Loaded.eq_of_mid (h : Loaded items num rd) {it' : Item} (hm : (it, m) ∈ items)
    (hm' : (it', m) ∈ items) : it = it' := by
  have hinj := List.inj_on_of_nodup_map h.mids_nodup hm hm' rfl
  exact (Prod.mk.inj hinj).1

theorem ofNat_maxMatches_inj {m m' : Nat} (hm : m < maxMatches) (hm' : m' < maxMatches) :
    Fin.ofNat maxMatches m = Fin.ofNat maxMatches m' ↔ m = m' := by
  rw [Fin.ext_iff]
  show m % maxMatches = m' % maxMatches ↔ _
  rw [Nat.mod_eq_of_lt hm, Nat.mod_eq_of_lt hm']

/-- The match id an action is about. -/
def Action.mid? : Action → Option MatchId
  | .startCapture m => some m
  | .endCapture m => some m
  | .endCaptureAndDone m => some m
  | .done => none

theorem act_cidx {w : Walk} {i : Nat} {act : Option Action} (hm : m < maxMatches)
    (hlt : ∀ a m', act = some a → a.mid? = some m' → m' < maxMatches) :
    (w.act i (readAction act)).cidx (Fin.ofNat maxMatches m) =
      if act = some (.startCapture m) then i + 1 else w.cidx (Fin.ofNat maxMatches m) := by
  cases act with
  | none => rfl
  | some a =>
    cases a with
    | startCapture m' =>
      have hm' := hlt _ m' rfl rfl
      show Function.update w.cidx (Fin.ofNat maxMatches m') (i + 1) _ = _
      simp only [Function.update_apply, ofNat_maxMatches_inj hm hm', Option.some.injEq,
        Action.startCapture.injEq, eq_comm]
    | endCapture m' => rfl
    | done => rfl
    | endCaptureAndDone m' => rfl

theorem act_range {w : Walk} {i : Nat} {act : Option Action} (hm : m < maxMatches)
    (hlt : ∀ a m', act = some a → a.mid? = some m' → m' < maxMatches) :
    (w.act i (readAction act)).pres.get m =
      if act = some (.endCapture m) ∨ act = some (.endCaptureAndDone m)
      then rangeTo (w.cidx (Fin.ofNat maxMatches m)) i else w.pres.get m := by
  have hset : ∀ m', m' < maxMatches →
      (w.pres.set m' (rangeTo (w.cidx (Fin.ofNat maxMatches m')) i)).get m =
        if m' = m then rangeTo (w.cidx (Fin.ofNat maxMatches m)) i else w.pres.get m := by
    intro m' hm'
    show Function.update w.pres.ms (Fin.ofNat maxMatches m') _ _ = _
    simp only [Function.update_apply, ofNat_maxMatches_inj hm hm']
    by_cases heq : m = m'
    · subst heq
      rw [if_pos rfl, if_pos rfl]
    · rw [if_neg heq, if_neg (Ne.symm heq)]
      rfl
  cases act with
  | none => rfl
  | some a =>
    cases a with
    | startCapture m' => rfl
    | endCapture m' =>
      refine (hset m' (hlt _ m' rfl rfl)).trans ?_
      simp only [Option.some.injEq, Action.endCapture.injEq, reduceCtorEq, or_false]
    | done => rfl
    | endCaptureAndDone m' =>
      refine (hset m' (hlt _ m' rfl rfl)).trans ?_
      simp only [Option.some.injEq, Action.endCaptureAndDone.injEq, reduceCtorEq, false_or]

/-- A step of the program looks like one of the view. -/
theorem Loaded.view_step (h : Loaded items num rd) (hm : (it, m) ∈ items) {v : View} {w : Walk}
    (hv : Sees num m v w) (i : Nat) (c : UInt8) :
    Sees num m (viewStep items it i c v).1 (parseByte rd i c w).1 ∧
      (parseByte rd i c w).2 = (viewStep items it i c v).2 := by
  obtain ⟨hstate, act, hact, ha⟩ := h.follow hv.state c.toNat
  have hlt : ∀ a m', act = some a → a.mid? = some m' → m' < maxMatches := by
    intro a m' heq hmid
    obtain ⟨x, -, hx⟩ := (ha a).mp heq
    rcases mem_acts hx with ⟨it', m0, hm0, ⟨rfl, -⟩ | ⟨rfl, -⟩ | ⟨rfl, -⟩⟩ | ⟨rfl, -⟩ <;> cases hmid
    all_goals exact h.mid_lt _ _ hm0
  have hopens : act = some (.startCapture m) ↔
      ∃ x, edgeOf items v.label c.toNat = some x ∧ it.opens x := by
    rw [ha]
    constructor
    · rintro ⟨x, hx, hmem⟩
      refine ⟨x, hx, ?_⟩
      rcases mem_acts hmem with ⟨it', m0, hm0, ⟨heq, ho⟩ | ⟨hno, -⟩ | ⟨hno, -⟩⟩ | ⟨hno, -⟩
      · cases heq
        rwa [h.eq_of_mid hm hm0]
      · cases hno
      · cases hno
      · cases hno
    · rintro ⟨x, hx, ho⟩
      exact ⟨x, hx, acts_of_opens hm ho⟩
  have hcloses : (act = some (.endCapture m) ∨ act = some (.endCaptureAndDone m)) ↔
      ∃ x, edgeOf items v.label c.toNat = some x ∧ it.closes x := by
    rw [ha, ha]
    constructor
    · rintro (⟨x, hx, hmem⟩ | ⟨x, hx, hmem⟩) <;> refine ⟨x, hx, ?_⟩ <;>
        rcases mem_acts hmem with ⟨it', m0, hm0, ⟨heq, hc⟩ | ⟨heq, hc, -⟩ | ⟨heq, hc, -⟩⟩ | ⟨heq, -⟩ <;>
        cases heq
      all_goals rwa [h.eq_of_mid hm hm0]
    · rintro ⟨x, hx, hc⟩
      have hmem := acts_of_closes hm hc
      by_cases hp : it = .preface
      · rw [if_pos hp] at hmem
        exact .inr ⟨x, hx, hmem⟩
      · rw [if_neg hp] at hmem
        exact .inl ⟨x, hx, hmem⟩
  have hmlt := h.mid_lt it m hm
  refine ⟨⟨?_, ?_, ?_⟩, h.done hv.state c⟩
  · exact hstate
  · show (w.act i (rd.action (rd.follow w.s c.toNat).2)).cidx _ = _
    rw [hact, act_cidx hmlt hlt, hv.start]
    by_cases ho : act = some (.startCapture m)
    · rw [if_pos ho]
      exact (if_pos (hopens.mp ho)).symm
    · rw [if_neg ho]
      exact (if_neg fun hx => ho (hopens.mpr hx)).symm
  · show (w.act i (rd.action (rd.follow w.s c.toNat).2)).pres.get m = _
    rw [hact, act_range hmlt hlt, hv.start, hv.range]
    by_cases hc : act = some (.endCapture m) ∨ act = some (.endCaptureAndDone m)
    · rw [if_pos hc]
      exact (if_pos (hcloses.mp hc)).symm
    · rw [if_neg hc]
      exact (if_neg fun hx => hc (hcloses.mpr hx)).symm

def View.init : View := ⟨.start [], 0, .zero⟩

theorem Loaded.sees_start (h : Loaded items num rd) (m : MatchId) :
    Sees num m .init (.start .zero) := by
  obtain ⟨dfa, hrep, -⟩ := h.runs
  exact ⟨hrep.roots (.start []) _ rfl, rfl, rfl⟩

/-- A walk, as an item sees it. -/
theorem Attached.walk_view (h : Attached items rd) (hm : (it, m) ∈ items) (i : Nat) (bytes : Bytes) :
    (walk rd i bytes (.start .zero)).1 = (Scan.run (viewStep items it) i bytes .init).1 ∧
      (walk rd i bytes (.start .zero)).2.pres.get m =
        (Scan.run (viewStep items it) i bytes .init).2.range := by
  obtain ⟨num, hl⟩ := h.loaded
  have hsim := Scan.run_lockstep (R := Sees num m) i bytes
    (fun j c v w hv => hl.view_step hm hv j c) (hl.sees_start m)
  exact ⟨hsim.1, hsim.2.range⟩

/-- Where a header block ends, in terms of the labels. -/
theorem Attached.headerEnd_eq (h : Attached items rd) (bytes : Bytes) :
    headerEnd rd bytes = (Scan.run (labelStep items) 0 bytes (.start [])).1 := by
  obtain ⟨num, hl⟩ := h.loaded
  have hstart : num (.start []) = some sInit := (hl.sees_start 0).state
  have hstep : ∀ (j : Nat) c l s, num l = some s →
      num (labelStep items j c l).1 = some (stateStep rd j c s).1 ∧
        (stateStep rd j c s).2 = (labelStep items j c l).2 :=
    fun j c l s hs => ⟨(hl.follow hs c.toNat).1, hl.done hs c⟩
  exact (Scan.run_lockstep (R := fun l s => num l = some s) 0 bytes hstep hstart).1

end Beeper.Http1
