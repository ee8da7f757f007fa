import Beeper.BuilderLabels

namespace Beeper

variable {Label A : Type} {S : Shape Label} {E : Set (Label × Input)}
  {T : Set (Label × Input × A)} {num num' : Label → Option StateId} {b b' b0 : DfaBuilder A}
  {l : Label} {i : Input} {opts : List Label} {last : List (Label × Input × Bool)}

/-- The label a path out of `l` ends in. -/
def Shape.path (S : Shape Label) : Label → Bytes → Label
  | l, [] => l
  | l, c :: cs => S.path (S.goto l c.toNat) cs

/-- The edges along a path. -/
def Shape.pathSet (S : Shape Label) (caseSensitive : Bool) : Label → Bytes → Set (Label × Input)
  | _, [] => ∅
  | l, c :: cs => edgeSet l c.toNat caseSensitive ∪ S.pathSet caseSensitive (S.goto l c.toNat) cs

/-- The last edge of a path, if it has one. -/
def Shape.pathLast (S : Shape Label) (caseSensitive : Bool) :
    Label → Bytes → List (Label × Input × Bool) → List (Label × Input × Bool)
  | _, [], last => last
  | l, c :: cs, _ => S.pathLast caseSensitive (S.goto l c.toNat) cs [(l, c.toNat, caseSensitive)]

/-- Every edge of a path leads to a label of its own, other than the last one if that is to lead
somewhere else. -/
def Shape.GrowsPath (S : Shape Label) (caseSensitive ends : Bool) : Label → Bytes → Prop
  | _, [] => True
  | l, c :: cs => (S.Grows l c.toNat ∨ ends = true ∧ cs = []) ∧ S.FoldsCase l c.toNat caseSensitive ∧
      S.GrowsPath caseSensitive ends (S.goto l c.toNat) cs

theorem Shape.path_append (S : Shape Label) (l : Label) (xs ys : Bytes) :
    S.path l (xs ++ ys) = S.path (S.path l xs) ys := by
  induction xs generalizing l with
  | nil => rfl
  | cons c xs ih => exact ih (S.goto l c.toNat)

theorem Shape.pathSet_append (S : Shape Label) (cs : Bool) (l : Label) (xs ys : Bytes) :
    S.pathSet cs l (xs ++ ys) = S.pathSet cs l xs ∪ S.pathSet cs (S.path l xs) ys := by
  induction xs generalizing l with
  | nil => exact (Set.empty_union _).symm
  | cons c xs ih =>
    rw [List.cons_append, Shape.pathSet, ih, ← Set.union_assoc]
    rfl

theorem Shape.pathLast_concat (S : Shape Label) (cs : Bool) (l : Label) (xs : Bytes) (c : UInt8)
    (last : List (Label × Input × Bool)) :
    S.pathLast cs l (xs ++ [c]) last = [(S.path l xs, c.toNat, cs)] := by
  induction xs generalizing l last with
  | nil => rfl
  | cons d xs ih => exact ih (S.goto l d.toNat) _

/-- Along the texts from `t` to `t ++ bytes`, every character leads to the next one. -/
def Shape.Chain (S : Shape Label) (f : Bytes → Label) (t bytes : Bytes) : Prop :=
  ∀ t' c, t <+: t' → t' ++ [c] <+: t ++ bytes → S.goto (f t') c.toNat = f (t' ++ [c])

theorem Shape.Chain.head {f : Bytes → Label} {t bytes : Bytes} {c : UInt8}
    (h : S.Chain f t (c :: bytes)) :
    S.goto (f t) c.toNat = f (t ++ [c]) ∧ S.Chain f (t ++ [c]) bytes := by
  refine ⟨h t c (List.prefix_refl _) ⟨bytes, by simp⟩, fun t' d ht hd => ?_⟩
  exact h t' d ((List.prefix_append _ _).trans ht) (by rwa [List.append_assoc] at hd)

theorem Shape.path_chain {f : Bytes → Label} {t bytes : Bytes} (h : S.Chain f t bytes) :
    S.path (f t) bytes = f (t ++ bytes) := by
  induction bytes generalizing t with
  | nil => rw [List.append_nil]; rfl
  | cons c bytes ih =>
    obtain ⟨hc, hrest⟩ := h.head
    rw [Shape.path, hc, ih hrest, List.append_assoc]
    rfl

theorem Shape.mem_pathSet_chain {f : Bytes → Label} {t bytes : Bytes} {cs : Bool}
    (h : S.Chain f t bytes) {x : Label × Input} : x ∈ S.pathSet cs (f t) bytes ↔
      ∃ t' c, t <+: t' ∧ t' ++ [c] <+: t ++ bytes ∧ x ∈ edgeSet (f t') c.toNat cs := by
  induction bytes generalizing t with
  | nil =>
    refine ⟨fun hx => absurd hx (Set.notMem_empty x), fun ⟨t', c, ht, hc, _⟩ => ?_⟩
    have hlen := hc.length_le
    have hlen' := ht.length_le
    simp only [List.length_append, List.length_singleton, List.length_nil] at hlen
    omega
  | cons d bytes ih =>
    obtain ⟨hd, hrest⟩ := h.head
    rw [Shape.pathSet, Set.mem_union, hd, ih hrest]
    constructor
    · rintro (hx | ⟨t', c, ht, hc, hx⟩)
      · exact ⟨t, d, List.prefix_refl _, ⟨bytes, by simp⟩, hx⟩
      · exact ⟨t', c, (List.prefix_append _ _).trans ht, by rwa [List.append_assoc] at hc, hx⟩
    · rintro ⟨t', c, ht, hc, hx⟩
      obtain ⟨more, rfl⟩ := ht
      rw [List.append_assoc, List.prefix_append_right_inj] at hc
      cases more with
      | nil =>
        obtain ⟨rest, hrest⟩ := hc
        cases hrest
        rw [List.append_nil] at hx
        exact .inl hx
      | cons d' more =>
        rw [List.cons_append, List.cons_prefix_cons] at hc
        obtain ⟨rfl, hc⟩ := hc
        refine .inr ⟨t ++ d' :: more, c, ⟨more, by simp⟩, ?_, hx⟩
        rw [List.append_assoc, List.append_assoc, List.prefix_append_right_inj, List.cons_append,
          List.singleton_append, List.cons_prefix_cons]
        exact ⟨rfl, hc⟩

theorem Shape.growsPath_chain {f : Bytes → Label} {t bytes : Bytes} {cs ends : Bool}
    (h : S.Chain f t bytes)
    (hg : ∀ t' c, t <+: t' → t' ++ [c] <+: t ++ bytes →
      (S.Grows (f t') c.toNat ∨ ends = true ∧ t' ++ [c] = t ++ bytes) ∧
        S.FoldsCase (f t') c.toNat cs) : S.GrowsPath cs ends (f t) bytes := by
  induction bytes generalizing t with
  | nil => exact trivial
  | cons d bytes ih =>
    obtain ⟨hd, hrest⟩ := h.head
    obtain ⟨hgrows, hfolds⟩ := hg t d (List.prefix_refl _) ⟨bytes, by simp⟩
    refine ⟨hgrows.imp id fun hend => ⟨hend.1, ?_⟩, hfolds, ?_⟩
    · exact (List.cons.inj (List.append_cancel_left hend.2)).2.symm
    · rw [hd]
      refine ih hrest fun t' c ht hc => ?_
      have hc' : t' ++ [c] <+: t ++ d :: bytes := by rwa [List.append_assoc] at hc
      obtain ⟨hgrows', hfolds'⟩ := hg t' c ((List.prefix_append _ _).trans ht) hc'
      exact ⟨hgrows'.imp id fun hend => ⟨hend.1, by rw [hend.2, List.append_assoc]; rfl⟩, hfolds'⟩

/-- The last edge of a path may lead somewhere else. -/
theorem Shape.GrowsPath.concat {bytes : Bytes} {cs : Bool} {c : UInt8}
    (h : S.GrowsPath cs false l bytes) (hc : S.FoldsCase (S.path l bytes) c.toNat cs) :
    S.GrowsPath cs true l (bytes ++ [c]) := by
  induction bytes generalizing l with
  | nil => exact ⟨.inr ⟨rfl, rfl⟩, hc, trivial⟩
  | cons d bytes ih =>
    obtain ⟨hg, hf, hrest⟩ := h
    exact ⟨.inl (hg.resolve_right fun hend => Bool.false_ne_true hend.1), hf, ih hrest hc⟩

variable [DecidableEq A]

theorem BuilderAt.pushTo {target : StateId} {bytes : Bytes} {cs : Bool}
    (h : BuilderAt S E T num b l [] last) (hb : b.optionalPrefixes = [])
    (ht : num (S.path l bytes) = some target) (hg : S.GrowsPath cs true l bytes)
    (hp : DfaBuilder.pushTo target cs bytes b = some b') :
    ∃ num', Renumbers num num' ∧
      BuilderAt S (E ∪ S.pathSet cs l bytes) T num' b' (S.path l bytes) []
        (S.pathLast cs l bytes last) ∧ b'.optionalPrefixes = [] := by
  induction bytes generalizing b num E l last with
  | nil =>
    cases Option.some.inj hp
    exact ⟨num, .refl _, by rw [Shape.pathSet, Set.union_empty]; exact h, hb⟩
  | cons c bytes ih =>
    simp only [DfaBuilder.pushTo, Option.bind_eq_bind, Option.bind_eq_some_iff] at hp
    obtain ⟨b1, hedge, hrest⟩ := hp
    obtain ⟨hgrows, hfolds, hpath⟩ := hg
    obtain ⟨num1, hren, hat, hb1⟩ := h.pushEdge (pushOptionalPrefixes_nil hb) hb
      (fun x hx => by
        split at hx
        next hnil =>
          subst hnil
          rw [← Option.some.inj hx]
          exact ht
        next => cases hx)
      (fun hx => by
        split at hx
        next => cases hx
        next hne => exact hgrows.resolve_right fun hend => hne hend.2)
      hfolds (fun o ho => absurd ho List.not_mem_nil) hedge
    have hempty : edgeSets ([] : List Label) c.toNat cs = ∅ := by
      ext x
      simp [edgeSets]
    rw [hempty, Set.union_empty] at hat
    obtain ⟨num2, hren2, hat2, hb2⟩ := ih hat hb1 (hren _ _ ht) hpath hrest
    refine ⟨num2, hren.trans hren2, ?_, hb2⟩
    rw [Shape.pathSet, ← Set.union_assoc]
    exact hat2

theorem BuilderAt.pushInner {bytes : Bytes} {cs : Bool} (h : BuilderAt S E T num b l [] last)
    (hb : b.optionalPrefixes = []) (hg : S.GrowsPath cs false l bytes)
    (hp : DfaBuilder.pushInner bytes cs b = some b') :
    ∃ num', Renumbers num num' ∧
      BuilderAt S (E ∪ S.pathSet cs l bytes) T num' b' (S.path l bytes) []
        (S.pathLast cs l bytes last) ∧ b'.optionalPrefixes = [] := by
  induction bytes generalizing b num E l last with
  | nil =>
    cases Option.some.inj hp
    exact ⟨num, .refl _, by rw [Shape.pathSet, Set.union_empty]; exact h, hb⟩
  | cons c bytes ih =>
    simp only [DfaBuilder.pushInner, Option.bind_eq_bind, Option.bind_eq_some_iff] at hp
    obtain ⟨b1, hedge, hrest⟩ := hp
    obtain ⟨hgrows, hfolds, hpath⟩ := hg
    obtain ⟨num1, hren, hat, hb1⟩ := h.pushEdge (pushOptionalPrefixes_nil hb) hb
      (fun x hx => by cases hx)
      (fun _ => hgrows.resolve_right fun hend => Bool.false_ne_true hend.1)
      hfolds (fun o ho => absurd ho List.not_mem_nil) hedge
    have hempty : edgeSets ([] : List Label) c.toNat cs = ∅ := by
      ext x
      simp [edgeSets]
    rw [hempty, Set.union_empty] at hat
    obtain ⟨num2, hren2, hat2, hb2⟩ := ih hat hb1 hpath hrest
    refine ⟨num2, hren.trans hren2, ?_, hb2⟩
    rw [Shape.pathSet, ← Set.union_assoc]
    exact hat2

/-- An input that any byte may stand for. -/
theorem BuilderAt.pushAnyEdge (h : BuilderAt S E T num b l [] last) (hb : b.optionalPrefixes = [])
    (hg : S.Grows l anyInput) (hp : b.pushEdge anyInput none true = some b') :
    ∃ num', Renumbers num num' ∧
      BuilderAt S (insert (l, anyInput) E) T num' b' (S.goto l anyInput) []
        [(l, anyInput, true)] ∧ b'.optionalPrefixes = [] := by
  obtain ⟨num1, hren, hat, hb1⟩ := h.pushEdge (pushOptionalPrefixes_nil hb) hb
    (fun _ hx => by cases hx) (fun _ => hg) (S.foldsCase_true _ _)
    (fun o ho => absurd ho List.not_mem_nil) hp
  have heq : E ∪ edgeSet l anyInput true ∪ edgeSets [] anyInput true = insert (l, anyInput) E := by
    ext ⟨l', i'⟩
    simp [edgeSet, edgeSets, or_comm]
  rw [heq] at hat
  exact ⟨num1, hren, hat, hb1⟩

/-- Any byte, once or more often. -/
theorem BuilderAt.pushAny_loop (h : BuilderAt S E T num b l [] last) (hb : b.optionalPrefixes = [])
    (hg : S.Grows l anyInput) (hloop : S.goto (S.goto l anyInput) anyInput = S.goto l anyInput)
    (hp : b.pushAny 1 none = some b') :
    ∃ num', Renumbers num num' ∧
      BuilderAt S (insert (S.goto l anyInput, anyInput) (insert (l, anyInput) E)) T num' b'
        (S.goto l anyInput) [] [(l, anyInput, true), (S.goto l anyInput, anyInput, true)] ∧
      b'.optionalPrefixes = [] := by
  simp only [DfaBuilder.pushAny, Option.getD_none, Nat.lt_irrefl, if_false, DfaBuilder.pushAnys,
    Option.bind_eq_bind, Nat.sub_self, List.replicate_zero, List.append_nil,
    Option.bind_eq_some_iff] at hp
  obtain ⟨b1, ⟨b1', hedge, heq1⟩, ⟨t, b2⟩, hself, heq⟩ := hp
  cases Option.some.inj heq1
  cases Option.some.inj heq
  obtain ⟨num1, hren, hat, hb1⟩ := h.pushAnyEdge hb hg hedge
  have hpushed := DfaBuilder.pushEdgeFrom_pushed hself
  obtain ⟨num2, hren2, -, hrep⟩ := hat.rep.pushEdgeFrom hat.state
    (fun x hx => by rw [hloop, ← Option.some.inj hx]; exact hat.state) (fun hx => by cases hx)
    (S.foldsCase_true _ _) hself rfl
  have heq : insert (l, anyInput) E ∪ edgeSet (S.goto l anyInput) anyInput true =
      insert (S.goto l anyInput, anyInput) (insert (l, anyInput) E) := by
    ext ⟨l', i'⟩
    simp only [edgeSet, Bool.true_eq_false, false_and, or_false, Set.mem_union, Set.mem_insert_iff,
      Set.mem_ofPred_eq, Prod.mk.injEq]
    exact or_comm
  rw [heq] at hrep
  refine ⟨num2, hren.trans hren2, ⟨hrep, ?_, ?_, ?_⟩, hpushed.optionalPrefixes.trans hb1⟩
  · show num2 _ = some b2.state
    rw [hpushed.state]
    exact hren2 _ _ hat.state
  · show List.Forall₂ _ [] b2.optionalStates
    rw [hpushed.optionalStates, List.forall₂_nil_left_iff.mp hat.optionalStates]
    exact .nil
  · show LastEdges num2 _ (b2.lastEdges ++ [(b2.state, anyInput, true)])
    rw [hpushed.lastEdges, hpushed.state]
    exact (hat.lastEdges.append hat.state).renumber hren2

/-- Setting the state a string restarts in: its path out of `anyState` is built first. -/
theorem BuilderAt.restartStates {c : UInt8} {a : Label} {target : StateId}
    (h : BuilderAt S E T num b l opts last) (ha : num a = some anyState) (hg : S.Grows a c.toNat)
    (hf : S.FoldsCase a c.toNat false)
    (hp : DfaBuilder.restartStates [c] anyState b = some (target, b')) :
    ∃ num', Renumbers num num' ∧ num' (S.goto a c.toNat) = some target ∧
      BuilderAt S (E ∪ edgeSet a c.toNat false) T num' b' l opts last ∧
      b'.optionalPrefixes = b.optionalPrefixes := by
  simp only [DfaBuilder.restartStates, Option.bind_eq_bind, Option.bind_eq_some_iff] at hp
  obtain ⟨⟨next, d1⟩, hnext, ⟨t, b1⟩, hedge, heq⟩ := hp
  cases Option.some.inj heq
  have hpushed := DfaBuilder.pushEdgeFrom_pushed hedge
  have hrep : ∃ num', Renumbers num num' ∧ num' (S.goto a c.toNat) = some next ∧
      Represents S (E ∪ edgeSet a c.toNat false) T num' b1.dfa := by
    rcases Dfa.nextState_some hnext with ⟨e, hl, hid, rfl⟩ | ⟨hl, hid, hl', hn⟩
    · have ht : num (S.goto a c.toNat) = some next := by
        rw [hid]
        exact (h.rep.edge a anyState _ e ha hl).2.1
      obtain ⟨num', hren, -, hrep⟩ := h.rep.pushEdgeFrom ha
        (fun x hx => by rw [← Option.some.inj hx]; exact ht) (fun hx => by cases hx) hf hedge rfl
      exact ⟨num', hren, hren _ _ ht, hrep⟩
    · -- the state is new, and pushing its edge takes another id that goes unused
      subst hid
      unfold DfaBuilder.pushEdgeFrom at hedge
      simp only [Option.bind_eq_bind, Option.bind_eq_some_iff] at hedge
      obtain ⟨⟨next2, d2⟩, h1, d3, h2, d4, h3, h4⟩ := hedge
      cases Option.some.inj h4
      have hd2 : (∀ s i, d2.lookup s i = b.dfa.lookup s i) ∧ b.dfa.numStates < d2.numStates := by
        rcases Dfa.nextState_some h1 with ⟨e, -, -, rfl⟩ | ⟨-, -, hl2, hn2⟩
        · exact ⟨hl', by omega⟩
        · exact ⟨fun s i => (hl2 s i).trans (hl' s i), by omega⟩
      obtain ⟨hren, hrep⟩ := h.rep.insertNew ha hg hl hd2.1 hd2.2 h2
      have ht : numberLabel num (S.goto a c.toNat) b.dfa.numStates (S.goto a c.toNat) =
        some b.dfa.numStates := if_pos rfl
      exact ⟨_, hren, ht, hrep.insertOther (hren _ _ ha) ht hf h3⟩
  obtain ⟨num', hren, ht, hrep⟩ := hrep
  refine ⟨num', hren, ht, ⟨hrep, ?_, ?_, ?_⟩, hpushed.optionalPrefixes⟩
  · rw [hpushed.state]
    exact hren _ _ h.state
  · rw [hpushed.optionalStates]
    exact h.optionalStates.imp fun _ _ hx => hren _ _ hx
  · rw [hpushed.lastEdges]
    exact h.lastEdges.renumber hren

/-- The end of a line: `d` restarts the pattern, with a `c` in front of it that may be skipped. -/
theorem BuilderAt.restartLine {c d : UInt8} {a : Label} (h : BuilderAt S E T num b l [] last)
    (hb : b.optionalPrefixes = []) (ha : num a = some anyState) (hd : otherCase d.toNat = none)
    (hga : S.Grows a d.toNat) (hgl : S.Grows l c.toNat) (hne : S.goto l c.toNat ≠ l)
    (hl : S.goto l d.toNat = S.goto a d.toNat)
    (hc : S.goto (S.goto l c.toNat) d.toNat = S.goto a d.toNat)
    (hp : (b.pushOptional [c] false).restartWith [d] = some b') :
    ∃ num', Renumbers num num' ∧ Represents S
      (E ∪ {(a, d.toNat), (l, c.toNat), (l, d.toNat), (S.goto l c.toNat, d.toNat)}) T num' b'.dfa := by
  have hfold : ∀ l', S.FoldsCase l' d.toNat false := fun l' _ o ho => by
    rw [hd] at ho
    cases ho
  simp only [DfaBuilder.restartWith, Option.bind_eq_bind, Option.bind_eq_some_iff] at hp
  obtain ⟨⟨target, b1⟩, hrestart, hpush⟩ := hp
  have h' : BuilderAt S E T num (b.pushOptional [c] false) l [] last :=
    ⟨h.rep, h.state, h.optionalStates, h.lastEdges⟩
  obtain ⟨num1, hren1, ht, hat1, hpre1⟩ := h'.restartStates ha hga (hfold a) hrestart
  have hpre1 : b1.optionalPrefixes = [⟨[c.toNat], true, false⟩] := by
    rw [hpre1, DfaBuilder.pushOptional, hb]
    rfl
  simp only [DfaBuilder.pushTo, Option.bind_eq_bind, Option.bind_eq_some_iff, if_true] at hpush
  obtain ⟨b2, hedge, heq⟩ := hpush
  cases Option.some.inj heq
  -- the prefix that may be skipped is built along with the edge
  have hedge' := hedge
  unfold DfaBuilder.pushEdge at hedge'
  simp only [Option.bind_eq_bind, Option.bind_eq_some_iff] at hedge'
  obtain ⟨b3, hprefix, -⟩ := hedge'
  have hskip := hprefix
  unfold DfaBuilder.pushOptionalPrefixes at hskip
  rw [hpre1] at hskip
  have hat1' : BuilderAt S (E ∪ edgeSet a d.toNat false) T num1 { b1 with optionalPrefixes := [] }
      l [] last := ⟨hat1.rep, hat1.state, hat1.optionalStates, hat1.lastEdges⟩
  obtain ⟨num3, hren3, hat3, hpre3⟩ := hat1'.pushSkipped hgl hne hskip
  obtain ⟨num4, hren4, hat4, -⟩ := hat3.pushEdge hprefix hpre3
    (fun x hx => by
      rw [hl, ← Option.some.inj hx]
      exact hren3 _ _ ht)
    (fun hx => by cases hx) (hfold l)
    (fun o ho => by
      obtain rfl := List.mem_singleton.mp ho
      exact ⟨hc.trans hl.symm, hfold _⟩) hedge
  have heq : E ∪ {(a, d.toNat), (l, c.toNat), (l, d.toNat), (S.goto l c.toNat, d.toNat)} =
      E ∪ edgeSet a d.toNat false ∪ edgeSet l c.toNat true ∪ edgeSet l d.toNat false ∪
        edgeSets [S.goto l c.toNat] d.toNat false := by
    ext ⟨l', i'⟩
    simp only [edgeSet, edgeSets, hd, Set.mem_union, Set.mem_insert_iff, Set.mem_singleton_iff,
      Set.mem_ofPred_eq, Prod.mk.injEq, List.mem_singleton, exists_eq_left, reduceCtorEq, and_false, false_and,
      or_false, or_assoc]
  rw [heq]
  exact ⟨num4, (hren1.trans hren3).trans hren4, hat4.rep⟩

/-- The edges of the options, each of which starts in the same state. -/
def Shape.optionSet (S : Shape Label) (start : Label) (inputs : List Bytes) :
    Set (Label × Input) :=
  {x | ∃ input ∈ inputs, x ∈ S.pathSet false start input}

theorem BuilderAt.pushOthers {start f : Label} {s t : StateId} {inputs : List Bytes}
    {edges : List (StateId × Input × Bool)} (h : BuilderAt S E T num b f [] [])
    (hb : b.optionalPrefixes = []) (hs : num start = some s) (ht : num f = some t)
    (hlast : LastEdges num last edges)
    (hin : ∀ x ∈ inputs, S.path start x = f ∧ S.GrowsPath false true start x)
    (hp : DfaBuilder.pushOthers s t inputs edges b = some b') :
    ∃ num', Renumbers num num' ∧
      BuilderAt S (E ∪ S.optionSet start inputs) T num' b' f []
        (last ++ inputs.flatMap fun x => S.pathLast false start x []) ∧
      b'.optionalPrefixes = [] := by
  induction inputs generalizing b num E last edges with
  | nil =>
    cases Option.some.inj hp
    have heq : E ∪ S.optionSet start [] = E := by
      ext x
      simp [Shape.optionSet]
    refine ⟨num, .refl _, ⟨?_, h.state, h.optionalStates, ?_⟩, hb⟩
    · rw [heq]
      exact h.rep
    · simpa using hlast
  | cons x inputs ih =>
    simp only [DfaBuilder.pushOthers, Option.bind_eq_bind] at hp
    split at hp
    · cases hp
    obtain ⟨-, -, hp⟩ := Option.bind_eq_some_iff.mp hp
    obtain ⟨b1, hto, hrest⟩ := Option.bind_eq_some_iff.mp hp
    obtain ⟨hpath, hgrows⟩ := hin x List.mem_cons_self
    have hat0 : BuilderAt S E T num { b with state := s } start [] [] :=
      ⟨h.rep, hs, h.optionalStates, h.lastEdges⟩
    obtain ⟨num1, hren1, hat1, hb1⟩ := hat0.pushTo hb (by rw [hpath]; exact ht) hgrows hto
    rw [hpath] at hat1
    have hat1' : BuilderAt S (E ∪ S.pathSet false start x) T num1 { b1 with lastEdges := [] } f []
        [] := ⟨hat1.rep, hat1.state, hat1.optionalStates, .nil⟩
    obtain ⟨num2, hren2, hat2, hb2⟩ := ih hat1' hb1 (hren1 _ _ hs) (hren1 _ _ ht)
      (List.rel_append (hlast.renumber hren1) hat1.lastEdges)
      (fun y hy => hin y (List.mem_cons_of_mem _ hy)) hrest
    have heq : E ∪ S.optionSet start (x :: inputs) =
        E ∪ S.pathSet false start x ∪ S.optionSet start inputs := by
      ext y
      simp only [Shape.optionSet, Set.mem_union, Set.mem_ofPred_eq, List.mem_cons, exists_eq_or_imp,
        or_assoc]
    rw [heq, List.flatMap_cons, ← List.append_assoc]
    exact ⟨num2, hren1.trans hren2, hat2, hb2⟩

/-- A set of options, the longest of which is pushed first. -/
theorem BuilderAt.pushOptionsCi {inputs : List Bytes} {x : Bytes}
    (h : BuilderAt S E T num b l [] last) (hb : b.optionalPrefixes = [])
    (hx : DfaBuilder.longest inputs = some x) (hg : S.GrowsPath false false l x)
    (hin : ∀ y ∈ inputs.filter (· ≠ x), S.path l y = S.path l x ∧ S.GrowsPath false true l y)
    (hp : b.pushOptionsCi inputs = some b') :
    ∃ num', Renumbers num num' ∧
      BuilderAt S (E ∪ S.optionSet l (x :: inputs.filter (· ≠ x))) T num' b' (S.path l x) []
        (S.pathLast false l x last ++
          (inputs.filter (· ≠ x)).flatMap fun y => S.pathLast false l y []) ∧
      b'.optionalPrefixes = [] := by
  simp only [DfaBuilder.pushOptionsCi, hx, Option.bind_eq_bind, Option.bind_eq_some_iff] at hp
  obtain ⟨b1, hinner, hothers⟩ := hp
  obtain ⟨num1, hren1, hat1, hb1⟩ := h.pushInner hb hg hinner
  have hat1' : BuilderAt S (E ∪ S.pathSet false l x) T num1 { b1 with lastEdges := [] }
      (S.path l x) [] [] := ⟨hat1.rep, hat1.state, hat1.optionalStates, .nil⟩
  obtain ⟨num2, hren2, hat2, hb2⟩ := hat1'.pushOthers hb1 (hren1 _ _ h.state) hat1.state
    hat1.lastEdges hin hothers
  have heq : E ∪ S.optionSet l (x :: inputs.filter (· ≠ x)) =
      E ∪ S.pathSet false l x ∪ S.optionSet l (inputs.filter (· ≠ x)) := by
    ext y
    simp only [Shape.optionSet, Set.mem_union, Set.mem_ofPred_eq, List.mem_cons, exists_eq_or_imp,
      or_assoc]
  rw [heq]
  exact ⟨num2, hren1.trans hren2, hat2, hb2⟩

end Beeper
