import Beeper.BuilderTargets
import Mathlib.Data.List.Induction
import Mathlib.Logic.Relation

namespace Beeper

variable {A : Type}

/-- Every state past the reserved ones is the target of an edge. -/
def Dfa.Entered (dfa : Dfa A) (reserved : Nat) : Prop :=
  ∀ t, max reserved 2 ≤ t → t < dfa.numStates → ∃ s i e, dfa.lookup s i = some e ∧ e.target = t

/-- The state a string leads to along the edges of the DFA. -/
def Dfa.walk (dfa : Dfa A) : StateId → Bytes → Option StateId
  | s, [] => some s
  | s, c :: cs => (dfa.lookup s c.toNat).bind fun e => dfa.walk e.target cs

/-- Walks along the edges lead from `s` to `t`. -/
def Dfa.Reaches (dfa : Dfa A) : StateId → StateId → Prop :=
  Relation.ReflTransGen fun s t => ∃ i e, dfa.lookup s i = some e ∧ e.target = t

/-- The strings differ at most in the case of their letters. -/
def SameText (x y : Bytes) : Prop :=
  List.Forall₂ (fun c d => c = d ∨ otherCase c.toNat = some d.toNat) x y

theorem SameText.refl (x : Bytes) : SameText x x := List.forall₂_same.mpr fun _ _ => .inl rfl

theorem SameText.symm {x y : Bytes} (h : SameText x y) : SameText y x :=
  (h.imp fun _ _ hcd => hcd.imp Eq.symm otherCase_symm).flip

theorem SameText.trans {x y z : Bytes} (h : SameText x y) (h' : SameText y z) : SameText x z := by
  induction h generalizing z with
  | nil => exact h'
  | cons hcd _ ih =>
    obtain ⟨e, z, hde, hyz, rfl⟩ := List.forall₂_cons_left_iff.mp h'
    refine .cons ?_ (ih hyz)
    rcases hcd with rfl | hcd
    · exact hde
    · rcases hde with rfl | hde
      · exact .inr hcd
      · exact .inl (UInt8.toNat_inj.mp (Option.some.inj ((otherCase_symm hcd).symm.trans hde)))

/-- The DFA is a forest that grows out of the reserved states: every other state is entered from
one state only, which is older, by one input in either case. -/
structure Dfa.Tree (dfa : Dfa A) (reserved : Nat) : Prop where
  entered : dfa.Entered reserved
  large : max reserved 2 ≤ dfa.numStates
  grows : ∀ (s : Nat) i e, dfa.lookup s i = some e →
    max reserved 2 ≤ e.target ∧ s < e.target ∧ e.target < dfa.numStates
  unique : ∀ s i e s' i' e', dfa.lookup s i = some e → dfa.lookup s' i' = some e' →
    e.target = e'.target → s = s' ∧ (i = i' ∨ otherCase i = some i')

/-- Nothing has to be built in front of the next input. -/
def DfaBuilder.Idle (b : DfaBuilder A) : Prop :=
  (∀ p ∈ b.optionalPrefixes, p.inputs = []) ∧ b.optionalStates = []

/-- The builder has built nothing but a forest so far. -/
structure DfaBuilder.Tidy (b : DfaBuilder A) (reserved : Nat) : Prop where
  tree : b.dfa.Tree reserved
  state_lt : (b.state : Nat) < b.dfa.numStates
  options : ∀ o ∈ b.optionalStates, b.state < o ∧ (o : Nat) < b.dfa.numStates

/-- A state that is not among the first `n` is never entered. -/
def DfaBuilder.Wasted (b : DfaBuilder A) (n : Nat) : Prop :=
  ∃ t, n ≤ t ∧ b.Avoids t ∧ b.state ≠ t

variable {dfa dfa' : Dfa A} {r : Nat} {s t u : Nat}

theorem CaseOf.near {cs : Bool} {i i1 i2 : Nat} (h : CaseOf cs i i1)
    (h' : i = i2 ∨ otherCase i = some i2) : i1 = i2 ∨ otherCase i1 = some i2 := by
  rcases h with rfl | ⟨-, h⟩
  · exact h'
  · rcases h' with rfl | h'
    · exact .inr (otherCase_symm h)
    · exact .inl (Option.some.inj (h.symm.trans h'))

theorem CaseOf.cases {cs : Bool} {i i' : Nat} (h : CaseOf cs i i') :
    i = i' ∨ otherCase i = some i' := by
  rcases h with rfl | ⟨-, h⟩
  · exact .inl rfl
  · exact .inr h

theorem Dfa.Tree.walk_lt (h : dfa.Tree r) {w : Bytes} (hw : dfa.walk s w = some t) :
    s ≤ t ∧ (w ≠ [] → s < t) := by
  induction w generalizing s with
  | nil =>
    cases Option.some.inj hw
    exact ⟨Nat.le_refl _, fun hne => absurd rfl hne⟩
  | cons c w ih =>
    obtain ⟨e, he, hrest⟩ := Option.bind_eq_some_iff.mp hw
    have hlt := (h.grows s _ e he).2.1
    have hle := (ih hrest).1
    exact ⟨by omega, fun _ => by omega⟩

theorem Dfa.Tree.walk_bound (h : dfa.Tree r) (hs : s < dfa.numStates) {w : Bytes}
    (hw : dfa.walk s w = some t) : t < dfa.numStates := by
  induction w generalizing s with
  | nil =>
    cases Option.some.inj hw
    exact hs
  | cons c w ih =>
    obtain ⟨e, he, hrest⟩ := Option.bind_eq_some_iff.mp hw
    exact ih (h.grows s _ e he).2.2 hrest

/-- The edges into the states of a forest lead back to the reserved ones. -/
theorem Dfa.Tree.reached (h : dfa.Tree r) (ht : t < dfa.numStates) :
    ∃ s < max r 2, dfa.Reaches s t := by
  induction t using Nat.strongRecOn with
  | _ t ih =>
    by_cases hr : t < max r 2
    · exact ⟨t, hr, .refl⟩
    · obtain ⟨q, i, e, he, rfl⟩ := h.entered t (Nat.not_lt.mp hr) ht
      have hlt := (h.grows q i e he).2.1
      obtain ⟨s, hs, hreach⟩ := ih q hlt (Nat.lt_trans hlt ht)
      exact ⟨s, hs, hreach.tail ⟨i, e, he, rfl⟩⟩

/-- Whether the DFA is a forest only depends on where its edges lead. -/
theorem Dfa.Tree.retarget (h : dfa.Tree r) (hn : dfa'.numStates = dfa.numStates)
    (hl : ∀ s i, (dfa'.lookup s i).map Edge.target = (dfa.lookup s i).map Edge.target) :
    dfa'.Tree r := by
  have hback : ∀ s i e', dfa'.lookup s i = some e' →
      ∃ e, dfa.lookup s i = some e ∧ e.target = e'.target := by
    intro s i e' he'
    have htarget := hl s i
    rw [he'] at htarget
    exact Option.map_eq_some_iff.mp htarget.symm
  refine ⟨fun t hr ht => ?_, hn ▸ h.large, fun s i e he => ?_,
    fun s i e s' i' e' he he' heq => ?_⟩
  · obtain ⟨s, i, e, he, rfl⟩ := h.entered t hr (hn ▸ ht)
    have htarget := hl s i
    rw [he] at htarget
    obtain ⟨e', he', hsame⟩ := Option.map_eq_some_iff.mp htarget
    exact ⟨s, i, e', he', hsame⟩
  · obtain ⟨e0, he0, htarget⟩ := hback s i e he
    rw [← htarget, hn]
    exact h.grows s i e0 he0
  · obtain ⟨e0, he0, htarget⟩ := hback s i e he
    obtain ⟨e0', he0', htarget'⟩ := hback s' i' e' he'
    exact h.unique _ _ _ _ _ _ he0 he0' (htarget.trans (heq.trans htarget'.symm))

theorem Dfa.walk_append (dfa : Dfa A) (s : StateId) (x y : Bytes) :
    dfa.walk s (x ++ y) = (dfa.walk s x).bind fun q => dfa.walk q y := by
  induction x generalizing s with
  | nil => rfl
  | cons c x ih =>
    rw [List.cons_append, Dfa.walk, Dfa.walk, Option.bind_assoc]
    congr 1
    funext e
    exact ih e.target

/-- Strings of one length that lead to the same state start in the same one. -/
theorem Dfa.Tree.walk_unique (h : dfa.Tree r) {x y : Bytes} (hlen : x.length = y.length)
    (hx : dfa.walk s x = some u) (hy : dfa.walk t y = some u) : s = t ∧ SameText x y := by
  induction x using List.reverseRecOn generalizing y u with
  | nil =>
    cases List.length_eq_zero_iff.mp hlen.symm
    exact ⟨(Option.some.inj hx).trans (Option.some.inj hy).symm, .nil⟩
  | append_singleton x c ih =>
    cases List.eq_nil_or_concat y with
    | inl hnil =>
      subst hnil
      simp at hlen
    | inr hcons =>
      obtain ⟨y, d, rfl⟩ := hcons
      rw [List.concat_eq_append] at hlen hy ⊢
      rw [Dfa.walk_append] at hx hy
      obtain ⟨q, hq, hx⟩ := Option.bind_eq_some_iff.mp hx
      obtain ⟨q', hq', hy⟩ := Option.bind_eq_some_iff.mp hy
      obtain ⟨e, he, hxe⟩ := Option.bind_eq_some_iff.mp hx
      obtain ⟨e', he', hye⟩ := Option.bind_eq_some_iff.mp hy
      have htarget : e.target = e'.target := (Option.some.inj hxe).trans (Option.some.inj hye).symm
      obtain ⟨rfl, hcd⟩ := h.unique _ _ _ _ _ _ he he' htarget
      simp only [List.length_append, List.length_singleton, Nat.add_right_cancel_iff] at hlen
      obtain ⟨hs, hxy⟩ := ih hlen hq hq'
      refine ⟨hs, List.rel_append hxy (.cons ?_ .nil)⟩
      exact hcd.imp_left fun heq => UInt8.toNat_inj.mp heq

/-- Two strings lead from one state to another only if they differ in nothing but case. -/
theorem Dfa.Tree.walk_sameText (h : dfa.Tree r) {x y : Bytes} (hle : x.length ≤ y.length)
    (hx : dfa.walk s x = some u) (hy : dfa.walk s y = some u) : SameText x y := by
  have hsplit := List.take_append_drop (y.length - x.length) y
  rw [← hsplit, Dfa.walk_append] at hy
  obtain ⟨q, hq, hrest⟩ := Option.bind_eq_some_iff.mp hy
  obtain ⟨heq, hsame⟩ := h.walk_unique (y := y.drop (y.length - x.length))
    (by rw [List.length_drop]; omega) hx hrest
  have hnil : y.take (y.length - x.length) = [] := by
    by_contra hne
    have hlt := (h.walk_lt hq).2 hne
    omega
  rw [hnil, List.nil_append] at hsplit
  rw [← hsplit]
  exact hsame

/-- What is behind a state only depends on the edges out of it and out of younger states. -/
theorem Dfa.Tree.walk_above (h : dfa'.Tree r) {w : Bytes}
    (he : ∀ s' i e, s ≤ s' → dfa'.lookup s' i = some e → dfa.lookup s' i = some e)
    (hw : dfa'.walk s w = some t) : dfa.walk s w = some t := by
  induction w generalizing s with
  | nil => exact hw
  | cons c w ih =>
    obtain ⟨e, hl, hrest⟩ := Option.bind_eq_some_iff.mp hw
    have hlt := (h.grows s _ e hl).2.1
    refine Option.bind_eq_some_iff.mpr ⟨e, he _ _ e (Nat.le_refl _) hl, ?_⟩
    exact ih (fun s' i' e' hle => he s' i' e' (Nat.le_trans (Nat.le_of_lt hlt) hle)) hrest

theorem Dfa.Extends.walk (h : dfa.Extends dfa') {w : Bytes} (hw : dfa.walk s w = some t) :
    dfa'.walk s w = some t := by
  induction w generalizing s with
  | nil => exact hw
  | cons c w ih =>
    obtain ⟨e, he, hrest⟩ := Option.bind_eq_some_iff.mp hw
    obtain ⟨e', he', htarget, -⟩ := h.edge s _ e he
    refine Option.bind_eq_some_iff.mpr ⟨e', he', ?_⟩
    rw [htarget]
    exact ih hrest

theorem DfaBuilder.Wasted.mono {b : DfaBuilder A} {n m : Nat} (h : b.Wasted n) (hm : m ≤ n) :
    b.Wasted m := by
  obtain ⟨t, hle, ht⟩ := h
  exact ⟨t, Nat.le_trans hm hle, ht⟩

namespace DfaBuilder

variable [DecidableEq A] {b b' : DfaBuilder A} {i : Input} {cs : Bool} {to? : Option StateId}

/-- An edge that leads to the state that is there, or to a new one, keeps the forest. -/
theorem pushEdgeFrom_grows (h : b.dfa.Tree r) (hs : s < b.dfa.numStates)
    (hp : b.pushEdgeFrom s i none cs = some (u, b')) :
    b'.dfa.Tree r ∧ s < u ∧ u < b'.dfa.numStates ∧ b.dfa.numStates ≤ b'.dfa.numStates := by
  have hpushed := pushEdgeFrom_some hp
  obtain ⟨e0, he0, hu0⟩ := hpushed.edge i (.refl _ _)
  rcases hpushed.alloc with ⟨e, he, rfl, -, hn⟩ | ⟨hnone, hu, hn⟩
  · obtain ⟨hlow, hgt, hlt⟩ := h.grows s i e he
    have hnear : ∀ s' i' e', b'.dfa.lookup s' i' = some e' → e'.target = e.target →
        s' = s ∧ (i = i' ∨ otherCase i = some i') := by
      intro s' i' e' he' htarget
      rcases hpushed.back s' i' e' he' with hold | ⟨-, rfl, hcase, -⟩
      · obtain ⟨heq, hi⟩ := h.unique _ _ _ _ _ _ he hold htarget.symm
        exact ⟨heq.symm, hi⟩
      · exact ⟨rfl, hcase.cases⟩
    refine ⟨⟨fun t hr ht => ?_, by rw [hn]; exact h.large, fun s' i' e' he' => ?_,
      fun s1 i1 e1 s2 i2 e2 h1 h2 heq => ?_⟩, hgt, by rw [hn]; exact hlt, Nat.le_of_eq hn.symm⟩
    · rw [hn] at ht
      obtain ⟨s', i', e', he', rfl⟩ := h.entered t hr ht
      exact ⟨s', i', e', hpushed.forth s' i' e' he', rfl⟩
    · rw [hn]
      rcases hpushed.back s' i' e' he' with hold | ⟨rfl, rfl, -, -⟩
      · exact h.grows s' i' e' hold
      · exact ⟨hlow, hgt, hlt⟩
    · by_cases hu : e1.target = e.target
      · obtain ⟨rfl, hi1⟩ := hnear _ _ _ h1 hu
        obtain ⟨rfl, hi2⟩ := hnear _ _ _ h2 (heq.symm.trans hu)
        have hcase : CaseOf false i i1 := hi1.imp Eq.symm fun ho => ⟨rfl, ho⟩
        exact ⟨rfl, hcase.near hi2⟩
      · have hold : ∀ s' i' e', b'.dfa.lookup s' i' = some e' → e'.target ≠ e.target →
            b.dfa.lookup s' i' = some e' := by
          intro s' i' e' he' hne
          rcases hpushed.back s' i' e' he' with hold | ⟨rfl, -⟩
          · exact hold
          · exact absurd rfl hne
        exact h.unique _ _ _ _ _ _ (hold _ _ _ h1 hu)
          (hold _ _ _ h2 fun hu2 => hu (heq.trans hu2)) heq
  · rw [Option.getD_none] at hu
    have hlarge := h.large
    have hu' : (u : Nat) = b.dfa.numStates := hu
    have hn' : (b'.dfa.numStates : Nat) = b.dfa.numStates + 1 := hn
    have hcases : ∀ s' i' e', b'.dfa.lookup s' i' = some e' →
        b.dfa.lookup s' i' = some e' ∧ e'.target < b.dfa.numStates ∨
          e'.target = b.dfa.numStates ∧ s' = s ∧ CaseOf cs i i' := by
      intro s' i' e' he'
      rcases hpushed.back s' i' e' he' with hold | ⟨rfl, rfl, hcase, -⟩
      · exact .inl ⟨hold, (h.grows s' i' e' hold).2.2⟩
      · exact .inr ⟨hu, rfl, hcase⟩
    refine ⟨⟨fun t hr ht => ?_, by omega, fun s' i' e' he' => ?_,
      fun s1 i1 e1 s2 i2 e2 h1 h2 heq => ?_⟩, by omega, by omega, by omega⟩
    · by_cases hlast : t = b.dfa.numStates
      · exact ⟨s, i, e0, he0, by rw [hu0, hlast, hu]⟩
      · obtain ⟨s', i', e', he', rfl⟩ := h.entered t hr (by omega)
        exact ⟨s', i', e', hpushed.forth s' i' e' he', rfl⟩
    · rcases hcases s' i' e' he' with ⟨hold, -⟩ | ⟨htarget, rfl, -⟩
      · obtain ⟨hlow, hgt, hlt⟩ := h.grows s' i' e' hold
        exact ⟨hlow, hgt, Nat.lt_of_lt_of_le hlt (by omega)⟩
      · rw [htarget, hn]
        exact ⟨hlarge, hs, Nat.lt_succ_self _⟩
    · rcases hcases _ _ _ h1 with ⟨hold1, hlt1⟩ | ⟨ht1, rfl, hc1⟩
      · rcases hcases _ _ _ h2 with ⟨hold2, -⟩ | ⟨ht2, -, -⟩
        · exact h.unique _ _ _ _ _ _ hold1 hold2 heq
        · exact absurd (heq.trans ht2) (Nat.ne_of_lt hlt1)
      · rcases hcases _ _ _ h2 with ⟨-, hlt2⟩ | ⟨-, rfl, hc2⟩
        · exact absurd (heq.symm.trans ht1) (Nat.ne_of_lt hlt2)
        · exact ⟨rfl, hc1.near hc2.cases⟩

/-- An edge to a state that is there costs a state, unless it was there before. -/
theorem pushEdgeFrom_given {x : Nat} (h : b.dfa.Tree r) (hs : s < b.dfa.numStates)
    (hx : x < b.dfa.numStates) (hp : b.pushEdgeFrom s i (some x) cs = some (u, b')) :
    u = x ∧ ((∃ e, b.dfa.lookup s i = some e ∧ e.target = x) ∧ b'.dfa.Tree r ∧
        b'.dfa.numStates = b.dfa.numStates ∨
      b.dfa.lookup s i = none ∧ b'.dfa.Avoids b.dfa.numStates) := by
  have hpushed := pushEdgeFrom_some hp
  rcases hpushed.alloc with ⟨e, he, rfl, hsame, hn⟩ | ⟨hnone, rfl, hn⟩
  · obtain rfl : x = e.target := hsame x rfl
    refine ⟨rfl, .inl ⟨⟨e, he, rfl⟩, ?_, hn⟩⟩
    have hgrow : b.pushEdgeFrom s i none cs = some (e.target, b') := by
      unfold pushEdgeFrom at hp ⊢
      rw [Dfa.nextState_edge he] at hp ⊢
      exact hp
    exact (pushEdgeFrom_grows h hs hgrow).1
  · refine ⟨rfl, .inr ⟨hnone, ⟨by omega, fun s' i' e he => ?_⟩⟩⟩
    rcases hpushed.back s' i' e he with hold | ⟨rfl, -⟩
    · exact Nat.ne_of_lt (h.grows s' i' e hold).2.2
    · exact Nat.ne_of_lt hx

/-- The inputs of a prefix that does not repeat are a branch of the forest. -/
theorem pushPrefixInputs_grows {source : StateId} {p : OptionalPrefix} {inputs : List Input}
    (h : b.dfa.Tree r) (hs : s < b.dfa.numStates) (hr : p.repeats = false)
    (hp : pushPrefixInputs source p inputs s b = some (u, b')) :
    b'.dfa.Tree r ∧ s ≤ u ∧ (inputs ≠ [] → s < u) ∧ u < b'.dfa.numStates ∧
      b.dfa.numStates ≤ b'.dfa.numStates := by
  induction inputs generalizing s b with
  | nil =>
    obtain ⟨rfl, rfl⟩ := Prod.mk.inj (Option.some.inj hp)
    exact ⟨h, Nat.le_refl _, fun hne => absurd rfl hne, hs, Nat.le_refl _⟩
  | cons i inputs ih =>
    cases inputs with
    | nil =>
      simp only [pushPrefixInputs, hr, Bool.false_eq_true, if_false] at hp
      obtain ⟨htree, hlt, hu, hn⟩ := pushEdgeFrom_grows
        (b := { b with lastEdges := b.lastEdges ++ [(s, i, p.caseSensitive)] }) h hs hp
      exact ⟨htree, Nat.le_of_lt hlt, fun _ => hlt, hu, hn⟩
    | cons j inputs =>
      simp only [pushPrefixInputs, Option.bind_eq_bind, Option.bind_eq_some_iff] at hp
      obtain ⟨⟨v, b1⟩, h1, h2⟩ := hp
      obtain ⟨htree, hlt, hv, hn⟩ := pushEdgeFrom_grows h hs h1
      obtain ⟨htree', hle, -, hu, hn'⟩ := ih htree hv h2
      have hsu := Nat.lt_of_lt_of_le hlt hle
      exact ⟨htree', Nat.le_of_lt hsu, fun _ => hsu, hu, Nat.le_trans hn hn'⟩

/-- The edge a prefix loops back with is never there, so that a state is lost for it. -/
theorem pushPrefixInputs_wasted {source : Nat} {p : OptionalPrefix} {inputs : List Input}
    (h : b.dfa.Tree r) (hs : s < b.dfa.numStates) (hle : source ≤ s) (hr : p.repeats = true)
    (hne : inputs ≠ []) (hp : pushPrefixInputs source p inputs s b = some (u, b')) :
    ∃ t, b.dfa.numStates ≤ t ∧ b'.dfa.Avoids t := by
  induction inputs generalizing s b with
  | nil => exact absurd rfl hne
  | cons i inputs ih =>
    cases inputs with
    | nil =>
      simp only [pushPrefixInputs, hr, if_true] at hp
      obtain ⟨-, ⟨⟨e, he, htarget⟩, -⟩ | ⟨-, havoids⟩⟩ := pushEdgeFrom_given
        (b := { b with lastEdges := b.lastEdges ++ [(s, i, p.caseSensitive)] }) h hs
        (Nat.lt_of_le_of_lt hle hs) hp
      · have hgt := (h.grows s i e he).2.1
        rw [htarget] at hgt
        exact absurd hle (Nat.not_le_of_lt hgt)
      · exact ⟨_, Nat.le_refl _, havoids⟩
    | cons j inputs =>
      simp only [pushPrefixInputs, Option.bind_eq_bind, Option.bind_eq_some_iff] at hp
      obtain ⟨⟨v, b1⟩, h1, h2⟩ := hp
      obtain ⟨htree, hlt, hv, hn⟩ := pushEdgeFrom_grows h hs h1
      obtain ⟨t, ht, havoids⟩ := ih htree hv (Nat.le_trans hle (Nat.le_of_lt hlt))
        (List.cons_ne_nil _ _) h2
      exact ⟨t, Nat.le_trans hn ht, havoids⟩

end DfaBuilder

end Beeper
