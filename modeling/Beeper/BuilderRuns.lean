import Beeper.BuilderEdges

namespace Beeper

namespace DfaBuilder

variable {A : Type} [DecidableEq A] {b b' : DfaBuilder A} {r : Nat} {cs : Bool} {bytes : Bytes}

omit [DecidableEq A] in
theorem Idle.fits {i : Input} (h : b.Idle) : b.Fits i none := ⟨h, nofun⟩

theorem pushInner_tidy (hb : b.Tidy r) (hok : bytes = [] ∨ b.Idle)
    (h : pushInner bytes cs b = some b') : b'.Tidy r ∧ (b.Idle → b'.Idle) ∧
      (cs = false → ∀ y, SameText bytes y → b'.dfa.walk b.state y = some b'.state) := by
  induction bytes generalizing b with
  | nil =>
    cases Option.some.inj h
    refine ⟨hb, id, fun _ y hy => ?_⟩
    rw [List.forall₂_nil_left_iff.mp hy]
    rfl
  | cons c bytes ih =>
    simp only [pushInner, Option.bind_eq_bind, Option.bind_eq_some_iff] at h
    obtain ⟨b1, h1, h2⟩ := h
    have hidle : b.Idle := hok.resolve_left (List.cons_ne_nil _ _)
    obtain ⟨htidy, hidle1, -, hedge⟩ := pushEdge_tidy hb (fun _ hx => by cases hx) hidle.fits h1
    obtain ⟨htidy', hidle', hwalk⟩ := ih htidy (.inr hidle1) h2
    refine ⟨htidy', fun _ => hidle' hidle1, fun hcs y hy => ?_⟩
    obtain ⟨d, y, hcd, hrest, rfl⟩ := List.forall₂_cons_left_iff.mp hy
    have hcase : CaseOf cs c.toNat d.toNat :=
      hcd.imp (fun heq => by rw [heq]) fun ho => ⟨hcs, ho⟩
    obtain ⟨e, he, htarget⟩ := hedge _ hcase
    obtain ⟨e', he', htarget', -⟩ := (pushInner_extends h2).edge _ _ e he
    refine Option.bind_eq_some_iff.mpr ⟨e', he', ?_⟩
    rw [htarget', htarget]
    exact hwalk hcs y hrest

theorem pushInner_wasted (hb : b.Tidy r) (hne : bytes ≠ []) (hidle : ¬b.Idle)
    (h : pushInner bytes cs b = some b') : b'.Wasted b.dfa.numStates := by
  cases bytes with
  | nil => exact absurd rfl hne
  | cons c bytes =>
    simp only [pushInner, Option.bind_eq_bind, Option.bind_eq_some_iff] at h
    obtain ⟨b1, h1, h2⟩ := h
    obtain ⟨t, ht, havoids, hstate⟩ := pushEdge_wasted hb (fun _ hx => by cases hx)
      (fun hfits => hidle hfits.1) h1
    obtain ⟨havoids', hstate'⟩ := pushInner_avoids havoids h2
    refine ⟨t, ht, havoids', ?_⟩
    rcases hstate' with ⟨-, rfl⟩ | hstate'
    · exact hstate
    · exact hstate'.1

theorem pushTo_tidy {last : Nat} (hb : b.Tidy r) (hlast : last < b.dfa.numStates)
    (hidle : b.Idle) (hw : b.dfa.walk b.state bytes = some last)
    (h : pushTo last cs bytes b = some b') : b'.Tidy r ∧ b'.Idle ∧ b'.state = last := by
  induction bytes generalizing b with
  | nil =>
    cases Option.some.inj h
    exact ⟨hb, hidle, Option.some.inj hw⟩
  | cons c bytes ih =>
    simp only [pushTo, Option.bind_eq_bind, Option.bind_eq_some_iff] at h
    obtain ⟨b1, h1, h2⟩ := h
    obtain ⟨e, he, hrest⟩ := Option.bind_eq_some_iff.mp hw
    have hn := (pushEdge_extends h1).numStates
    have hto : ∀ x, (if bytes = [] then some last else none) = some x →
        bytes = [] ∧ x = last := by
      intro x hx
      split at hx
      next hnil => exact ⟨hnil, (Option.some.inj hx).symm⟩
      next => cases hx
    have hfits : b.Fits c.toNat (if bytes = [] then some last else none) := by
      refine ⟨hidle, fun x hx => ⟨e, he, ?_⟩⟩
      obtain ⟨rfl, rfl⟩ := hto x hx
      exact Option.some.inj hrest
    obtain ⟨htidy, hidle1, -, hedge⟩ := pushEdge_tidy hb
      (fun x hx => (hto x hx).2 ▸ hlast) hfits h1
    refine ih htidy (Nat.lt_of_lt_of_le hlast hn) hidle1 ?_ h2
    obtain ⟨e1, he1, htarget1⟩ := hedge _ (.refl _ _)
    obtain ⟨e1', he1', htarget1', -⟩ := (pushEdge_extends h1).edge _ _ e he
    cases Option.some.inj (he1.symm.trans he1')
    rw [← htarget1, htarget1']
    exact (pushEdge_extends h1).walk hrest

theorem pushTo_cases {last : Nat} (hb : b.Tidy r) (hlast : last < b.dfa.numStates)
    (hne : bytes ≠ []) (h : pushTo last cs bytes b = some b') :
    b.Idle ∧ b'.dfa.walk b.state bytes = some last ∧ b'.Tidy r ∧ b'.Idle ∨
      b'.Wasted b.dfa.numStates := by
  induction bytes generalizing b with
  | nil => exact absurd rfl hne
  | cons c bytes ih =>
    simp only [pushTo, Option.bind_eq_bind, Option.bind_eq_some_iff] at h
    obtain ⟨b1, h1, h2⟩ := h
    have hn := (pushEdge_extends h1).numStates
    have hto : ∀ x, (if bytes = [] then some last else none) = some x →
        (x : Nat) < b.dfa.numStates := by
      intro x hx
      split at hx
      next =>
        cases Option.some.inj hx
        exact hlast
      next => cases hx
    by_cases hfits : b.Fits c.toNat (if bytes = [] then some last else none)
    · obtain ⟨htidy, hidle1, hstate1, hedge⟩ := pushEdge_tidy hb hto hfits h1
      obtain ⟨e, he, htarget⟩ := hedge _ (.refl _ _)
      obtain ⟨e', he', htarget', -⟩ := (pushTo_extends h2).edge _ _ e he
      by_cases hnil : bytes = []
      · subst hnil
        cases Option.some.inj h2
        refine .inl ⟨hfits.1, Option.bind_eq_some_iff.mpr ⟨e, he, ?_⟩, htidy, hidle1⟩
        rw [htarget, hstate1 last (if_pos rfl)]
        rfl
      · rcases ih htidy (Nat.lt_of_lt_of_le hlast hn) hnil h2 with
          ⟨-, hwalk, htidy', hidle'⟩ | ⟨t, ht, hlost⟩
        · refine .inl ⟨hfits.1, Option.bind_eq_some_iff.mpr ⟨e', he', ?_⟩, htidy', hidle'⟩
          rw [htarget', htarget]
          exact hwalk
        · exact .inr ⟨t, Nat.le_trans hn ht, hlost⟩
    · obtain ⟨t, ht, havoids, hstate⟩ := pushEdge_wasted hb hto hfits h1
      obtain ⟨havoids', hstate'⟩ := pushTo_avoids havoids
        (fun _ => Nat.ne_of_lt (Nat.lt_of_lt_of_le hlast ht)) h2
      refine .inr ⟨t, ht, havoids', ?_⟩
      rcases hstate' with ⟨-, rfl⟩ | hstate'
      · exact hstate
      · exact hstate'.1

/-- The other options lead to where the longest one leads only if they spell the same text. -/
theorem pushOthers_tidy {start last : Nat} {l : Bytes} {inputs : List Bytes}
    {edges : List (StateId × Input × Bool)} (hb : b.Tidy r) (hidle : b.Idle)
    (hstart : start < b.dfa.numStates) (hlast : last < b.dfa.numStates)
    (hl : ∀ y, SameText l y → b.dfa.walk start y = some last)
    (hin : ∀ x ∈ inputs, SameText l x)
    (h : pushOthers start last inputs edges b = some b') : b'.Tidy r ∧ b'.Idle := by
  induction inputs generalizing b edges with
  | nil =>
    cases Option.some.inj h
    exact ⟨⟨hb.tree, hb.state_lt, hb.options⟩, hidle⟩
  | cons x inputs ih =>
    simp only [pushOthers, Option.bind_eq_bind] at h
    split at h
    · cases h
    obtain ⟨-, -, h⟩ := Option.bind_eq_some_iff.mp h
    obtain ⟨b1, h1, h2⟩ := Option.bind_eq_some_iff.mp h
    have hopts : b.optionalStates = [] := hidle.2
    have hb0 : ({ b with state := start } : DfaBuilder A).Tidy r := by
      refine ⟨hb.tree, hstart, fun o ho => ?_⟩
      rw [show o ∈ b.optionalStates ↔ o ∈ [] by rw [hopts]] at ho
      exact absurd ho List.not_mem_nil
    obtain ⟨htidy, hidle1, -⟩ := pushTo_tidy hb0 hlast hidle (hl x (hin x List.mem_cons_self)) h1
    have hext := pushTo_extends h1
    exact ih (b := { b1 with lastEdges := [] }) ⟨htidy.tree, htidy.state_lt, htidy.options⟩ hidle1
      (Nat.lt_of_lt_of_le hstart hext.numStates) (Nat.lt_of_lt_of_le hlast hext.numStates)
      (fun y hy => hext.walk (hl y hy)) (fun y hy => hin y (List.mem_cons_of_mem _ hy)) h2

theorem pushOthers_wasted {start last : Nat} {l : Bytes} {inputs : List Bytes}
    {edges : List (StateId × Input × Bool)} (hb : b.Tidy r) (hidle : b.Idle)
    (hstart : start < b.dfa.numStates) (hlast : last < b.dfa.numStates)
    (hl : b.dfa.walk start l = some last) (hle : ∀ x ∈ inputs, x.length ≤ l.length)
    (hin : ∃ x ∈ inputs, ¬SameText l x)
    (h : pushOthers start last inputs edges b = some b') : b'.Wasted b.dfa.numStates := by
  induction inputs generalizing b edges with
  | nil =>
    obtain ⟨x, hx, -⟩ := hin
    exact absurd hx List.not_mem_nil
  | cons x inputs ih =>
    simp only [pushOthers, Option.bind_eq_bind] at h
    split at h
    · cases h
    next hx =>
    obtain ⟨-, -, h⟩ := Option.bind_eq_some_iff.mp h
    obtain ⟨b1, h1, h2⟩ := Option.bind_eq_some_iff.mp h
    have hopts : b.optionalStates = [] := hidle.2
    have hb0 : ({ b with state := start } : DfaBuilder A).Tidy r := by
      refine ⟨hb.tree, hstart, fun o ho => ?_⟩
      rw [show o ∈ b.optionalStates ↔ o ∈ [] by rw [hopts]] at ho
      exact absurd ho List.not_mem_nil
    have hext := pushTo_extends h1
    have hn := hext.numStates
    rcases pushTo_cases hb0 hlast hx h1 with ⟨-, hwalk, htidy, hidle1⟩ | ⟨t, ht, havoids, hne⟩
    · have hsame : SameText l x :=
        (htidy.tree.walk_sameText (hle x List.mem_cons_self) hwalk (hext.walk hl)).symm
      obtain ⟨y, hy, hnot⟩ := hin
      have hy : y ∈ inputs := by
        rcases List.mem_cons.mp hy with rfl | hy
        · exact absurd hsame hnot
        · exact hy
      obtain ⟨t, ht, hlost⟩ := ih (b := { b1 with lastEdges := [] })
        ⟨htidy.tree, htidy.state_lt, htidy.options⟩ hidle1
        (Nat.lt_of_lt_of_le hstart hn) (Nat.lt_of_lt_of_le hlast hn) (hext.walk hl)
        (fun y hy => hle y (List.mem_cons_of_mem _ hy)) ⟨y, hy, hnot⟩ h2
      exact ⟨t, Nat.le_trans hn ht, hlost⟩
    · obtain ⟨havoids', hstate⟩ := pushOthers_avoids (b := { b1 with lastEdges := [] })
        ⟨havoids.dfa, havoids.options, havoids.loops⟩
        (fun heq => absurd heq (Nat.ne_of_lt (Nat.lt_of_lt_of_le hstart ht)))
        (Nat.ne_of_lt (Nat.lt_of_lt_of_le hlast ht)) h2
      refine ⟨t, ht, havoids', ?_⟩
      rcases hstate with ⟨-, heq⟩ | hstate
      · rw [heq]
        exact hne
      · exact hstate

/-- The options spell one text, or there are none. -/
def PlainOptions (b : DfaBuilder A) (inputs : List Bytes) : Prop :=
  (∀ x ∈ inputs, x = []) ∨ b.Idle ∧ ∀ x ∈ inputs, ∀ y ∈ inputs, SameText x y

theorem pushOptionsCi_tidy {inputs : List Bytes} (hb : b.Tidy r) (hok : b.PlainOptions inputs)
    (h : b.pushOptionsCi inputs = some b') : b'.Tidy r := by
  unfold pushOptionsCi at h
  split at h
  next hn =>
    cases Option.some.inj h
    exact hb
  next l hl =>
    simp only [Option.bind_eq_bind, Option.bind_eq_some_iff] at h
    obtain ⟨b1, h1, h2⟩ := h
    obtain ⟨hmem, hle⟩ := longest_mem hl
    rcases hok with hnil | ⟨hidle, hsame⟩
    · obtain rfl := hnil l hmem
      cases Option.some.inj h1
      have hnone : inputs.filter (· ≠ []) = [] := by
        rw [List.filter_eq_nil_iff]
        intro x hx
        simp [hnil x hx]
      rw [hnone] at h2
      cases Option.some.inj h2
      exact ⟨hb.tree, hb.state_lt, hb.options⟩
    · obtain ⟨htidy, hidle1, hwalk⟩ := pushInner_tidy hb (.inr hidle) h1
      have hn := (pushInner_extends h1).numStates
      exact (pushOthers_tidy (b := { b1 with lastEdges := [] })
        ⟨htidy.tree, htidy.state_lt, htidy.options⟩ (hidle1 hidle)
        (Nat.lt_of_lt_of_le hb.state_lt hn) htidy.state_lt (hwalk rfl)
        (fun x hx => hsame l hmem x (List.mem_of_mem_filter hx)) h2).1

theorem pushOptionsCi_wasted {inputs : List Bytes} (hb : b.Tidy r) (hnot : ¬b.PlainOptions inputs)
    (h : b.pushOptionsCi inputs = some b') : b'.Wasted b.dfa.numStates := by
  unfold pushOptionsCi at h
  split at h
  next hn =>
    refine absurd (.inl fun x hx => ?_) hnot
    rw [longest_none hn] at hx
    exact absurd hx List.not_mem_nil
  next l hl =>
    simp only [Option.bind_eq_bind, Option.bind_eq_some_iff] at h
    obtain ⟨b1, h1, h2⟩ := h
    obtain ⟨hmem, hle⟩ := longest_mem hl
    have hlne : l ≠ [] := by
      rintro rfl
      exact hnot (.inl fun x hx => List.length_eq_zero_iff.mp (Nat.le_zero.mp (hle x hx)))
    have hn := (pushInner_extends h1).numStates
    by_cases hidle : b.Idle
    · obtain ⟨htidy, hidle1, hwalk⟩ := pushInner_tidy hb (.inr hidle) h1
      have hdiff : ∃ x ∈ inputs.filter (· ≠ l), ¬SameText l x := by
        by_contra hall
        push Not at hall
        have hsame : ∀ x ∈ inputs, SameText l x := by
          intro x hx
          by_cases heq : x = l
          · rw [heq]
            exact .refl l
          · exact hall x (List.mem_filter.mpr ⟨hx, by simpa using heq⟩)
        exact hnot (.inr ⟨hidle, fun x hx y hy => (hsame x hx).symm.trans (hsame y hy)⟩)
      obtain ⟨t, ht, hlost⟩ := pushOthers_wasted (b := { b1 with lastEdges := [] })
        ⟨htidy.tree, htidy.state_lt, htidy.options⟩ (hidle1 hidle)
        (Nat.lt_of_lt_of_le hb.state_lt hn) htidy.state_lt (hwalk rfl l (.refl l))
        (fun x hx => hle x (List.mem_of_mem_filter hx)) hdiff h2
      exact ⟨t, Nat.le_trans hn ht, hlost⟩
    · obtain ⟨t, ht, havoids, hne⟩ := pushInner_wasted hb hlne hidle h1
      obtain ⟨havoids', hstate⟩ := pushOthers_avoids (b := { b1 with lastEdges := [] })
        ⟨havoids.dfa, havoids.options, havoids.loops⟩
        (fun heq => absurd heq (Nat.ne_of_lt (Nat.lt_of_lt_of_le hb.state_lt ht))) hne h2
      refine ⟨t, ht, havoids', ?_⟩
      rcases hstate with ⟨-, heq⟩ | hstate
      · rw [heq]
        exact hne
      · exact hstate

omit [DecidableEq A] in
theorem Tidy.pushed (hb : b.Tidy r) (htree : b'.dfa.Tree r) (h : b.EdgePushed b') : b'.Tidy r := by
  have hn := h.ext.numStates
  refine ⟨htree, ?_, fun o ho => ?_⟩
  · rw [h.state]
    exact Nat.lt_of_lt_of_le hb.state_lt hn
  · rw [h.optionalStates] at ho
    rw [h.state]
    exact ⟨(hb.options o ho).1, Nat.lt_of_lt_of_le (hb.options o ho).2 hn⟩

theorem restartStates_tidy {s t : Nat} {last : StateId} (hb : b.Tidy r) (hs : s < b.dfa.numStates)
    (hw : b.dfa.walk s bytes = some t) (h : restartStates bytes s b = some (last, b')) :
    last = t ∧ b'.Tidy r ∧ b'.state = b.state ∧ (b'.Idle ↔ b.Idle) := by
  induction bytes generalizing s b with
  | nil =>
    obtain ⟨rfl, rfl⟩ := Prod.mk.inj (Option.some.inj h)
    exact ⟨Option.some.inj hw, hb, rfl, Iff.rfl⟩
  | cons c bytes ih =>
    simp only [restartStates, Option.bind_eq_bind, Option.bind_eq_some_iff] at h
    obtain ⟨⟨next, d⟩, hnext, ⟨u, b1⟩, h1, h2⟩ := h
    obtain ⟨e, he, hrest⟩ := Option.bind_eq_some_iff.mp hw
    rw [Dfa.nextState_edge he] at hnext
    obtain ⟨rfl, rfl⟩ := Prod.mk.inj (Option.some.inj hnext)
    have hlt := (hb.tree.grows s _ e he).2.2
    have hpushed := pushEdgeFrom_pushed h1
    have hn := hpushed.ext.numStates
    obtain ⟨-, ⟨-, htree, -⟩ | ⟨hnone, -⟩⟩ := pushEdgeFrom_given hb.tree hs hlt h1
    · obtain ⟨hlast, htidy, hstate, hidle⟩ := ih (hb.pushed htree hpushed) (Nat.lt_of_lt_of_le hlt hn)
        (hpushed.ext.walk hrest) h2
      refine ⟨hlast, htidy, hstate.trans hpushed.state, hidle.trans ?_⟩
      unfold Idle
      rw [hpushed.optionalPrefixes, hpushed.optionalStates]
    · cases hnone.symm.trans he

/-- A path that is not there yet takes two states for its first new edge. -/
theorem restartStates_wasted {s : Nat} {last : StateId} (hb : b.Tidy r)
    (hs : s < b.dfa.numStates) (hw : b.dfa.walk s bytes = none)
    (h : restartStates bytes s b = some (last, b')) :
    ∃ t, b.dfa.numStates ≤ t ∧ b'.Avoids t ∧ last ≠ t ∧ b'.state ≠ t := by
  induction bytes generalizing s b with
  | nil => cases hw
  | cons c bytes ih =>
    simp only [restartStates, Option.bind_eq_bind, Option.bind_eq_some_iff] at h
    obtain ⟨⟨next, d⟩, hnext, ⟨u, b1⟩, h1, h2⟩ := h
    have hpushed := pushEdgeFrom_pushed h1
    have hsome := pushEdgeFrom_some h1
    cases he : b.dfa.lookup s c.toNat with
    | some e =>
      rw [Dfa.nextState_edge he] at hnext
      obtain ⟨rfl, rfl⟩ := Prod.mk.inj (Option.some.inj hnext)
      obtain ⟨-, hgt, hlt⟩ := hb.tree.grows s _ e he
      have hn := hpushed.ext.numStates
      obtain ⟨-, ⟨-, htree, -⟩ | ⟨hnone, -⟩⟩ := pushEdgeFrom_given hb.tree hs hlt h1
      · have hrest : b1.dfa.walk e.target bytes = none := by
          by_contra hsome'
          obtain ⟨t, ht⟩ := Option.ne_none_iff_exists'.mp hsome'
          have hback : b.dfa.walk e.target bytes = some t := by
            refine htree.walk_above (fun s' i' e' hle hl => ?_) ht
            rcases hsome.back s' i' e' hl with hold | ⟨-, rfl, -⟩
            · exact hold
            · exact absurd hgt (Nat.not_lt_of_le hle)
          rw [Dfa.walk, he] at hw
          cases hw.symm.trans hback
        obtain ⟨t, ht, hlost⟩ := ih (hb.pushed htree hpushed) (Nat.lt_of_lt_of_le hlt hn) hrest h2
        exact ⟨t, Nat.le_trans hn ht, hlost⟩
      · cases hnone.symm.trans he
    | none =>
      rcases Dfa.nextState_some hnext with ⟨e, hl, -, -⟩ | ⟨-, rfl, hl, hnum⟩
      · cases he.symm.trans hl
      obtain rfl := pushEdgeFrom_target h1
      have hb1 : b1.Avoids (b.dfa.numStates + 1) := by
        refine ⟨⟨?_, fun s' i' e' he' => ?_⟩, fun ho => ?_, fun heq => ?_⟩
        · rcases hsome.alloc with ⟨e', he', -⟩ | ⟨-, -, hn⟩
          · rw [hl] at he'
            cases he.symm.trans he'
          · have hn' : (b1.dfa.numStates : Nat) = d.numStates + 1 := hn
            omega
        · rcases hsome.back s' i' e' he' with hold | ⟨rfl, -⟩
          · rw [hl] at hold
            exact Nat.ne_of_lt (Nat.lt_succ_of_lt (hb.tree.grows s' i' e' hold).2.2)
          · exact Nat.ne_of_lt (Nat.lt_succ_self _)
        · rw [hpushed.optionalStates] at ho
          exact absurd (hb.options _ ho).2 (Nat.not_lt_of_le (Nat.le_succ _))
        · rw [hpushed.state] at heq
          exact absurd hb.state_lt (heq ▸ Nat.not_lt_of_le (Nat.le_succ _))
      obtain ⟨havoids, hlast, hstate⟩ := restartStates_avoids hb1
        (Nat.ne_of_lt (Nat.lt_succ_self _)) h2
      refine ⟨_, Nat.le_succ _, havoids, hlast, ?_⟩
      rw [hstate, hpushed.state]
      exact Nat.ne_of_lt (Nat.lt_succ_of_lt hb.state_lt)

/-- The string is built from the state it restarts in, along edges that are there. -/
def PlainRestart (b : DfaBuilder A) (bytes : Bytes) : Prop :=
  bytes = [] ∨ b.Idle ∧ b.state = anyState ∧ (b.dfa.walk anyState bytes).isSome = true

omit [DecidableEq A] in
theorem Tidy.anyState_lt (hb : b.Tidy r) : (anyState : Nat) < b.dfa.numStates :=
  Nat.lt_of_lt_of_le (Nat.lt_of_lt_of_le Nat.one_lt_two (Nat.le_max_right r 2)) hb.tree.large

theorem restartWith_tidy (hb : b.Tidy r) (hok : b.PlainRestart bytes)
    (h : b.restartWith bytes = some b') : b'.Tidy r := by
  simp only [restartWith, Option.bind_eq_bind, Option.bind_eq_some_iff] at h
  obtain ⟨⟨last, b1⟩, h1, h2⟩ := h
  rcases hok with rfl | ⟨hidle, hstate, hsome⟩
  · obtain ⟨rfl, rfl⟩ := Prod.mk.inj (Option.some.inj h1)
    cases Option.some.inj h2
    exact hb
  · obtain ⟨t, ht⟩ := Option.isSome_iff_exists.mp hsome
    obtain ⟨rfl, htidy, hstate1, hidle1⟩ := restartStates_tidy hb hb.anyState_lt ht h1
    have hwalk := (restartStates_extends h1).walk ht
    have hlast := htidy.tree.walk_bound htidy.anyState_lt hwalk
    rw [← hstate, ← hstate1] at hwalk
    exact (pushTo_tidy htidy hlast (hidle1.mpr hidle) hwalk h2).1

theorem restartWith_wasted (hb : b.Tidy r) (hnot : ¬b.PlainRestart bytes)
    (h : b.restartWith bytes = some b') : b'.Wasted b.dfa.numStates := by
  simp only [restartWith, Option.bind_eq_bind, Option.bind_eq_some_iff] at h
  obtain ⟨⟨last, b1⟩, h1, h2⟩ := h
  have hne : bytes ≠ [] := fun hnil => hnot (.inl hnil)
  have hn := (restartStates_extends h1).numStates
  cases hw : b.dfa.walk anyState bytes with
  | some t =>
    obtain ⟨rfl, htidy, hstate1, hidle1⟩ := restartStates_tidy hb hb.anyState_lt hw h1
    have hwalk := (restartStates_extends h1).walk hw
    have hlast := htidy.tree.walk_bound htidy.anyState_lt hwalk
    rcases pushTo_cases htidy hlast hne h2 with ⟨hidle, hwalk', htidy', -⟩ | ⟨t, ht, hlost⟩
    · have hsame := (htidy'.tree.walk_unique rfl hwalk' ((pushTo_extends h2).walk hwalk)).1
      exact absurd (.inr ⟨hidle1.mp hidle, hstate1.symm.trans hsame, by rw [hw]; rfl⟩) hnot
    · exact ⟨t, Nat.le_trans hn ht, hlost⟩
  | none =>
    obtain ⟨t, ht, havoids, hlast, hstate⟩ := restartStates_wasted hb hb.anyState_lt hw h1
    obtain ⟨havoids', hstate'⟩ := pushTo_avoids havoids (fun _ => hlast) h2
    refine ⟨t, ht, havoids', ?_⟩
    rcases hstate' with ⟨-, rfl⟩ | hstate'
    · exact hstate
    · exact hstate'.1

theorem pushAnys_tidy {n : Nat} (hb : b.Tidy r) (hok : n = 0 ∨ b.Idle)
    (h : pushAnys n b = some b') : b'.Tidy r := by
  induction n generalizing b with
  | zero =>
    cases Option.some.inj h
    exact hb
  | succ n ih =>
    simp only [pushAnys, Option.bind_eq_bind, Option.bind_eq_some_iff] at h
    obtain ⟨b1, h1, h2⟩ := h
    have hidle : b.Idle := hok.resolve_left (Nat.succ_ne_zero n)
    obtain ⟨htidy, hidle1, -⟩ := pushEdge_tidy hb (fun _ hx => by cases hx) hidle.fits h1
    exact ih htidy (.inr hidle1) h2

theorem pushAnys_wasted {n : Nat} (hb : b.Tidy r) (hn : n ≠ 0) (hidle : ¬b.Idle)
    (h : pushAnys n b = some b') : b'.Wasted b.dfa.numStates := by
  cases n with
  | zero => exact absurd rfl hn
  | succ n =>
    simp only [pushAnys, Option.bind_eq_bind, Option.bind_eq_some_iff] at h
    obtain ⟨b1, h1, h2⟩ := h
    obtain ⟨t, ht, havoids, hstate⟩ := pushEdge_wasted hb (fun _ hx => by cases hx)
      (fun hfits => hidle hfits.1) h1
    obtain ⟨havoids', hstate'⟩ := pushAnys_avoids havoids h2
    refine ⟨t, ht, havoids', ?_⟩
    rcases hstate' with ⟨-, rfl⟩ | hstate'
    · exact hstate
    · exact hstate'.1

/-- Any bytes are counted, and they do not loop. -/
def PlainAny (b : DfaBuilder A) (minLen : Nat) (maxLen : Option Nat) : Prop :=
  maxLen ≠ none ∧ (minLen = 0 ∨ b.Idle)

theorem pushAny_tidy {minLen : Nat} {maxLen : Option Nat} (hb : b.Tidy r)
    (hok : b.PlainAny minLen maxLen) (h : b.pushAny minLen maxLen = some b') : b'.Tidy r := by
  unfold pushAny at h
  simp only [Option.bind_eq_bind] at h
  split at h
  · cases h
  obtain ⟨-, -, h⟩ := Option.bind_eq_some_iff.mp h
  obtain ⟨b1, h1, h2⟩ := Option.bind_eq_some_iff.mp h
  have htidy := pushAnys_tidy hb hok.2 h1
  cases maxLen with
  | none => exact absurd rfl hok.1
  | some maxLen =>
    cases Option.some.inj h2
    exact ⟨htidy.tree, htidy.state_lt, htidy.options⟩

theorem pushAny_wasted {minLen : Nat} {maxLen : Option Nat} (hb : b.Tidy r)
    (hnot : ¬b.PlainAny minLen maxLen) (h : b.pushAny minLen maxLen = some b') :
    b'.Wasted b.dfa.numStates := by
  unfold pushAny at h
  simp only [Option.bind_eq_bind] at h
  split at h
  · cases h
  obtain ⟨-, -, h⟩ := Option.bind_eq_some_iff.mp h
  obtain ⟨b1, h1, h2⟩ := Option.bind_eq_some_iff.mp h
  by_cases hok : minLen = 0 ∨ b.Idle
  · have htidy := pushAnys_tidy hb hok h1
    have hn := (pushAnys_extends h1).numStates
    cases maxLen with
    | some maxLen => exact absurd ⟨nofun, hok⟩ hnot
    | none =>
      obtain ⟨⟨u, b2⟩, hloop, heq⟩ := Option.bind_eq_some_iff.mp h2
      cases Option.some.inj heq
      have hpushed := pushEdgeFrom_pushed hloop
      obtain ⟨-, ⟨⟨e, he, htarget⟩, -⟩ | ⟨-, havoids⟩⟩ := pushEdgeFrom_given
        (by exact htidy.tree) (by exact htidy.state_lt) (by exact htidy.state_lt) hloop
      · have hgt := (htidy.tree.grows _ _ e he).2.1
        rw [htarget] at hgt
        exact absurd hgt (Nat.lt_irrefl _)
      · have hne : b2.state ≠ b1.dfa.numStates := by
          rw [hpushed.state]
          exact Nat.ne_of_lt htidy.state_lt
        refine ⟨b1.dfa.numStates, hn, ⟨havoids, fun ho => ?_, fun heq => absurd heq hne⟩, hne⟩
        rw [show b2.optionalStates = b1.optionalStates from hpushed.optionalStates] at ho
        exact absurd (htidy.options _ ho).2 (Nat.lt_irrefl _)
  · push Not at hok
    obtain ⟨t, ht, havoids, hne⟩ := pushAnys_wasted hb hok.1 hok.2 h1
    cases maxLen with
    | some maxLen =>
      cases Option.some.inj h2
      exact ⟨t, ht, ⟨havoids.dfa, havoids.options, fun heq => absurd heq hne⟩, hne⟩
    | none =>
      obtain ⟨⟨u, b2⟩, hloop, heq⟩ := Option.bind_eq_some_iff.mp h2
      cases Option.some.inj heq
      have hpushed := pushEdgeFrom_pushed hloop
      obtain ⟨havoids', -⟩ := pushEdgeFrom_avoids (by exact havoids.dfa)
        (fun heq => hne (Option.some.inj heq)) hloop
      have hne' : b2.state ≠ t := fun heq => hne (hpushed.state.symm.trans heq)
      refine ⟨t, ht, ⟨havoids', fun ho => ?_, fun heq => absurd heq hne'⟩, hne'⟩
      rw [show b2.optionalStates = b1.optionalStates from hpushed.optionalStates] at ho
      exact havoids.options ho

theorem withAction_tidy {action : A} (hb : b.Tidy r)
    (hok : ∀ p ∈ b.optionalPrefixes, p.repeats = true → p.inputs = [])
    (h : b.withAction action = some b') : b'.Tidy r := by
  simp only [withAction, Option.bind_eq_bind, Option.bind_eq_some_iff] at h
  obtain ⟨b1, h1, d, h2, heq⟩ := h
  cases Option.some.inj heq
  obtain ⟨htidy, -⟩ := pushOptionalPrefixes_tidy hb hok h1
  obtain ⟨hn, hl⟩ := addActions_targets h2
  exact ⟨htidy.tree.retarget hn hl, hn ▸ htidy.state_lt, fun o ho =>
    ⟨(htidy.options o ho).1, hn ▸ (htidy.options o ho).2⟩⟩

theorem withAction_wasted {action : A} (hb : b.Tidy r)
    (hnot : ∃ p ∈ b.optionalPrefixes, p.repeats = true ∧ p.inputs ≠ [])
    (h : b.withAction action = some b') : b'.Wasted b.dfa.numStates := by
  simp only [withAction, Option.bind_eq_bind, Option.bind_eq_some_iff] at h
  obtain ⟨b1, h1, d, h2, heq⟩ := h
  cases Option.some.inj heq
  obtain ⟨t, ht, havoids, hne⟩ := pushOptionalPrefixes_wasted hb hnot h1
  exact ⟨t, ht, ⟨addActions_avoids havoids.dfa h2, havoids.options, havoids.loops⟩, hne⟩

/-- A call of one of the operations of the builder. -/
inductive Op (A : Type)
  | push (input : Bytes)
  | pushBytes (input : Bytes)
  | pushCi (input : Bytes)
  | pushAny (minLen : Nat) (maxLen : Option Nat)
  | pushOptionsCi (inputs : List Bytes)
  | pushOptional (input : Bytes) (repeats : Bool)
  | restartWith (input : Bytes)
  | withAction (action : A)

/-- What the call comes to, if it does not panic. -/
def Op.run (b : DfaBuilder A) : Op A → Option (DfaBuilder A)
  | .push input => b.push input
  | .pushBytes input => b.push input
  | .pushCi input => b.pushCi input
  | .pushAny minLen maxLen => b.pushAny minLen maxLen
  | .pushOptionsCi inputs => b.pushOptionsCi inputs
  | .pushOptional input repeats => some (b.pushOptional input repeats)
  | .restartWith input => b.restartWith input
  | .withAction action => b.withAction action

/-- The call takes no edge to a state that is there, unless the edge is there as well. -/
def Op.Plain (b : DfaBuilder A) : Op A → Prop
  | .push input => input = [] ∨ b.Idle
  | .pushBytes input => input = [] ∨ b.Idle
  | .pushCi input => input = [] ∨ b.Idle
  | .pushAny minLen maxLen => b.PlainAny minLen maxLen
  | .pushOptionsCi inputs => b.PlainOptions inputs
  | .pushOptional _ _ => True
  | .restartWith input => b.PlainRestart input
  | .withAction _ => ∀ p ∈ b.optionalPrefixes, p.repeats = true → p.inputs = []

theorem Op.run_extends {op : Op A} (h : op.run b = some b') : b.dfa.Extends b'.dfa := by
  cases op with
  | push input => exact pushInner_extends h
  | pushBytes input => exact pushInner_extends h
  | pushCi input => exact pushInner_extends h
  | pushAny minLen maxLen => exact pushAny_extends h
  | pushOptionsCi inputs => exact pushOptionsCi_extends h
  | pushOptional input repeats =>
    cases Option.some.inj h
    exact .refl _
  | restartWith input => exact restartWith_extends h
  | withAction action => exact withAction_extends h

theorem Op.run_tidy {op : Op A} (hb : b.Tidy r) (hplain : op.Plain b)
    (h : op.run b = some b') : b'.Tidy r := by
  cases op with
  | push input => exact (pushInner_tidy hb hplain h).1
  | pushBytes input => exact (pushInner_tidy hb hplain h).1
  | pushCi input => exact (pushInner_tidy hb hplain h).1
  | pushAny minLen maxLen => exact pushAny_tidy hb hplain h
  | pushOptionsCi inputs => exact pushOptionsCi_tidy hb hplain h
  | pushOptional input repeats =>
    cases Option.some.inj h
    exact ⟨hb.tree, hb.state_lt, hb.options⟩
  | restartWith input => exact restartWith_tidy hb hplain h
  | withAction action => exact withAction_tidy hb hplain h

theorem Op.run_wasted {op : Op A} (hb : b.Tidy r) (hplain : ¬op.Plain b)
    (h : op.run b = some b') : b'.Wasted b.dfa.numStates := by
  have hpush : ∀ {cs input}, ¬(input = [] ∨ b.Idle) → pushInner input cs b = some b' →
      b'.Wasted b.dfa.numStates := fun hnot h =>
    pushInner_wasted hb (fun hnil => hnot (.inl hnil)) (fun hidle => hnot (.inr hidle)) h
  cases op with
  | push input => exact hpush hplain h
  | pushBytes input => exact hpush hplain h
  | pushCi input => exact hpush hplain h
  | pushAny minLen maxLen => exact pushAny_wasted hb hplain h
  | pushOptionsCi inputs => exact pushOptionsCi_wasted hb hplain h
  | pushOptional input repeats => exact absurd trivial hplain
  | restartWith input => exact restartWith_wasted hb hplain h
  | withAction action =>
    refine withAction_wasted hb ?_ h
    by_contra hall
    push Not at hall
    exact hplain hall

/-- A state that was lost stays lost. -/
theorem Op.run_avoids {op : Op A} {t : Nat} (hb : b.Avoids t) (hs : b.state ≠ t)
    (ht : t ≠ anyState) (h : op.run b = some b') : b'.Avoids t ∧ b'.state ≠ t := by
  have hpush : ∀ {cs input}, pushInner input cs b = some b' → b'.Avoids t ∧ b'.state ≠ t := by
    intro cs input h
    obtain ⟨havoids, hstate⟩ := pushInner_avoids hb h
    refine ⟨havoids, ?_⟩
    rcases hstate with ⟨-, rfl⟩ | hstate
    · exact hs
    · exact hstate.1
  cases op with
  | push input => exact hpush h
  | pushBytes input => exact hpush h
  | pushCi input => exact hpush h
  | pushAny minLen maxLen =>
    obtain ⟨havoids, hstate⟩ := pushAny_avoids hb (fun _ _ => hs) h
    exact ⟨havoids, hstate.elim (fun hz => hz.2 ▸ hs) id⟩
  | pushOptionsCi inputs =>
    obtain ⟨havoids, hstate⟩ := pushOptionsCi_avoids hb h
    exact ⟨havoids, hstate.elim (fun hz => hz.2 ▸ hs) id⟩
  | pushOptional input repeats =>
    cases Option.some.inj h
    exact ⟨pushOptional_avoids hb fun heq => absurd heq hs, hs⟩
  | restartWith input =>
    obtain ⟨havoids, hstate⟩ := restartWith_avoids hb ht h
    exact ⟨havoids, hstate hs⟩
  | withAction action =>
    obtain ⟨havoids, hstate⟩ := withAction_avoids hb h
    exact ⟨havoids, hstate ▸ hs⟩

end DfaBuilder

variable {A : Type} [DecidableEq A]

/-- A run of the builder: patterns that start at reserved states, or at states that an earlier
builder has been at, and the calls that were made for them. -/
inductive PatternRun (reserved : Nat) : List (DfaBuilder A × DfaBuilder.Op A) → DfaBuilder A → Prop
  | start (s : Nat) (hs : s < max reserved 2) :
      PatternRun reserved [] ((Dfa.withReservedStates reserved).startPattern s)
  | call {steps b b'} (op : DfaBuilder.Op A) (hrun : PatternRun reserved steps b)
      (h : op.run b = some b') : PatternRun reserved (steps ++ [(b, op)]) b'
  | pattern {steps b} (s : Nat) (hrun : PatternRun reserved steps b)
      (hs : s < max reserved 2 ∨ s = b.state ∨ ∃ x ∈ steps, s = x.1.state) :
      PatternRun reserved steps (b.dfa.startPattern s)

variable {reserved : Nat} {steps : List (DfaBuilder A × DfaBuilder.Op A)} {b : DfaBuilder A}

omit [DecidableEq A] in
theorem Dfa.Tree.init (reserved : Nat) : (Dfa.withReservedStates reserved : Dfa A).Tree reserved := by
  refine ⟨fun t hr ht => absurd ht (Nat.not_lt_of_le hr), Nat.le_refl _, fun s i e he => ?_,
    fun s i e s' i' e' he => ?_⟩
  · rw [Dfa.withReservedStates, Dfa.lookup_empty] at he
    cases he
  · rw [Dfa.withReservedStates, Dfa.lookup_empty] at he
    cases he

/-- A run builds a forest as long as its calls are plain. The first call that is not loses a state
for good. -/
theorem PatternRun.cases (h : PatternRun reserved steps b) :
    (∀ x ∈ steps, x.2.Plain x.1) ∧ b.Tidy reserved ∧
        (∀ x ∈ steps, (x.1.state : Nat) < b.dfa.numStates) ∨
      (∃ x ∈ steps, ¬x.2.Plain x.1) ∧ ∃ t, max reserved 2 ≤ t ∧ b.Avoids t ∧ b.state ≠ t ∧
        ∀ x ∈ steps, x.1.state ≠ t := by
  induction h with
  | start s hs =>
    refine .inl ⟨fun x hx => absurd hx List.not_mem_nil,
      ⟨.init reserved, hs, fun o ho => absurd ho List.not_mem_nil⟩,
      fun x hx => absurd hx List.not_mem_nil⟩
  | @call steps b b' op hrun hstep ih =>
    rcases ih with ⟨hplain, htidy, hlt⟩ | ⟨⟨x, hx, hnot⟩, t, ht, havoids, hne, hsteps⟩
    · by_cases hop : op.Plain b
      · refine .inl ⟨fun x hx => ?_, DfaBuilder.Op.run_tidy htidy hop hstep, fun x hx => ?_⟩
        · rcases List.mem_append.mp hx with hx | hx
          · exact hplain x hx
          · rw [List.mem_singleton.mp hx]
            exact hop
        · refine Nat.lt_of_lt_of_le ?_ (DfaBuilder.Op.run_extends hstep).numStates
          rcases List.mem_append.mp hx with hx | hx
          · exact hlt x hx
          · rw [List.mem_singleton.mp hx]
            exact htidy.state_lt
      · obtain ⟨t, ht, havoids, hne⟩ := DfaBuilder.Op.run_wasted htidy hop hstep
        refine .inr ⟨⟨_, List.mem_append_right _ (List.mem_singleton.mpr rfl), hop⟩, t,
          Nat.le_trans htidy.tree.large ht, havoids, hne, fun x hx => ?_⟩
        refine Nat.ne_of_lt (Nat.lt_of_lt_of_le ?_ ht)
        rcases List.mem_append.mp hx with hx | hx
        · exact hlt x hx
        · rw [List.mem_singleton.mp hx]
          exact htidy.state_lt
    · have hany : t ≠ anyState := Nat.ne_of_gt
        (Nat.lt_of_lt_of_le Nat.one_lt_two (Nat.le_trans (Nat.le_max_right _ _) ht))
      obtain ⟨havoids', hne'⟩ := DfaBuilder.Op.run_avoids havoids hne hany hstep
      refine .inr ⟨⟨x, List.mem_append_left _ hx, hnot⟩, t, ht, havoids', hne', fun y hy => ?_⟩
      rcases List.mem_append.mp hy with hy | hy
      · exact hsteps y hy
      · rw [List.mem_singleton.mp hy]
        exact hne
  | @pattern steps b s hrun hs ih =>
    rcases ih with ⟨hplain, htidy, hlt⟩ | ⟨hnot, t, ht, havoids, hne, hsteps⟩
    · refine .inl ⟨hplain, ⟨htidy.tree, ?_, fun o ho => absurd ho List.not_mem_nil⟩, hlt⟩
      rcases hs with hs | rfl | ⟨x, hx, rfl⟩
      · exact Nat.lt_of_lt_of_le hs htidy.tree.large
      · exact htidy.state_lt
      · exact hlt x hx
    · have hst : s ≠ t := by
        rcases hs with hs | rfl | ⟨x, hx, rfl⟩
        · exact Nat.ne_of_lt (Nat.lt_of_lt_of_le hs ht)
        · exact hne
        · exact hsteps x hx
      exact .inr ⟨hnot, t, ht,
        ⟨havoids.dfa, List.not_mem_nil, fun heq => absurd heq hst⟩, hst, hsteps⟩

omit [DecidableEq A] in
theorem Dfa.Avoids.not_entered {dfa : Dfa A} {t : Nat} (h : dfa.Avoids t)
    (ht : max reserved 2 ≤ t) : ¬dfa.Entered reserved := by
  intro hentered
  obtain ⟨s, i, e, he, heq⟩ := hentered t ht h.lt
  exact h.target s i e he heq

/-- No state is wasted in a run whose calls are all plain, and in no other. Walks out of the
reserved states enter all of them then. -/
theorem PatternRun.entered_iff (h : PatternRun reserved steps b) :
    (b.dfa.Entered reserved ↔ ∀ x ∈ steps, x.2.Plain x.1) ∧
      (b.dfa.Entered reserved → ∀ t < b.dfa.numStates, ∃ s < max reserved 2, b.dfa.Reaches s t) := by
  rcases h.cases with ⟨hplain, htidy, -⟩ | ⟨⟨x, hx, hnot⟩, t, ht, havoids, -⟩
  · exact ⟨iff_of_true htidy.tree.entered hplain, fun _ t ht => htidy.tree.reached ht⟩
  · have hentered := havoids.dfa.not_entered ht
    exact ⟨iff_of_false hentered fun hall => hnot (hall x hx), fun h => absurd h hentered⟩

theorem PatternRun.entered_push : ∃ b : DfaBuilder Nat,
    (DfaBuilder.Op.push [0x61]).run (Dfa.new.startPattern initState) = some b ∧
      b.dfa.Entered 2 := by
  have hplain : DfaBuilder.Op.Plain ((Dfa.new : Dfa Nat).startPattern initState) (.push [0x61]) :=
    .inr ⟨fun p hp => absurd hp List.not_mem_nil, rfl⟩
  have hrun := PatternRun.call (.push [0x61])
    (show PatternRun 2 [] ((Dfa.new : Dfa Nat).startPattern initState) from
      .start initState (by decide)) rfl
  refine ⟨_, rfl, (PatternRun.entered_iff hrun).1.mpr fun x hx => ?_⟩
  rw [List.mem_singleton.mp hx]
  exact hplain

/-- A loop that any byte takes loses a state. -/
theorem PatternRun.loop_notEntered : ∃ (steps : List (DfaBuilder Nat × DfaBuilder.Op Nat))
    (b : DfaBuilder Nat), PatternRun 2 steps b ∧ ¬b.dfa.Entered 2 := by
  have hstart : PatternRun 2 [] ((Dfa.withReservedStates 2 : Dfa Nat).startPattern initState) :=
    .start initState (by decide)
  have hplain : ¬DfaBuilder.Op.Plain ((Dfa.withReservedStates 2 : Dfa Nat).startPattern initState)
      (.pushAny 1 none) := fun h => h.1 rfl
  refine ⟨_, _, .call (.pushAny 1 none) hstart rfl, fun hentered => ?_⟩
  rcases (PatternRun.call (.pushAny 1 none) hstart rfl).cases with
    ⟨hall, -⟩ | ⟨-, t, ht, havoids, -⟩
  · exact hplain (hall _ (List.mem_singleton.mpr rfl))
  · exact havoids.dfa.not_entered ht hentered

end Beeper
