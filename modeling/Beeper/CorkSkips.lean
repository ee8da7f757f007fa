import Beeper.Cork

namespace Cork

variable {σ α ο : Type*} {turn : σ → List α → Turn σ ο} {same : σ → σ → Prop}

/-- A parser that goes on behind input it refused as if that had not been there, and that looks at
no more of the input it takes than the bytes it takes. -/
structure Skips (turn : σ → List α → Turn σ ο) (same : σ → σ → Prop) (refused : ο → Prop) :
    Prop where
  keeps : ∀ {s m out len s'}, turn s m = .take out len s' → refused out → same s s'
  settled : ∀ {s m out len s'}, turn s m = .take out len s' → ¬refused out → len ≤ m.length →
    ∀ need t, turn s (m.take len) ≠ .wait need t
  fails : ∀ {s m out s'}, turn s m = .fail out s' → ¬refused out

variable {refused : ο → Prop} {rounds len : Nat} {s s' : σ} {m : List α} {out : ο}

/-- Only a stream that something arrived of is taken from. -/
theorem Stable.take_pos (h : Stable turn same) (ht : turn s m = .take out len s') : 0 < m.length := by
  refine List.length_pos_iff.mpr fun hnil => ?_
  obtain ⟨need, t, hw⟩ := h.nil s
  rw [hnil, hw] at ht
  cases ht

/-- Input that is taken is taken in the same way in front of anything else. -/
theorem Stable.take_front (h : Stable turn same) (hk : Skips turn same refused)
    (ht : turn s m = .take out len s') (hout : ¬refused out) {x : List α}
    (hx : m.length < len → x = []) :
    ∃ t, turn s (m.take len ++ x) = .take out len t ∧
      ∀ rounds y, results turn rounds t y = results turn rounds s' y := by
  by_cases hlen : len ≤ m.length
  · cases hf : turn s (m.take len) with
    | wait need t => exact absurd hf (hk.settled ht hout hlen need t)
    | fail out' t =>
      obtain ⟨t', ht'⟩ := h.fail (x := m.drop len) (h.refl s) hf
      rw [List.take_append_drop, ht] at ht'
      cases ht'
    | take out' len' t =>
      obtain ⟨-, t', hs, ht'⟩ := h.take (x := m.drop len) (h.refl s) hf
      rw [List.take_append_drop, ht] at ht'
      cases ht'
      obtain ⟨-, t'', hs', ht''⟩ := h.take (x := x) (h.refl s) hf
      refine ⟨t'', ht'', fun rounds y => ?_⟩
      rw [h.results_same hs', h.results_same hs]
  · rw [hx (Nat.not_le.mp hlen), List.append_nil, List.take_of_length_le (by omega)]
    exact ⟨s', ht, fun _ _ => rfl⟩

/-- The second stream is the first one without the input that is refused. -/
inductive Without (turn : σ → List α → Turn σ ο) (refused : ο → Prop) :
    σ → List α → List α → Prop
  | stop {s : σ} {m : List α} (h : ∀ out len s', turn s m ≠ .take out len s') :
      Without turn refused s m m
  | refused {s s' : σ} {m m' : List α} {out : ο} {len : Nat} (ht : turn s m = .take out len s')
      (hout : refused out) (h : Without turn refused s' (m.drop len) m') :
      Without turn refused s m m'
  | taken {s s' : σ} {m m' : List α} {out : ο} {len : Nat} (ht : turn s m = .take out len s')
      (hout : ¬refused out) (h : Without turn refused s' (m.drop len) m') :
      Without turn refused s m (m.take len ++ m')

theorem Stable.without_nil (h : Stable turn same) {m' : List α}
    (hw : Without turn refused s [] m') : m' = [] := by
  obtain ⟨need, t, hn⟩ := h.nil s
  cases hw with
  | stop _ => rfl
  | refused ht _ _ => cases ht.symm.trans hn
  | taken ht _ _ => cases ht.symm.trans hn

/-- What is refused can be left out of every stream. -/
theorem Stable.without_exists (h : Stable turn same) (refused : ο → Prop) (s : σ) (m : List α) :
    ∃ m', Without turn refused s m m' := by
  induction hm : m.length using Nat.strongRecOn generalizing s m with
  | ind n ih =>
    by_cases hstop : ∀ out len s', turn s m ≠ .take out len s'
    · exact ⟨m, .stop hstop⟩
    push Not at hstop
    obtain ⟨out, len, s', ht⟩ := hstop
    have hlen := (h.take (x := []) (h.refl s) ht).1
    have hpos := h.take_pos ht
    obtain ⟨m', hm'⟩ := ih (m.drop len).length (by rw [List.length_drop]; omega) s' (m.drop len) rfl
    by_cases hout : refused out
    · exact ⟨m', .refused ht hout hm'⟩
    · exact ⟨_, .taken ht hout hm'⟩

/-- Leaving out what is refused leaves the other outcomes as they are. -/
theorem Stable.results_without [DecidablePred refused] (h : Stable turn same)
    (hk : Skips turn same refused) {m' : List α} (hw : Without turn refused s m m') {k : Nat}
    (hr : m.length < rounds) (hrk : m'.length < k) :
    (results turn rounds s m).filter (fun out => ¬refused out) = results turn k s m' := by
  induction hw generalizing rounds k with
  | @stop s m hstop =>
    obtain ⟨r, rfl⟩ : ∃ r, rounds = r + 1 := ⟨rounds - 1, by omega⟩
    obtain ⟨j, rfl⟩ : ∃ j, k = j + 1 := ⟨k - 1, by omega⟩
    cases ht : turn s m with
    | wait need s' => simp only [results, ht, List.filter_nil]
    | take out len s' => exact absurd ht (hstop out len s')
    | fail out s' =>
      have hout := hk.fails ht
      simp only [results, ht]
      exact List.filter_eq_self.mpr fun o ho => by rw [List.mem_singleton.mp ho]; simpa using hout
  | @refused s s' m m' out len ht hout _ ih =>
    obtain ⟨r, rfl⟩ : ∃ r, rounds = r + 1 := ⟨rounds - 1, by omega⟩
    have hlen := (h.take (x := []) (h.refl s) ht).1
    have hpos := h.take_pos ht
    rw [results_take ht, List.filter_cons_of_neg (by simpa using hout),
      ih (by rw [List.length_drop]; omega) hrk]
    exact h.results_same (hk.keeps ht hout)
  | @taken s s' m m' out len ht hout hrest ih =>
    obtain ⟨r, rfl⟩ : ∃ r, rounds = r + 1 := ⟨rounds - 1, by omega⟩
    obtain ⟨j, rfl⟩ : ∃ j, k = j + 1 := ⟨k - 1, by omega⟩
    have hlen := (h.take (x := []) (h.refl s) ht).1
    have hpos := h.take_pos ht
    have hshort : m.length < len → m' = [] := by
      intro hlt
      rw [List.drop_eq_nil_of_le (Nat.le_of_lt hlt)] at hrest
      exact h.without_nil hrest
    obtain ⟨t, ht', hsame⟩ := h.take_front hk ht hout hshort
    have hback : (m.take len ++ m').drop len = m' := by
      by_cases hle : len ≤ m.length
      · exact List.drop_left' (List.length_take_of_le hle)
      · rw [hshort (Nat.not_le.mp hle), List.append_nil]
        refine List.drop_eq_nil_of_le ?_
        rw [List.length_take]
        omega
    have hmk : m'.length < j := by
      rw [List.length_append, List.length_take] at hrk
      omega
    rw [results_take ht, List.filter_cons_of_pos (by simpa using hout),
      ih (k := j) (by rw [List.length_drop]; omega) hmk, results_take ht', hback, hsame]

/-- A parser that passes over what it would fail at, as far as `past` says by how much. -/
def skipping (turn : σ → List α → Turn σ ο) (past : ο → Option Nat) (s : σ) (m : List α) :
    Turn σ ο :=
  match turn s m with
  | .wait need s' => .wait need s'
  | .take out len s' => .take out len s'
  | .fail out s' =>
    match past out with
    | some len => .take out len s'
    | none => .fail out s'

/-- What it takes for the rest of a stream not to depend on what is passed over. -/
structure Passable (turn : σ → List α → Turn σ ο) (same : σ → σ → Prop) (past : ο → Option Nat) :
    Prop where
  equiv : Equivalence same
  keeps : ∀ {s m out len s'}, turn s m = .fail out s' → past out = some len → 0 < len ∧ same s s'
  taken : ∀ {s m out len s'}, turn s m = .take out len s' → past out = none
  settled : ∀ {s m out len s'}, turn s m = .take out len s' → len ≤ m.length →
    ∀ need t, turn s (m.take len) ≠ .wait need t

section Skipping

variable {past : ο → Option Nat} {need : Nat} {t : σ}

theorem skipping_wait : skipping turn past s m = .wait need s' ↔ turn s m = .wait need s' := by
  unfold skipping
  cases turn s m with
  | wait need t => exact Iff.rfl
  | take out len t => simp
  | fail out t =>
    refine ⟨fun h => ?_, fun h => by cases h⟩
    simp only at h
    split at h <;> cases h

theorem skipping_take : skipping turn past s m = .take out len s' ↔
    turn s m = .take out len s' ∨ turn s m = .fail out s' ∧ past out = some len := by
  unfold skipping
  cases turn s m with
  | wait need t => simp
  | take out len t => exact ⟨.inl, fun h => h.resolve_right fun hf => by cases hf.1⟩
  | fail out' t =>
    simp only
    constructor
    · intro h
      split at h
      next k hk =>
        cases h
        exact .inr ⟨rfl, hk⟩
      next => cases h
    · intro h
      rcases h with h | ⟨h, hover⟩
      · cases h
      · cases h
        rw [hover]

theorem skipping_fail : skipping turn past s m = .fail out s' ↔
    turn s m = .fail out s' ∧ past out = none := by
  unfold skipping
  cases turn s m with
  | wait need t => simp
  | take out len t => simp
  | fail out' t =>
    simp only
    constructor
    · intro h
      split at h
      next => cases h
      next hk =>
        cases h
        exact ⟨rfl, hk⟩
    · intro h
      obtain ⟨h, hover⟩ := h
      cases h
      rw [hover]

theorem Stable.skipping (h : Stable turn same) (hp : Passable turn same past) :
    Stable (Cork.skipping turn past) same where
  refl := h.refl
  nil s := by
    obtain ⟨need, s', hw⟩ := h.nil s
    exact ⟨need, s', skipping_wait.mpr hw⟩
  wait hw := h.wait (skipping_wait.mp hw)
  again hs hw hx := by
    obtain ⟨t', ht'⟩ := h.again hs (skipping_wait.mp hw) hx
    exact ⟨t', skipping_wait.mpr ht'⟩
  take {s t m out len s' x} hs ht := by
    rcases skipping_take.mp ht with ht | ⟨hf, hover⟩
    · obtain ⟨hpos, t', hs', ht'⟩ := h.take (x := x) hs ht
      exact ⟨hpos, t', hs', skipping_take.mpr (.inl ht')⟩
    · obtain ⟨hpos, hs'⟩ := hp.keeps hf hover
      obtain ⟨t', ht'⟩ := h.fail (x := x) hs hf
      refine ⟨hpos, t', ?_, skipping_take.mpr (.inr ⟨ht', hover⟩)⟩
      exact hp.equiv.trans (hp.equiv.trans (hp.equiv.symm hs') hs) (hp.keeps ht' hover).2
  fail hs hf := by
    obtain ⟨hf, hover⟩ := skipping_fail.mp hf
    obtain ⟨t', ht'⟩ := h.fail hs hf
    exact ⟨t', skipping_fail.mpr ⟨ht', hover⟩⟩

theorem Passable.skips (hp : Passable turn same past) :
    Skips (Cork.skipping turn past) same fun out => (past out).isSome where
  keeps ht hout := by
    rcases skipping_take.mp ht with ht | ⟨hf, hover⟩
    · rw [hp.taken ht] at hout
      cases hout
    · exact (hp.keeps hf hover).2
  settled ht hout hlen need t hw := by
    rcases skipping_take.mp ht with ht | ⟨-, hover⟩
    · exact hp.settled ht hlen need t (skipping_wait.mp hw)
    · exact hout (by rw [hover]; rfl)
  fails hf hout := by
    rw [(skipping_fail.mp hf).2] at hout
    cases hout

end Skipping

section View

variable {τ ω : Type*} {turn' : τ → List α → Turn τ ω} {same' : τ → τ → Prop} {view : σ → τ}
  {shown : ω → ο}

/-- A turn of the same kind, with other states and outcomes. -/
def Turn.map (f : σ → τ) (g : ο → ω) : Turn σ ο → Turn τ ω
  | .wait need s => .wait need (f s)
  | .take out len s => .take (g out) len (f s)
  | .fail out s => .fail (g out) (f s)

/-- A parser whose turns are those of another one, which sees only part of its state and reports
more than it shows. -/
def Views (turn : σ → List α → Turn σ ο) (turn' : τ → List α → Turn τ ω) (view : σ → τ)
    (shown : ω → ο) : Prop :=
  ∀ s m, (turn s m).map view id = (turn' (view s) m).map id shown

theorem Views.wait (h : Views turn turn' view shown) {need : Nat} (ht : turn s m = .wait need s') :
    turn' (view s) m = .wait need (view s') := by
  have hs := h s m
  rw [ht] at hs
  cases hf : turn' (view s) m with
  | wait need' t =>
    rw [hf] at hs
    cases hs
    rfl
  | take out' len' t =>
    rw [hf] at hs
    cases hs
  | fail out' t =>
    rw [hf] at hs
    cases hs

theorem Views.take (h : Views turn turn' view shown) (ht : turn s m = .take out len s') :
    ∃ o, turn' (view s) m = .take o len (view s') ∧ out = shown o := by
  have hs := h s m
  rw [ht] at hs
  cases hf : turn' (view s) m with
  | wait need' t =>
    rw [hf] at hs
    cases hs
  | take o len' t =>
    rw [hf] at hs
    cases hs
    exact ⟨o, rfl, rfl⟩
  | fail o t =>
    rw [hf] at hs
    cases hs

theorem Views.fail (h : Views turn turn' view shown) (ht : turn s m = .fail out s') :
    ∃ o, turn' (view s) m = .fail o (view s') ∧ out = shown o := by
  have hs := h s m
  rw [ht] at hs
  cases hf : turn' (view s) m with
  | wait need' t =>
    rw [hf] at hs
    cases hs
  | take o len' t =>
    rw [hf] at hs
    cases hs
  | fail o t =>
    rw [hf] at hs
    cases hs
    exact ⟨o, rfl, rfl⟩

theorem Views.of_wait (h : Views turn turn' view shown) {need : Nat} {t : τ}
    (ht : turn' (view s) m = .wait need t) : ∃ s', turn s m = .wait need s' ∧ view s' = t := by
  have hs := h s m
  rw [ht] at hs
  cases hf : turn s m with
  | wait need' s' =>
    rw [hf] at hs
    cases hs
    exact ⟨s', rfl, rfl⟩
  | take out' len' s' =>
    rw [hf] at hs
    cases hs
  | fail out' s' =>
    rw [hf] at hs
    cases hs

theorem Views.of_take (h : Views turn turn' view shown) {o : ω} {t : τ}
    (ht : turn' (view s) m = .take o len t) :
    ∃ s', turn s m = .take (shown o) len s' ∧ view s' = t := by
  have hs := h s m
  rw [ht] at hs
  cases hf : turn s m with
  | wait need' s' =>
    rw [hf] at hs
    cases hs
  | take out' len' s' =>
    rw [hf] at hs
    cases hs
    exact ⟨s', rfl, rfl⟩
  | fail out' s' =>
    rw [hf] at hs
    cases hs

theorem Views.of_fail (h : Views turn turn' view shown) {o : ω} {t : τ}
    (ht : turn' (view s) m = .fail o t) : ∃ s', turn s m = .fail (shown o) s' ∧ view s' = t := by
  have hs := h s m
  rw [ht] at hs
  cases hf : turn s m with
  | wait need' s' =>
    rw [hf] at hs
    cases hs
  | take out' len' s' =>
    rw [hf] at hs
    cases hs
  | fail out' s' =>
    rw [hf] at hs
    cases hs
    exact ⟨s', rfl, rfl⟩

theorem Stable.of_views (h : Stable turn' same') (hv : Views turn turn' view shown) :
    Stable turn fun s t => same' (view s) (view t) where
  refl s := h.refl (view s)
  nil s := by
    obtain ⟨need, t, ht⟩ := h.nil (view s)
    obtain ⟨s', hs', -⟩ := hv.of_wait ht
    exact ⟨need, s', hs'⟩
  wait ht := h.wait (hv.wait ht)
  again hs ht hx := by
    obtain ⟨t', ht'⟩ := h.again hs (hv.wait ht) hx
    obtain ⟨s', hs', -⟩ := hv.of_wait ht'
    exact ⟨s', hs'⟩
  take {s t m out len s' x} hs ht := by
    obtain ⟨o, ho, rfl⟩ := hv.take ht
    obtain ⟨hpos, t', hsame, ht'⟩ := h.take (x := x) hs ho
    obtain ⟨u, hu, rfl⟩ := hv.of_take ht'
    exact ⟨hpos, u, hsame, hu⟩
  fail hs ht := by
    obtain ⟨o, ho, rfl⟩ := hv.fail ht
    obtain ⟨t', ht'⟩ := h.fail hs ho
    obtain ⟨u, hu, -⟩ := hv.of_fail ht'
    exact ⟨u, hu⟩

theorem Skips.of_views {refused' : ω → Prop} (h : Skips turn' same' refused')
    (hv : Views turn turn' view shown) (hr : ∀ o, refused (shown o) ↔ refused' o) :
    Skips turn (fun s t => same' (view s) (view t)) refused where
  keeps ht hout := by
    obtain ⟨o, ho, rfl⟩ := hv.take ht
    exact h.keeps ho ((hr o).mp hout)
  settled ht hout hlen need t hw := by
    obtain ⟨o, ho, rfl⟩ := hv.take ht
    exact h.settled ho (mt (hr o).mpr hout) hlen need (view t) (hv.wait hw)
  fails ht hout := by
    obtain ⟨o, ho, rfl⟩ := hv.fail ht
    exact h.fails ho ((hr o).mp hout)

end View

end Cork
