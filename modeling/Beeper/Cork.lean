import Mathlib.Data.List.Basic

namespace Cork

variable {σ α ο : Type*}

/-- What an incremental parser does with the front of a stream: it waits until `need` bytes of it
are there, takes `len` bytes, which need not have arrived yet, or fails for good. -/
inductive Turn (σ ο : Type*)
  | wait (need : Nat) (s : σ)
  | take (out : ο) (len : Nat) (s : σ)
  | fail (out : ο) (s : σ)

/-- The outcomes over a stream that is there as a whole, in at most `rounds` turns. -/
def results (turn : σ → List α → Turn σ ο) : Nat → σ → List α → List ο
  | 0, _, _ => []
  | rounds + 1, s, m =>
    match turn s m with
    | .wait _ _ => []
    | .take out len s => out :: results turn rounds s (m.drop len)
    | .fail out _ => [out]

/-- A caller that feeds a stream to the parser as it arrives. It holds back what is `pending`
until `need` bytes are, and passes the next `skip` bytes over. -/
structure Feeder (σ α : Type*) where
  state : σ
  pending : List α
  skip : Nat
  need : Nat
  dead : Bool

def Feeder.start (s : σ) : Feeder σ α := ⟨s, [], 0, 0, false⟩

def Feeder.arrive (f : Feeder σ α) (chunk : List α) : Feeder σ α :=
  { f with pending := f.pending ++ chunk.drop f.skip, skip := f.skip - chunk.length }

/-- Parses as much of what is pending as there is enough of, in at most `rounds` turns. -/
def drain (turn : σ → List α → Turn σ ο) : Nat → Feeder σ α → List ο × Feeder σ α
  | 0, f => ([], f)
  | rounds + 1, f =>
    if f.dead ∨ f.pending.length < f.need then ([], f)
    else match turn f.state f.pending with
    | .wait need s => ([], { f with state := s, need := need })
    | .take out len s =>
      let (outs, f) := drain turn rounds
        ⟨s, f.pending.drop len, f.skip + (len - f.pending.length), 0, false⟩
      (out :: outs, f)
    | .fail out s => ([out], { f with state := s, dead := true })

/-- Feeds one chunk. -/
def feed (turn : σ → List α → Turn σ ο) (f : Feeder σ α) (chunk : List α) :
    List ο × Feeder σ α :=
  drain turn ((f.arrive chunk).pending.length + 1) (f.arrive chunk)

def feedAll (turn : σ → List α → Turn σ ο) : Feeder σ α → List (List α) → List ο
  | _, [] => []
  | f, chunk :: chunks => (feed turn f chunk).1 ++ feedAll turn (feed turn f chunk).2 chunks

/-- A parser whose turns do not depend on how much of the stream arrived. States that are the
`same` lead to the same turns. -/
structure Stable (turn : σ → List α → Turn σ ο) (same : σ → σ → Prop) : Prop where
  refl : ∀ s, same s s
  nil : ∀ s, ∃ need s', turn s [] = .wait need s'
  wait : ∀ {s m need s'}, turn s m = .wait need s' → m.length < need ∧ same s s'
  again : ∀ {s t m need s' x}, same s t → turn s m = .wait need s' → (m ++ x).length < need →
    ∃ t', turn t (m ++ x) = .wait need t'
  take : ∀ {s t m out len s' x}, same s t → turn s m = .take out len s' →
    0 < len ∧ ∃ t', same s' t' ∧ turn t (m ++ x) = .take out len t'
  fail : ∀ {s t m out s' x}, same s t → turn s m = .fail out s' →
    ∃ t', turn t (m ++ x) = .fail out t'

variable {turn : σ → List α → Turn σ ο} {same : σ → σ → Prop}

theorem results_take {rounds : Nat} {s s' : σ} {m : List α} {out : ο} {len : Nat}
    (h : turn s m = .take out len s') :
    results turn (rounds + 1) s m = out :: results turn rounds s' (m.drop len) := by
  simp only [results, h]

theorem Stable.results_same (h : Stable turn same) {rounds : Nat} {s t : σ} {m : List α}
    (hs : same s t) : results turn rounds t m = results turn rounds s m := by
  induction rounds generalizing s t m with
  | zero => rfl
  | succ rounds ih =>
    simp only [results]
    cases ht : turn s m with
    | wait need s' =>
      obtain ⟨t', ht'⟩ := h.again (x := []) hs ht (by simpa using (h.wait ht).1)
      rw [List.append_nil] at ht'
      rw [ht']
    | take out len s' =>
      obtain ⟨-, t', hs', ht'⟩ := h.take (x := []) hs ht
      rw [List.append_nil] at ht'
      rw [ht']
      simp only [ih hs']
    | fail out s' =>
      obtain ⟨t', ht'⟩ := h.fail (x := []) hs ht
      rw [List.append_nil] at ht'
      rw [ht']

/-- A turn takes at least one byte, so more rounds than bytes make no difference. -/
theorem Stable.results_rounds (h : Stable turn same) {n k : Nat} {s : σ} {m : List α}
    (hn : m.length < n) (hk : m.length < k) : results turn n s m = results turn k s m := by
  induction n generalizing k s m with
  | zero => omega
  | succ n ih =>
    obtain ⟨k, rfl⟩ : ∃ j, k = j + 1 := ⟨k - 1, by omega⟩
    simp only [results]
    cases ht : turn s m with
    | wait need s' => rfl
    | fail out s' => rfl
    | take out len s' =>
      cases m with
      | nil =>
        obtain ⟨need, s'', hw⟩ := h.nil s
        rw [hw] at ht
        cases ht
      | cons c m =>
        have hlen := (h.take (x := []) (h.refl s) ht).1
        have hd : ((c :: m).drop len).length < (c :: m).length := by
          rw [List.length_drop, List.length_cons]
          omega
        simp only [ih (k := k) (s := s') (show ((c :: m).drop len).length < n by omega) (by omega)]

/-- The outcomes that are still to come once `y` arrives behind what is pending. -/
def rest (turn : σ → List α → Turn σ ο) (f : Feeder σ α) (y : List α) : List ο :=
  if f.dead then []
  else results turn ((f.pending ++ y.drop f.skip).length + 1) f.state (f.pending ++ y.drop f.skip)

/-- Nothing can be parsed of what is pending. -/
def Settled (turn : σ → List α → Turn σ ο) (f : Feeder σ α) : Prop :=
  f.dead = true ∨ ∃ need s, turn f.state f.pending = .wait need s ∧ f.need ≤ need

/-- Only a caller that passes bytes over has nothing pending. -/
def Aligned (f : Feeder σ α) : Prop := 0 < f.skip → f.pending = []

theorem rest_arrive (f : Feeder σ α) (chunk y : List α) :
    rest turn (f.arrive chunk) y = rest turn f (chunk ++ y) := by
  unfold rest Feeder.arrive
  simp only [List.drop_append, List.append_assoc]

theorem rest_nil {f : Feeder σ α} (hf : Settled turn f) : rest turn f [] = [] := by
  unfold rest
  obtain hd | ⟨need, s, hw, -⟩ := hf
  · rw [if_pos hd]
  · split
    · rfl
    · simp only [List.drop_nil, List.append_nil, results, hw]

/-- Draining moves outcomes to the front of what is still to come, and loses none. -/
theorem Stable.drain_rest (h : Stable turn same) {rounds : Nat} {f : Feeder σ α}
    (hr : f.pending.length < rounds) (ha : Aligned f)
    (hf : f.pending.length < f.need → Settled turn f) :
    (∀ y, rest turn f y = (drain turn rounds f).1 ++ rest turn (drain turn rounds f).2 y) ∧
      Settled turn (drain turn rounds f).2 ∧ Aligned (drain turn rounds f).2 := by
  induction rounds generalizing f with
  | zero => omega
  | succ rounds ih =>
    simp only [drain]
    by_cases hstop : f.dead = true ∨ f.pending.length < f.need
    · rw [if_pos hstop]
      exact ⟨fun y => rfl, hstop.elim .inl hf, ha⟩
    · rw [if_neg hstop]
      have hdead : ¬f.dead = true := fun hd => hstop (.inl hd)
      cases ht : turn f.state f.pending with
      | wait need s =>
        obtain ⟨hlt, hs⟩ := h.wait ht
        obtain ⟨s', hw⟩ := h.again (x := []) hs ht (by simpa using hlt)
        rw [List.append_nil] at hw
        refine ⟨fun y => ?_, .inr ⟨need, s', hw, Nat.le_refl _⟩, ha⟩
        simp only [rest, if_neg hdead, List.nil_append, h.results_same hs]
      | fail out s =>
        refine ⟨fun y => ?_, .inl rfl, ha⟩
        obtain ⟨t', ht'⟩ := h.fail (x := y.drop f.skip) (h.refl _) ht
        simp [rest, hdead, results, ht']
      | take out len s =>
        have hlen := (h.take (x := []) (h.refl _) ht).1
        have hpos : 0 < f.pending.length := by
          refine Nat.pos_of_ne_zero fun hz => ?_
          obtain ⟨need, s', hw⟩ := h.nil f.state
          rw [List.length_eq_zero_iff.mp hz, hw] at ht
          cases ht
        have hskip : f.skip = 0 := by
          refine Nat.eq_zero_of_not_pos fun hs => ?_
          rw [ha hs] at hpos
          exact absurd hpos (Nat.lt_irrefl 0)
        have hnext := ih (f := ⟨s, f.pending.drop len, f.skip + (len - f.pending.length), 0, false⟩)
          (by simp only [List.length_drop]; omega)
          (fun hs => List.drop_eq_nil_of_le (by simp only [hskip] at hs; omega))
          (fun hlt => absurd hlt (Nat.not_lt_zero _))
        refine ⟨fun y => ?_, hnext.2⟩
        obtain ⟨-, t', hs', ht'⟩ := h.take (x := y) (h.refl _) ht
        have hdrop : f.pending.drop len ++ y.drop (len - f.pending.length) =
            (f.pending ++ y).drop len := List.drop_append.symm
        have hshort : ((f.pending ++ y).drop len).length < (f.pending ++ y).length := by
          simp only [List.length_drop, List.length_append]
          omega
        rw [List.cons_append, ← hnext.1 y, rest, if_neg hdead, hskip, List.drop_zero,
          results_take ht', h.results_same hs', rest, if_neg Bool.false_ne_true, Nat.zero_add, hdrop,
          h.results_rounds (Nat.lt_succ_self _) hshort]

theorem Stable.settled_arrive (h : Stable turn same) {f : Feeder σ α} (hf : Settled turn f)
    (chunk : List α) (hlt : (f.arrive chunk).pending.length < (f.arrive chunk).need) :
    Settled turn (f.arrive chunk) := by
  obtain hd | ⟨need, s, hw, hle⟩ := hf
  · exact .inl hd
  · obtain ⟨s', hw'⟩ := h.again (h.refl _) hw (Nat.lt_of_lt_of_le hlt hle)
    exact .inr ⟨need, s', hw', hle⟩

theorem aligned_arrive {f : Feeder σ α} (ha : Aligned f) (chunk : List α) :
    Aligned (f.arrive chunk) := by
  intro hs
  simp only [Feeder.arrive] at hs ⊢
  rw [ha (by omega), List.drop_eq_nil_of_le (by omega), List.append_nil]

theorem Stable.feedAll_eq_rest (h : Stable turn same) {f : Feeder σ α} (chunks : List (List α))
    (hf : Settled turn f) (ha : Aligned f) :
    feedAll turn f chunks = rest turn f chunks.flatten := by
  induction chunks generalizing f with
  | nil => exact (rest_nil hf).symm
  | cons chunk chunks ih =>
    obtain ⟨hrest, hset, hal⟩ := h.drain_rest (f := f.arrive chunk) (Nat.lt_succ_self _)
      (aligned_arrive ha chunk) (h.settled_arrive hf chunk)
    rw [List.flatten_cons, ← rest_arrive, hrest]
    simp only [feedAll, feed, ih hset hal]

/-- However a stream is cut into chunks, it comes to the outcomes of the stream as a whole. -/
theorem Stable.feedAll_eq (h : Stable turn same) (s : σ) (chunks : List (List α)) :
    feedAll turn (.start s) chunks = results turn (chunks.flatten.length + 1) s chunks.flatten := by
  obtain ⟨need, s', hw⟩ := h.nil s
  rw [h.feedAll_eq_rest chunks (.inr ⟨need, s', hw, Nat.zero_le _⟩) fun hs => absurd hs (Nat.lt_irrefl 0)]
  simp [rest, Feeder.start]

end Cork
