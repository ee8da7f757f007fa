import Mathlib.Data.List.Basic

namespace Scan

variable {α σ τ : Type}

/-- Feeds the symbols, which are numbered from `i` on, to `step` until it says that it is done.
Returns the number behind the symbol it was done with. -/
def run (step : Nat → α → σ → σ × Bool) : Nat → List α → σ → Option Nat × σ
  | _, [], s => (none, s)
  | i, a :: as, s =>
    let (s, done) := step i a s
    if done then (some (i + 1), s) else run step (i + 1) as s

variable {step : Nat → α → σ → σ × Bool} {i n : Nat} {as bs : List α} {s : σ}

theorem run_done {a : α} (h : (step i a s).2 = true) :
    run step i (a :: as) s = (some (i + 1), (step i a s).1) := if_pos h

theorem run_next {a : α} (h : (step i a s).2 = false) :
    run step i (a :: as) s = run step (i + 1) as (step i a s).1 :=
  if_neg (by rw [h]; exact Bool.false_ne_true)

/-- A run that is done leaves what follows unread. -/
theorem run_append_done (h : (run step i as s).1 = some n) (bs : List α) :
    run step i (as ++ bs) s = run step i as s := by
  induction as generalizing i s with
  | nil => cases h
  | cons a as ih =>
    rw [List.cons_append]
    cases hd : (step i a s).2 with
    | true => rw [run_done hd, run_done hd]
    | false =>
      rw [run_next hd] at h ⊢
      rw [run_next hd]
      exact ih h

/-- One that is not can be carried on where it stopped. -/
theorem run_append_none (h : (run step i as s).1 = none) (bs : List α) :
    run step i (as ++ bs) s = run step (i + as.length) bs (run step i as s).2 := by
  induction as generalizing i s with
  | nil => rfl
  | cons a as ih =>
    rw [List.cons_append]
    cases hd : (step i a s).2 with
    | true =>
      rw [run_done hd] at h
      cases h
    | false =>
      rw [run_next hd] at h
      rw [run_next hd, run_next hd, ih h, List.length_cons, Nat.add_right_comm, Nat.add_assoc]

/-- A run that is not done goes on behind what it read. -/
theorem run_append {s' : σ} (h : run step i as s = (none, s')) (bs : List α) :
    run step i (as ++ bs) s = run step (i + as.length) bs s' := by
  have hend : (run step i as s).2 = s' := congrArg Prod.snd h
  rw [run_append_none (congrArg Prod.fst h), hend]

theorem run_concat {a : α} {s' s'' : σ} (h : run step i as s = (none, s'))
    (ha : step (i + as.length) a s' = (s'', false)) : run step i (as ++ [a]) s = (none, s'') := by
  rw [run_append h, run_next (by rw [ha]), ha]
  rfl

theorem run_bounds (h : (run step i as s).1 = some n) : i < n ∧ n ≤ i + as.length := by
  induction as generalizing i s with
  | nil => cases h
  | cons a as ih =>
    cases hd : (step i a s).2 with
    | true =>
      rw [run_done hd] at h
      cases h
      simp only [List.length_cons]
      omega
    | false =>
      rw [run_next hd] at h
      have := ih h
      simp only [List.length_cons]
      omega

/-- A run depends on no more than what it read. -/
theorem run_take (h : (run step i as s).1 = some n) :
    run step i (as.take (n - i)) s = run step i as s := by
  have hb := run_bounds h
  cases ht : (run step i (as.take (n - i)) s).1 with
  | some n' =>
    have heq := run_append_done ht (as.drop (n - i))
    rw [List.take_append_drop] at heq
    exact heq.symm
  | none =>
    -- the symbols behind the first `n - i` can only be done later
    have heq := run_append_none ht (as.drop (n - i))
    rw [List.take_append_drop] at heq
    rw [heq] at h
    have hlate := (run_bounds h).1
    rw [List.length_take] at hlate
    omega

/-- What every step keeps that is not done holds of the state a run ends in that is not. -/
theorem run_unfinished {P : σ → Prop}
    (hstep : ∀ i a s, P s → (step i a s).2 = false → P (step i a s).1) (h : P s)
    (hr : (run step i as s).1 = none) : P (run step i as s).2 := by
  induction as generalizing i s with
  | nil => exact h
  | cons a as ih =>
    cases hd : (step i a s).2 with
    | true =>
      rw [run_done hd] at hr
      cases hr
    | false =>
      rw [run_next hd] at hr ⊢
      exact ih (hstep i a s h hd) hr

/-- A run whose states are tied to what was read, and that is done as soon as `P` holds of it, stops
behind the first front that `P` holds of. -/
theorem run_first {R : List α → σ → Prop} {P : List α → Prop} {front : List α}
    (hstep : ∀ i front a s, R front s → ((step i a s).2 = true ↔ P (front ++ [a])) ∧
      (¬P (front ++ [a]) → R (front ++ [a]) (step i a s).1)) (h : R front s) :
    (run step i as s).1 = some n ↔ i < n ∧ n ≤ i + as.length ∧ P (front ++ as.take (n - i)) ∧
      ∀ k, i < k → k < n → ¬P (front ++ as.take (k - i)) := by
  induction as generalizing i s front with
  | nil =>
    simp only [List.length_nil]
    constructor
    · intro hn
      cases hn
    · intro hn
      omega
  | cons a as ih =>
    obtain ⟨hdone, hnext⟩ := hstep i front a s h
    have htake : ∀ k, i + 1 < k →
        front ++ (a :: as).take (k - i) = front ++ [a] ++ as.take (k - (i + 1)) := by
      intro k hk
      have hsucc : k - i = k - (i + 1) + 1 := by omega
      rw [hsucc, List.take_succ_cons, List.append_assoc]
      rfl
    have hone : front ++ (a :: as).take (i + 1 - i) = front ++ [a] := by
      rw [Nat.add_sub_cancel_left]
      rfl
    cases hd : (step i a s).2 with
    | true =>
      rw [run_done hd]
      have hp := hdone.mp hd
      constructor
      · intro hn
        cases hn
        refine ⟨Nat.lt_succ_self i, by simp only [List.length_cons]; omega, by rw [hone]; exact hp,
          fun k hi hk => ?_⟩
        omega
      · rintro ⟨hi, -, -, hmin⟩
        by_contra hne
        have hlt : i + 1 < n := by
          have : i + 1 ≠ n := fun heq => hne (by rw [heq])
          omega
        apply hmin (i + 1) (Nat.lt_succ_self i) hlt
        rw [hone]
        exact hp
    | false =>
      rw [run_next hd]
      have hp : ¬P (front ++ [a]) := fun hp => by
        rw [hdone.mpr hp] at hd
        cases hd
      rw [ih (hnext hp)]
      constructor
      · rintro ⟨hi, hlen, hn, hmin⟩
        refine ⟨by omega, by simp only [List.length_cons]; omega, by rw [htake n hi]; exact hn,
          fun k hik hk => ?_⟩
        by_cases heq : k = i + 1
        · rw [heq, hone]
          exact hp
        · rw [htake k (by omega)]
          exact hmin k (by omega) hk
      · rintro ⟨hi, hlen, hn, hmin⟩
        have hlt : i + 1 < n := by
          have : n ≠ i + 1 := by
            rintro rfl
            rw [hone] at hn
            exact hp hn
          omega
        refine ⟨hlt, by simp only [List.length_cons] at hlen; omega, by rw [← htake n hlt]; exact hn,
          fun k hik hk => ?_⟩
        rw [← htake k hik]
        exact hmin k (by omega) hk

/-- A run whose states are tied to what was read. `D` holds of all symbols once it ends, whether it
is done in front of the last of them or not. -/
theorem run_front {R D : List α → σ → Prop} {front : List α}
    (hstep : ∀ front a s, R front s →
      ((step (i + front.length) a s).2 = false → R (front ++ [a]) (step (i + front.length) a s).1) ∧
      ((step (i + front.length) a s).2 = true →
        ∀ rest, D (front ++ a :: rest) (step (i + front.length) a s).1))
    (hend : ∀ front s, R front s → D front s) (h : R front s) :
    D (front ++ as) (run step (i + front.length) as s).2 := by
  induction as generalizing front s with
  | nil =>
    rw [List.append_nil]
    exact hend front s h
  | cons a as ih =>
    obtain ⟨hnext, hdone⟩ := hstep front a s h
    cases hd : (step (i + front.length) a s).2 with
    | true =>
      rw [run_done hd]
      exact hdone hd as
    | false =>
      have hrun := ih (hnext hd)
      rw [List.append_assoc, List.length_append, List.length_singleton, ← Nat.add_assoc] at hrun
      rw [run_next hd]
      exact hrun

/-- Two runs in step with each other, the second of which has its symbols numbered `k` higher. -/
theorem run_sim {step' : Nat → α → τ → τ × Bool} {R : σ → τ → Prop} {t : τ} (k : Nat)
    (hstep : ∀ i a s t, R s t → R (step i a s).1 (step' (i + k) a t).1 ∧
      (step' (i + k) a t).2 = (step i a s).2) (h : R s t) :
    (run step' (i + k) as t).1 = (run step i as s).1.map (· + k) ∧
      R (run step i as s).2 (run step' (i + k) as t).2 := by
  induction as generalizing i s t with
  | nil => exact ⟨rfl, h⟩
  | cons a as ih =>
    obtain ⟨hr, hdone⟩ := hstep i a s t h
    cases hd : (step i a s).2 with
    | true =>
      rw [run_done hd, run_done (hdone.trans hd)]
      exact ⟨by simp [Nat.add_right_comm], hr⟩
    | false =>
      rw [run_next hd, run_next (hdone.trans hd), Nat.add_right_comm]
      exact ih hr

/-- Two runs in step with each other over symbols that are numbered alike. -/
theorem run_lockstep {step' : Nat → α → τ → τ × Bool} {R : σ → τ → Prop} {t : τ} (i : Nat)
    (as : List α) (hstep : ∀ i a s t, R s t → R (step i a s).1 (step' i a t).1 ∧
      (step' i a t).2 = (step i a s).2) (h : R s t) :
    (run step' i as t).1 = (run step i as s).1 ∧ R (run step i as s).2 (run step' i as t).2 := by
  have hsim : (run step' (i + 0) as t).1 = (run step i as s).1.map (· + 0) ∧ _ := run_sim 0 hstep h
  simpa using hsim

/-- Two runs in step with each other, in terms of the number of the next symbol. -/
theorem run_sim_at {step' : Nat → α → τ → τ × Bool} {R : Nat → σ → τ → Prop} {t : τ} (k : Nat)
    (hstep : ∀ i a s t, R i s t → R (i + 1) (step i a s).1 (step' (i + k) a t).1 ∧
      (step' (i + k) a t).2 = (step i a s).2) (h : R i s t) :
    (run step' (i + k) as t).1 = (run step i as s).1.map (· + k) ∧
      ∃ j ≤ i + as.length, R j (run step i as s).2 (run step' (i + k) as t).2 := by
  induction as generalizing i s t with
  | nil => exact ⟨rfl, i, Nat.le_refl i, h⟩
  | cons a as ih =>
    obtain ⟨hr, hdone⟩ := hstep i a s t h
    have hlen : i + (a :: as).length = i + 1 + as.length := by
      rw [List.length_cons]
      omega
    rw [hlen]
    cases hd : (step i a s).2 with
    | true =>
      rw [run_done hd, run_done (hdone.trans hd)]
      exact ⟨by simp [Nat.add_right_comm], i + 1, Nat.le_add_right _ _, hr⟩
    | false =>
      rw [run_next hd, run_next (hdone.trans hd), Nat.add_right_comm]
      exact ih hr

end Scan
