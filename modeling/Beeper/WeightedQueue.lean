import Mathlib.Algebra.GroupWithZero.Nat
import Mathlib.Data.List.Basic
import Mathlib.Data.List.Infix
import Mathlib.Algebra.BigOperators.Group.List.Basic

universe u

namespace WeightedQueue

variable {α : Type u}

/-- The weight of a whole list of items. -/
def total (weight : α → Nat) (items : List α) : Nat := (items.map weight).sum

/-- Drops the oldest items until the others leave `room` below `cap`. -/
def trim (weight : α → Nat) (room cap : Nat) : List α → List α
  | [] => []
  | x :: xs => if total weight (x :: xs) + room ≤ cap then x :: xs else trim weight room cap xs

variable {weight : α → Nat} {room cap : Nat}

@[simp] theorem total_nil : total weight [] = 0 := rfl

@[simp] theorem total_cons (x : α) (xs : List α) :
    total weight (x :: xs) = weight x + total weight xs := by
  simp [total]

@[simp] theorem total_append (xs ys : List α) :
    total weight (xs ++ ys) = total weight xs + total weight ys := by
  simp [total]

theorem trim_suffix (xs : List α) : trim weight room cap xs <:+ xs := by
  induction xs with
  | nil => exact List.suffix_refl _
  | cons x xs ih =>
    unfold trim
    split
    next => exact List.suffix_refl _
    next => exact ih.trans (List.suffix_cons x xs)

theorem trim_eq_self {xs : List α} (h : total weight xs + room ≤ cap) :
    trim weight room cap xs = xs := by
  cases xs with
  | nil => rfl
  | cons x xs => rw [trim, if_pos h]

theorem trim_cons_heavy {x : α} {xs : List α} (h : cap < total weight (x :: xs) + room) :
    trim weight room cap (x :: xs) = trim weight room cap xs := by
  rw [trim, if_neg (Nat.not_le.mpr h)]

/-- Trimming ends below the bound, or with nothing left to drop. -/
theorem trim_total (weight : α → Nat) (room cap : Nat) (xs : List α) :
    trim weight room cap xs = [] ∨ total weight (trim weight room cap xs) + room ≤ cap := by
  induction xs with
  | nil => exact Or.inl rfl
  | cons x xs ih =>
    unfold trim
    split
    next h => exact Or.inr h
    next => exact ih

theorem trim_total_le (weight : α → Nat) (xs : List α) (h : room ≤ cap) :
    total weight (trim weight room cap xs) + room ≤ cap := by
  rcases trim_total weight room cap xs with he | hb
  · simpa [he] using h
  · exact hb

/-- An item that is heavier than the whole queue may be empties it. -/
theorem trim_eq_nil (weight : α → Nat) (xs : List α) (h : cap < room) : trim weight room cap xs = [] := by
  rcases trim_total weight room cap xs with he | hb
  · exact he
  · omega

end WeightedQueue

/-- A first-in first-out queue whose items weigh no more than `cap` together. The oldest
item comes first. -/
structure WeightedQueue {α : Type u} (weight : α → Nat) where
  items : List α
  cap : Nat
  total_le : WeightedQueue.total weight items ≤ cap

namespace WeightedQueue

variable {α : Type u} {weight : α → Nat}

def new (weight : α → Nat) (cap : Nat) : WeightedQueue weight := ⟨[], cap, Nat.zero_le cap⟩

/-- Appends an item, after the oldest ones made room for it. One that finds no room in the
empty queue is left out. -/
def push (q : WeightedQueue weight) (x : α) : WeightedQueue weight :=
  if h : weight x ≤ q.cap then
    ⟨trim weight (weight x) q.cap q.items ++ [x], q.cap, by simpa using trim_total_le weight _ h⟩
  else ⟨[], q.cap, Nat.zero_le _⟩

/-- Changes the capacity, which drops the oldest items the new one has no room for. -/
def resize (q : WeightedQueue weight) (cap : Nat) : WeightedQueue weight :=
  ⟨trim weight 0 cap q.items, cap, trim_total_le weight _ (Nat.zero_le cap)⟩

/-- The item that was pushed `n` items before the last one. -/
def recent (q : WeightedQueue weight) (n : Nat) : Option α :=
  if n < q.items.length then q.items[q.items.length - 1 - n]? else none

@[simp] theorem push_cap (q : WeightedQueue weight) (x : α) : (q.push x).cap = q.cap := by
  unfold push
  split <;> rfl

@[simp] theorem resize_cap (q : WeightedQueue weight) (cap : Nat) : (q.resize cap).cap = cap := rfl

theorem push_items (q : WeightedQueue weight) (x : α) : (q.push x).items =
    if weight x ≤ q.cap then trim weight (weight x) q.cap q.items ++ [x] else [] := by
  unfold push
  split <;> rfl

@[simp] theorem resize_items (q : WeightedQueue weight) (cap : Nat) :
    (q.resize cap).items = trim weight 0 cap q.items := rfl

end WeightedQueue
