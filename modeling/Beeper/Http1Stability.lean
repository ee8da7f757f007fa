import Beeper.Http1Layout

namespace Beeper.Http1

theorem length_le_length (bytes : Bytes) : bytes.length ≤ bytes.length := Nat.le_refl _

/-- A message all of which is linear, as pulling it in finds it. -/
def wholeMsg (bytes : Bytes) (conn : Ip4Conn) : SkMsg :=
  ⟨bytes, bytes.length, conn, true, length_le_length bytes⟩

/-- A step of the DFA without what it captures. -/
def stateStep (rd : Rodata) (_ : Nat) (c : UInt8) (s : StateId) : StateId × Bool :=
  let t := rd.follow s c.toNat
  (t.1, decide ((rd.action t.2).flags &&& fDone ≠ 0))

/-- The number of bytes the DFA takes until it is done with a header block, however long. -/
def headerEnd (rd : Rodata) (bytes : Bytes) : Option Nat :=
  (Scan.run (stateStep rd) 0 bytes sInit).1

variable {rd : Rodata} {bytes : Bytes} {pres : HttpParseRes} {conn : Ip4Conn}

theorem walk_headerEnd (rd : Rodata) (bytes : Bytes) (pres : HttpParseRes) :
    (walk rd 0 bytes (.start pres)).1 = headerEnd rd bytes := by
  have hsim : walk rd 0 bytes (.start pres) = Scan.run (parseByte rd) 0 bytes (.start pres) := rfl
  rw [hsim]
  apply And.left
  apply Scan.run_lockstep (R := fun s w => w.s = s)
  · intro i a s w hw
    subst hw
    exact ⟨rfl, rfl⟩
  · rfl

theorem headerEnd_append {n : Nat} (h : headerEnd rd bytes = some n) (x : Bytes) :
    headerEnd rd (bytes ++ x) = some n := by
  unfold headerEnd at h ⊢
  rw [Scan.run_append_done h]
  exact h

/-- It ends behind the bytes it does not end with. -/
theorem headerEnd_late {x : Bytes} {n : Nat} (h : headerEnd rd bytes = none)
    (hx : headerEnd rd (bytes ++ x) = some n) : bytes.length < n := by
  unfold headerEnd at h hx
  rw [Scan.run_append_none h, Nat.zero_add] at hx
  exact (Scan.run_bounds hx).1

theorem headerEnd_le {n : Nat} (h : headerEnd rd bytes = some n) : n ≤ bytes.length := by
  have := (Scan.run_bounds h).2
  omega

theorem headerEnd_take {n k : Nat} (h : headerEnd rd bytes = some n) (hk : n ≤ k) :
    headerEnd rd (bytes.take k) = some n := by
  cases ht : headerEnd rd (bytes.take k) with
  | some n' =>
    have happ := headerEnd_append ht (bytes.drop k)
    rw [List.take_append_drop, h] at happ
    exact happ.symm
  | none =>
    have hx : headerEnd rd (bytes.take k ++ bytes.drop k) = some n := by
      rwa [List.take_append_drop]
    have hlt := headerEnd_late ht hx
    have hle := headerEnd_le h
    rw [List.length_take] at hlt
    omega

/-- What `parse_msg` makes of a message that is linear as a whole. -/
theorem parseMsg_whole (rd : Rodata) (bytes : Bytes) (conn : Ip4Conn) (pres : HttpParseRes) :
    (parseMsg rd (wholeMsg bytes conn) pres).ret =
        walkRet (headerEnd rd (bytes.take (reach (wholeMsg bytes conn)))) bytes.length ∧
      (parseMsg rd (wholeMsg bytes conn) pres).pres =
        (walk rd 0 (bytes.take (reach (wholeMsg bytes conn))) (.start pres)).2.pres := by
  have h := @parseMsg_eq (wholeMsg bytes conn) rd pres rfl
  rw [walk_headerEnd] at h
  exact h

/-- A header block that ends in front of the limit is found, and so is one that ends right behind
it, as long as the message goes on. -/
theorem parseMsg_whole_ok_iff {n : Nat} : (parseMsg rd (wholeMsg bytes conn) pres).ret = .ok n ↔
    headerEnd rd bytes = some n ∧ n ≤ maxBytes + 1 := by
  rw [(parseMsg_whole rd bytes conn pres).1]
  have hreach : bytes.length ≤ reach (wholeMsg bytes conn) ∨
      reach (wholeMsg bytes conn) = maxBytes + 1 := by
    unfold reach wholeMsg
    simp only
    split <;> [skip; split] <;> omega
  have hle : reach (wholeMsg bytes conn) ≤ maxBytes + 1 := by
    unfold reach
    split <;> [skip; split] <;> omega
  constructor
  · intro h
    cases hend : headerEnd rd (bytes.take (reach (wholeMsg bytes conn))) with
    | none =>
      rw [hend] at h
      cases h
    | some m =>
      rw [hend] at h
      cases h
      have happ := headerEnd_append hend (bytes.drop (reach (wholeMsg bytes conn)))
      rw [List.take_append_drop] at happ
      have hm := headerEnd_le hend
      rw [List.length_take] at hm
      exact ⟨happ, by omega⟩
  · rintro ⟨hend, hn⟩
    have hb := headerEnd_le hend
    rw [headerEnd_take hend (by omega)]
    rfl

theorem parseMsg_whole_error {e : Errno} (h : (parseMsg rd (wholeMsg bytes conn) pres).ret = .error e) :
    e = if maxBytes ≤ bytes.length then .E2BIG else .EAGAIN := by
  rw [(parseMsg_whole rd bytes conn pres).1] at h
  unfold walkRet at h
  split at h <;> cases h
  rfl

/-- The captures of a header block do not depend on what follows it. -/
theorem parseMsg_whole_pres {n : Nat} (h : headerEnd rd bytes = some n) (hn : n ≤ maxBytes + 1) :
    (parseMsg rd (wholeMsg bytes conn) pres).pres =
      (walk rd 0 (bytes.take n) (.start pres)).2.pres := by
  have hret : (parseMsg rd (wholeMsg bytes conn) pres).ret = .ok n :=
    parseMsg_whole_ok_iff.mpr ⟨h, hn⟩
  obtain ⟨hret', hpres⟩ := parseMsg_whole rd bytes conn pres
  have hend : headerEnd rd (bytes.take (reach (wholeMsg bytes conn))) = some n := by
    rw [hret] at hret'
    unfold walkRet at hret'
    split at hret'
    next m hm =>
      cases hret'
      exact hm
    next => cases hret'
  have hle := headerEnd_le hend
  rw [List.length_take] at hle
  rw [hpres]
  rw [← walk_headerEnd rd _ pres] at hend
  have htake := Scan.run_take hend
  rw [Nat.sub_zero, List.take_take, Nat.min_eq_left (by omega)] at htake
  rw [walk, htake]

/-- What a header block comes to while only `m` of it is there is final. -/
structure Final (rd : Rodata) (conn : Ip4Conn) (pres : HttpParseRes) (m x : Bytes) : Prop where
  ok : ∀ n, (parseMsg rd (wholeMsg m conn) pres).ret = .ok n →
    (parseMsg rd (wholeMsg (m ++ x) conn) pres).ret = .ok n ∧
      (parseMsg rd (wholeMsg (m ++ x) conn) pres).pres =
        (parseMsg rd (wholeMsg m conn) pres).pres ∧ n ≤ maxBytes
  tooBig : (parseMsg rd (wholeMsg m conn) pres).ret = .error .E2BIG →
    (parseMsg rd (wholeMsg (m ++ x) conn) pres).ret = .error .E2BIG

/-- A header block that ends with the byte right behind the limit is not reported alike. -/
theorem Final.not_late {x : Bytes} {m : Bytes} (h : Final rd conn pres m x)
    (hlen : maxBytes ≤ m.length) : headerEnd rd (m ++ x) ≠ some (maxBytes + 1) := by
  intro hend
  have hlate : (parseMsg rd (wholeMsg (m ++ x) conn) pres).ret = .ok (maxBytes + 1) :=
    parseMsg_whole_ok_iff.mpr ⟨hend, Nat.le_refl _⟩
  cases hret : (parseMsg rd (wholeMsg m conn) pres).ret with
  | ok n =>
    obtain ⟨hn, -, hle⟩ := h.ok n hret
    rw [hlate] at hn
    cases hn
    omega
  | error e =>
    have he := parseMsg_whole_error hret
    rw [if_pos hlen] at he
    rw [he] at hret
    rw [h.tooBig hret] at hlate
    cases hlate

/-- Any other one is. -/
theorem final_of_not_late {m x : Bytes}
    (h : maxBytes ≤ m.length → headerEnd rd (m ++ x) ≠ some (maxBytes + 1)) :
    Final rd conn pres m x := by
  constructor
  · intro n hret
    obtain ⟨hend, hn⟩ := parseMsg_whole_ok_iff.mp hret
    have hend' := headerEnd_append hend x
    have hle : n ≤ maxBytes := by
      by_contra hno
      have hlen := headerEnd_le hend
      have heq : n = maxBytes + 1 := by omega
      exact h (by omega) (heq ▸ hend')
    refine ⟨parseMsg_whole_ok_iff.mpr ⟨hend', hn⟩, ?_, hle⟩
    rw [parseMsg_whole_pres hend hn, parseMsg_whole_pres hend' hn,
      List.take_append_of_le_length (headerEnd_le hend)]
  · intro hret
    have hlen : maxBytes ≤ m.length := by
      by_contra hno
      have he := parseMsg_whole_error hret
      rw [if_neg hno] at he
      cases he
    cases hret' : (parseMsg rd (wholeMsg (m ++ x) conn) pres).ret with
    | error e =>
      have he := parseMsg_whole_error hret'
      rw [if_pos (by rw [List.length_append]; omega)] at he
      rw [he]
    | ok n =>
      -- neither does the block end within `m`, nor right behind the limit
      obtain ⟨hend', hn⟩ := parseMsg_whole_ok_iff.mp hret'
      exfalso
      cases hend : headerEnd rd m with
      | none =>
        have hlate := headerEnd_late hend hend'
        apply h hlen
        rw [hend']
        congr 1
        omega
      | some n' =>
        have happ := headerEnd_append hend x
        rw [hend'] at happ
        cases happ
        rw [parseMsg_whole_ok_iff.mpr ⟨hend, hn⟩] at hret
        cases hret

end Beeper.Http1
