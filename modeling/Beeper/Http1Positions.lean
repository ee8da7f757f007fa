import Beeper.Http1Offsets

namespace Beeper.Http1

variable {items : List (Item × MatchId)} {p bytes : Bytes} {k size : Nat} {rd : Rodata} {it : Item}
  {m : MatchId} {r r' : HttpMatch} {skb skb0 : SkBuff}

/-- The same bytes are captured, `k` bytes further on, or nothing is captured either time. -/
structure Shifted (k : Nat) (r r' : HttpMatch) : Prop where
  len : r'.len = r.len
  idx : r.len ≠ 0 → r'.idx.toNat = r.idx.toNat + k

/-- What is captured of an item has no start of its own. -/
def Item.Unopened (it : Item) : Prop := it = .method ∨ it = .preface

/-- A range is lengthened instead of shifted if it has no start of its own. -/
theorem shifted_behind_iff (h : Within r size) (hlt : size + k < 2 ^ 16) :
    Shifted k r (it.behind k r) ↔ k = 0 ∨ r.len = 0 ∨ ¬it.Unopened := by
  have hadd : ∀ {a : UInt16}, a.toNat ≤ size → (a + UInt16.ofNat k).toNat = a.toNat + k := by
    intro a ha
    rw [UInt16.toNat_add, UInt16.toNat_ofNat_of_lt' (show k < 2 ^ 16 by omega)]
    exact Nat.mod_eq_of_lt (by omega)
  unfold Within at h
  by_cases hz : r.len = 0
  · have hsame : it.behind k r = r := if_pos hz
    rw [hsame]
    exact iff_of_true ⟨rfl, fun hne => absurd hz hne⟩ (.inr (.inl hz))
  by_cases hit : it.Unopened
  · have hlonger : it.behind k r = { r with len := r.len + UInt16.ofNat k } := by
      unfold Item.behind
      rw [if_neg hz]
      rcases hit with rfl | rfl <;> rfl
    rw [hlonger]
    constructor
    · intro hs
      have hnat := congrArg UInt16.toNat hs.len
      rw [hadd (by omega)] at hnat
      exact .inl (by omega)
    · rintro (rfl | hno | hno)
      · exact ⟨UInt16.add_zero _, fun _ => rfl⟩
      · exact absurd hno hz
      · exact absurd hit hno
  · have hmoved : it.behind k r = { r with idx := r.idx + UInt16.ofNat k } := by
      unfold Item.behind Item.Unopened at *
      rw [if_neg hz]
      cases it with
      | method => exact absurd (.inl rfl) hit
      | preface => exact absurd (.inr rfl) hit
      | _ => rfl
    rw [hmoved]
    exact iff_of_true ⟨rfl, fun _ => hadd (by omega)⟩ (.inr (.inr hit))

/-- The message starts with what an item without a start of its own captures. -/
def Item.Leads (items : List (Item × MatchId)) (it : Item) (bytes : Bytes) : Prop :=
  it = .method ∧ (∃ w ∈ methods, w <+: upper bytes) ∨ it = .preface ∧ StartsPreface items bytes

theorem methodRange_len_iff (hlt : bytes.length < 2 ^ 16) :
    (methodRange 0 bytes).len ≠ 0 ↔ ∃ w ∈ methods, w <+: upper bytes := by
  constructor
  · intro hne
    by_contra hno
    refine hne ?_
    rw [methodRange_none fun w hw hp => hno ⟨w, hw, hp⟩]
    rfl
  · rintro ⟨w, hw, hp⟩
    have hpos : 0 < w.length := by
      have hall : ∀ w ∈ methods, 0 < w.length := by decide +kernel
      exact hall w hw
    have hle := hp.length_le
    rw [upper_length] at hle
    rw [methodRange_of hw hp]
    exact (rangeTo_within (Nat.zero_le _) (show 0 + w.length - 1 < bytes.length by omega) hlt).1

theorem prefaceRange_len_iff : (prefaceRange items 0 bytes).len ≠ 0 ↔ StartsPreface items bytes := by
  unfold prefaceRange
  split
  next h => exact iff_of_true (by decide) h
  next h => exact iff_of_false (fun hne => hne rfl) h

theorem Attached.skb_range (h : Attached items rd) (hm : (it, m) ∈ items) (hp : skb.pullable)
    (hlen : skb.bytes.length < maxBytes) : (parseSkb rd skb 0 .zero none).pres.get m =
      (Scan.run (viewStep items it) 0 skb.bytes .init).2.range := by
  by_cases hnil : skb.bytes.length = 0
  · rw [parseSkb_nothing (by decide) hnil, List.length_eq_zero_iff.mp hnil]
    rfl
  · rw [(parseSkb_eq rd .zero hp (by decide) (by omega)).2, (h.walk_view hm 0 _).2, List.drop_zero,
      List.take_of_length_le (by omega)]

/-- What is captured of the start without a start of its own. -/
theorem Attached.unopened_len (h : Attached items rd) (hm : (it, m) ∈ items) (hit : it.Unopened)
    (hp : skb.pullable) (hlen : skb.bytes.length < maxBytes) :
    ((parseSkb rd skb 0 .zero none).pres.get m).len ≠ 0 ↔ it.Leads items skb.bytes := by
  have hlt : skb.bytes.length < 2 ^ 16 := by
    unfold maxBytes at hlen
    omega
  rw [h.skb_range hm hp hlen]
  unfold Item.Leads
  rcases hit with rfl | rfl
  · rw [method_run (.inl ⟨m, hm⟩), methodRange_len_iff hlt]
    simp
  · rw [preface_run ⟨m, hm⟩, prefaceRange_len_iff]
    simp

/-- A message is parsed alike wherever it stands: behind an offset, and behind a header that was
zeroed out. -/
structure PlacedAlike (items : List (Item × MatchId)) (rd : Rodata) (p : Bytes) (skb skb0 : SkBuff) :
    Prop where
  ret : (parseSkb rd skb p.length .zero none).ret = (parseSkb rd skb0 0 .zero none).ret
  range : ∀ it m, (it, m) ∈ items → Shifted p.length ((parseSkb rd skb0 0 .zero none).pres.get m)
    ((parseSkb rd skb p.length .zero none).pres.get m)
  nullRet : (∀ c ∈ p, c = 0) → (parseSkb rd skb 0 .zero (some 0)).ret =
    (parseSkb rd skb0 0 .zero none).ret.map (· + p.length)
  nullRange : (∀ c ∈ p, c = 0) → ∀ it m, (it, m) ∈ items →
    Shifted p.length ((parseSkb rd skb0 0 .zero none).pres.get m)
      ((parseSkb rd skb 0 .zero (some 0)).pres.get m)

/-- A message is parsed alike wherever it stands exactly if it does not start with a method or a
preface that is captured. -/
theorem parseSkb_placed_iff (h : Attached items rd) (hp : skb.pullable) (hp0 : skb0.pullable)
    (hb : skb.bytes = p ++ skb0.bytes) (hlen : skb.bytes.length < maxBytes)
    (hfirst : ∀ c ∈ skb0.bytes.head?, c ≠ 0) : PlacedAlike items rd p skb skb0 ↔
      p = [] ∨ ∀ it, Captures items it → ¬it.Leads items skb0.bytes := by
  have hsum : skb.bytes.length = p.length + skb0.bytes.length := by rw [hb, List.length_append]
  have hmax : maxBytes < 2 ^ 16 := by decide
  obtain ⟨hret, hrange⟩ := parseSkb_behind h hp hp0 p hb hlen
  have hiff : ∀ it m, (it, m) ∈ items →
      (Shifted p.length ((parseSkb rd skb0 0 .zero none).pres.get m)
        ((parseSkb rd skb p.length .zero none).pres.get m) ↔
      p = [] ∨ ¬it.Leads items skb0.bytes) := by
    intro it m hm
    obtain ⟨hbehind, hin⟩ := hrange it m hm
    rw [hbehind, shifted_behind_iff hin (by omega), List.length_eq_zero_iff]
    refine or_congr_right ?_
    by_cases hit : it.Unopened
    · rw [← h.unopened_len hm hit hp0 (by omega), not_not]
      exact or_iff_left (not_not.mpr hit)
    · refine iff_of_true (.inr hit) ?_
      rintro (⟨rfl, -⟩ | ⟨rfl, -⟩)
      · exact hit (.inl rfl)
      · exact hit (.inr rfl)
  have hnull : (∀ c ∈ p, c = 0) → (parseSkb rd skb 0 .zero (some 0)).ret =
        (parseSkb rd skb p.length .zero none).ret.map (· + p.length) ∧
      (parseSkb rd skb 0 .zero (some 0)).pres = (parseSkb rd skb p.length .zero none).pres := by
    intro hz
    obtain ⟨hr, hpres, -⟩ := @parseSkb_nullPrefix p.length skb rd hp skb0.bytes
      (by rw [hb, List.eq_replicate_of_mem hz, List.length_replicate]) hfirst hlen
    exact ⟨hr, hpres⟩
  constructor
  · intro hx
    by_cases hnil : p = []
    · exact .inl hnil
    · right
      rintro it ⟨m, hm⟩
      exact ((hiff it m hm).mp (hx.range it m hm)).resolve_left hnil
  · intro hcond
    have hall : ∀ it m, (it, m) ∈ items → Shifted p.length ((parseSkb rd skb0 0 .zero none).pres.get m)
        ((parseSkb rd skb p.length .zero none).pres.get m) := fun it m hm =>
      (hiff it m hm).mpr (hcond.imp_right fun hno => hno it ⟨m, hm⟩)
    refine ⟨hret, hall, fun hz => ?_, fun hz it m hm => ?_⟩
    · rw [(hnull hz).1, hret]
    · rw [(hnull hz).2]
      exact hall it m hm

/-- An sk_buff that is linear as a whole. -/
def linearSkb (bytes : Bytes) : SkBuff :=
  ⟨bytes, bytes.length, ⟨⟨1, 1⟩, ⟨2, 2⟩⟩, true, length_le_length bytes⟩

/-- The method of a message behind three other bytes is reported with these. -/
theorem parseSkb_placedGet : ∃ rd, Attached startItems rd ∧
    ¬PlacedAlike startItems rd (ascii "zzz") (linearSkb (ascii "zzzGET / HTTP/1.1\r\n\r\n"))
      (linearSkb (ascii "GET / HTTP/1.1\r\n\r\n")) := by
  obtain ⟨rd, hrd, -⟩ := attached_start
  refine ⟨rd, hrd, fun hx => ?_⟩
  obtain ⟨-, hrange⟩ := @parseSkb_behind _ _ (linearSkb (ascii "zzzGET / HTTP/1.1\r\n\r\n"))
    (linearSkb (ascii "GET / HTTP/1.1\r\n\r\n")) hrd rfl rfl (ascii "zzz") (by decide) (by decide)
  have hmethod : (parseSkb rd (linearSkb (ascii "GET / HTTP/1.1\r\n\r\n")) 0 .zero none).pres.get 0 =
      ⟨0, 3, .msg, false⟩ := by
    have hcap : (Item.method, (0 : MatchId)) ∈ startItems := by decide
    rw [hrd.skb_range hcap rfl (by decide), method_run (.inl ⟨0, hcap⟩)]
    decide +kernel
  have hlen := (hx.range .method 0 (by decide)).len
  rw [(hrange .method 0 (by decide)).1, hmethod] at hlen
  exact absurd hlen (by decide)

/-- One whose method is unknown is parsed alike behind the header of a record. -/
theorem parseSkb_placedPropfind : ∃ rd, Attached startItems rd ∧
    (PlacedAlike startItems rd [0, 0, 0, 0, 0] (linearSkb ([0, 0, 0, 0, 0] ++ ascii "PROPFIND / HTTP/1.1"))
        (linearSkb (ascii "PROPFIND / HTTP/1.1")) ↔
      [0, 0, 0, 0, 0] = ([] : Bytes) ∨ ∀ it, Captures startItems it →
        ¬it.Leads startItems (linearSkb (ascii "PROPFIND / HTTP/1.1")).bytes) := by
  obtain ⟨rd, hrd, -⟩ := attached_start
  have hfirst : ∀ c ∈ (linearSkb (ascii "PROPFIND / HTTP/1.1")).bytes.head?, c ≠ 0 := by
    intro c hc
    cases hc
    decide
  exact ⟨rd, hrd, parseSkb_placed_iff hrd rfl rfl rfl (by decide) hfirst⟩

end Beeper.Http1
