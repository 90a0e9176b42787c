import Mathlib.Data.Nat.Digits.Lemmas

/-!
# Padded decimal numbers

`decimal w n`: the digits of `n` in ASCII, with zeros in front up to a width of
`w`. For numbers of at most `w` digits the order of these texts, byte by byte,
is that of the numbers (`decimal_lt_iff`). A text determines its number
whatever the width (`decimal_inj`).
-/

namespace MRE

def digitByte (d : Nat) : UInt8 := UInt8.ofNat (48 + d)

/-- The digits of `n`, most significant first, with zeros in front. -/
def paddedDigits (w n : Nat) : List Nat := (Nat.digits 10 n).reverse.leftpad w 0

/-- The number `n` in decimal, with zeros in front up to a (positive) width. -/
def decimal (w n : Nat) : List UInt8 := (paddedDigits w n).map digitByte

variable {w m n : Nat}

theorem toNat_digitByte {d : Nat} (h : d < 10) : (digitByte d).toNat = 48 + d := by
  rw [digitByte, UInt8.toNat_ofNat']
  omega

theorem digitByte_lt_iff {c d : Nat} (hc : c < 10) (hd : d < 10) : digitByte c < digitByte d ↔ c < d := by
  rw [UInt8.lt_iff_toNat_lt, toNat_digitByte hc, toNat_digitByte hd]
  omega

theorem digitByte_inj {c d : Nat} (hc : c < 10) (hd : d < 10) (h : digitByte c = digitByte d) : c = d := by
  have := congrArg UInt8.toNat h
  rw [toNat_digitByte hc, toNat_digitByte hd] at this
  omega

/-! ## The digits -/

theorem paddedDigits_lt {d : Nat} (h : d ∈ paddedDigits w n) : d < 10 := by
  rcases List.mem_append.mp h with h | h
  · rw [List.eq_of_mem_replicate h]
    decide
  · exact Nat.digits_lt_base (by decide) (List.mem_reverse.mp h)

theorem ofDigits_paddedDigits (w n : Nat) : Nat.ofDigits 10 (paddedDigits w n).reverse = n := by
  rw [paddedDigits, List.leftpad, List.reverse_append, List.reverse_replicate, List.reverse_reverse,
    Nat.ofDigits_append_replicate_zero, Nat.ofDigits_digits]

theorem length_paddedDigits (h : n < 10 ^ w) : (paddedDigits w n).length = w := by
  have hlen : (Nat.digits 10 n).length ≤ w := (Nat.digits_length_le_iff (by decide) n).mpr h
  rw [paddedDigits, List.leftpad, List.length_append, List.length_replicate, List.length_reverse]
  omega

theorem ofDigits_reverse_cons (d : Nat) (ds : List Nat) :
    Nat.ofDigits 10 (d :: ds).reverse = Nat.ofDigits 10 ds.reverse + 10 ^ ds.length * d := by
  rw [List.reverse_cons, Nat.ofDigits_append, List.length_reverse, Nat.ofDigits_singleton]

theorem map_digitByte_lt_iff {ds es : List Nat} (hlen : ds.length = es.length) (hds : ∀ d ∈ ds, d < 10)
    (hes : ∀ e ∈ es, e < 10) :
    ds.map digitByte < es.map digitByte ↔ Nat.ofDigits 10 ds.reverse < Nat.ofDigits 10 es.reverse := by
  induction ds generalizing es with
  | nil =>
    rw [List.length_eq_zero_iff.mp hlen.symm]
    simp
  | cons d ds ih =>
    obtain ⟨e, es, rfl⟩ := List.exists_cons_of_length_eq_add_one hlen.symm
    obtain ⟨hd, hds⟩ := List.forall_mem_cons.mp hds
    obtain ⟨he, hes⟩ := List.forall_mem_cons.mp hes
    have hlen : ds.length = es.length := Nat.succ.inj hlen
    have h₁ := Nat.ofDigits_lt_base_pow_length (l := ds.reverse) (by decide : 1 < 10) (by simpa using hds)
    have h₂ := Nat.ofDigits_lt_base_pow_length (l := es.reverse) (by decide : 1 < 10) (by simpa using hes)
    rw [List.length_reverse] at h₁ h₂
    rw [List.map_cons, List.map_cons, List.cons_lt_cons_iff, digitByte_lt_iff hd he, ih hlen hds hes,
      ofDigits_reverse_cons, ofDigits_reverse_cons, ← hlen]
    rw [← hlen] at h₂
    constructor
    · rintro (h | ⟨h, hlt⟩)
      · have := Nat.mul_le_mul_left (10 ^ ds.length) (Nat.succ_le_of_lt h)
        rw [Nat.mul_succ] at this
        omega
      · rw [digitByte_inj hd he h]
        omega
    · intro h
      rcases Nat.lt_trichotomy d e with hlt | rfl | hgt
      · exact .inl hlt
      · exact .inr ⟨rfl, by omega⟩
      · have := Nat.mul_le_mul_left (10 ^ ds.length) (Nat.succ_le_of_lt hgt)
        rw [Nat.mul_succ] at this
        omega

/-! ## The texts -/

/-- Padded numbers compare byte by byte as the numbers do. -/
theorem decimal_lt_iff (hm : m < 10 ^ w) (hn : n < 10 ^ w) : decimal w m < decimal w n ↔ m < n := by
  rw [decimal, decimal, map_digitByte_lt_iff (by rw [length_paddedDigits hm, length_paddedDigits hn])
    (fun _ => paddedDigits_lt) (fun _ => paddedDigits_lt), ofDigits_paddedDigits, ofDigits_paddedDigits]

theorem length_decimal (h : n < 10 ^ w) : (decimal w n).length = w := by
  rw [decimal, List.length_map, length_paddedDigits h]

theorem mem_decimal {b : UInt8} (h : b ∈ decimal w n) : 48 ≤ b.toNat ∧ b.toNat < 58 := by
  obtain ⟨d, hd, rfl⟩ := List.mem_map.mp h
  have hd := paddedDigits_lt hd
  rw [toNat_digitByte hd]
  omega

theorem map_decimal (w n : Nat) : (decimal w n).map (fun b => b.toNat - 48) = paddedDigits w n := by
  rw [decimal, List.map_map]
  refine (List.map_congr_left fun d hd => ?_).trans (List.map_id _)
  rw [Function.comp_apply, toNat_digitByte (paddedDigits_lt hd), Nat.add_sub_cancel_left, id]

theorem decimal_inj (h : decimal w m = decimal w n) : m = n := by
  rw [← ofDigits_paddedDigits w m, ← map_decimal, h, map_decimal, ofDigits_paddedDigits]

end MRE
