import Mathlib.Tactic.Ring

/-!
# Bytes

Little-endian integers (`leBytes`, `ofLeBytes`), and reading and writing parts
of a list of bytes (`slice`, `splice`). `flipBit bs i b` has one bit the other
way, which changes the part of the list where the bit is, and no other
(`flipBit_middle`, `flipBit_ne`). On a little-endian integer it is `flipU64`.
-/

namespace MRE

/-- A function that computes a checksum. -/
abbrev Checksum : Type := List UInt8 → UInt32

/-- The lowest `n` bytes of `x`, least significant first. -/
def leBytes : Nat → Nat → List UInt8
  | 0, _ => []
  | n + 1, x => UInt8.ofNat x :: leBytes n (x / 256)

/-- The number with these bytes, least significant first. -/
def ofLeBytes : List UInt8 → Nat
  | [] => 0
  | b :: bs => b.toNat + 256 * ofLeBytes bs

@[simp] theorem length_leBytes (n x : Nat) : (leBytes n x).length = n := by
  induction n generalizing x with
  | zero => rfl
  | succ n ih => rw [leBytes, List.length_cons, ih]

theorem ofLeBytes_leBytes {n x : Nat} (h : x < 256 ^ n) : ofLeBytes (leBytes n x) = x := by
  induction n generalizing x with
  | zero => rw [pow_zero, Nat.lt_one_iff] at h; rw [h]; rfl
  | succ n ih =>
    rw [pow_succ] at h
    rw [leBytes, ofLeBytes, ih (by omega), UInt8.toNat_ofNat']
    omega

theorem ofLeBytes_lt (bs : List UInt8) : ofLeBytes bs < 256 ^ bs.length := by
  induction bs with
  | nil => exact Nat.one_pos
  | cons b bs ih =>
    have := b.toNat_lt
    rw [ofLeBytes, List.length_cons, pow_succ]
    omega

theorem leBytes_ofLeBytes (bs : List UInt8) : leBytes bs.length (ofLeBytes bs) = bs := by
  induction bs with
  | nil => rfl
  | cons b bs ih =>
    have hb := b.toNat_lt
    have hdiv : (b.toNat + 256 * ofLeBytes bs) / 256 = ofLeBytes bs := by omega
    have hmod : UInt8.ofNat (b.toNat + 256 * ofLeBytes bs) = b := by
      rw [← UInt8.toNat_inj, UInt8.toNat_ofNat']
      omega
    rw [List.length_cons, leBytes, ofLeBytes, hdiv, hmod, ih]

/-- Bytes are cut off from what does not fit in them. -/
theorem ofLeBytes_leBytes_mod (n x : Nat) : ofLeBytes (leBytes n x) = x % 256 ^ n := by
  induction n generalizing x with
  | zero => exact (Nat.mod_one x).symm
  | succ n ih =>
    have hmod : x % 256 ^ (n + 1) = x % 256 + 256 * (x / 256 % 256 ^ n) := by rw [Nat.pow_succ', Nat.mod_mul]
    rw [leBytes, ofLeBytes, ih, UInt8.toNat_ofNat', hmod]

theorem ofLeBytes_append (xs ys : List UInt8) :
    ofLeBytes (xs ++ ys) = ofLeBytes xs + 256 ^ xs.length * ofLeBytes ys := by
  induction xs with
  | nil => rw [List.nil_append, ofLeBytes, List.length_nil, pow_zero, Nat.one_mul, Nat.zero_add]
  | cons x xs ih => rw [List.cons_append, ofLeBytes, ih, ofLeBytes, List.length_cons, pow_succ]; ring

theorem leBytes_add (m n x : Nat) : leBytes (m + n) x = leBytes m x ++ leBytes n (x / 256 ^ m) := by
  induction m generalizing x with
  | zero => rw [Nat.zero_add, pow_zero, Nat.div_one]; rfl
  | succ m ih =>
    rw [Nat.succ_add, leBytes, ih, leBytes, Nat.div_div_eq_div_mul, ← Nat.pow_succ']
    rfl

theorem ofLeBytes_replicate (n : Nat) : ofLeBytes (List.replicate n 0) = 0 := by
  induction n with
  | zero => rfl
  | succ n ih => rw [List.replicate_succ, ofLeBytes, ih]; rfl

def leU64 (x : UInt64) : List UInt8 := leBytes 8 x.toNat

def leU32 (x : UInt32) : List UInt8 := leBytes 4 x.toNat

def u64OfLe (bs : List UInt8) : UInt64 := UInt64.ofNat (ofLeBytes bs)

def u32OfLe (bs : List UInt8) : UInt32 := UInt32.ofNat (ofLeBytes bs)

@[simp] theorem length_leU64 (x : UInt64) : (leU64 x).length = 8 := length_leBytes 8 _

@[simp] theorem length_leU32 (x : UInt32) : (leU32 x).length = 4 := length_leBytes 4 _

@[simp] theorem u64OfLe_leU64 (x : UInt64) : u64OfLe (leU64 x) = x := by
  rw [u64OfLe, leU64, ofLeBytes_leBytes x.toNat_lt, UInt64.ofNat_toNat]

@[simp] theorem u32OfLe_leU32 (x : UInt32) : u32OfLe (leU32 x) = x := by
  rw [u32OfLe, leU32, ofLeBytes_leBytes x.toNat_lt, UInt32.ofNat_toNat]

theorem leU64_u64OfLe {bs : List UInt8} (h : bs.length = 8) : leU64 (u64OfLe bs) = bs := by
  have hlt := ofLeBytes_lt bs
  rw [h] at hlt
  rw [leU64, u64OfLe, UInt64.toNat_ofNat_of_lt' hlt, ← h, leBytes_ofLeBytes]

theorem leU32_u32OfLe {bs : List UInt8} (h : bs.length = 4) : leU32 (u32OfLe bs) = bs := by
  have hlt := ofLeBytes_lt bs
  rw [h] at hlt
  rw [leU32, u32OfLe, UInt32.toNat_ofNat_of_lt' hlt, ← h, leBytes_ofLeBytes]

/-! ## Parts of a list -/

variable {α : Type}

/-- The elements from `a` up to `b`. -/
def slice (xs : List α) (a b : Nat) : List α := (xs.drop a).take (b - a)

/-- Overwrite the elements from `a` on by `ys`. -/
def splice (xs : List α) (a : Nat) (ys : List α) : List α := xs.take a ++ ys ++ xs.drop (a + ys.length)

theorem slice_drop (xs : List α) (o a b : Nat) : slice xs (o + a) (o + b) = slice (xs.drop o) a b := by
  rw [slice, slice, List.drop_drop, Nat.add_sub_add_left]

/-- A part of a list, where the list is written out around it. -/
theorem slice_eq {l p xs s : List α} {a b : Nat} (h : l = p ++ (xs ++ s)) (ha : p.length = a)
    (hb : a + xs.length = b) : slice l a b = xs := by
  rw [slice, h, ← ha, List.drop_left, ← hb, ← ha, Nat.add_sub_cancel_left, List.take_left]

theorem drop_eq_slice_append (xs : List α) {a b : Nat} (h : a ≤ b) : xs.drop a = slice xs a b ++ xs.drop b := by
  have hb : xs.drop b = (xs.drop a).drop (b - a) := by rw [List.drop_drop, Nat.add_sub_cancel' h]
  rw [slice, hb, List.take_append_drop]

theorem length_slice {xs : List α} {a b : Nat} (h : b ≤ xs.length) : (slice xs a b).length = b - a := by
  rw [slice, List.length_take, List.length_drop]
  omega

theorem length_splice {xs ys : List α} {a : Nat} (h : a + ys.length ≤ xs.length) :
    (splice xs a ys).length = xs.length := by
  simp only [splice, List.length_append, List.length_take, List.length_drop]
  omega

theorem take_splice {xs ys : List α} {a n : Nat} (hn : n ≤ a) (h : a + ys.length ≤ xs.length) :
    (splice xs a ys).take n = xs.take n := by
  rw [splice, List.append_assoc, List.take_append_of_le_length (by rw [List.length_take]; omega), List.take_take,
    Nat.min_eq_left hn]

theorem drop_splice {xs ys : List α} {a n : Nat} (hn : n ≤ a) (h : a + ys.length ≤ xs.length) :
    (splice xs a ys).drop n = (xs.drop n).take (a - n) ++ ys ++ xs.drop (a + ys.length) := by
  rw [splice, List.append_assoc, List.drop_append_of_le_length (by rw [List.length_take]; omega), List.drop_take,
    List.append_assoc]

@[simp] theorem splice_nil (xs : List α) (a : Nat) : splice xs a [] = xs := by
  rw [splice, List.append_nil, List.length_nil, Nat.add_zero, List.take_append_drop]

theorem splice_splice {xs ys zs : List α} {a : Nat} (h : a + ys.length ≤ xs.length) :
    splice (splice xs a ys) (a + ys.length) zs = splice xs a (ys ++ zs) := by
  have hlen : (xs.take a ++ ys).length = a + ys.length := by
    rw [List.length_append, List.length_take]
    omega
  have hdrop : (splice xs a ys).drop (a + ys.length + zs.length) = xs.drop (a + (ys ++ zs).length) := by
    rw [← List.drop_drop, splice, ← hlen, List.drop_left, hlen, List.drop_drop, List.length_append, Nat.add_assoc]
  have htake : (splice xs a ys).take (a + ys.length) = xs.take a ++ ys := by
    rw [splice, ← hlen, List.take_left]
  rw [splice, hdrop, htake, splice]
  simp only [List.append_assoc]

/-- A list that stands before a constant one, and is found again further on,
is constant itself. -/
theorem eq_of_shift {p x : List α} {z : α} {m j : Nat} (hj : 0 < j) (h : (p ++ List.replicate m z).drop j = p ++ x) :
    ∀ b ∈ p, b = z := by
  -- each element is one that comes after it, or one of the constants
  have hshift : ∀ n i, p.length - i ≤ n → ∀ b, p[i]? = some b → b = z := by
    intro n
    induction n with
    | zero =>
      intro i hi b hb
      have := (List.getElem?_eq_some_iff.mp hb).1
      omega
    | succ n ih =>
      intro i hi b hb
      have hlt := (List.getElem?_eq_some_iff.mp hb).1
      have hnext : (p ++ List.replicate m z)[j + i]? = some b := by
        rw [← List.getElem?_drop, h, List.getElem?_append_left hlt, hb]
      by_cases hin : j + i < p.length
      · rw [List.getElem?_append_left hin] at hnext
        exact ih (j + i) (by omega) b hnext
      · rw [List.getElem?_append_right (by omega)] at hnext
        exact List.eq_of_mem_replicate (List.mem_of_getElem? hnext)
  intro b hb
  obtain ⟨i, hi⟩ := List.getElem?_of_mem hb
  exact hshift p.length i (by omega) b hi

/-! ## Single bits -/

/-- The bytes with bit `b` of byte `i` the other way. -/
def flipBit (bs : List UInt8) (i : Nat) (b : Fin 8) : List UInt8 := bs.modify i (· ^^^ 1 <<< UInt8.ofNat b.val)

/-- The integer with bit `b` of its byte `i` the other way. -/
def flipU64 (x : UInt64) (i : Nat) (b : Fin 8) : UInt64 := u64OfLe (flipBit (leU64 x) i b)

variable {bs xs ys : List UInt8} {i : Nat} {b : Fin 8}

@[simp] theorem length_flipBit (bs : List UInt8) (i : Nat) (b : Fin 8) : (flipBit bs i b).length = bs.length :=
  List.length_modify _ _ _

theorem flipBit_append_left (h : i < xs.length) : flipBit (xs ++ ys) i b = flipBit xs i b ++ ys := by
  induction xs generalizing i with
  | nil => exact absurd h (Nat.not_lt_zero i)
  | cons x xs ih =>
    rcases i with _ | i
    · rfl
    · exact congrArg (x :: ·) (ih (Nat.lt_of_succ_lt_succ h))

theorem flipBit_append_right (h : xs.length ≤ i) : flipBit (xs ++ ys) i b = xs ++ flipBit ys (i - xs.length) b := by
  induction xs generalizing i with
  | nil => rfl
  | cons x xs ih =>
    rcases i with _ | i
    · exact absurd h (Nat.not_succ_le_zero _)
    · rw [List.length_cons, Nat.add_sub_add_right]
      exact congrArg (x :: ·) (ih (Nat.le_of_succ_le_succ h))

/-- A bit in a part of a list, where the list is written out around it. -/
theorem flipBit_middle {l p s : List UInt8} {a : Nat} (h : l = p ++ (xs ++ s)) (ha : p.length = a) (h₁ : a ≤ i)
    (h₂ : i < a + xs.length) : flipBit l i b = p ++ (flipBit xs (i - a) b ++ s) := by
  subst ha
  rw [h, flipBit_append_right h₁, flipBit_append_left (by omega)]

theorem bit_ne_zero : ∀ b : Fin 8, (1 : UInt8) <<< UInt8.ofNat b.val ≠ 0 := by decide

theorem xor_bit_ne (x : UInt8) (b : Fin 8) : x ^^^ 1 <<< UInt8.ofNat b.val ≠ x := fun h =>
  bit_ne_zero b ((UInt8.xor_right_inj x).mp (h.trans UInt8.xor_zero.symm))

theorem flipBit_ne (h : i < bs.length) : flipBit bs i b ≠ bs := by
  induction bs generalizing i with
  | nil => exact absurd h (Nat.not_lt_zero i)
  | cons x bs ih =>
    rcases i with _ | i
    · exact fun he => xor_bit_ne x b (List.cons.inj he).1
    · exact fun he => ih (Nat.lt_of_succ_lt_succ h) (List.cons.inj he).2

theorem leU64_flipU64 (x : UInt64) (i : Nat) (b : Fin 8) : leU64 (flipU64 x i b) = flipBit (leU64 x) i b :=
  leU64_u64OfLe (by rw [length_flipBit, length_leU64])

theorem flipU64_ne (x : UInt64) (h : i < 8) : flipU64 x i b ≠ x := fun he => by
  have hbytes := leU64_flipU64 x i b
  rw [he] at hbytes
  exact flipBit_ne (by rw [length_leU64]; exact h) hbytes.symm

end MRE
