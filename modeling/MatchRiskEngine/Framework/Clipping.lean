import Mathlib.Algebra.BigOperators.Group.List.Basic
import Mathlib.Algebra.Order.BigOperators.Group.List
import Mathlib.Algebra.Order.Ring.Int

/-!
# Sums that are clipped

A running value stays between two bounds, and each element adds two amounts to
it, one after the other (`Clip.add`). The order of the elements does not show in
the result if no order comes to a bound, or if any two elements come to the same
at the one bound that can be reached, or everywhere (`OrderFree.foldl_eq`).
Unless both bounds can be reached it shows otherwise (`orderFree_of_same`).

What holds of the upper bound holds of the lower one by negation (`foldl_neg`).
-/

namespace MRE.Clip

structure Amounts where
  first : Int
  second : Int

namespace Amounts

def net (e : Amounts) : Int := e.first + e.second

def neg (e : Amounts) : Amounts := ⟨-e.first, -e.second⟩

end Amounts

def clip (lo hi x : Int) : Int := max lo (min x hi)

/-- Add both amounts of an element. -/
def add (lo hi x : Int) (e : Amounts) : Int := clip lo hi (clip lo hi (x + e.first) + e.second)

def total (es : List Amounts) : Int := (es.map Amounts.net).sum

def gains (es : List Amounts) : Int := (es.map fun e => max e.first 0 + max e.second 0).sum

def losses (es : List Amounts) : Int := (es.map fun e => min e.first 0 + min e.second 0).sum

/-- The upper bound is not exceeded in any order. -/
def StaysBelow (hi a : Int) (es : List Amounts) : Prop :=
  ∀ front e back, (front ++ e :: back).Perm es → a + total front + max e.first e.net ≤ hi

/-- Nor is the lower bound. -/
def StaysAbove (lo a : Int) (es : List Amounts) : Prop :=
  ∀ front e back, (front ++ e :: back).Perm es → lo ≤ a + total front + min e.first e.net

/-- Clipped at the upper bound, the elements come to the same in both orders. -/
def AlikeAbove (p q : Amounts) : Prop :=
  min (min p.second 0 + q.net) (min q.second 0) = min (min q.second 0 + p.net) (min p.second 0)

/-- Clipped at the lower bound. -/
def AlikeBelow (p q : Amounts) : Prop :=
  max (max p.second 0 + q.net) (max q.second 0) = max (max q.second 0 + p.net) (max p.second 0)

/-- Whatever they are added to, the elements come to the same in both orders. -/
def Alike (lo hi : Int) (p q : Amounts) : Prop :=
  ∀ x, add lo hi (add lo hi x p) q = add lo hi (add lo hi x q) p

/-- The value stays between the bounds in every order, or it can only reach one
of them and all elements are alike there, or they are alike everywhere. -/
def OrderFree (lo hi a : Int) (es : List Amounts) : Prop :=
  StaysBelow hi a es ∧ StaysAbove lo a es ∨
    lo ≤ a + losses es ∧ (∀ p ∈ es, ∀ q ∈ es, AlikeAbove p q) ∨
    a + gains es ≤ hi ∧ (∀ p ∈ es, ∀ q ∈ es, AlikeBelow p q) ∨
    ∀ p ∈ es, ∀ q ∈ es, Alike lo hi p q

/-- Add both amounts, clipped at the upper bound only. -/
def addBelow (hi x : Int) (e : Amounts) : Int := min (x + e.net) (hi + min e.second 0)

variable {lo hi a v : Int} {e p q : Amounts} {es es' : List Amounts}

@[simp] theorem first_neg (e : Amounts) : e.neg.first = -e.first := rfl

@[simp] theorem second_neg (e : Amounts) : e.neg.second = -e.second := rfl

@[simp] theorem net_neg (e : Amounts) : e.neg.net = -e.net := by
  simp only [Amounts.net, first_neg, second_neg]
  omega

@[simp] theorem total_nil : total [] = 0 := rfl

@[simp] theorem total_cons (e : Amounts) (es : List Amounts) : total (e :: es) = e.net + total es := List.sum_cons

@[simp] theorem total_append (es es' : List Amounts) : total (es ++ es') = total es + total es' := by
  rw [total, List.map_append, List.sum_append]
  rfl

@[simp] theorem gains_cons (e : Amounts) (es : List Amounts) :
    gains (e :: es) = max e.first 0 + max e.second 0 + gains es := List.sum_cons

@[simp] theorem losses_cons (e : Amounts) (es : List Amounts) :
    losses (e :: es) = min e.first 0 + min e.second 0 + losses es := List.sum_cons

theorem total_perm (h : es'.Perm es) : total es' = total es := (h.map _).sum_eq

theorem gains_perm (h : es'.Perm es) : gains es' = gains es := (h.map _).sum_eq

theorem losses_perm (h : es'.Perm es) : losses es' = losses es := (h.map _).sum_eq

theorem losses_nonpos (es : List Amounts) : losses es ≤ 0 := by
  induction es with
  | nil => exact Int.le_refl 0
  | cons e es ih =>
    rw [losses_cons]
    omega

/-! ## No order comes to a bound -/

theorem foldl_of_stays (h₁ : StaysBelow hi a es) (h₂ : StaysAbove lo a es) : es.foldl (add lo hi) a = a + total es := by
  induction es generalizing a with
  | nil => exact (Int.add_zero a).symm
  | cons e es ih =>
    have hadd : add lo hi a e = a + e.net := by
      have := h₁ [] e es (.refl _)
      have := h₂ [] e es (.refl _)
      simp only [add, clip, total_nil, Amounts.net] at *
      omega
    rw [List.foldl_cons, hadd, ih, total_cons, Int.add_assoc]
    · intro front e' back hp
      have := h₁ (e :: front) e' back (hp.cons e)
      rwa [total_cons, ← Int.add_assoc] at this
    · intro front e' back hp
      have := h₂ (e :: front) e' back (hp.cons e)
      rwa [total_cons, ← Int.add_assoc] at this

theorem StaysAbove.of_losses (h : lo ≤ a + losses es) : StaysAbove lo a es := by
  intro front e back hp
  rw [← losses_perm hp] at h
  clear hp
  induction front generalizing a with
  | nil =>
    have := losses_nonpos back
    simp only [List.nil_append, losses_cons, total_nil, Amounts.net] at h ⊢
    omega
  | cons x front ih =>
    rw [List.cons_append, losses_cons, ← Int.add_assoc] at h
    rw [total_cons, ← Int.add_assoc]
    refine ih (Int.le_trans h ?_)
    rw [Amounts.net]
    omega

theorem losses_neg (es : List Amounts) : losses (es.map Amounts.neg) = -gains es := by
  induction es with
  | nil => rfl
  | cons e es ih =>
    rw [List.map_cons, losses_cons, gains_cons, ih, first_neg, second_neg]
    omega

theorem total_neg (es : List Amounts) : total (es.map Amounts.neg) = -total es := by
  induction es with
  | nil => rfl
  | cons e es ih =>
    rw [List.map_cons, total_cons, total_cons, ih, net_neg]
    omega

theorem neg_neg (es : List Amounts) : (es.map Amounts.neg).map Amounts.neg = es := by
  simp [Amounts.neg, Function.comp_def]

theorem staysBelow_neg : StaysBelow (-lo) (-a) (es.map Amounts.neg) ↔ StaysAbove lo a es := by
  constructor
  · intro h front e back hp
    have := h (front.map Amounts.neg) e.neg (back.map Amounts.neg) (by
      rw [← List.map_cons, ← List.map_append]
      exact hp.map _)
    rw [total_neg, net_neg, first_neg] at this
    omega
  · intro h front e back hp
    have := h (front.map Amounts.neg) e.neg (back.map Amounts.neg) (by
      rw [← List.map_cons, ← List.map_append, ← neg_neg es]
      exact hp.map _)
    rw [total_neg, net_neg, first_neg] at this
    omega

theorem StaysBelow.of_gains (h : a + gains es ≤ hi) : StaysBelow hi a es := by
  have habove : StaysAbove (-hi) (-a) (es.map Amounts.neg) := .of_losses (by rw [losses_neg]; omega)
  rwa [← staysBelow_neg, Int.neg_neg, Int.neg_neg, neg_neg] at habove

/-! ## The upper bound -/

theorem foldl_eq_below (ha : a ≤ hi) (h : lo ≤ a + losses es) : es.foldl (add lo hi) a = es.foldl (addBelow hi) a := by
  induction es generalizing a with
  | nil => rfl
  | cons e es ih =>
    have hrest := losses_nonpos es
    rw [losses_cons] at h
    have hadd : add lo hi a e = addBelow hi a e := by
      simp only [add, clip, addBelow, Amounts.net]
      omega
    rw [List.foldl_cons, List.foldl_cons, hadd, ih]
    · rw [addBelow]
      omega
    · rw [addBelow, Amounts.net]
      omega

theorem foldl_below_le (hi : Int) (es : List Amounts) (x : Int) : es.foldl (addBelow hi) x ≤ x + total es := by
  induction es generalizing x with
  | nil => exact Int.le_of_eq (Int.add_zero x).symm
  | cons e es ih =>
    have hrest := ih (addBelow hi x e)
    have : addBelow hi x e ≤ x + e.net := min_le_left _ _
    rw [List.foldl_cons, total_cons]
    omega

/-- Behind an element the value is at most its own bound. -/
theorem foldl_below_le_bound (hi : Int) (front : List Amounts) (e : Amounts) (back : List Amounts) (x : Int) :
    (front ++ e :: back).foldl (addBelow hi) x ≤ hi + min e.second 0 + total back := by
  rw [List.foldl_append, List.foldl_cons]
  have hback := foldl_below_le hi back (addBelow hi (front.foldl (addBelow hi) x) e)
  have : addBelow hi (front.foldl (addBelow hi) x) e ≤ hi + min e.second 0 := min_le_right _ _
  omega

/-- The result is the exact sum, or the bound of some element decides it. -/
theorem foldl_below_cases (hi : Int) (es : List Amounts) (x : Int) :
    es.foldl (addBelow hi) x = x + total es ∨
      ∃ front e back, es = front ++ e :: back ∧ es.foldl (addBelow hi) x = hi + min e.second 0 + total back := by
  induction es generalizing x with
  | nil => exact .inl (Int.add_zero x).symm
  | cons e es ih =>
    rw [List.foldl_cons, total_cons]
    obtain hexact | ⟨front, e', back, hes, hbound⟩ := ih (addBelow hi x e)
    · rcases min_choice (x + e.net) (hi + min e.second 0) with h | h
      · exact .inl (by rw [hexact, addBelow, h, Int.add_assoc])
      · exact .inr ⟨[], e, es, rfl, by rw [hexact, addBelow, h]⟩
    · exact .inr ⟨e :: front, e', back, by rw [hes, List.cons_append], hbound⟩

theorem foldl_below_perm (h : ∀ p ∈ es, ∀ q ∈ es, AlikeAbove p q) (hp : es'.Perm es) (a : Int) :
    es'.foldl (addBelow hi) a = es.foldl (addBelow hi) a := by
  refine (hp.symm.foldl_eq' (fun p hp q hq x => ?_) a).symm
  have halike := h p hp q hq
  simp only [AlikeAbove, addBelow] at *
  omega

section Same

variable (hsame : ∀ es' : List Amounts, es'.Perm es → es'.foldl (addBelow hi) a = v)

include hsame

theorem le_bound (front : List Amounts) {back : List Amounts} (hp : (front ++ e :: back).Perm es) :
    v ≤ hi + min e.second 0 + total back := by
  rw [← hsame _ hp]
  exact foldl_below_le_bound hi front e back a

/-- An order that exceeds the bound loses something. -/
theorem lt_of_not_staysBelow (h : ¬ StaysBelow hi a es) : v < a + total es := by
  simp only [StaysBelow, not_forall, Int.not_le] at h
  obtain ⟨front, e, back, hp, hover⟩ := h
  have hle := le_bound hsame front hp
  rw [← total_perm hp, total_append, total_cons]
  rw [Amounts.net] at hover ⊢
  omega

/-- In every order there is an element whose bound decides, with nothing in
front that goes down and nothing behind that goes up: otherwise another order
would come to less. -/
theorem exists_turn (hlt : v < a + total es) (hp : es'.Perm es) : ∃ front e back, es' = front ++ e :: back ∧
    (∀ x ∈ front, 0 ≤ x.net) ∧ (∀ x ∈ back, x.net ≤ 0) ∧ v = hi + min e.second 0 + total back := by
  obtain hexact | ⟨front, e, back, rfl, hbound⟩ := foldl_below_cases hi es' a
  · rw [hsame es' hp, total_perm hp] at hexact
    omega
  rw [hsame _ hp] at hbound
  refine ⟨front, e, back, rfl, fun x hx => ?_, fun x hx => ?_, hbound⟩
  · obtain ⟨f₁, f₂, rfl⟩ := List.append_of_mem hx
    have hmoved : (f₁ ++ f₂ ++ e :: (back ++ [x])).Perm es := by
      classical
      refine List.Perm.trans (List.perm_iff_count.mpr fun y => ?_) hp
      simp only [List.count_append, List.count_cons, List.count_nil]
      omega
    have hle := le_bound hsame _ hmoved
    simp only [total_append, total_cons, total_nil] at hle
    omega
  · obtain ⟨b₁, b₂, rfl⟩ := List.append_of_mem hx
    have hmoved : (x :: front ++ e :: (b₁ ++ b₂)).Perm es := by
      classical
      refine List.Perm.trans (List.perm_iff_count.mpr fun y => ?_) hp
      simp only [List.count_append, List.count_cons]
      omega
    have hle := le_bound hsame _ hmoved
    simp only [total_append, total_cons] at hle hbound
    omega

/-- What an element is like: its bound decides if it goes up and comes last, or
goes down and comes first. -/
theorem turn_of_mem (hlt : v < a + total es) (he : e ∈ es) :
    (0 < e.net → v = hi + min e.second 0 ∧ ∀ x ∈ es, 0 ≤ x.net) ∧
    (e.net < 0 → v = hi + min e.second 0 + (total es - e.net) ∧ ∀ x ∈ es, x.net ≤ 0) ∧
    v ≤ hi + min e.second 0 ∧ v ≤ hi + min e.second 0 + (total es - e.net) := by
  obtain ⟨front, back, rfl⟩ := List.append_of_mem he
  have hfirst : (e :: (front ++ back)).Perm (front ++ e :: back) := List.perm_middle.symm
  have hlast : (front ++ back ++ [e]).Perm (front ++ e :: back) := (List.perm_append_singleton e _).trans hfirst
  have htotal : total (front ++ e :: back) - e.net = total (front ++ back) := by
    rw [← total_perm hfirst, total_cons]
    omega
  rw [htotal]
  refine ⟨fun hpos => ?_, fun hneg => ?_, ?_, ?_⟩
  · obtain ⟨f, x, b, heq, hf, hb, hv⟩ := exists_turn hsame hlt hlast
    rcases List.eq_nil_or_concat b with rfl | ⟨b, y, rfl⟩
    · obtain ⟨rfl, hx⟩ := List.append_inj' heq rfl
      cases hx
      refine ⟨by rw [hv, total_nil, Int.add_zero], fun x hx => ?_⟩
      rcases List.mem_cons.mp (hfirst.symm.subset hx) with rfl | hx
      · exact Int.le_of_lt hpos
      · exact hf x hx
    · rw [List.concat_eq_append, ← List.cons_append, ← List.append_assoc] at heq
      obtain ⟨-, hy⟩ := List.append_inj' heq rfl
      cases hy
      exact absurd (hb e (by simp)) (Int.not_le.mpr hpos)
  · obtain ⟨f, x, b, heq, hf, hb, hv⟩ := exists_turn hsame hlt hfirst
    cases f with
    | nil =>
      obtain ⟨rfl, rfl⟩ := List.cons.inj heq
      refine ⟨hv, fun x hx => ?_⟩
      rcases List.mem_cons.mp (hfirst.symm.subset hx) with rfl | hx
      · exact Int.le_of_lt hneg
      · exact hb x hx
    | cons y f =>
      obtain ⟨rfl, -⟩ := List.cons.inj heq
      exact absurd (hf e List.mem_cons_self) (Int.not_le.mpr hneg)
  · have := le_bound hsame _ hlast
    rwa [total_nil, Int.add_zero] at this
  · exact le_bound hsame [] hfirst

theorem alikeAbove_of_same (hlt : v < a + total es) (hp : p ∈ es) (hq : q ∈ es) : AlikeAbove p q := by
  obtain ⟨hp₁, hp₂, hp₃, hp₄⟩ := turn_of_mem hsame hlt hp
  obtain ⟨hq₁, hq₂, hq₃, hq₄⟩ := turn_of_mem hsame hlt hq
  rw [AlikeAbove]
  rcases Int.lt_trichotomy p.net 0 with hneg | hzero | hpos
  · have := (hp₂ hneg).2 q hq
    grind
  · grind
  · have := (hp₁ hpos).2 q hq
    grind

end Same

/-! ## Both bounds -/

theorem foldl_neg (h : lo ≤ hi) (es : List Amounts) (a : Int) :
    (es.map Amounts.neg).foldl (add (-hi) (-lo)) (-a) = -es.foldl (add lo hi) a := by
  induction es generalizing a with
  | nil => rfl
  | cons e es ih =>
    rw [List.map_cons, List.foldl_cons, List.foldl_cons, ← ih]
    congr 1
    simp only [add, clip, first_neg, second_neg]
    omega

theorem alikeAbove_neg : AlikeAbove p.neg q.neg ↔ AlikeBelow p q := by
  simp only [AlikeAbove, AlikeBelow, net_neg, second_neg]
  omega

theorem OrderFree.foldl_eq (h : OrderFree lo hi a es) (hlo : lo ≤ a) (hhi : a ≤ hi) (hp : es'.Perm es) :
    es'.foldl (add lo hi) a = es.foldl (add lo hi) a := by
  obtain ⟨hbelow, habove⟩ | ⟨hlosses, halike⟩ | ⟨hgains, halike⟩ | halike := h
  · rw [foldl_of_stays hbelow habove, foldl_of_stays (fun f e b h => hbelow f e b (h.trans hp))
      (fun f e b h => habove f e b (h.trans hp)), total_perm hp]
  · rw [foldl_eq_below hhi hlosses, foldl_eq_below hhi (by rwa [losses_perm hp]), foldl_below_perm halike hp]
  · have hle := Int.le_trans hlo hhi
    rw [← Int.neg_inj, ← foldl_neg hle, ← foldl_neg hle, foldl_eq_below, foldl_eq_below,
      foldl_below_perm _ (hp.map _)]
    · intro p' hp' q' hq'
      obtain ⟨p, hp, rfl⟩ := List.mem_map.mp hp'
      obtain ⟨q, hq, rfl⟩ := List.mem_map.mp hq'
      exact alikeAbove_neg.mpr (halike p hp q hq)
    · omega
    · rw [losses_neg]
      omega
    · omega
    · rw [losses_neg, gains_perm hp]
      omega
  · exact (hp.symm.foldl_eq' halike a).symm

/-- What is the same in every order is order-free, if a bound is out of reach. -/
theorem orderFree_of_same (hlo : lo ≤ a) (hhi : a ≤ hi) (hreach : lo ≤ a + losses es ∨ a + gains es ≤ hi)
    (hsame : ∀ es' : List Amounts, es'.Perm es → es'.foldl (add lo hi) a = v) : OrderFree lo hi a es := by
  rcases hreach with hlosses | hgains
  · have hbelow : ∀ es' : List Amounts, es'.Perm es → es'.foldl (addBelow hi) a = v := fun es' hp => by
      rw [← hsame es' hp, foldl_eq_below hhi (by rwa [losses_perm hp])]
    by_cases h : StaysBelow hi a es
    · exact .inl ⟨h, .of_losses hlosses⟩
    · exact .inr (.inl ⟨hlosses, fun p hp q hq => alikeAbove_of_same hbelow (lt_of_not_staysBelow hbelow h) hp hq⟩)
  · have hlosses : -hi ≤ -a + losses (es.map Amounts.neg) := by
      rw [losses_neg]
      omega
    have hbelow : ∀ es' : List Amounts, es'.Perm (es.map Amounts.neg) → es'.foldl (addBelow (-lo)) (-a) = -v :=
      fun es' hp => by
        have hp' : (es'.map Amounts.neg).Perm es := by
          rw [← neg_neg es]
          exact hp.map _
        rw [← hsame _ hp', ← foldl_neg (Int.le_trans hlo hhi), neg_neg, foldl_eq_below (by omega)]
        rwa [losses_perm hp]
    by_cases h : StaysBelow (-lo) (-a) (es.map Amounts.neg)
    · exact .inl ⟨.of_gains hgains, staysBelow_neg.mp h⟩
    · refine .inr (.inr (.inl ⟨hgains, fun p hp q hq => alikeAbove_neg.mp ?_⟩))
      exact alikeAbove_of_same hbelow (lt_of_not_staysBelow hbelow h) (List.mem_map_of_mem hp) (List.mem_map_of_mem hq)

end MRE.Clip
