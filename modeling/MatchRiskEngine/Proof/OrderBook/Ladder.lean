import MatchRiskEngine.Proof.OrderBook.Rep

/-!
# Ladders and best pointers

The ladders of a book as levels with queues (`Shape`), what happens to them
when one level changes (`Shape.setLevel`), and the best pointers: the scan
along a ladder finds the first occupied index (`Shape.scanLadder_eq`), so that
`clearEmptyBest` restores `IsBest` after an order left the book
(`Shape.clearEmptyBest_ok`), and `refreshBest_ok` after one came to rest. The
representation invariant `Rep` is `Sound`, the order of the queues and the id
map together.
-/

namespace MRE

open SlotMap

namespace OrderBook

variable {M K : Type}

/-- The indices a best pointer is moved along, from `start` on. -/
def scanFrom (s : Side) (n start : Nat) : List Nat :=
  match s with
  | .buy => (List.range (start + 1)).reverse
  | .sell => List.range' start (n - start)

/-- The best pointer of a side after an insert at `hint`. -/
def refreshBest (b : OrderBook M K) (s : Side) (hint : Nat) : OrderBook M K :=
  match s with
  | .buy => b.refreshBestBidUp hint
  | .sell => b.refreshBestAskDown hint

theorem clearEmptyBest_eq (b : OrderBook M K) (s : Side) (i : Nat) :
    b.clearEmptyBest s i = if b.best s = some i
      then (scanLadder (b.ladder s) (scanFrom s (b.ladder s).length i)).map (b.setBest s) else some b := by
  cases s
  · by_cases h : b.bestBidIdx = some i
    · simp only [clearEmptyBest, best, scanBestBidDown, h, if_true]; rfl
    · simp only [clearEmptyBest, best, h, if_false]
  · by_cases h : b.bestAskIdx = some i
    · simp only [clearEmptyBest, best, scanBestAskUp, h, if_true]; rfl
    · simp only [clearEmptyBest, best, h, if_false]

@[simp] theorem best_setBest (b : OrderBook M K) (s : Side) (i : Option Nat) : (b.setBest s i).best s = i := by
  cases s <;> rfl

@[simp] theorem best_setBest_opposite (b : OrderBook M K) {s s' : Side} (h : s' ≠ s) (i : Option Nat) :
    (b.setBest s i).best s' = b.best s' := by
  cases s <;> cases s' <;> first | rfl | exact absurd rfl h

@[simp] theorem setBest_best (b : OrderBook M K) (s : Side) : b.setBest s (b.best s) = b := by cases s <;> rfl

@[simp] theorem ladder_setBest (b : OrderBook M K) (s s' : Side) (i : Option Nat) :
    (b.setBest s i).ladder s' = b.ladder s' := by cases s <;> cases s' <;> rfl

@[simp] theorem arena_setBest (b : OrderBook M K) (s : Side) (i : Option Nat) :
    (b.setBest s i).arena = b.arena := by cases s <;> rfl

@[simp] theorem idToKey_setBest (b : OrderBook M K) (s : Side) (i : Option Nat) :
    (b.setBest s i).idToKey = b.idToKey := by cases s <;> rfl

@[simp] theorem arena_setLevel (b : OrderBook M K) (s : Side) (i : Nat) (l : PriceLevel K) :
    (b.setLevel s i l).arena = b.arena := by cases s <;> rfl

@[simp] theorem idToKey_setLevel (b : OrderBook M K) (s : Side) (i : Nat) (l : PriceLevel K) :
    (b.setLevel s i l).idToKey = b.idToKey := by cases s <;> rfl

@[simp] theorem best_setLevel (b : OrderBook M K) (s s' : Side) (i : Nat) (l : PriceLevel K) :
    (b.setLevel s i l).best s' = b.best s' := by cases s <;> cases s' <;> rfl

theorem ladder_setLevel (b : OrderBook M K) (s s' : Side) (i : Nat) (l : PriceLevel K) :
    (b.setLevel s i l).ladder s' = if s' = s then (b.ladder s).set i (some l) else b.ladder s' := by
  cases s <;> cases s' <;> rfl

variable [DecidableEq K] [Arena M K]

@[simp] theorem refConfig_setBest (b : OrderBook M K) (s : Side) (i : Option Nat) :
    (b.setBest s i).refConfig = b.refConfig := by cases s <;> rfl

@[simp] theorem refConfig_setLevel (b : OrderBook M K) (s : Side) (i : Nat) (l : PriceLevel K) :
    (b.setLevel s i l).refConfig = b.refConfig := by
  cases s
  · simp [setLevel, refConfig]
  · rfl

theorem priceToIdx_eq {b : OrderBook M K} (h : b.bids.length < 2 ^ 63) (p : Price) :
    b.priceToIdx p = b.refConfig.index? p := by
  refine Option.ext fun i => ?_
  rw [RefConfig.index?_eq_some, priceToIdx, Option.bind_eq_bind, Option.bind_eq_some_iff]
  show _ ↔ p.raw.toInt = b.tickFloor.raw.toInt + i ∧ i < b.bids.length
  refine ⟨fun ⟨o, ho, hi⟩ => ?_, fun ⟨hp, hi⟩ => ?_⟩
  · rw [Int64.checkedSub_eq_some] at ho
    simp only [Int64.lt_iff_toInt_lt, ← Int64.toNat_toInt, Int64.toInt_zero] at hi
    split at hi
    · cases hi
    · split at hi
      · cases hi
      · cases hi; omega
  · have ho : (Int64.ofNat i).toInt = i := Int64.toInt_ofNat_of_lt (by omega)
    refine ⟨Int64.ofNat i, Int64.checkedSub_eq_some.mpr (by omega), ?_⟩
    simp only [Int64.lt_iff_toInt_lt, ← Int64.toNat_toInt, ho, Int64.toInt_zero, Int.toNat_natCast]
    rw [if_neg (by omega), if_neg (by omega)]

theorem idxToPrice_eq {b : OrderBook M K} (h : b.bids.length < 2 ^ 63) {p : Price} {i : Nat}
    (hi : b.refConfig.index? p = some i) : b.idxToPrice i = p := by
  obtain ⟨hp, hi⟩ := RefConfig.index?_eq_some.mp hi
  replace hp : p.raw.toInt = b.tickFloor.raw.toInt + i := hp
  replace hi : i < b.bids.length := hi
  refine congrArg Price.mk (Int64.toInt_inj.mp ?_)
  rw [Int64.toInt_add, Int64.toInt_ofNat_of_lt (by omega), ← hp]
  exact Int64.bmod_of_range (Int64.le_toInt p.raw) (Int64.toInt_lt p.raw)

end OrderBook

namespace Proof.Book

variable {M K : Type}

/-! ## Best pointers -/

theorem isBest_find? {s : Side} {p : Nat → Bool} {is : List Nat} (hs : is.Pairwise s.beats)
    (hall : ∀ j, p j = true → j ∈ is) : IsBest s (fun j => p j = true) (is.find? p) := by
  cases h : is.find? p with
  | none =>
    intro j hj
    exact List.find?_eq_none.mp h j (hall j hj) hj
  | some i =>
    obtain ⟨hi, as, bs, rfl, has⟩ := List.find?_eq_some_iff_append.mp h
    refine ⟨hi, fun j hj hji => ?_⟩
    rcases List.mem_append.mp (hall j hj) with hm | hm
    · have := has j hm
      rw [hj] at this
      cases this
    · rcases List.mem_cons.mp hm with rfl | hm
      · cases s <;> exact Nat.lt_irrefl j hji
      · have hij := (List.pairwise_cons.mp (List.pairwise_append.mp hs).2.1).1 j hm
        cases s <;> exact Nat.lt_asymm hji hij

theorem pairwise_scanFrom (s : Side) (n start : Nat) : (OrderBook.scanFrom s n start).Pairwise s.beats := by
  cases s
  · exact List.pairwise_reverse.mpr List.pairwise_lt_range
  · exact List.pairwise_lt_range'

theorem mem_scanFrom {s : Side} {n start j : Nat} (hj : j < n) (h : ¬ s.beats j start) :
    j ∈ OrderBook.scanFrom s n start := by
  cases s
  · have h' : ¬ start < j := h
    simp only [OrderBook.scanFrom, List.mem_reverse, List.mem_range]
    omega
  · have h' : ¬ j < start := h
    simp only [OrderBook.scanFrom, List.mem_range'_1]
    omega

theorem lt_of_mem_scanFrom {s : Side} {n start j : Nat} (hs : start < n)
    (h : j ∈ OrderBook.scanFrom s n start) : j < n := by
  cases s
  · simp only [OrderBook.scanFrom, List.mem_reverse, List.mem_range] at h; omega
  · simp only [OrderBook.scanFrom, List.mem_range'_1] at h; omega

/-- After an order came to rest at `i`, the best pointer is at the best
occupied index. -/
theorem refreshBest_ok {Q Q' : Side → Nat → List K} (b : OrderBook M K) {s : Side} {i : Nat}
    (hbest : IsBest s (fun j => Q s j ≠ []) (b.best s)) (hi : Q' s i ≠ [])
    (hne : ∀ j, j ≠ i → (Q' s j ≠ [] ↔ Q s j ≠ [])) :
    ∃ best', b.refreshBest s i = b.setBest s best' ∧ IsBest s (fun j => Q' s j ≠ []) best' := by
  have hnew : (∀ j, Q s j ≠ [] → ¬ s.beats j i) → IsBest s (fun j => Q' s j ≠ []) (some i) := by
    refine fun h => ⟨hi, fun j hj => ?_⟩
    rcases eq_or_ne j i with rfl | hji
    · cases s <;> exact Nat.lt_irrefl j
    · exact h j ((hne j hji).mp hj)
  have hold : ∀ i₀, Q s i₀ ≠ [] → (∀ j, Q s j ≠ [] → ¬ s.beats j i₀) → ¬ s.beats i i₀ →
      IsBest s (fun j => Q' s j ≠ []) (some i₀) := by
    intro i₀ h₀ hb₀ hlt
    have hocc : ∀ j, Q' s j ≠ [] → ¬ s.beats j i₀ := fun j hj => by
      rcases eq_or_ne j i with rfl | hji
      · exact hlt
      · exact hb₀ j ((hne j hji).mp hj)
    rcases eq_or_ne i₀ i with rfl | hji
    · exact ⟨hi, hocc⟩
    · exact ⟨(hne i₀ hji).mpr h₀, hocc⟩
  cases h : b.best s with
  | none =>
    rw [h] at hbest
    refine ⟨some i, ?_, hnew fun j hj => absurd hj (hbest j)⟩
    cases s
    · rw [OrderBook.refreshBest, OrderBook.refreshBestBidUp, show b.bestBidIdx = none from h]; rfl
    · rw [OrderBook.refreshBest, OrderBook.refreshBestAskDown, show b.bestAskIdx = none from h]; rfl
  | some i₀ =>
    rw [h] at hbest
    by_cases hc : s.beats i i₀
    · refine ⟨some i, ?_, hnew fun j hj hji => hbest.2 j hj ?_⟩
      · cases s
        · rw [OrderBook.refreshBest, OrderBook.refreshBestBidUp, show b.bestBidIdx = some i₀ from h]
          exact if_pos hc
        · rw [OrderBook.refreshBest, OrderBook.refreshBestAskDown, show b.bestAskIdx = some i₀ from h]
          exact if_pos hc
      · cases s
        · exact Nat.lt_trans hc hji
        · exact Nat.lt_trans hji hc
    · refine ⟨some i₀, ?_, hold i₀ hbest.1 hbest.2 hc⟩
      rw [← h, OrderBook.setBest_best]
      cases s
      · rw [OrderBook.refreshBest, OrderBook.refreshBestBidUp, show b.bestBidIdx = some i₀ from h]
        exact if_neg hc
      · rw [OrderBook.refreshBest, OrderBook.refreshBestAskDown, show b.bestAskIdx = some i₀ from h]
        exact if_neg hc

/-! ## The ladders -/

variable [DecidableEq K] [Arena M K]

/-- The ladders of the book are levels with the queues `Q`, whatever the
sequence numbers of the orders. -/
structure Shape (c : RefConfig) (b : OrderBook M K) (Q : Side → Nat → List K) : Prop where
  config : b.refConfig = c
  fits : c.numTicks < 2 ^ 63
  length (s) : (b.ladder s).length = c.numTicks
  level {s i l} : (b.ladder s)[i]? = some (some l) → LevelOk b.arena l (Q s i)
  price {s i l} : (b.ladder s)[i]? = some (some l) → c.index? l.price = some i
  occupied {s i} : Q s i ≠ [] → ∃ l, (b.ladder s)[i]? = some (some l)
  seated : Seated c (dataOf b.arena) Q

/-- The part of the representation invariant that does not depend on sequence
numbers and ids. -/
structure Sound (c : RefConfig) (b : OrderBook M K) (Q : Side → Nat → List K) : Prop extends Shape c b Q where
  best (s) : IsBest s (fun i => Q s i ≠ []) (b.best s)

/-- The representation invariant. -/
structure Rep (c : RefConfig) (b : OrderBook M K) (Q : Side → Nat → List K) : Prop extends sound : Sound c b Q where
  placed : Placed c (dataOf b.arena) Q
  ids : IdsOk b.idToKey (dataOf b.arena)

namespace Shape

variable {c : RefConfig} {b : OrderBook M K} {Q : Side → Nat → List K}

theorem live (hb : Shape c b Q) {s : Side} {i : Nat} {k : K} (hk : k ∈ Q s i) : (get? b.arena k).isSome := by
  rw [← dataOf_isSome]
  exact hb.seated.isSome hk

theorem lt_of_occupied (hb : Shape c b Q) {s : Side} {i : Nat} (hq : Q s i ≠ []) : i < c.numTicks := by
  obtain ⟨l, hl⟩ := hb.occupied hq
  rw [← hb.length s]
  exact (List.getElem?_eq_some_iff.mp hl).1

theorem priceToIdx (hb : Shape c b Q) (p : Price) : b.priceToIdx p = c.index? p := by
  have hf := hb.fits
  rw [← hb.config] at hf ⊢
  exact OrderBook.priceToIdx_eq hf p

theorem idxToPrice (hb : Shape c b Q) {p : Price} {i : Nat} (hi : c.index? p = some i) :
    b.idxToPrice i = p := by
  have hf := hb.fits
  rw [← hb.config] at hf hi
  exact OrderBook.idxToPrice_eq hf hi

/-- The book with another id map and best pointers has the same ladders. -/
theorem congr (hb : Shape c b Q) {b' : OrderBook M K} (hc : b'.refConfig = b.refConfig)
    (ha : b'.arena = b.arena) (hl : ∀ s, b'.ladder s = b.ladder s) : Shape c b' Q where
  config := hc.trans hb.config
  fits := hb.fits
  length s := by rw [hl, hb.length]
  level h := by rw [hl] at h; rw [ha]; exact hb.level h
  price h := by rw [hl] at h; exact hb.price h
  occupied h := by rw [hl]; exact hb.occupied h
  seated := by rw [ha]; exact hb.seated

/-- One level and its queue change: the orders elsewhere are as before. -/
theorem setLevel (hb : Shape c b Q) {s : Side} {i : Nat} {l : PriceLevel K} {arena : M} {ks : List K}
    (hi : i < c.numTicks) (hl : LevelOk arena l ks) (hp : c.index? l.price = some i)
    (hout : ∀ j, (dataOf b.arena j).isSome → j ∉ Q s i → get? arena j = get? b.arena j)
    (hcap : capacity arena = capacity b.arena) (hpl : Seated c (dataOf arena) (setQueue Q s i ks)) :
    Shape c ({ b with arena }.setLevel s i l) (setQueue Q s i ks) := by
  have hlad : ∀ s', OrderBook.ladder { b with arena } s' = b.ladder s' := fun s' => by cases s' <;> rfl
  have hget : ∀ s' i', (OrderBook.ladder ({ b with arena }.setLevel s i l) s')[i']? =
      if s' = s ∧ i' = i then some (some l) else (b.ladder s')[i']? := by
    intro s' i'
    rw [OrderBook.ladder_setLevel]
    split
    · rename_i e
      subst e
      rw [List.getElem?_set, hlad, hb.length]
      simp only [true_and, hi, if_true, eq_comm]
    · rename_i e; rw [hlad, if_neg fun h => e h.1]
  refine ⟨?_, hb.fits, fun s' => ?_, fun {s' i' l'} h => ?_, fun {s' i' l'} h => ?_, fun {s' i'} h => ?_, ?_⟩
  · rw [OrderBook.refConfig_setLevel, ← hb.config, OrderBook.refConfig, OrderBook.refConfig, hcap]
  · rw [OrderBook.ladder_setLevel]
    split
    · rw [List.length_set, hlad, hb.length]
    · rw [hlad, hb.length]
  · rw [hget] at h
    rw [OrderBook.arena_setLevel]
    split at h
    · rename_i e
      obtain ⟨rfl, rfl⟩ := e
      cases h
      rw [setQueue_self]; exact hl
    · rename_i e
      rw [setQueue_ne _ _ e]
      refine (hb.level h).congr fun k hk => hout k (hb.seated.isSome hk) fun hk' => e (hb.seated.unique hk' hk)
  · rw [hget] at h
    split at h
    · rename_i e
      obtain ⟨rfl, rfl⟩ := e
      cases h
      exact hp
    · exact hb.price h
  · rw [hget]
    split
    · exact ⟨l, rfl⟩
    · rename_i e
      rw [setQueue_ne _ _ e] at h
      exact hb.occupied h
  · rw [OrderBook.arena_setLevel]; exact hpl

theorem scanLadder_eq (hb : Shape c b Q) {s : Side} {is : List Nat} (his : ∀ i ∈ is, i < c.numTicks) :
    OrderBook.scanLadder (b.ladder s) is = some (is.find? fun i => !(Q s i).isEmpty) := by
  induction is with
  | nil => rfl
  | cons i is ih =>
    have hi : i < (b.ladder s).length := by rw [hb.length]; exact his i List.mem_cons_self
    have ih := ih fun j hj => his j (List.mem_cons_of_mem i hj)
    have hg := List.getElem?_eq_getElem hi
    rw [OrderBook.scanLadder, hg, Option.bind_eq_bind, Option.bind_some, List.find?_cons]
    cases hl : (b.ladder s)[i] with
    | none =>
      have he : Q s i = [] := by
        by_contra hne
        obtain ⟨l, h⟩ := hb.occupied hne
        rw [hg, hl] at h
        cases h
      simp only [he, List.isEmpty_nil, Bool.not_true, ih]
    | some l =>
      rw [hl] at hg
      simp only [(hb.level hg).isEmpty]
      cases (Q s i).isEmpty
      · rfl
      · exact ih

/-- After an order left the level at `i`, `clear_empty_best` leaves the best
pointer at the best occupied index. -/
theorem clearEmptyBest_ok {Q' : Side → Nat → List K} (hb : Shape c b Q') {s : Side} {i : Nat} (hi : i < c.numTicks)
    (hbest : IsBest s (fun j => Q s j ≠ []) (b.best s)) (hsub : ∀ j, Q' s j ≠ [] → Q s j ≠ [])
    (hne : ∀ j, j ≠ i → Q s j ≠ [] → Q' s j ≠ []) :
    ∃ best', (if (Q' s i).isEmpty then b.clearEmptyBest s i else some b) = some (b.setBest s best') ∧
      IsBest s (fun j => Q' s j ≠ []) best' := by
  have hsame : (b.best s = some i → Q' s i ≠ []) → IsBest s (fun j => Q' s j ≠ []) (b.best s) := by
    intro h
    cases he : b.best s with
    | none =>
      rw [he] at hbest
      exact fun j hj => hbest j (hsub j hj)
    | some i₀ =>
      rw [he] at hbest h
      refine ⟨?_, fun j hj => hbest.2 j (hsub j hj)⟩
      rcases eq_or_ne i₀ i with rfl | hi₀
      · exact h rfl
      · exact hne i₀ hi₀ hbest.1
  by_cases he : (Q' s i).isEmpty
  · rw [if_pos he, OrderBook.clearEmptyBest_eq]
    split
    · rename_i hbi
      rw [hb.length, hb.scanLadder_eq fun j hj => lt_of_mem_scanFrom hi hj]
      refine ⟨_, rfl, ?_⟩
      have := isBest_find? (p := fun j => !(Q' s j).isEmpty) (pairwise_scanFrom s c.numTicks i) fun j hj => ?_
      · simpa using this
      · have hj : Q' s j ≠ [] := by simpa using hj
        rw [hbi] at hbest
        exact mem_scanFrom (hb.lt_of_occupied hj) (hbest.2 j (hsub j hj))
    · rename_i hbi
      exact ⟨b.best s, by rw [OrderBook.setBest_best], hsame fun e => absurd e hbi⟩
  · rw [if_neg he]
    exact ⟨b.best s, by rw [OrderBook.setBest_best], hsame fun _ => by simpa using he⟩

end Shape

end Proof.Book

end MRE
