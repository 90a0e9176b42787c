import Mathlib.Algebra.BigOperators.Group.List.Basic
import Mathlib.Algebra.Order.Ring.Int
import Mathlib.Data.List.Nodup
import Mathlib.Logic.Function.Basic

/-!
# Ledgers

A table of open positions kept from a log: an entry is put in under its identifier,
cut down (and dropped when nothing is left of it), or dropped. `Ledger.Tracks view
m xs`: the table `m` holds exactly the views of the items `xs`.

A posting is an amount on a key, and `Postings.net` the balance of a key. The total
of some keys can be taken in parts, if each of them is in exactly one part
(`Postings.sum_total`).
-/

namespace MRE

/-- A table of values by identifier. -/
abbrev Ledger (I V : Type) : Type := I → Option V

namespace Ledger

variable {I V X : Type}

/-- The table holds the views of the items, under their identifiers. -/
def Tracks (key : X → I) (view : X → V) (m : Ledger I V) (xs : List X) : Prop :=
  ∀ i v, m i = some v ↔ ∃ x ∈ xs, key x = i ∧ view x = v

variable {key : X → I} {view : X → V} {m : Ledger I V} {xs ys : List X}

theorem Tracks.empty : Tracks key view (fun _ => none) [] := fun i v => by simp

theorem Tracks.congr (h : Tracks key view m xs) (hm : ∀ x, x ∈ ys ↔ x ∈ xs) : Tracks key view m ys := fun i v => by
  rw [h i v]; simp only [hm]

variable [DecidableEq I]

def put (m : Ledger I V) (i : I) (v : V) : Ledger I V := Function.update m i (some v)

def drop (m : Ledger I V) (i : I) : Ledger I V := Function.update m i none

/-- Reduce the entry at `i`, if there is one. -/
def cut (m : Ledger I V) (i : I) (f : V → Option V) : Ledger I V := Function.update m i ((m i).bind f)

theorem Tracks.put (h : Tracks key view m xs) {x : X} (hx : ∀ y ∈ xs, key y ≠ key x) :
    Tracks key view (m.put (key x) (view x)) (x :: xs) := by
  intro i v
  simp only [List.mem_cons, exists_eq_or_imp]
  rcases eq_or_ne i (key x) with rfl | hi
  · rw [Ledger.put, Function.update_self, Option.some.injEq]
    refine ⟨fun e => .inl ⟨rfl, e⟩, ?_⟩
    rintro (e | ⟨y, hy, e, -⟩)
    · exact e.2
    · exact absurd e (hx y hy)
  · rw [Ledger.put, Function.update_of_ne hi, h i v]
    exact ⟨.inr, fun e => e.resolve_left fun e => hi e.1.symm⟩

theorem Tracks.drop (h : Tracks key view m xs) (i : I) :
    Tracks key view (m.drop i) (xs.filter fun x => key x ≠ i) := by
  intro j v
  simp only [List.mem_filter, decide_eq_true_eq]
  rcases eq_or_ne j i with rfl | hj
  · rw [Ledger.drop, Function.update_self]
    simp only [reduceCtorEq, false_iff, not_exists, not_and]
    exact fun x hx e => absurd e hx.2
  · rw [Ledger.drop, Function.update_of_ne hj, h j v]
    exact exists_congr fun x => ⟨fun h => ⟨⟨h.1, h.2.1 ▸ hj⟩, h.2⟩, fun h => ⟨h.1.1, h.2⟩⟩

/-- Dropping an identifier that is not in use changes nothing. -/
theorem drop_eq_self {i : I} (h : m i = none) : m.drop i = m := by
  rw [Ledger.drop, ← h, Function.update_eq_self]

theorem Tracks.drop_head {x : X} (h : Tracks key view m (x :: xs)) (hx : ∀ y ∈ xs, key y ≠ key x) :
    Tracks key view (m.drop (key x)) xs := by
  refine (h.drop (key x)).congr fun y => ?_
  simp only [List.mem_filter, List.mem_cons, decide_eq_true_eq]
  exact ⟨fun hy => ⟨.inr hy, hx y hy⟩, fun hy => hy.1.resolve_left fun e => hy.2 (by rw [e])⟩

/-- An item is cut down to another with the same identifier. -/
theorem Tracks.cut_head {x x' : X} (h : Tracks key view m (x :: xs)) (hx : ∀ y ∈ xs, key y ≠ key x)
    (hkey : key x' = key x) {f : V → Option V} (hf : f (view x) = some (view x')) :
    Tracks key view (m.cut (key x) f) (x' :: xs) := by
  have hm : m (key x) = some (view x) := (h (key x) (view x)).mpr ⟨x, List.mem_cons_self, rfl, rfl⟩
  have hcut : m.cut (key x) f = (m.drop (key x)).put (key x') (view x') := by
    rw [Ledger.cut, Ledger.put, Ledger.drop, hm, Option.bind_some, hf, hkey, Function.update_idem]
  rw [hcut]
  exact (h.drop_head hx).put fun y hy => hkey ▸ hx y hy

theorem Tracks.cut_all {x : X} (h : Tracks key view m (x :: xs)) (hx : ∀ y ∈ xs, key y ≠ key x)
    {f : V → Option V} (hf : f (view x) = none) : Tracks key view (m.cut (key x) f) xs := by
  have hm : m (key x) = some (view x) := (h (key x) (view x)).mpr ⟨x, List.mem_cons_self, rfl, rfl⟩
  have hcut : m.cut (key x) f = m.drop (key x) := by rw [Ledger.cut, hm, Option.bind_some, hf]; rfl
  rw [hcut]
  exact h.drop_head hx

end Ledger

end MRE

namespace MRE.Postings

variable {κ ι : Type} {p : κ → Bool} {ps : List (κ × ℤ)}

/-- The sum of the amounts on the keys with `p`. -/
def total (p : κ → Bool) (ps : List (κ × ℤ)) : ℤ := ((ps.filter fun x => p x.1).map Prod.snd).sum

/-- The sum of the amounts on a key. -/
def net [DecidableEq κ] (k : κ) (ps : List (κ × ℤ)) : ℤ := total (fun k' => decide (k' = k)) ps

@[simp] theorem total_nil (p : κ → Bool) : total p [] = 0 := rfl

theorem total_cons (p : κ → Bool) (x : κ × ℤ) (ps : List (κ × ℤ)) :
    total p (x :: ps) = (if p x.1 then x.2 else 0) + total p ps := by
  rw [total, List.filter_cons]
  split
  · rw [List.map_cons, List.sum_cons]
    rfl
  · rw [Int.zero_add]
    rfl

theorem total_append (p : κ → Bool) (ps qs : List (κ × ℤ)) : total p (ps ++ qs) = total p ps + total p qs := by
  rw [total, List.filter_append, List.map_append, List.sum_append]
  rfl

/-- Postings that add up to nothing on the keys with `p` do so together. -/
theorem total_flatMap_eq_zero {α : Type} {f : α → List (κ × ℤ)} {xs : List α} (h : ∀ x ∈ xs, total p (f x) = 0) :
    total p (xs.flatMap f) = 0 := by
  induction xs with
  | nil => rfl
  | cons x xs ih =>
    obtain ⟨hx, hxs⟩ := List.forall_mem_cons.mp h
    rw [List.flatMap_cons, total_append, hx, ih hxs, Int.zero_add]

theorem net_concat [DecidableEq κ] (k : κ) (ps : List (κ × ℤ)) (x : κ × ℤ) :
    net k (ps ++ [x]) = net k ps + if x.1 = k then x.2 else 0 := by
  simp [net, total_append, total_cons]

/-! ## Totals in parts -/

theorem sum_map_ite (q : ι → Bool) (a : ℤ) (xs : List ι) :
    (xs.map fun i => if q i then a else 0).sum = xs.countP q * a := by
  induction xs with
  | nil => simp
  | cons i xs ih =>
    rw [List.map_cons, List.sum_cons, ih, List.countP_cons]
    split
    · rw [Int.natCast_add, Int.natCast_one, Int.add_mul, Int.one_mul, Int.add_comm]
    · rw [Nat.add_zero, Int.zero_add]

/-- A total is the sum of the totals of its parts, if each of its keys is in one
part and no other key is in any. -/
theorem sum_total {xs : List ι} {part : ι → κ → Bool}
    (h : ∀ x ∈ ps, xs.countP (fun i => part i x.1) = if p x.1 then 1 else 0) :
    (xs.map fun i => total (part i) ps).sum = total p ps := by
  induction ps with
  | nil => simp
  | cons x ps ih =>
    obtain ⟨hx, hps⟩ := List.forall_mem_cons.mp h
    simp only [total_cons]
    rw [List.sum_map_add, ih hps, sum_map_ite, hx]
    split <;> simp

/-- A total is the sum of the balances of its keys. -/
theorem sum_net [DecidableEq κ] {keys : List κ} (hnodup : keys.Nodup)
    (h : ∀ x ∈ ps, (x.1 ∈ keys ↔ p x.1 = true)) : (keys.map fun k => net k ps).sum = total p ps := by
  refine sum_total fun x hx => ?_
  have hcount : keys.countP (fun k => decide (x.1 = k)) = keys.count x.1 :=
    List.countP_congr fun k _ => by rw [decide_eq_true_iff, beq_iff_eq, eq_comm]
  rw [hcount]
  split
  · rename_i hp
    exact List.count_eq_one_of_mem hnodup ((h x hx).mpr hp)
  · rename_i hp
    exact List.count_eq_zero_of_not_mem (mt (h x hx).mp hp)

end MRE.Postings
