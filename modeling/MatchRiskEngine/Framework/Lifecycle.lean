import Mathlib.Algebra.GroupWithZero.Nat
import Mathlib.Data.List.Basic

/-!
# The life of a quantity

A quantity that is used up in parts, with a note for each part, until nothing
is left of it or the rest is given up. `Moves` says how the notes of one step
change what is still open, and `Course` how the notes of a whole history, the
quantity and what is open hang together; a step keeps that (`Course.step`).
-/

namespace MRE

/-- A note about a quantity: a part of it was used, or the rest was given
up. -/
inductive Note where
  | fill (n : Nat)
  | cancel
  deriving DecidableEq, Repr

/-- What a note says was used. -/
def Note.used : Note → Nat
  | .fill n => n
  | .cancel => 0

/-- One note for each part. -/
def fills (ns : List Nat) : List Note := ns.map .fill

/-- The notes of a step in which what is open changes from `x` to `x'`. -/
inductive Moves : List Note → Option Nat → Option Nat → Prop
  | same (x : Option Nat) : Moves [] x x
  | part {n x x' : Nat} (h : n + x' = x) (hx : x' ≠ 0) : Moves [.fill n] (some x) (some x')
  | full (x : Nat) : Moves [.fill x] (some x) none
  | cancel (x : Nat) : Moves [.cancel] (some x) none

/-- The notes about a quantity `q` of which `x` is still open; `refused` if it
was turned down at the start. -/
inductive Course (refused : Prop) (q : Nat) : List Note → Option Nat → Prop
  | refused (h : refused) {ns : List Nat} (hz : ns.sum = 0) : Course refused q (fills ns) none
  | resting (hr : ¬ refused) {ns : List Nat} {x : Nat} (h : ns.sum + x = q) (hx : x ≠ 0) :
      Course refused q (fills ns) (some x)
  | filled {ns : List Nat} (h : ns.sum = q) : Course refused q (fills ns) none
  | cancelled (hr : ¬ refused) {ns : List Nat} (h : ns.sum < q) : Course refused q (fills ns ++ [.cancel]) none

theorem fills_append (ns ns' : List Nat) : fills (ns ++ ns') = fills ns ++ fills ns' := List.map_append

theorem sum_used_fills (ns : List Nat) : ((fills ns).map Note.used).sum = ns.sum := by
  rw [fills, List.map_map]
  exact congrArg List.sum (List.map_id ns)

theorem cancel_notMem_fills (ns : List Nat) : Note.cancel ∉ fills ns := by
  intro h
  obtain ⟨n, -, e⟩ := List.mem_map.mp h
  cases e

theorem Course.step {refused : Prop} {q : Nat} {notes notes' : List Note} {x x' : Option Nat}
    (h : Course refused q notes x) (hm : Moves notes' x x') : Course refused q (notes ++ notes') x' := by
  cases hm with
  | same => rwa [List.append_nil]
  | @part n y y' hn hy =>
    cases h with
    | @resting hr ns _ h hx =>
      rw [← show fills (ns ++ [n]) = fills ns ++ [.fill n] from fills_append ns [n]]
      refine .resting hr ?_ hy
      rw [List.sum_append, List.sum_singleton]
      omega
  | full y =>
    cases h with
    | @resting hr ns _ h hx =>
      rw [← show fills (ns ++ [y]) = fills ns ++ [.fill y] from fills_append ns [y]]
      refine .filled ?_
      rw [List.sum_append, List.sum_singleton]
      omega
  | cancel y =>
    cases h with
    | resting hr h hx => exact .cancelled hr (by omega)

end MRE
