import Mathlib.Data.List.Nodup
import Mathlib.Data.List.Perm.Subperm

/-!
# Generational arenas

What a program relies on of an arena (`SlotMap`): a finite map whose keys are
chosen by `insert`, which never hands out a key that is live. How a key is
chosen, and in what order the live entries are enumerated, is left open.

`SlotVec` is a small arena of this kind.
-/

namespace MRE

/-- An arena of values `V` with keys `K`. `capacity` is the number of entries
it holds without growing. -/
class SlotMap (M : Type) (K V : outParam Type) [DecidableEq K] where
  withCapacity : Nat → M
  insert : M → V → K × M
  remove : M → K → Option V × M
  get? : M → K → Option V
  /-- Overwrite the value at a live key. -/
  set : M → K → V → M
  /-- The live keys, in the order in which they are enumerated. -/
  keys : M → List K
  capacity : M → Nat
  get?_withCapacity (n : Nat) (k : K) : get? (withCapacity n) k = none
  insert_fresh (m : M) (v : V) : get? m (insert m v).1 = none
  get?_insert (m : M) (v : V) (k : K) :
    get? (insert m v).2 k = if k = (insert m v).1 then some v else get? m k
  remove_fst (m : M) (k : K) : (remove m k).1 = get? m k
  get?_remove (m : M) (k k' : K) :
    get? (remove m k).2 k' = if k' = k then none else get? m k'
  get?_set {m : M} {k : K} (h : (get? m k).isSome) (v : V) (k' : K) :
    get? (set m k v) k' = if k' = k then some v else get? m k'
  mem_keys {m : M} {k : K} : k ∈ keys m ↔ (get? m k).isSome
  nodup_keys (m : M) : (keys m).Nodup
  capacity_insert {m : M} (h : (keys m).length < capacity m) (v : V) :
    capacity (insert m v).2 = capacity m
  capacity_remove (m : M) (k : K) : capacity (remove m k).2 = capacity m
  capacity_set (m : M) (k : K) (v : V) : capacity (set m k v) = capacity m

namespace SlotMap

variable {M K V : Type} [DecidableEq K] [SlotMap M K V]

def len (m : M) : Nat := (keys m).length

/-- The live values, in the order of their keys. -/
def values (m : M) : List V := (keys m).filterMap (get? m)

theorem len_le_of_live {m m' : M} (h : ∀ k, (get? m' k).isSome → (get? m k).isSome) : len m' ≤ len m :=
  (List.subperm_of_subset (nodup_keys m') fun k hk => mem_keys.mpr (h k (mem_keys.mp hk))).length_le

theorem len_le_succ_of_live {m m' : M} {k : K} (h : ∀ j, (get? m' j).isSome → j = k ∨ (get? m j).isSome) :
    len m' ≤ len m + 1 := by
  have hsub : keys m' ⊆ k :: keys m := fun j hj => by
    rw [List.mem_cons, mem_keys]
    exact h j (mem_keys.mp hj)
  exact (List.subperm_of_subset (nodup_keys m') hsub).length_le

/-- Update the value at a key in place; `none` if the key is not live. -/
def modify (m : M) (k : K) (f : V → V) : Option M :=
  (get? m k).map fun v => set m k (f v)

/-- `modify` at an optional key, if there is one. -/
def modifyOpt (m : M) (k : Option K) (f : V → V) : Option M :=
  match k with
  | some k => modify m k f
  | none => some m

theorem modify_ok {m : M} {k : K} (h : (get? m k).isSome) (f : V → V) :
    ∃ m', modify m k f = some m' ∧ (∀ j, get? m' j = if j = k then (get? m j).map f else get? m j) ∧
      capacity m' = capacity m := by
  obtain ⟨v, hv⟩ := Option.isSome_iff_exists.mp h
  refine ⟨set m k (f v), by rw [modify, hv, Option.map_some], fun j => ?_, capacity_set m k (f v)⟩
  rw [get?_set h]
  split
  · rename_i e; rw [e, hv, Option.map_some]
  · rfl

theorem modifyOpt_ok {m : M} {k : Option K} (h : ∀ j, k = some j → (get? m j).isSome) (f : V → V) :
    ∃ m', modifyOpt m k f = some m' ∧
      (∀ j, get? m' j = if k = some j then (get? m j).map f else get? m j) ∧
      capacity m' = capacity m := by
  cases k with
  | none => exact ⟨m, rfl, fun j => by rw [if_neg (by simp)], rfl⟩
  | some k =>
    obtain ⟨m', h₁, h₂, h₃⟩ := modify_ok (h k rfl) f
    refine ⟨m', h₁, fun j => ?_, h₃⟩
    rw [h₂]; simp only [Option.some.injEq, eq_comm]

/-- Every live value has a property. -/
def All (p : V → Prop) (m : M) : Prop := ∀ k v, get? m k = some v → p v

section All

variable {p : V → Prop} {m m' : M}

theorem All.insert (h : All p m) {v : V} (hv : p v) : All p (SlotMap.insert m v).2 := by
  intro k w hw
  rw [get?_insert] at hw
  split at hw
  · cases hw
    exact hv
  · exact h k w hw

theorem All.remove (h : All p m) (k : K) : All p (SlotMap.remove m k).2 := by
  intro j w hw
  rw [get?_remove] at hw
  split at hw
  · cases hw
  · exact h j w hw

theorem All.set (h : All p m) {k : K} (hk : (get? m k).isSome) {v : V} (hv : p v) : All p (SlotMap.set m k v) := by
  intro j w hw
  rw [get?_set hk] at hw
  split at hw
  · cases hw
    exact hv
  · exact h j w hw

theorem All.modify (h : All p m) {k : K} {f : V → V} (e : SlotMap.modify m k f = some m') (hf : ∀ v, p v → p (f v)) :
    All p m' := by
  obtain ⟨v, hv, rfl⟩ := Option.map_eq_some_iff.mp e
  exact h.set (by rw [hv]; rfl) (hf v (h k v hv))

theorem All.modifyOpt (h : All p m) {k : Option K} {f : V → V} (e : SlotMap.modifyOpt m k f = some m')
    (hf : ∀ v, p v → p (f v)) : All p m' := by
  cases k with
  | none =>
    cases e
    exact h
  | some k => exact h.modify e hf

end All

end SlotMap

/-! ## A vector of slots -/

/-- Slots that are not used again: a key is the index of its slot. -/
structure SlotVec (V : Type) where
  slots : List (Option V)
  capacity : Nat

abbrev SlotKey : Type := Nat

theorem getElem?_concat {α : Type} (xs : List α) (x : α) (r : Nat) :
    (xs ++ [x])[r]? = if r = xs.length then some x else xs[r]? := by
  by_cases hr : r = xs.length
  · rw [if_pos hr, hr, List.getElem?_concat_length]
  · rw [if_neg hr, List.getElem?_append]
    split
    · rfl
    · rw [List.getElem?_eq_none (by rw [List.length_singleton]; omega), List.getElem?_eq_none (by omega)]

namespace SlotVec

variable {V : Type}

def get? (m : SlotVec V) (k : SlotKey) : Option V := (m.slots[k]?).join

def keys (m : SlotVec V) : List SlotKey := (List.range m.slots.length).filter fun k => (m.get? k).isSome

theorem lt_length {m : SlotVec V} {k : SlotKey} (h : (m.get? k).isSome) : k < m.slots.length := by
  by_contra hge
  rw [get?, List.getElem?_eq_none (Nat.not_lt.mp hge)] at h
  cases h

theorem get?_set_slots {m : SlotVec V} {k : SlotKey} (h : (m.get? k).isSome) (v : Option V) (k' : SlotKey) :
    ((m.slots.set k v)[k']?).join = if k' = k then v else m.get? k' := by
  rw [List.getElem?_set]
  by_cases e : k = k'
  · subst e
    rw [if_pos rfl, if_pos rfl, if_pos (lt_length h)]
    rfl
  · rw [if_neg e, if_neg (Ne.symm e)]
    rfl

theorem get?_insert_slots (m : SlotVec V) (v : V) (k : SlotKey) :
    ((m.slots ++ [some v])[k]?).join = if k = m.slots.length then some v else m.get? k := by
  rw [getElem?_concat]
  split <;> rfl

instance : SlotMap (SlotVec V) SlotKey V where
  withCapacity n := ⟨[], n⟩
  insert m v := (m.slots.length,
    ⟨m.slots ++ [some v], if m.keys.length < m.capacity then m.capacity else 2 * m.capacity + 1⟩)
  remove m k := (m.get? k, if (m.get? k).isSome then { m with slots := m.slots.set k none } else m)
  get? := get?
  set m k v := { m with slots := m.slots.set k (some v) }
  keys := keys
  capacity := capacity
  get?_withCapacity _ _ := rfl
  insert_fresh m v := by rw [get?, List.getElem?_eq_none (Nat.le_refl _)]; rfl
  get?_insert := get?_insert_slots
  remove_fst _ _ := rfl
  get?_remove m k k' := by
    by_cases h : (m.get? k).isSome
    · rw [if_pos h]
      exact get?_set_slots h none k'
    · rw [if_neg h]
      split
      · rename_i e
        rw [e]
        exact Option.not_isSome_iff_eq_none.mp h
      · rfl
  get?_set h v k' := get?_set_slots h (some v) k'
  mem_keys {m k} := by
    rw [keys, List.mem_filter, List.mem_range, and_iff_right_of_imp lt_length]
  nodup_keys _ := List.nodup_range.filter _
  capacity_insert h _ := if_pos h
  capacity_remove m k := by
    split <;> rfl
  capacity_set _ _ _ := rfl

end SlotVec

end MRE
