import Mathlib.Data.List.Nodup
import Mathlib.Data.List.Perm.Basic

/-!
# Concurrent maps and channels

What a program relies on of `crossbeam` (`Crossbeam`): a map by 64-bit keys that
is iterated in ascending order while others change it, and an unbounded channel.
Each operation is one step. How they are stored is left open.

`Crossbeam.lists` is a small implementation.
-/

namespace MRE

structure Crossbeam (V : Type) where
  Map : Type
  newMap : Map
  /-- The entries, by ascending keys. -/
  entries : Map → List (UInt64 × V)
  insert : Map → UInt64 → V → Map
  remove : Map → UInt64 → Map
  /-- The next entry of an iteration that has come as far as a key. -/
  next : Map → Option UInt64 → Option (UInt64 × V)
  sorted (m : Map) : (entries m).Pairwise fun x y => x.1 < y.1
  entries_new : entries newMap = []
  mem_insert {m : Map} {k : UInt64} {v : V} {x : UInt64 × V} :
    x ∈ entries (insert m k v) ↔ x = (k, v) ∨ x ∈ entries m ∧ x.1 ≠ k
  mem_remove {m : Map} {k : UInt64} {x : UInt64 × V} : x ∈ entries (remove m k) ↔ x ∈ entries m ∧ x.1 ≠ k
  next_eq (m : Map) (last : Option UInt64) : next m last = (entries m).find? fun x => last.all (· < x.1)
  Channel : Type
  newChannel : Channel
  /-- What was sent and is not received yet. -/
  queued : Channel → List V
  send : Channel → V → Channel
  recv : Channel → Option (V × Channel)
  /-- The last receiver goes. -/
  disconnect : Channel → Channel
  queued_new : queued newChannel = []
  queued_send (c : Channel) (v : V) : queued (send c v) = queued c ++ [v]
  recv_some {c c' : Channel} {v : V} : recv c = some (v, c') → queued c = v :: queued c'
  recv_none {c : Channel} : recv c = none → queued c = []
  queued_disconnect (c : Channel) : queued (disconnect c) = []

namespace Crossbeam

variable {V : Type} {X : Crossbeam V} {m : X.Map} {c : X.Channel} {k : UInt64} {v : V}

/-! ## The map -/

theorem nodup_keys (X : Crossbeam V) (m : X.Map) : ((X.entries m).map Prod.fst).Nodup :=
  List.pairwise_map.mpr ((X.sorted m).imp UInt64.ne_of_lt)

theorem nodup_entries (X : Crossbeam V) (m : X.Map) : (X.entries m).Nodup := (X.nodup_keys m).of_map _

theorem insert_perm (h : ∀ x ∈ X.entries m, x.1 ≠ k) (v : V) :
    (X.entries (X.insert m k v)).Perm ((k, v) :: X.entries m) := by
  have hnodup : ((k, v) :: X.entries m).Nodup := List.nodup_cons.mpr ⟨fun hmem => h _ hmem rfl, X.nodup_entries m⟩
  refine (List.perm_ext_iff_of_nodup (X.nodup_entries _) hnodup).mpr fun x => ?_
  rw [X.mem_insert, List.mem_cons]
  exact or_congr_right (and_iff_left_of_imp (h x))

theorem insert_last (h : ∀ x ∈ X.entries m, x.1 < k) (v : V) :
    X.entries (X.insert m k v) = X.entries m ++ [(k, v)] := by
  refine List.Perm.eq_of_pairwise ?_ (X.sorted _) ?_ ?_
  · exact fun a b _ _ h₁ h₂ => absurd h₂ (UInt64.lt_asymm h₁)
  · refine List.pairwise_append.mpr ⟨X.sorted m, List.pairwise_singleton _ _, fun x hx y hy => ?_⟩
    rw [List.mem_singleton.mp hy]
    exact h x hx
  · exact (insert_perm (fun x hx => UInt64.ne_of_lt (h x hx)) v).trans (List.perm_append_singleton _ _).symm

theorem remove_perm (h : (k, v) ∈ X.entries m) : (X.entries m).Perm ((k, v) :: X.entries (X.remove m k)) := by
  have hnodup : ((k, v) :: X.entries (X.remove m k)).Nodup :=
    List.nodup_cons.mpr ⟨fun hmem => (X.mem_remove.mp hmem).2 rfl, X.nodup_entries _⟩
  refine (List.perm_ext_iff_of_nodup (X.nodup_entries m) hnodup).mpr fun x => ?_
  rw [List.mem_cons, X.mem_remove]
  constructor
  · intro hx
    by_cases hk : x.1 = k
    · exact .inl (List.inj_on_of_nodup_map (X.nodup_keys m) hx h hk)
    · exact .inr ⟨hx, hk⟩
  · rintro (rfl | hx)
    · exact h
    · exact hx.1

/-- An iteration does not go past a key that is there. -/
theorem next_of_mem {last : Option UInt64} (hmem : (k, v) ∈ X.entries m) (hlast : last.all (· < k)) :
    ∃ k' v', X.next m last = some (k', v') ∧ (v' = v ∨ k' < k) := by
  rw [X.next_eq]
  cases hnext : (X.entries m).find? fun x => last.all (· < x.1) with
  | none => exact absurd hlast (List.find?_eq_none.mp hnext _ hmem)
  | some found =>
    obtain ⟨-, before, after, hmap, hbefore⟩ := List.find?_eq_some_iff_append.mp hnext
    refine ⟨found.1, found.2, rfl, ?_⟩
    have hsorted := X.sorted m
    rw [hmap] at hmem hsorted
    rcases List.mem_append.mp hmem with hmem | hmem
    · have hpassed := hbefore _ hmem
      rw [hlast] at hpassed
      cases hpassed
    · rcases List.mem_cons.mp hmem with heq | hmem
      · exact .inl (heq ▸ rfl)
      · exact .inr ((List.pairwise_cons.mp (List.pairwise_append.mp hsorted).2.1).1 _ hmem)

/-! ## The channel -/

theorem queued_foldl_send (vs : List V) (c : X.Channel) : X.queued (vs.foldl X.send c) = X.queued c ++ vs := by
  induction vs generalizing c with
  | nil => exact (List.append_nil _).symm
  | cons v vs ih => rw [List.foldl_cons, ih, X.queued_send, List.append_assoc, List.singleton_append]

theorem exists_recv {vs : List V} (h : X.queued c = v :: vs) : ∃ c', X.recv c = some (v, c') ∧ X.queued c' = vs := by
  cases hrecv : X.recv c with
  | none =>
    rw [X.recv_none hrecv] at h
    cases h
  | some r =>
    rw [X.recv_some hrecv] at h
    cases h
    exact ⟨r.2, rfl, rfl⟩

/-- Sorted lists, and queues that are lists. -/
def lists (V : Type) : Crossbeam V where
  Map := { l : List (UInt64 × V) // l.Pairwise fun x y => x.1 < y.1 }
  newMap := ⟨[], .nil⟩
  entries := Subtype.val
  insert m k v := ⟨m.1.filter (·.1 < k) ++ (k, v) :: m.1.filter (k < ·.1), by
    refine List.pairwise_append.mpr ⟨m.2.filter _, List.pairwise_cons.mpr ⟨fun x hx => ?_, m.2.filter _⟩, ?_⟩
    · exact of_decide_eq_true (List.mem_filter.mp hx).2
    · intro x hx y hy
      have hx : x.1 < k := of_decide_eq_true (List.mem_filter.mp hx).2
      rcases List.mem_cons.mp hy with rfl | hy
      · exact hx
      · exact UInt64.lt_trans hx (of_decide_eq_true (List.mem_filter.mp hy).2)⟩
  remove m k := ⟨m.1.filter (·.1 ≠ k), m.2.filter _⟩
  next m last := m.1.find? fun x => last.all (· < x.1)
  sorted := Subtype.property
  entries_new := rfl
  mem_insert := by
    intro m k v x
    simp only [List.mem_append, List.mem_cons, List.mem_filter, decide_eq_true_eq, UInt64.lt_iff_toNat_lt,
      ne_eq, ← UInt64.toNat_inj]
    rw [← ne_eq, Nat.ne_iff_lt_or_gt, and_or_left]
    exact or_left_comm
  mem_remove := by simp
  next_eq _ _ := rfl
  Channel := List V
  newChannel := []
  queued := id
  send c v := c ++ [v]
  recv c := c.head?.map fun v => (v, c.tail)
  disconnect _ := []
  queued_new := rfl
  queued_send _ _ := rfl
  recv_some := by
    rintro (_ | ⟨v, c⟩) _ _ h
    · cases h
    · cases h
      rfl
  recv_none := by
    rintro (_ | ⟨v, c⟩) h
    · rfl
    · cases h
  queued_disconnect _ := rfl

end Crossbeam

end MRE
