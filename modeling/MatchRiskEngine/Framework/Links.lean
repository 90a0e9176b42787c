import Mathlib.Data.List.Nodup

/-!
# Intrusive doubly linked lists

A queue threaded through the nodes of a store by their `next` and `prev`
links, seen as the list of the keys it visits. `Linked nx h ks` follows one
link function from `h`; `DLinked` is a chain read both ways. `DLinked.snoc`
and `DLinked.unlink` say what the links of a chain must be after a key is
appended, or taken out of the middle, and `DLinked.congr` that only the links
of its own keys matter.
-/

namespace MRE

variable {K : Type}

/-- Following `nx` from `h` visits `ks` and stops. -/
def Linked (nx : K → Option K) : Option K → List K → Prop
  | h, [] => h = none
  | h, k :: ks => h = some k ∧ Linked nx (nx k) ks

theorem linked_iff {nx : K → Option K} {h : Option K} {ks : List K} :
    Linked nx h ks ↔ h = ks.head? ∧ ∀ as k bs, ks = as ++ k :: bs → nx k = bs.head? := by
  induction ks generalizing h with
  | nil => simp [Linked]
  | cons k ks ih =>
    simp only [Linked, ih, List.head?_cons]
    constructor
    · rintro ⟨rfl, h₁, h₂⟩
      refine ⟨rfl, fun as k' bs e => ?_⟩
      cases as with
      | nil =>
        obtain ⟨rfl, rfl⟩ := List.cons_eq_cons.mp e
        exact h₁
      | cons a as =>
        obtain ⟨rfl, rfl⟩ := List.cons_eq_cons.mp e
        exact h₂ _ _ _ rfl
    · rintro ⟨rfl, h⟩
      refine ⟨rfl, h [] k ks rfl, fun as k' bs e => h (k :: as) k' bs (by rw [e]; rfl)⟩

theorem Linked.head_eq {nx : K → Option K} {h : Option K} {ks : List K} (hl : Linked nx h ks) :
    h = ks.head? := (linked_iff.mp hl).1

theorem Linked.next_eq {nx : K → Option K} {h : Option K} {as bs : List K} {k : K}
    (hl : Linked nx h (as ++ k :: bs)) : nx k = bs.head? := (linked_iff.mp hl).2 _ _ _ rfl

theorem Linked.congr {nx nx' : K → Option K} {h : Option K} {ks : List K} (hl : Linked nx h ks)
    (hn : ∀ k ∈ ks, nx' k = nx k) : Linked nx' h ks := by
  rw [linked_iff] at hl ⊢
  refine ⟨hl.1, fun as k bs e => ?_⟩
  rw [hn k (by rw [e]; simp), hl.2 as k bs e]

theorem getLast?_ne_of_nodup {as bs : List K} {k : K} (h : (as ++ bs).Nodup) (hk : k ∈ bs) :
    as.getLast? ≠ some k := fun e =>
  (List.disjoint_of_nodup_append h) (List.mem_of_getLast? e) hk

theorem getLast?_append_cons_cons {as bs : List K} {k b : K} (h : (as ++ k :: b :: bs).Nodup) :
    (as ++ k :: b :: bs).getLast? ≠ some k := by
  rw [List.append_cons] at h ⊢
  rw [List.getLast?_append_of_ne_nil _ (by simp)]
  exact fun e => (List.disjoint_of_nodup_append h) (by simp) (List.mem_of_getLast? e)

/-- Taking `k` out: its predecessor, the last key of `as`, now points past it. -/
theorem Linked.unlink [DecidableEq K] {nx nx' : K → Option K} {h h' : Option K} {as bs : List K} {k : K}
    (hl : Linked nx h (as ++ k :: bs)) (hnd : (as ++ k :: bs).Nodup)
    (hn : ∀ j ∈ as ++ bs, nx' j = if as.getLast? = some j then nx k else nx j)
    (hh : h' = if as = [] then nx k else h) : Linked nx' h' (as ++ bs) := by
  have hk := hl.next_eq
  rw [linked_iff] at hl ⊢
  refine ⟨?_, fun cs j ds e => ?_⟩
  · rw [hh, hk, hl.1]
    cases as <;> simp
  rw [hn j (by rw [e]; simp)]
  rcases List.append_eq_append_iff.mp e with ⟨es, rfl, hb⟩ | ⟨es, rfl, hb⟩
  · rw [if_neg, hl.2 (as ++ k :: es) j ds (by rw [hb]; simp)]
    exact getLast?_ne_of_nodup hnd (by rw [hb]; simp)
  · cases es with
    | nil =>
      simp only [List.nil_append] at hb
      rw [if_neg, hl.2 (cs ++ [k]) j ds (by rw [← hb]; simp)]
      exact getLast?_ne_of_nodup hnd (by rw [← hb]; simp)
    | cons e es =>
      obtain ⟨rfl, rfl⟩ := List.cons_eq_cons.mp hb
      cases es with
      | nil => rw [if_pos (by simp), hk]; rfl
      | cons f es =>
        rw [if_neg (getLast?_append_cons_cons (List.Nodup.of_append_left hnd)),
          hl.2 cs j (f :: es ++ k :: bs) (by simp)]
        rfl

/-- Appending `k`: the last key now points to it. -/
theorem Linked.snoc [DecidableEq K] {nx nx' : K → Option K} {h h' : Option K} {ks : List K} {k : K}
    (hl : Linked nx h ks) (hnd : ks.Nodup)
    (hn : ∀ j ∈ ks, nx' j = if ks.getLast? = some j then some k else nx j) (hk : nx' k = none)
    (hh : h' = if ks = [] then some k else h) : Linked nx' h' (ks ++ [k]) := by
  rw [linked_iff] at hl ⊢
  refine ⟨?_, fun cs j ds e => ?_⟩
  · rw [hh, hl.1]
    cases ks <;> simp
  rcases List.append_eq_append_iff.mp e with ⟨es, rfl, hb⟩ | ⟨es, rfl, hb⟩
  · cases es with
    | nil =>
      obtain ⟨rfl, rfl⟩ := List.cons_eq_cons.mp hb
      exact hk
    | cons e es => simp at hb
  · cases es with
    | nil =>
      obtain ⟨rfl, rfl⟩ := List.cons_eq_cons.mp hb
      exact hk
    | cons e es =>
      obtain ⟨rfl, rfl⟩ := List.cons_eq_cons.mp hb
      rw [hn j (by simp)]
      cases es with
      | nil => rw [if_pos (by simp)]; rfl
      | cons f es =>
        rw [if_neg (getLast?_append_cons_cons hnd), hl.2 cs j (f :: es) rfl]
        rfl

/-- A chain read both ways: `nx` from `head` visits `ks`, `pv` from `tail`
visits it backwards, and no key comes twice. -/
structure DLinked (nx pv : K → Option K) (head tail : Option K) (ks : List K) : Prop where
  fwd : Linked nx head ks
  bwd : Linked pv tail ks.reverse
  nodup : ks.Nodup

namespace DLinked

variable {nx pv nx' pv' : K → Option K} {head tail head' tail' : Option K} {ks as bs : List K} {k : K}

theorem nil : DLinked nx pv none none [] := ⟨rfl, rfl, List.nodup_nil⟩

theorem congr (hl : DLinked nx pv head tail ks) (hn : ∀ k ∈ ks, nx' k = nx k) (hp : ∀ k ∈ ks, pv' k = pv k) :
    DLinked nx' pv' head tail ks :=
  ⟨hl.fwd.congr hn, hl.bwd.congr fun k hk => hp k (List.mem_reverse.mp hk), hl.nodup⟩

theorem head_eq (hl : DLinked nx pv head tail ks) : head = ks.head? := hl.fwd.head_eq

theorem tail_eq (hl : DLinked nx pv head tail ks) : tail = ks.getLast? := by
  rw [hl.bwd.head_eq, List.head?_reverse]

theorem next_eq (hl : DLinked nx pv head tail (as ++ k :: bs)) : nx k = bs.head? := hl.fwd.next_eq

theorem prev_eq (hl : DLinked nx pv head tail (as ++ k :: bs)) : pv k = as.getLast? := by
  have h := hl.bwd
  rw [List.reverse_append, List.reverse_cons, List.append_assoc, List.singleton_append] at h
  rw [h.next_eq, List.head?_reverse]

/-- The links after `k` is taken out of the chain. -/
theorem unlink [DecidableEq K] (hl : DLinked nx pv head tail (as ++ k :: bs))
    (hn : ∀ j ∈ as ++ bs, nx' j = if pv k = some j then nx k else nx j)
    (hp : ∀ j ∈ as ++ bs, pv' j = if nx k = some j then pv k else pv j)
    (hh : head' = if pv k = none then nx k else head)
    (ht : tail' = if nx k = none then pv k else tail) : DLinked nx' pv' head' tail' (as ++ bs) := by
  have hnx := hl.next_eq
  have hpv := hl.prev_eq
  have hb := hl.bwd
  have hnd := List.nodup_reverse.mpr hl.nodup
  rw [List.reverse_append, List.reverse_cons, List.append_assoc, List.singleton_append] at hb hnd
  refine ⟨hl.fwd.unlink hl.nodup (fun j hj => by rw [hn j hj, hpv]) ?_, ?_,
    hl.nodup.sublist (List.Sublist.append_left (List.sublist_cons_self k bs) as)⟩
  · rw [hh, hpv]; simp only [List.getLast?_eq_none_iff]
  · rw [List.reverse_append]
    refine hb.unlink hnd (fun j hj => ?_) ?_
    · rw [hp j (by simpa [or_comm] using hj), hnx, List.getLast?_reverse]
    · rw [ht, hnx]; simp only [List.head?_eq_none_iff, List.reverse_eq_nil_iff]

/-- The links after `k` is appended to the chain. -/
theorem snoc [DecidableEq K] (hl : DLinked nx pv head tail ks) (hk : k ∉ ks)
    (hn : ∀ j ∈ ks, nx' j = if tail = some j then some k else nx j) (hnk : nx' k = none)
    (hp : ∀ j ∈ ks, pv' j = pv j) (hpk : pv' k = tail)
    (hh : head' = if tail = none then some k else head) :
    DLinked nx' pv' head' (some k) (ks ++ [k]) := by
  have ht := hl.tail_eq
  refine ⟨hl.fwd.snoc hl.nodup (fun j hj => by rw [hn j hj, ht]) hnk ?_, ?_, ?_⟩
  · rw [hh, ht]; simp only [List.getLast?_eq_none_iff]
  · rw [List.reverse_append, List.reverse_singleton, List.singleton_append]
    exact ⟨rfl, by rw [hpk]; exact hl.bwd.congr fun j hj => hp j (List.mem_reverse.mp hj)⟩
  · refine List.nodup_append.mpr ⟨hl.nodup, List.nodup_singleton k, fun a ha b hb => ?_⟩
    rw [List.mem_singleton.mp hb]
    exact fun e => hk (e ▸ ha)

end DLinked

end MRE
