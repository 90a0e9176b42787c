import Mathlib.Data.List.Basic
import MatchRiskEngine.Framework.Bytes

/-!
# Files mapped into memory

A program stores into memory. The system copies pages to the disk when it
likes, and all pages of a range when the program asks for it. What a crash
leaves is the disk.

`Synced n`: the first `n` elements on the disk are those in memory. It is kept
by whatever is done behind them (`Synced.run`), and a `sync` that follows
stores extends it (`Synced.run_sync`), with pages being written back at any
time in between. `Lags`: every page of the disk is that page of some earlier
memory.
-/

namespace MRE

structure MappedFile (α : Type) where
  mem : List α
  disk : List α
  sameLength : disk.length = mem.length

/-- What is done to a mapped file. -/
inductive MapOp (α : Type) where
  | store (off : Nat) (xs : List α)
  | sync (off len : Nat)
  /-- The system writes a page back. -/
  | writeback (k : Nat)
  deriving DecidableEq, Repr

namespace MapOp

variable {α : Type}

/-- What the program does, as opposed to the system. -/
def own : MapOp α → Bool
  | writeback _ => false
  | _ => true

/-- Nothing is stored in front of `n`. -/
def Above (n : Nat) : MapOp α → Prop
  | store off _ => n ≤ off
  | _ => True

theorem Above.mono {op : MapOp α} {m n : Nat} (h : op.Above n) (hm : m ≤ n) : op.Above m := by
  cases op with
  | store off xs => exact Nat.le_trans hm h
  | sync off len => trivial
  | writeback k => trivial

theorem above_of_not_own {op : MapOp α} (h : ¬ op.own = true) (n : Nat) : op.Above n := by
  cases op with
  | store off xs => exact absurd rfl h
  | sync off len => trivial
  | writeback k => trivial

end MapOp

namespace MappedFile

variable {α : Type} {page : Nat} {f : MappedFile α} {ops acts : List (MapOp α)} {n i : Nat}

/-- A file with the same contents in memory and on the disk. -/
def clean (xs : List α) : MappedFile α := ⟨xs, xs, rfl⟩

/-- A store that does not fit has no effect: the program is stopped. -/
def store (f : MappedFile α) (off : Nat) (xs : List α) : MappedFile α :=
  if h : off + xs.length ≤ f.mem.length then
    { mem := splice f.mem off xs, disk := f.disk, sameLength := by rw [length_splice h, f.sameLength] }
  else f

/-- The pages with some property are written back. -/
def copyPages (page : Nat) (P : Nat → Bool) (f : MappedFile α) : MappedFile α where
  mem := f.mem
  disk := f.mem.mapIdx fun i x => if P (i / page) then x else (f.disk[i]?).getD x
  sameLength := List.length_mapIdx

def step (page : Nat) (f : MappedFile α) : MapOp α → MappedFile α
  | .store off xs => f.store off xs
  -- the pages that the range meets
  | .sync off len => f.copyPages page fun k => off / page ≤ k ∧ k * page < off + len
  | .writeback k => f.copyPages page fun k' => k' = k

def run (page : Nat) (f : MappedFile α) (ops : List (MapOp α)) : MappedFile α := ops.foldl (step page) f

theorem run_cons (page : Nat) (f : MappedFile α) (op : MapOp α) (ops : List (MapOp α)) :
    f.run page (op :: ops) = (f.step page op).run page ops := rfl

theorem run_append (page : Nat) (f : MappedFile α) (ops ops' : List (MapOp α)) :
    f.run page (ops ++ ops') = (f.run page ops).run page ops' := List.foldl_append

theorem mem_store {off : Nat} {xs : List α} (h : off + xs.length ≤ f.mem.length) :
    (f.store off xs).mem = splice f.mem off xs := by rw [store, dif_pos h]

theorem disk_store (f : MappedFile α) (off : Nat) (xs : List α) : (f.store off xs).disk = f.disk := by
  rw [store]
  split <;> rfl

theorem length_mem_store (f : MappedFile α) (off : Nat) (xs : List α) :
    (f.store off xs).mem.length = f.mem.length := by
  rw [← sameLength, disk_store, sameLength]

theorem getElem?_splice {xs ys : List α} {a : Nat} (h : a + ys.length ≤ xs.length) (hi : i < a) :
    (splice xs a ys)[i]? = xs[i]? := by
  have htake := congrArg (·[i]?) (take_splice (n := a) (Nat.le_refl a) h)
  simpa only [List.getElem?_take_of_lt hi] using htake

theorem getElem?_mem_store {off : Nat} (xs : List α) (hi : i < off) : (f.store off xs).mem[i]? = f.mem[i]? := by
  by_cases h : off + xs.length ≤ f.mem.length
  · rw [mem_store h, getElem?_splice h hi]
  · rw [store, dif_neg h]

theorem getElem?_copyPages (page : Nat) (P : Nat → Bool) (f : MappedFile α) (i : Nat) :
    (f.copyPages page P).disk[i]? = if P (i / page) then f.mem[i]? else f.disk[i]? := by
  simp only [copyPages, List.getElem?_mapIdx]
  by_cases hi : i < f.mem.length
  · rw [List.getElem?_eq_getElem hi, List.getElem?_eq_getElem (show i < f.disk.length by rw [f.sameLength]; exact hi)]
    split <;> rfl
  · rw [List.getElem?_eq_none (Nat.not_lt.mp hi),
      List.getElem?_eq_none (show f.disk.length ≤ i by rw [f.sameLength]; exact Nat.not_lt.mp hi), ite_self]
    rfl

theorem mem_run_filter (page : Nat) (f : MappedFile α) (acts : List (MapOp α)) :
    ∀ g : MappedFile α, g.mem = f.mem → (f.run page acts).mem = (g.run page (acts.filter MapOp.own)).mem := by
  induction acts generalizing f with
  | nil => exact fun g h => h.symm
  | cons op acts ih =>
    intro g h
    cases op with
    | store off xs =>
      refine ih (f.store off xs) (g.store off xs) ?_
      simp only [store, h]
      split
      · rfl
      · exact h
    | sync off len => exact ih _ (g.step page (.sync off len)) h
    | writeback k => exact ih _ g h

theorem length_mem_run (page : Nat) (f : MappedFile α) (ops : List (MapOp α)) :
    (f.run page ops).mem.length = f.mem.length := by
  induction ops generalizing f with
  | nil => rfl
  | cons op ops ih =>
    rw [run_cons, ih]
    cases op with
    | store off xs => exact length_mem_store f off xs
    | sync off len => rfl
    | writeback k => rfl

/-- What is done behind `n` leaves the memory in front of it alone. -/
theorem getElem?_mem_run (hops : ∀ op ∈ ops, op.Above n) (hi : i < n) : (f.run page ops).mem[i]? = f.mem[i]? := by
  induction ops generalizing f with
  | nil => rfl
  | cons op ops ih =>
    obtain ⟨hop, hlater⟩ := List.forall_mem_cons.mp hops
    rw [run_cons, ih hlater]
    cases op with
    | store off xs => exact getElem?_mem_store xs (Nat.lt_of_lt_of_le hi hop)
    | sync off len => rfl
    | writeback k => rfl

/-! ## Stores in a row -/

/-- Some lists, stored one behind the other. -/
def storeAll : Nat → List (List α) → List (MapOp α)
  | _, [] => []
  | off, xs :: xss => .store off xs :: storeAll (off + xs.length) xss

theorem mem_run_storeAll {off : Nat} {xss : List (List α)} (h : off + xss.flatten.length ≤ f.mem.length) :
    (f.run page (storeAll off xss)).mem = splice f.mem off xss.flatten := by
  induction xss generalizing f off with
  | nil => exact (splice_nil f.mem off).symm
  | cons xs xss ih =>
    rw [List.flatten_cons, List.length_append] at h
    have hfirst : off + xs.length ≤ f.mem.length := by omega
    have hlen := length_mem_store f off xs
    rw [storeAll, run_cons, step, ih (by omega), mem_store hfirst, splice_splice hfirst, List.flatten_cons]

theorem above_storeAll (off : Nat) (xss : List (List α)) : ∀ op ∈ storeAll off xss, op.Above off := by
  induction xss generalizing off with
  | nil => exact List.forall_mem_nil _
  | cons xs xss ih =>
    refine List.forall_mem_cons.mpr ⟨Nat.le_refl off, fun op hop => ?_⟩
    exact (ih (off + xs.length) op hop).mono (Nat.le_add_right _ _)

theorem filter_storeAll (off : Nat) (xss : List (List α)) : (storeAll off xss).filter MapOp.own = storeAll off xss := by
  induction xss generalizing off with
  | nil => rfl
  | cons xs xss ih => rw [storeAll, List.filter_cons_of_pos rfl, ih]

theorem storeAll_append (off : Nat) (xss yss : List (List α)) :
    storeAll off (xss ++ yss) = storeAll off xss ++ storeAll (off + xss.flatten.length) yss := by
  induction xss generalizing off with
  | nil => rfl
  | cons xs xss ih =>
    rw [List.cons_append, storeAll, ih, List.flatten_cons, List.length_append, ← Nat.add_assoc]
    rfl

theorem storeAll_replicate (off n : Nat) (x : α) :
    storeAll off (List.replicate n [x]) = (List.range n).map fun i => .store (off + i) [x] := by
  induction n generalizing off with
  | zero => rfl
  | succ n ih =>
    rw [List.replicate_succ, storeAll, ih, List.range_succ_eq_map, List.map_cons, List.map_map]
    refine congrArg _ (List.map_congr_left fun i _ => ?_)
    simp only [Function.comp_apply, List.length_singleton]
    congr 1
    omega

/-! ## What is safe on the disk -/

/-- The first `n` elements on the disk are those in memory. -/
def Synced (n : Nat) (f : MappedFile α) : Prop := ∀ i < n, f.disk[i]? = f.mem[i]?

theorem Synced.mono {m : Nat} (h : f.Synced n) (hm : m ≤ n) : f.Synced m := fun i hi => h i (Nat.lt_of_lt_of_le hi hm)

theorem take_eq_take {xs ys : List α} (h : ∀ i < n, xs[i]? = ys[i]?) : xs.take n = ys.take n := by
  refine List.ext_getElem? fun i => ?_
  rw [List.getElem?_take, List.getElem?_take]
  split
  · exact h i ‹_›
  · rfl

theorem Synced.copyPages (h : f.Synced n) (page : Nat) (P : Nat → Bool) : (f.copyPages page P).Synced n := by
  intro i hi
  rw [getElem?_copyPages]
  split
  · rfl
  · exact h i hi

theorem Synced.step (h : f.Synced n) {op : MapOp α} (hop : op.Above n) : (f.step page op).Synced n := by
  cases op with
  | store off xs =>
    intro i hi
    have hoff : n ≤ off := hop
    rw [MappedFile.step, disk_store, getElem?_mem_store xs (Nat.lt_of_lt_of_le hi hoff)]
    exact h i hi
  | sync off len => exact h.copyPages page _
  | writeback k => exact h.copyPages page _

/-- What is safe stays safe while nothing is stored in front of its end. -/
theorem Synced.run (h : f.Synced n) (page : Nat) (hops : ∀ op ∈ ops, op.Above n) : (f.run page ops).Synced n := by
  induction ops generalizing f with
  | nil => exact h
  | cons op ops ih =>
    obtain ⟨hop, hops⟩ := List.forall_mem_cons.mp hops
    exact ih (h.step hop) hops

theorem above_of_filter (h : ∀ op ∈ acts.filter MapOp.own, op.Above n) : ∀ op ∈ acts, op.Above n := by
  intro op hop
  by_cases hown : op.own = true
  · exact h op (List.mem_filter.mpr ⟨hop, hown⟩)
  · exact MapOp.above_of_not_own hown n

/-- All pages of a range reach the disk, from the start of the first of them. -/
theorem Synced.sync {m : Nat} (h : f.Synced m) (hm : n / page ≤ m / page) (len : Nat) :
    (f.step page (.sync n len)).Synced (n + len) := by
  intro i hi
  rw [MappedFile.step, getElem?_copyPages]
  by_cases hin : i < m
  · rw [h i hin, ite_self]
    rfl
  · have hlow : n / page ≤ i / page := Nat.le_trans hm (Nat.div_le_div_right (Nat.not_lt.mp hin))
    have hhigh : i / page * page < n + len := Nat.lt_of_le_of_lt (Nat.div_mul_le_self i page) hi
    rw [if_pos (decide_eq_true ⟨hlow, hhigh⟩)]
    rfl

/-- After stores behind what is safe and a `sync` of them, more is safe,
whatever pages are written back meanwhile. -/
theorem Synced.run_sync {m : Nat} (h : f.Synced m) (hm : n / page ≤ m / page) (hops : ∀ op ∈ ops, op.Above m)
    {len : Nat} (hacts : acts.filter MapOp.own = ops ++ [.sync n len]) : (f.run page acts).Synced (n + len) := by
  obtain ⟨acts₁, rest, rfl, h₁, hrest⟩ := List.filter_eq_append_iff.mp hacts
  obtain ⟨before, after, rfl, hbefore, hown, hafter⟩ := List.filter_eq_cons_iff.mp hrest
  rw [run_append, run_append, run_cons]
  refine Synced.run (Synced.sync (Synced.run (h.run page (above_of_filter (h₁ ▸ hops))) page fun op hop => ?_) hm len)
    page fun op hop => ?_
  · exact MapOp.above_of_not_own (hbefore op hop) m
  · exact MapOp.above_of_not_own (List.filter_eq_nil_iff.mp hafter op hop) _

/-! ## How old the disk is -/

/-- Every page of the disk is that page of one of some lists. -/
def Lags (page : Nat) (past : List α → Prop) (f : MappedFile α) : Prop :=
  ∀ k, ∃ xs, past xs ∧ ∀ i, i / page = k → f.disk[i]? = xs[i]?

theorem lags_clean (page : Nat) {past : List α → Prop} {xs : List α} (h : past xs) : Lags page past (clean xs) :=
  fun _ => ⟨xs, h, fun _ _ => rfl⟩

variable {past past' : List α → Prop}

theorem Lags.mono (h : f.Lags page past) (hpast : ∀ xs, past xs → past' xs) : f.Lags page past' := by
  intro k
  obtain ⟨xs, hxs, hk⟩ := h k
  exact ⟨xs, hpast xs hxs, hk⟩

theorem Lags.copyPages (h : f.Lags page past) (hmem : past f.mem) (P : Nat → Bool) :
    (f.copyPages page P).Lags page past := by
  intro k
  by_cases hP : P k = true
  · refine ⟨f.mem, hmem, fun i hi => ?_⟩
    rw [getElem?_copyPages, hi, if_pos hP]
  · obtain ⟨xs, hxs, hk⟩ := h k
    refine ⟨xs, hxs, fun i hi => ?_⟩
    rw [getElem?_copyPages, hi, if_neg hP]
    exact hk i hi

theorem Lags.sync (h : f.Lags page past) {off len : Nat} (hmem : past (f.run page [.sync off len]).mem) :
    (f.run page [.sync off len]).Lags page past :=
  h.copyPages hmem fun k => off / page ≤ k ∧ k * page < off + len

theorem Lags.stores (h : f.Lags page past) (off : Nat) (xss : List (List α)) :
    (f.run page (storeAll off xss)).Lags page past := by
  induction xss generalizing f off with
  | nil => exact h
  | cons xs xss ih =>
    refine ih (fun k => ?_) _
    obtain ⟨ys, hys, hk⟩ := h k
    exact ⟨ys, hys, fun i hi => by rw [step, disk_store]; exact hk i hi⟩

end MappedFile

end MRE
