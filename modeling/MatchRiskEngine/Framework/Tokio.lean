import Mathlib.Data.List.Basic

/-!
# Broadcast channels and bounded queues

What a program relies on of `tokio` (`Tokio`). A broadcast channel overwrites
its oldest values: a receiver stands at a position in all that was sent, from
when it subscribed on, and if the value there is gone it is told so and moves on.
A bounded queue takes a value if there is room. `Tokio.lists` is a small
implementation.

`Received old new next front`: of the values `new` sent since it subscribed,
a receiver at `next` has `front` behind it.
-/

namespace MRE

inductive Recv (α : Type) where
  | ok (x : α)
  | lagged (missed : Nat)
  /-- Nothing new has been sent. -/
  | pending

structure Tokio where
  Broadcast : Type → Type
  Receiver : Type → Type
  broadcast {α : Type} (capacity : Nat) : Broadcast α
  send {α : Type} : Broadcast α → α → Broadcast α
  subscribe {α : Type} : Broadcast α → Receiver α
  recv {α : Type} : Broadcast α → Receiver α → Recv α × Receiver α
  sent {α : Type} : Broadcast α → List α
  position {α : Type} : Receiver α → Nat
  sent_broadcast {α : Type} (capacity : Nat) : sent (broadcast capacity : Broadcast α) = []
  sent_send {α : Type} (c : Broadcast α) (x : α) : sent (send c x) = sent c ++ [x]
  position_subscribe {α : Type} (c : Broadcast α) : position (subscribe c) = (sent c).length
  recv_ok {α : Type} {c : Broadcast α} {r r' : Receiver α} {x : α} :
    recv c r = (.ok x, r') → (sent c)[position r]? = some x ∧ position r' = position r + 1
  recv_lagged {α : Type} {c : Broadcast α} {r r' : Receiver α} {missed : Nat} :
    recv c r = (.lagged missed, r') → position r ≤ position r' ∧ position r' ≤ (sent c).length
  Queue : Type → Type
  queue {α : Type} (capacity : Nat) : Queue α
  /-- `none` if there is no room. -/
  trySend {α : Type} : Queue α → α → Option (Queue α)
  take {α : Type} : Queue α → Option (α × Queue α)
  /-- What was sent and is not taken yet. -/
  queued {α : Type} : Queue α → List α
  queued_queue {α : Type} (capacity : Nat) : queued (queue capacity : Queue α) = []
  queued_trySend {α : Type} {q q' : Queue α} {x : α} : trySend q x = some q' → queued q' = queued q ++ [x]
  queued_take {α : Type} {q q' : Queue α} {x : α} : take q = some (x, q') → queued q = x :: queued q'

variable {α : Type}

def Received (old new : List α) (next : Nat) (front : List α) : Prop :=
  ∃ k ≤ new.length, next = old.length + k ∧ front = new.take k

variable {old new front : List α} {missed : Nat} {x : α}

theorem received_subscribe (old : List α) : Received old [] old.length [] := ⟨0, Nat.le_refl 0, rfl, rfl⟩

namespace Received

theorem isPrefix {next : Nat} (h : Received old new next front) : front <+: new := by
  obtain ⟨k, -, -, rfl⟩ := h
  exact List.take_prefix k new

theorem send {next : Nat} (h : Received old new next front) (more : List α) : Received old (new ++ more) next front := by
  obtain ⟨k, hk, hnext, rfl⟩ := h
  refine ⟨k, ?_, hnext, ?_⟩
  · rw [List.length_append]
    exact Nat.le_add_right_of_le hk
  · rw [List.take_append_of_le_length hk]

variable {T : Tokio} {c : T.Broadcast α} {r r' : T.Receiver α}

theorem ok (h : Received old new (T.position r) front) (hsent : T.sent c = old ++ new) (hr : T.recv c r = (.ok x, r')) :
    Received old new (T.position r') (front ++ [x]) := by
  obtain ⟨k, hk, hnext, rfl⟩ := h
  obtain ⟨hx, hnext'⟩ := T.recv_ok hr
  rw [hsent, hnext, List.getElem?_append_right (Nat.le_add_right _ _), Nat.add_sub_cancel_left] at hx
  refine ⟨k + 1, (List.getElem?_eq_some_iff.mp hx).1, by rw [hnext', hnext, Nat.add_assoc], ?_⟩
  rw [List.take_add_one, hx]
  rfl

theorem lagged (h : Received old new (T.position r) front) (hsent : T.sent c = old ++ new)
    (hr : T.recv c r = (.lagged missed, r')) : ∃ skipped, Received old new (T.position r') (front ++ skipped) := by
  obtain ⟨k, hk, hnext, rfl⟩ := h
  obtain ⟨hle, hend⟩ := T.recv_lagged hr
  rw [hsent, List.length_append] at hend
  refine ⟨(new.drop k).take (T.position r' - old.length - k), T.position r' - old.length, by omega, by omega, ?_⟩
  rw [← List.take_add]
  congr 1
  omega

end Received

/-- Channels and queues as a capacity and a list. -/
def Tokio.lists : Tokio where
  Broadcast α := Nat × List α
  Receiver _ := Nat
  broadcast capacity := (capacity, [])
  send c x := (c.1, c.2 ++ [x])
  subscribe c := c.2.length
  recv c r :=
    if r < c.2.length - c.1 then (.lagged (c.2.length - c.1 - r), c.2.length - c.1)
    else (c.2[r]?).elim (.pending, r) fun x => (.ok x, r + 1)
  sent := Prod.snd
  position := id
  sent_broadcast _ := rfl
  sent_send _ _ := rfl
  position_subscribe _ := rfl
  recv_ok {α c r r' x} h := by
    split at h
    · cases h
    · cases hx : c.2[r]? <;> rw [hx] at h <;> cases h
      exact ⟨hx, rfl⟩
  recv_lagged {α c r r' missed} h := by
    split at h
    · cases h
      simp only [id]
      omega
    · cases hx : c.2[r]? <;> rw [hx] at h <;> cases h
  Queue α := Nat × List α
  queue capacity := (capacity, [])
  trySend q x := if q.2.length < q.1 then some (q.1, q.2 ++ [x]) else none
  take q := q.2.head?.map fun x => (x, q.1, q.2.tail)
  queued := Prod.snd
  queued_queue _ := rfl
  queued_trySend h := by
    split at h <;> cases h
    rfl
  queued_take {α q q' x} h := by
    obtain ⟨capacity, l⟩ := q
    cases l <;> cases h
    rfl

end MRE
