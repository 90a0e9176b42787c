import Mathlib.Data.List.Basic

/-!
# Incremental decoders

A decoder takes messages off the front of a buffer: a call returns a message, or
that there is no complete one yet, or an error, and the buffer after it. A receiver
calls it after each chunk that arrives, until a call returns no message. If a
decoder never changes its mind when more arrives (`Incremental`), what a receiver
ends up with is a function of all that arrived, whatever the chunks
(`Receiver.feed_flatten`). `OnePerRead`: no chunk completes two messages.
-/

namespace MRE

variable {α φ ε : Type}

abbrev Decoder (α φ ε : Type) : Type := List α → Except ε (Option φ) × List α

/-- The messages at the front of a buffer, taken off by at most so many calls;
the buffer after them; and the error that ended the calls, if any. -/
def Decoder.drain (decode : Decoder α φ ε) : Nat → List α → List φ × List α × Option ε
  | 0, buf => ([], buf, none)
  | n + 1, buf =>
    match decode buf with
    | (.ok (some m), rest) =>
      let out := drain decode n rest
      (m :: out.1, out.2)
    | (.ok none, rest) => ([], rest, none)
    | (.error e, rest) => ([], rest, some e)

@[ext]
structure Receiver (α φ ε : Type) where
  buf : List α
  msgs : List φ
  error : Option ε
  deriving DecidableEq, Repr

namespace Receiver

def new : Receiver α φ ε := { buf := [], msgs := [], error := none }

/-- A chunk arrives. A message takes an element or more off the buffer, which
bounds the calls. -/
def read (decode : Decoder α φ ε) (r : Receiver α φ ε) (chunk : List α) : Receiver α φ ε :=
  let buf := r.buf ++ chunk
  let out := decode.drain (buf.length + 1) buf
  { buf := out.2.1, msgs := r.msgs ++ out.1, error := r.error.or out.2.2 }

def feed (decode : Decoder α φ ε) (chunks : List (List α)) : Receiver α φ ε := chunks.foldl (read decode) new

end Receiver

/-- What a call finds at the front of the buffer stays there if more arrives. -/
structure Incremental (decode : Decoder α φ ε) : Prop where
  empty : decode [] = (.ok none, [])
  wait {buf rest : List α} : decode buf = (.ok none, rest) → rest = buf
  msg {buf rest : List α} {m : φ} : decode buf = (.ok (some m), rest) →
    rest.length < buf.length ∧ ∀ more, decode (buf ++ more) = (.ok (some m), rest ++ more)
  error {buf rest : List α} {e : ε} : decode buf = (.error e, rest) →
    rest = buf ∧ ∀ more, decode (buf ++ more) = (.error e, buf ++ more)

/-- Calls on `buf` return the messages `msgs` and end at `rest`. -/
inductive Drains (decode : Decoder α φ ε) : List α → List φ → List α → Option ε → Prop where
  | wait {buf : List α} (h : decode buf = (.ok none, buf)) : Drains decode buf [] buf none
  | fail {buf : List α} {e : ε} (h : decode buf = (.error e, buf)) : Drains decode buf [] buf (some e)
  | msg {buf rest rest' : List α} {m : φ} {ms : List φ} {err : Option ε} (h : decode buf = (.ok (some m), rest))
      (hrest : Drains decode rest ms rest' err) : Drains decode buf (m :: ms) rest' err

namespace Drains

variable {decode : Decoder α φ ε} {buf rest rest' : List α} {ms ms' : List φ} {err err' : Option ε} {e : ε}

theorem unique (h : Drains decode buf ms rest err) (h' : Drains decode buf ms' rest' err') :
    ms' = ms ∧ rest' = rest ∧ err' = err := by
  induction h generalizing ms' with
  | wait hd =>
    cases h' with
    | wait => exact ⟨rfl, rfl, rfl⟩
    | fail hd' | msg hd' => cases hd.symm.trans hd'
  | fail hd =>
    cases h' with
    | fail hd' =>
      cases hd.symm.trans hd'
      exact ⟨rfl, rfl, rfl⟩
    | wait hd' | msg hd' => cases hd.symm.trans hd'
  | msg hd _ ih =>
    cases h' with
    | wait hd' | fail hd' => cases hd.symm.trans hd'
    | msg hd' hrest' =>
      cases hd.symm.trans hd'
      obtain ⟨rfl, hrest, herr⟩ := ih hrest'
      exact ⟨rfl, hrest, herr⟩

theorem append (hi : Incremental decode) (h : Drains decode buf ms rest none) {more : List α}
    (hmore : Drains decode (rest ++ more) ms' rest' err) : Drains decode (buf ++ more) (ms ++ ms') rest' err := by
  generalize hnone : (none : Option ε) = err₀ at h
  induction h with
  | wait => exact hmore
  | fail => cases hnone
  | msg hd _ ih => exact .msg ((hi.msg hd).2 more) (ih hmore hnone)

theorem append_error (hi : Incremental decode) (h : Drains decode buf ms rest (some e)) (more : List α) :
    decode (rest ++ more) = (.error e, rest ++ more) ∧ Drains decode (buf ++ more) ms (rest ++ more) (some e) := by
  generalize hsome : some e = err₀ at h
  induction h with
  | wait => cases hsome
  | fail hd =>
    cases hsome
    have hmore := (hi.error hd).2 more
    exact ⟨hmore, .fail hmore⟩
  | msg hd _ ih =>
    obtain ⟨hend, hrest⟩ := ih hsome
    exact ⟨hend, .msg ((hi.msg hd).2 more) hrest⟩

end Drains

variable {decode : Decoder α φ ε}

/-- One call more than there are elements is enough. -/
theorem Incremental.drain (hi : Incremental decode) {n : Nat} {buf : List α} (hn : buf.length < n) :
    Drains decode buf (decode.drain n buf).1 (decode.drain n buf).2.1 (decode.drain n buf).2.2 := by
  induction n generalizing buf with
  | zero => exact absurd hn (Nat.not_lt_zero _)
  | succ n ih =>
    unfold Decoder.drain
    split
    · rename_i m rest hd
      have hlt := (hi.msg hd).1
      exact .msg hd (ih (by omega))
    · rename_i rest hd
      obtain rfl := hi.wait hd
      exact .wait hd
    · rename_i e rest hd
      obtain rfl := (hi.error hd).1
      exact .fail hd

namespace Receiver

variable {r : Receiver α φ ε} {s : List α}

theorem read_drains (hi : Incremental decode) (h : Drains decode s r.msgs r.buf r.error) (chunk : List α) :
    Drains decode (s ++ chunk) (r.read decode chunk).msgs (r.read decode chunk).buf (r.read decode chunk).error := by
  have hdrain := hi.drain (Nat.lt_succ_self (r.buf ++ chunk).length)
  cases herr : r.error with
  | none =>
    rw [herr] at h
    rw [read, herr, Option.none_or]
    exact h.append hi hdrain
  | some e =>
    rw [herr] at h
    obtain ⟨hd, hs⟩ := h.append_error hi chunk
    obtain ⟨hms, hrest, -⟩ := (Drains.fail hd).unique hdrain
    simp only [read, herr, hms, hrest, List.append_nil]
    exact hs

theorem foldl_read_drains (hi : Incremental decode) (h : Drains decode s r.msgs r.buf r.error)
    (chunks : List (List α)) :
    Drains decode (s ++ chunks.flatten) (chunks.foldl (read decode) r).msgs (chunks.foldl (read decode) r).buf
      (chunks.foldl (read decode) r).error := by
  induction chunks generalizing r s with
  | nil =>
    rw [List.flatten_nil, List.append_nil]
    exact h
  | cons chunk chunks ih =>
    rw [List.flatten_cons, ← List.append_assoc]
    exact ih (read_drains hi h chunk)

/-- What a receiver holds is what calls on all that arrived return. -/
theorem feed_drains (hi : Incremental decode) (chunks : List (List α)) :
    Drains decode chunks.flatten (feed decode chunks).msgs (feed decode chunks).buf (feed decode chunks).error :=
  foldl_read_drains (r := new) (s := []) hi (.wait hi.empty) chunks

theorem feed_eq_of_drains (hi : Incremental decode) {chunks : List (List α)} {ms : List φ} {rest : List α}
    {err : Option ε} (h : Drains decode chunks.flatten ms rest err) :
    feed decode chunks = { buf := rest, msgs := ms, error := err } := by
  obtain ⟨hms, hrest, herr⟩ := h.unique (feed_drains hi chunks)
  exact Receiver.ext hrest hms herr

/-- The chunks do not matter. -/
theorem feed_flatten (hi : Incremental decode) (chunks : List (List α)) :
    feed decode chunks = feed decode [chunks.flatten] := by
  refine feed_eq_of_drains hi ?_
  have hwhole := feed_drains hi [chunks.flatten]
  rwa [List.flatten_singleton] at hwhole

end Receiver

/-! ## Messages in a stream -/

/-- How many of the messages are complete in the first `n` elements of the
stream. -/
def completeIn : List (List α) → Nat → Nat
  | [], _ => 0
  | m :: ms, n => if m.length ≤ n then completeIn ms (n - m.length) + 1 else 0

/-- From `n` received elements on, each chunk adds at most one to the count. -/
def OnePerRead (count : Nat → Nat) : Nat → List (List α) → Prop
  | _, [] => True
  | n, c :: cs => count (n + c.length) ≤ count n + 1 ∧ OnePerRead count (n + c.length) cs

instance OnePerRead.decidable (count : Nat → Nat) : ∀ (n : Nat) (cs : List (List α)), Decidable (OnePerRead count n cs)
  | _, [] => inferInstanceAs (Decidable True)
  | n, c :: cs =>
    have := OnePerRead.decidable count (n + c.length) cs
    inferInstanceAs (Decidable (_ ∧ _))

theorem completeIn_cons_of_le {m : List α} {n : Nat} (h : m.length ≤ n) (ms : List (List α)) :
    completeIn (m :: ms) n = completeIn ms (n - m.length) + 1 := if_pos h

theorem completeIn_cons_of_lt {m : List α} {n : Nat} (h : n < m.length) (ms : List (List α)) :
    completeIn (m :: ms) n = 0 := if_neg (Nat.not_le.mpr h)

/-- The messages do not start before anything has arrived. -/
theorem completeIn_zero {ms : List (List α)} (h : ∀ m ∈ ms, m ≠ []) : completeIn ms 0 = 0 := by
  cases ms with
  | nil => rfl
  | cons m ms =>
    have hm : 0 < m.length := List.length_pos_iff.mpr (h m List.mem_cons_self)
    exact completeIn_cons_of_lt hm ms

/-- All messages are complete in the whole stream. -/
theorem completeIn_of_le {ms : List (List α)} {n : Nat} (h : ms.flatten.length ≤ n) :
    completeIn ms n = ms.length := by
  induction ms generalizing n with
  | nil => rfl
  | cons m ms ih =>
    rw [List.flatten_cons, List.length_append] at h
    rw [completeIn_cons_of_le (by omega), ih (by omega), List.length_cons]

/-- What has arrived holds the first message if it is as long. -/
theorem exists_rest_of_le {p q m s : List α} (hs : p ++ q = m ++ s) (h : m.length ≤ p.length) :
    ∃ p', p = m ++ p' ∧ p' ++ q = s := by
  have hm : m <+: p ++ q := hs ▸ List.prefix_append m s
  obtain ⟨p', rfl⟩ := List.prefix_of_prefix_length_le hm (List.prefix_append p q) h
  refine ⟨p', rfl, ?_⟩
  rwa [List.append_assoc, List.append_cancel_left_eq] at hs

/-- Counts that differ by a constant and an offset. -/
theorem OnePerRead.congr {f g : Nat → Nat} {k n n' : Nat} (h : ∀ j, f (n + j) = k + g (n' + j)) (cs : List (List α)) :
    OnePerRead f n cs ↔ OnePerRead g n' cs := by
  induction cs generalizing n n' with
  | nil => exact Iff.rfl
  | cons c cs ih =>
    have h0 : f n = k + g n' := h 0
    have htail : ∀ j, f (n + c.length + j) = k + g (n' + c.length + j) := by
      intro j
      rw [Nat.add_assoc, Nat.add_assoc, h]
    simp only [OnePerRead, h0, h c.length, ih htail]
    exact and_congr_left' (by omega)

end MRE
