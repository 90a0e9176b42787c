import MatchRiskEngine.Proof.Wal.RoundTrip

/-!
# Appends, and failed ones

The records of successful appends stand one behind the other, at the offsets
that were returned (`appendAll_written`), whatever the sequence numbers. A scan
sees them up to the first with sequence number zero (`reads_visible`).

An append takes over the term of its command before it finds out that there is
no room for it. So one that fails cannot be told from one that was not made if
and only if the term is not a new one (`failedAppend_sameLater_iff`).
-/

namespace MRE.Wal.Proof

variable {codec : Codec} {crc32 : Checksum} {r : Record} {rs rs₀ : List Record}
  {w w₀ : FileWalWriter} {sc : SequencedCommand} {scs : List SequencedCommand} {cap : Nat} {file : List UInt8}
  {offsets : List Nat}

/-- Where records start that are written one after the other. -/
def offsetsFrom : Nat → List Record → List Nat
  | _, [] => []
  | offset, r :: rs => offset :: offsetsFrom (offset + r.size) rs

theorem le_of_mem_offsetsFrom {offset o : Nat} (h : o ∈ offsetsFrom offset rs) : offset ≤ o := by
  induction rs generalizing offset with
  | nil => cases h
  | cons r rs ih =>
    rcases List.mem_cons.mp h with rfl | h
    · exact Nat.le_refl _
    · exact Nat.le_trans (Nat.le_add_right _ _) (ih h)

theorem Encodes.payloadLen (h : Encodes codec sc r) : payloadLen codec sc = r.payload.length := by
  rw [Wal.payloadLen, h.1, Option.getD_some]

/-- Successful appends write their records at the offsets that they return. -/
theorem appendAll_written (h : Written crc32 w₀ rs₀) (happ : w₀.appendAll codec crc32 scs = (w, offsets.map .ok)) :
    ∃ rs, List.Forall₂ (Encodes codec) scs rs ∧ Written crc32 w (rs₀ ++ rs) ∧ offsets = offsetsFrom w₀.cursor rs ∧
      (w₀.highestTerm :: rs.map Record.term).IsChain (· ≤ ·) := by
  induction scs generalizing w₀ rs₀ offsets with
  | nil =>
    rcases offsets with _ | ⟨o, offsets⟩
    · cases happ
      exact ⟨[], .nil, by rwa [List.append_nil], rfl, .singleton _⟩
    · cases happ
  | cons sc scs ih =>
    rcases offsets with _ | ⟨o, offsets⟩
    · cases happ
    · obtain ⟨hw, hres⟩ := Prod.mk.inj happ
      rw [List.map_cons, List.cons.injEq] at hres
      have hfirst : w₀.append codec crc32 sc = ((w₀.append codec crc32 sc).1, .ok o) := Prod.ext rfl hres.1
      obtain ⟨r, hr, hterm, hfits, hw₁, ho⟩ := append_eq_ok hfirst
      obtain ⟨h₁, -⟩ := h.write hfits (congrArg FileWalWriter.mmap hw₁) (congrArg FileWalWriter.cursor hw₁)
      obtain ⟨rs, hrs, hwritten, hoffsets, hterms⟩ := ih h₁ (Prod.ext hw hres.2)
      rw [hw₁] at hoffsets hterms
      refine ⟨r :: rs, .cons hr hrs, by rwa [List.append_cons], ?_, List.isChain_cons_cons.mpr ⟨hterm, hterms⟩⟩
      rw [hoffsets, ho, offsetsFrom]

theorem appendAll_fresh (hzero : ∀ b ∈ file, b = 0) (hopen : openFile crc32 file cap = some (.ok w₀))
    (happ : w₀.appendAll codec crc32 scs = (w, offsets.map .ok)) :
    ∃ rs, List.Forall₂ (Encodes codec) scs rs ∧ Written crc32 w rs ∧ offsets = offsetsFrom fileHeaderSize rs ∧
      (0 :: rs.map Record.term).IsChain (· ≤ ·) := by
  obtain ⟨h₀, -⟩ := openFile_zeros hzero hopen
  obtain ⟨rs, henc, hwritten, hoffsets, hterms⟩ := appendAll_written h₀.written happ
  rw [h₀.cursor] at hoffsets
  rw [h₀.highestTerm] at hterms
  exact ⟨rs, henc, hwritten, hoffsets, hterms⟩

/-! ## What a scan sees -/

/-- A scan sees records up to the first with sequence number zero. -/
theorem reads_visible (crc32 : Checksum) (hlen : ∀ r ∈ rs, r.payload.length < 2 ^ 32) (zeros : Nat) :
    ∃ rest, Reads crc32 (rs.flatMap (Record.bytes crc32) ++ List.replicate zeros 0) (rs.takeWhile (·.seq ≠ 0)) rest := by
  induction rs with
  | nil => exact ⟨_, .stop (not_startsWith_of_read (read_zeros crc32 zeros))⟩
  | cons r rs ih =>
    obtain ⟨hr, hrs⟩ := List.forall_mem_cons.mp hlen
    rw [List.flatMap_cons, List.append_assoc, List.takeWhile_cons]
    by_cases hseq : r.seq = 0
    · rw [if_neg (by simp [hseq])]
      refine ⟨_, .stop (not_startsWith_of_read (read_of_seq_eq_zero ?_))⟩
      rw [slice_bytes_seq, u64OfLe_leU64, hseq]
    · rw [if_pos (by simp [hseq])]
      obtain ⟨rest, hrest⟩ := ih hrs
      refine ⟨rest, .record (startsWith_bytes ⟨hseq, hr⟩ _) ?_⟩
      rwa [← length_bytes crc32 r, List.drop_left]

theorem recover_visible {t : UInt64} (henc : List.Forall₂ (Encodes codec) scs rs)
    (hterms : (t :: rs.map Record.term).IsChain (· ≤ ·)) :
    (recover codec 0 t (rs.takeWhile (·.seq ≠ 0))).1 = scs.takeWhile (·.seq ≠ 0) := by
  induction henc generalizing t with
  | nil => rfl
  | @cons sc r scs rs hr _ ih =>
    rw [List.map_cons, List.isChain_cons_cons] at hterms
    obtain ⟨hpay, hseq, hts, hterm⟩ := hr
    rw [List.takeWhile_cons, List.takeWhile_cons, hseq]
    split
    · rename_i hvisible
      have hpos : 0 < r.seq := UInt64.pos_iff_ne_zero.mpr (by rw [hseq]; exact of_decide_eq_true hvisible)
      rw [recover_decoded (UInt64.not_lt.mpr hterms.1) hpos (codec.deserialise_serialise hpay), ih hterms.2, hseq, hts,
        hterm]
    · rfl

theorem exists_appendAll {results : List (Except WalError Nat)} (h : (w₀.appendAll codec crc32 scs).2 = results) :
    ∃ w, w₀.appendAll codec crc32 scs = (w, results) := ⟨_, Prod.ext rfl h⟩

/-- A new file of 256 bytes, for examples. -/
def freshWriter : FileWalWriter :=
  { mmap := writeFileHeader (List.replicate 256 0), cursor := 32, lastSeq := 0, highestTerm := 0 }

set_option maxRecDepth 2000

theorem openFile_fresh (crc32 : Checksum) : openFile crc32 [] 256 = some (.ok freshWriter) := by
  have hlen : ¬ (setLen [] 256).length < 12 := by decide
  have hmagic : slice (setLen [] 256) 0 8 ≠ magic := by decide
  simp only [openFile, if_neg hlen, if_pos hmagic]
  rfl

/-! ## Failed appends -/

variable {w w' : FileWalWriter} {sc : SequencedCommand} {e : WalError}

/-- What a failed append does: nothing if the term is stale, and otherwise it
keeps the term. -/
theorem append_eq_error (h : w.append codec crc32 sc = (w', .error e)) :
    sc.term < w.highestTerm ∧ w' = w ∨ w.highestTerm ≤ sc.term ∧ w' = { w with highestTerm := sc.term } := by
  unfold FileWalWriter.append at h
  split at h
  · rename_i hterm
    cases h
    exact .inl ⟨hterm, rfl⟩
  · rename_i hterm
    refine .inr ⟨UInt64.not_lt.mp hterm, ?_⟩
    split at h
    · cases h
      rfl
    · simp only [FileWalWriter.writeRecord] at h
      split at h <;> cases h
      rfl

theorem append_stale (codec : Codec) (crc32 : Checksum) (hterm : sc.term < w.highestTerm) :
    w.append codec crc32 sc = (w, .error (.staleTerm sc.term w.highestTerm)) := if_pos hterm

theorem append_ne_stale (hterm : w.highestTerm ≤ sc.term) (got highest : UInt64) :
    (w.append codec crc32 sc).2 ≠ .error (.staleTerm got highest) := by
  unfold FileWalWriter.append
  rw [if_neg (UInt64.not_lt.mpr hterm)]
  split
  · simp
  · simp only [FileWalWriter.writeRecord]
    split <;> simp

/-- A failed append shows in later ones if and only if its term is a new one. -/
theorem failedAppend_sameLater_iff (codec : Codec) (crc32 : Checksum) (w w' : FileWalWriter)
    (sc : SequencedCommand) (e : WalError) (h : w.append codec crc32 sc = (w', .error e)) :
    w'.SameLater codec crc32 w ↔ sc.term ≤ w.highestTerm := by
  constructor
  · intro hsame
    by_contra hnew
    have hlt : w.highestTerm < sc.term := UInt64.not_le.mp hnew
    obtain ⟨hstale, -⟩ | ⟨-, hw'⟩ := append_eq_error h
    · exact hnew (UInt64.le_of_lt hstale)
    -- the same command, with the term that was the highest before
    have hnow := append_stale codec crc32
      (show { sc with term := w.highestTerm }.term < w'.highestTerm by rw [hw']; exact hlt)
    have hfirst := congrArg List.head? (hsame [{ sc with term := w.highestTerm }]).1
    simp only [FileWalWriter.appendAll, List.head?_cons, hnow, Option.some.injEq] at hfirst
    exact append_ne_stale (UInt64.le_refl _) _ _ hfirst.symm
  · intro hterm
    have hw' : w' = w := by
      obtain ⟨-, hw'⟩ | ⟨hge, hw'⟩ := append_eq_error h
      · exact hw'
      · rw [hw', UInt64.le_antisymm hterm hge]
    rw [hw']
    exact fun _ => ⟨rfl, rfl⟩

/-- An order does not fit into the 96 bytes of this file, a cancellation does. -/
def smallWriter : FileWalWriter :=
  { mmap := writeFileHeader (List.replicate 96 0), cursor := 32, lastSeq := 0, highestTerm := 1 }

def bigCommand (term : UInt64) : SequencedCommand :=
  { term, seq := 1, tsNs := 5
    cmd := .newOrder
      { account := ⟨1⟩, clientOrderId := ⟨1⟩, symbol := ⟨1⟩, side := .buy, price := ⟨100⟩, qty := ⟨1⟩
        orderType := .limit, timeInForce := .gtc } }

def smallCommand : SequencedCommand := { term := 1, seq := 1, tsNs := 6, cmd := .cancel ⟨1⟩ ⟨3⟩ }

theorem failedAppend_sameLater_small : ∃ w' e,
    smallWriter.append Bincode.codec byteSum (bigCommand 1) = (w', .error e) ∧
      w'.SameLater Bincode.codec byteSum smallWriter := by
  have h : smallWriter.append Bincode.codec byteSum (bigCommand 1) =
      (smallWriter, .error (.capacityExhausted 96 120)) := rfl
  exact ⟨_, _, h, (failedAppend_sameLater_iff Bincode.codec byteSum _ _ _ _ h).mpr (by decide)⟩

/-- A command of term 2 that does not fit makes one of term 1 stale, which
would have been written at offset 32. -/
theorem failedAppend_shows :
    (smallWriter.append Bincode.codec byteSum (bigCommand 2)).2 = .error (.capacityExhausted 96 120) ∧
    (smallWriter.appendAll Bincode.codec byteSum [smallCommand]).2 = [.ok 32] ∧
    ((smallWriter.append Bincode.codec byteSum (bigCommand 2)).1.appendAll Bincode.codec byteSum [smallCommand]).2 =
      [.error (.staleTerm 1 2)] ∧
    ¬ (smallWriter.append Bincode.codec byteSum (bigCommand 2)).1.SameLater Bincode.codec byteSum smallWriter := by
  have hwith : ((smallWriter.append Bincode.codec byteSum (bigCommand 2)).1.appendAll Bincode.codec byteSum
      [smallCommand]).2 = [.error (.staleTerm 1 2)] := rfl
  have hwithout : (smallWriter.appendAll Bincode.codec byteSum [smallCommand]).2 = [.ok 32] := rfl
  refine ⟨rfl, hwithout, hwith, fun hsame => ?_⟩
  have heq := (hsame [smallCommand]).1
  rw [hwith, hwithout] at heq
  exact absurd heq (by decide)

end MRE.Wal.Proof
