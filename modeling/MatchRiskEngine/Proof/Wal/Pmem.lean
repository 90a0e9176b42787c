import MatchRiskEngine.Impl.Pmem
import MatchRiskEngine.Proof.Wal.RoundTrip

/-!
# Recovery of a log in persistent memory

Recovery takes the record header for eight bytes longer than it is in a log in
persistent memory, so that it takes more room for each command than the command
has (`recovered_last`). The last command is then looked for behind the place
where it is. It is found only where that does not matter: if it is the only
one, and all its bytes are zero (`recovered_iff`).
-/

namespace MRE.Pmem.Proof

open Wal Wal.Proof

/-! ## Bincode is canonical -/

variable {cmd : InboundCommand}

section Canonical

open Bincode

variable {α β : Type} {bs bs' : List UInt8}

theorem bind_eq_some {x : Get α} {f : α → Get β} {b : β} (h : (x >>= f) bs = some (b, bs')) :
    ∃ a mid, x bs = some (a, mid) ∧ f a mid = some (b, bs') := by
  obtain ⟨⟨a, mid⟩, hx, hf⟩ := Option.bind_eq_some_iff.mp (show (x bs).bind (fun r => f r.1 r.2) = some (b, bs') from h)
  exact ⟨a, mid, hx, hf⟩

theorem getNat_eq_some {n x : Nat} (h : getNat n bs = some (x, bs')) : bs = leBytes n x ++ bs' ∧ x < 256 ^ n := by
  unfold getNat at h
  split at h
  · cases h
  · rename_i hlen
    cases h
    have hn : (bs.take n).length = n := by rw [List.length_take]; omega
    have hbytes := leBytes_ofLeBytes (bs.take n)
    have hlt := ofLeBytes_lt (bs.take n)
    rw [hn] at hbytes hlt
    exact ⟨by rw [hbytes, List.take_append_drop], hlt⟩

theorem getU64_eq_some {x : UInt64} (h : getU64 bs = some (x, bs')) : bs = leBytes 8 x.toNat ++ bs' := by
  obtain ⟨n, mid, hn, h⟩ := bind_eq_some h
  cases h
  obtain ⟨hbs, hlt⟩ := getNat_eq_some hn
  rw [UInt64.toNat_ofNat_of_lt' hlt, hbs]

theorem getU16_eq_some {x : UInt16} (h : getU16 bs = some (x, bs')) : bs = leBytes 2 x.toNat ++ bs' := by
  obtain ⟨n, mid, hn, h⟩ := bind_eq_some h
  cases h
  obtain ⟨hbs, hlt⟩ := getNat_eq_some hn
  rw [UInt16.toNat_ofNat_of_lt' hlt, hbs]

theorem getIndexed_eq_some {variants : List α} {v : α} (index : α → Nat)
    (hindex : variants.map index = List.range variants.length) (h : getIndexed variants bs = some (v, bs')) :
    bs = leBytes 4 (index v) ++ bs' := by
  obtain ⟨i, mid, hi, h⟩ := bind_eq_some h
  obtain ⟨v', hv', h⟩ := Option.map_eq_some_iff.mp h
  cases h
  have hv : (List.range variants.length)[i]? = some (index v) := by rw [← hindex, List.getElem?_map, hv']; rfl
  rw [List.getElem?_range (List.getElem?_eq_some_iff.mp hv').1] at hv
  rw [← Option.some.inj hv]
  exact (getNat_eq_some hi).1

theorem getSide_eq_some {v : Side} (h : getIndexed [Side.buy, Side.sell] bs = some (v, bs')) :
    bs = leBytes 4 (Side.index v) ++ bs' :=
  getIndexed_eq_some Side.index rfl h

theorem getOrderType_eq_some {v : OrderType} (h : getIndexed [OrderType.limit, OrderType.market] bs = some (v, bs')) :
    bs = leBytes 4 (OrderType.index v) ++ bs' :=
  getIndexed_eq_some OrderType.index rfl h

theorem getTimeInForce_eq_some {v : TimeInForce}
    (h : getIndexed [TimeInForce.gtc, TimeInForce.ioc, TimeInForce.fok] bs = some (v, bs')) :
    bs = leBytes 4 (TimeInForce.index v) ++ bs' :=
  getIndexed_eq_some TimeInForce.index rfl h

theorem getCommand_eq_some (h : getCommand bs = some (cmd, bs')) : bs = serialise cmd ++ bs' := by
  obtain ⟨i, mid, hi, h⟩ := bind_eq_some h
  rw [(getNat_eq_some hi).1]
  unfold getFields at h
  split at h
  · obtain ⟨account, bs₁, h₁, h⟩ := bind_eq_some h
    obtain ⟨clientOrderId, bs₂, h₂, h⟩ := bind_eq_some h
    obtain ⟨symbol, bs₃, h₃, h⟩ := bind_eq_some h
    obtain ⟨side, bs₄, h₄, h⟩ := bind_eq_some h
    obtain ⟨price, bs₅, h₅, h⟩ := bind_eq_some h
    obtain ⟨qty, bs₆, h₆, h⟩ := bind_eq_some h
    obtain ⟨orderType, bs₇, h₇, h⟩ := bind_eq_some h
    obtain ⟨timeInForce, bs₈, h₈, h⟩ := bind_eq_some h
    cases h
    rw [getU64_eq_some h₁, getU64_eq_some h₂, getU16_eq_some h₃, getSide_eq_some h₄, getU64_eq_some h₅, getU64_eq_some h₆,
      getOrderType_eq_some h₇, getTimeInForce_eq_some h₈]
    simp only [serialise, List.append_assoc, UInt64.toUInt64_toInt64]
  · obtain ⟨account, bs₁, h₁, h⟩ := bind_eq_some h
    obtain ⟨orderId, bs₂, h₂, h⟩ := bind_eq_some h
    cases h
    rw [getU64_eq_some h₁, getU64_eq_some h₂]
    simp only [serialise, List.append_assoc]
  · obtain ⟨symbol, bs₁, h₁, h⟩ := bind_eq_some h
    obtain ⟨account, bs₂, h₂, h⟩ := bind_eq_some h
    cases h
    rw [getU16_eq_some h₁, getU64_eq_some h₂]
    simp only [serialise, List.append_assoc]
  · obtain ⟨account, bs₁, h₁, h⟩ := bind_eq_some h
    cases h
    rw [getU64_eq_some h₁]
    simp only [serialise, List.append_assoc]
  · cases h

theorem deserialise_eq_some (h : deserialise bs = some cmd) : ∃ rest, bs = serialise cmd ++ rest := by
  obtain ⟨⟨cmd', rest⟩, hget, rfl⟩ := Option.map_eq_some_iff.mp h
  exact ⟨rest, getCommand_eq_some hget⟩

/-- The order whose bytes are all zero. -/
def zeroOrder : InboundCommand :=
  .newOrder { account := ⟨0⟩, clientOrderId := ⟨0⟩, symbol := ⟨0⟩, side := .buy, price := ⟨0⟩, qty := ⟨0⟩
              orderType := .limit, timeInForce := .gtc }

theorem serialise_zeroOrder : serialise zeroOrder = List.replicate 50 0 := by decide

theorem eq_zeroOrder (h : ∀ b ∈ serialise cmd, b = 0) : cmd = zeroOrder := by
  -- the variants other than the first have an index that is not zero
  have htag : ∃ o, cmd = .newOrder o := by
    cases cmd with
    | newOrder o => exact ⟨o, rfl⟩
    | cancel account orderId => exact absurd (h 1 (by simp [serialise, leBytes])) (by decide)
    | liquidate symbol account => exact absurd (h 2 (by simp [serialise, leBytes])) (by decide)
    | freezeAccount account => exact absurd (h 3 (by simp [serialise, leBytes])) (by decide)
  obtain ⟨o, rfl⟩ := htag
  have hbytes : serialise (.newOrder o) = serialise zeroOrder := by
    rw [serialise_zeroOrder]
    refine List.eq_replicate_iff.mpr ⟨?_, h⟩
    simp [serialise]
  have hdecode := getCommand_serialise (.newOrder o) []
  rw [hbytes, getCommand_serialise] at hdecode
  cases hdecode
  rfl

end Canonical

variable {bincode : BincodeCodec} {crc32 : Checksum} {w w' w₀ : PmemWalWriter} {cmds cs : List SequencedCommand}
  {c sc : SequencedCommand} {cap : Nat} {file : List UInt8}

/-! ## What is written -/

/-- The bytes that are written for a command, without the padding. -/
def recordBytes (crc32 : Checksum) (sc : SequencedCommand) : List UInt8 :=
  leU64 sc.seq ++ leU64 sc.tsNs ++ leU32 (UInt32.ofNat (Bincode.serialise sc.cmd).length) ++
    leU32 (crc32 (Bincode.serialise sc.cmd)) ++ Bincode.serialise sc.cmd

/-- The room a command takes. -/
def recordSize (sc : SequencedCommand) : Nat := align8 (recordHeaderSize + (Bincode.serialise sc.cmd).length)

/-- The bytes that are written for a command. -/
def paddedBytes (crc32 : Checksum) (sc : SequencedCommand) : List UInt8 :=
  recordBytes crc32 sc ++ List.replicate (recordSize sc - (recordHeaderSize + (Bincode.serialise sc.cmd).length)) 0

/-- The room some commands take. -/
def logSize (cmds : List SequencedCommand) : Nat := (cmds.map recordSize).sum

theorem length_paddedBytes (crc32 : Checksum) (sc : SequencedCommand) :
    (paddedBytes crc32 sc).length = recordSize sc := by
  simp only [paddedBytes, recordBytes, List.length_append, length_leU64, length_leU32, List.length_replicate, recordSize,
    align8, recordHeaderSize]
  omega

theorem logSize_dvd (cmds : List SequencedCommand) : ∃ i, logSize cmds = 8 * i := by
  induction cmds with
  | nil => exact ⟨0, rfl⟩
  | cons c cmds ih =>
    obtain ⟨i, hi⟩ := ih
    refine ⟨(recordHeaderSize + (Bincode.serialise c.cmd).length + 7) / 8 + i, ?_⟩
    rw [logSize, List.map_cons, List.sum_cons, ← logSize, hi, recordSize, align8]
    omega

theorem length_flatMap_paddedBytes (crc32 : Checksum) (cmds : List SequencedCommand) :
    (cmds.flatMap (paddedBytes crc32)).length = logSize cmds := by
  simp only [List.length_flatMap, length_paddedBytes, logSize]

/-- The file is a header, what was written for the commands, and zeros. -/
structure Holds (crc32 : Checksum) (cap : Nat) (w : PmemWalWriter) (cmds : List SequencedCommand) : Prop where
  magic : w.mmap.take 8 = Wal.magic
  log : w.mmap.drop fileHeaderSize =
    cmds.flatMap (paddedBytes crc32) ++ List.replicate (cap - (fileHeaderSize + logSize cmds)) 0
  cursor : w.cursor = fileHeaderSize + logSize cmds
  length : w.mmap.length = cap
  fits : fileHeaderSize + logSize cmds ≤ cap

theorem Holds.append {offset : Nat} (h : Holds crc32 cap w cmds)
    (happ : w.append bincode.toCodec crc32 sc = (w', .ok offset)) : Holds crc32 cap w' (cmds ++ [sc]) := by
  have hsize : logSize (cmds ++ [sc]) = logSize cmds + recordSize sc := by
    rw [logSize, List.map_append, List.sum_append, List.map_singleton, List.sum_singleton]
    rfl
  simp only [PmemWalWriter.append, bincode.serialise_eq] at happ
  split at happ
  · cases happ
  · rename_i hroom
    have hfits : w.cursor + (paddedBytes crc32 sc).length ≤ w.mmap.length := by
      rw [length_paddedBytes]
      exact Nat.not_lt.mp hroom
    have hcur : fileHeaderSize ≤ w.cursor := by rw [h.cursor]; exact Nat.le_add_right _ _
    have hw' : w' = { mmap := splice w.mmap w.cursor (paddedBytes crc32 sc), cursor := w.cursor + recordSize sc
                      lastSeq := sc.seq } := (Prod.mk.inj happ).1.symm
    subst hw'
    refine ⟨?_, ?_, ?_, ?_, ?_⟩
    · rw [take_splice (Nat.le_trans (by decide) hcur) hfits]
      exact h.magic
    · have hrest : w.mmap.drop (w.cursor + (paddedBytes crc32 sc).length) =
          List.replicate (cap - (fileHeaderSize + logSize (cmds ++ [sc]))) 0 := by
        rw [h.cursor, Nat.add_assoc, ← List.drop_drop, h.log, length_paddedBytes, ← length_flatMap_paddedBytes crc32 cmds,
          ← List.drop_drop, List.drop_left, List.drop_replicate, length_flatMap_paddedBytes, hsize]
        congr 1
        omega
      rw [drop_splice hcur hfits, hrest, h.log, h.cursor, Nat.add_sub_cancel_left, ← length_flatMap_paddedBytes crc32 cmds,
        List.take_left, List.flatMap_append, List.flatMap_singleton]
    · rw [hsize, ← Nat.add_assoc, ← h.cursor]
    · exact (length_splice hfits).trans h.length
    · rw [hsize, ← Nat.add_assoc, ← h.cursor, ← h.length, ← length_paddedBytes crc32]
      exact hfits

theorem Holds.appendAll {scs : List SequencedCommand} (h : Holds crc32 cap w cmds)
    (hrun : w.appendAll bincode.toCodec crc32 scs = some w') : Holds crc32 cap w' (cmds ++ scs) := by
  induction scs generalizing w cmds with
  | nil =>
    cases hrun
    rw [List.append_nil]
    exact h
  | cons sc scs ih =>
    rw [PmemWalWriter.appendAll] at hrun
    split at hrun
    · rename_i happ
      rw [List.append_cons]
      exact ih (h.append happ) hrun
    · cases hrun

theorem Holds.new (hzero : ∀ b ∈ file, b = 0) (hopen : openFile crc32 file cap = some (.ok w₀)) : Holds crc32 cap w₀ [] := by
  have hmagic : slice (List.replicate cap (0 : UInt8)) 0 8 ≠ Pmem.magic := slice_zeros_ne_magic cap
  simp only [openFile, setLen_zeros hzero, List.length_replicate, if_pos hmagic] at hopen
  split at hopen
  · cases hopen
  split at hopen
  · cases hopen
  rename_i hcap
  have hcap : 32 ≤ cap := Nat.not_lt.mp hcap
  have hfile : splice (splice (splice (List.replicate cap 0) 0 Pmem.magic) 8 (leU32 version)) 12 (List.replicate 20 0) =
      (Pmem.magic ++ leU32 version ++ List.replicate 20 0) ++ List.replicate (cap - 32) 0 := by
    have h₁ : splice (splice (List.replicate cap (0 : UInt8)) 0 Pmem.magic) 8 (leU32 version) =
        splice (List.replicate cap 0) 0 (Pmem.magic ++ leU32 version) :=
      splice_splice (a := 0) (by rw [List.length_replicate]; exact Nat.le_trans (by decide) hcap)
    rw [h₁]
    refine (splice_splice (a := 0) (by rw [List.length_replicate]; exact Nat.le_trans (by decide) hcap)).trans ?_
    rw [splice, List.take_zero, List.nil_append, List.drop_replicate]
    rfl
  cases hopen
  refine ⟨?_, ?_, rfl, ?_, hcap⟩
  · rw [hfile]
    rfl
  · rw [hfile, List.drop_left' (by rfl)]
    rfl
  · rw [hfile, List.length_append, List.length_replicate,
      show (Pmem.magic ++ leU32 version ++ List.replicate 20 (0 : UInt8)).length = 32 from rfl]
    omega

/-! ## What is recovered -/

theorem scanned_size {payload : List UInt8} (hd : Bincode.deserialise payload = some cmd) :
    align8 (Pmem.recordHeaderSize + (Bincode.serialise cmd).length) + 8 ≤ align8 (Wal.recordHeaderSize + payload.length) := by
  obtain ⟨rest, rfl⟩ := deserialise_eq_some hd
  rw [List.length_append, align8, align8, Pmem.recordHeaderSize, Wal.recordHeaderSize]
  omega

/-- The last command that is recovered, from where, and how far that is at
least: each of the commands before took eight bytes more than it has. -/
theorem recovered_last {bs rest : List UInt8} {rs : List Record} {t : UInt64} (h : Reads crc32 bs rs rest)
    (hrec : (recover bincode.toCodec 0 t rs).1 = cs ++ [c]) :
    ∃ k r, StartsWith crc32 (bs.drop (8 * k)) r ∧ Bincode.deserialise r.payload = some c.cmd ∧ r.term = c.term ∧
      logSize cs + 8 * cs.length ≤ 8 * k := by
  induction h generalizing t cs with
  | stop =>
    have := congrArg List.length hrec
    simp [recover] at this
  | @record bs r rs rest hr hrest ih =>
    have hsize : ∃ j, r.size = 8 * j := ⟨_, Nat.mul_comm _ _⟩
    obtain ⟨j, hj⟩ := hsize
    by_cases ht : r.term < t
    · rw [recover_stale ht] at hrec
      obtain ⟨k, r', hr', hd, hterm, hle⟩ := ih hrec
      refine ⟨j + k, r', ?_, hd, hterm, by omega⟩
      rw [Nat.mul_add, ← hj, ← List.drop_drop]
      exact hr'
    have hs := seq_pos hr.1
    cases hd : bincode.deserialise r.payload with
    | none =>
      rw [recover_undecodable ht hs hd] at hrec
      have := congrArg List.length hrec
      simp at this
    | some cmd =>
      rw [recover_decoded ht hs hd] at hrec
      cases cs with
      | nil =>
        obtain ⟨hc, -⟩ := List.cons.inj hrec
        refine ⟨0, r, hr, ?_, by rw [← hc], Nat.le_refl _⟩
        rw [← hc, ← bincode.deserialise_eq]
        exact hd
      | cons c' cs =>
        obtain ⟨hc, hrec⟩ := List.cons.inj hrec
        obtain ⟨k, r', hr', hd', hterm, hle⟩ := ih hrec
        have hscan : recordSize c' + 8 ≤ r.size := by
          rw [← hc]
          exact scanned_size ((bincode.deserialise_eq _).symm.trans hd)
        refine ⟨j + k, r', ?_, hd', hterm, ?_⟩
        · rw [Nat.mul_add, ← hj, ← List.drop_drop]
          exact hr'
        · rw [logSize, List.map_cons, List.sum_cons, List.length_cons, ← logSize]
          omega

theorem eq_zero_of_leU64 {x : UInt64} {xs : List UInt8} {n : Nat} (h : List.replicate n 0 = leU64 x ++ xs) : x = 0 := by
  have hbytes := (List.append_eq_replicate_iff.mp h.symm).2.1
  rw [← u64OfLe_leU64 x, hbytes, length_leU64]
  rfl

theorem eq_zero_of_leU32 {x : UInt32} {xs : List UInt8} {n : Nat} (h : List.replicate n 0 = leU32 x ++ xs) : x = 0 := by
  have hbytes := (List.append_eq_replicate_iff.mp h.symm).2.1
  rw [← u32OfLe_leU32 x, hbytes, length_leU32]
  rfl

/-- Where the last command is found, from the place of its record on. -/
theorem found_last {k m : Nat} {r : Record}
    (h : StartsWith crc32 ((recordBytes crc32 c ++ List.replicate m 0).drop (8 * k)) r)
    (hd : Bincode.deserialise r.payload = some c.cmd) :
    k = 0 ∧ c.cmd = zeroOrder ∧ r.term = 0 ∧ 82 ≤ (recordBytes crc32 c ++ List.replicate m 0).length := by
  obtain ⟨hvalid, rest, hbytes⟩ := h
  obtain ⟨more, hmore⟩ := deserialise_eq_some hd
  -- behind the header that was written there are the payload and zeros
  have hdrop : ∀ i, (recordBytes crc32 c ++ List.replicate m 0).drop (24 + i) =
      (Bincode.serialise c.cmd ++ List.replicate m 0).drop i := fun i => by
    rw [← List.drop_drop, recordBytes, List.append_assoc, List.drop_left' (by simp)]
  have hpayload : (Bincode.serialise c.cmd ++ List.replicate m 0).drop (8 * k + 8) =
      Bincode.serialise c.cmd ++ (more ++ rest) := by
    rw [← hdrop, show 24 + (8 * k + 8) = 8 * k + 32 by omega, ← List.drop_drop, hbytes,
      List.drop_left' (show (r.header crc32).length = 32 from length_header crc32 r), hmore, List.append_assoc]
  have hzeros := eq_of_shift (Nat.succ_pos _) hpayload
  have hcmd := eq_zeroOrder hzeros
  have hall : Bincode.serialise c.cmd ++ List.replicate m 0 = List.replicate (50 + m) 0 := by
    rw [hcmd, serialise_zeroOrder, List.replicate_append_replicate]
  have hheader : ∀ i j, 8 * k + i = 24 + j → List.replicate (50 + m - j) (0 : UInt8) =
      (r.header crc32 ++ (r.payload ++ rest)).drop i := fun i j hij => by
    rw [← hbytes, List.drop_drop, hij, hdrop, hall, List.drop_replicate]
  have hk : k = 0 := by
    by_contra hk
    -- the length is read from the zeros
    have hlen := hheader 16 (8 * k - 8) (by omega)
    simp only [Record.header, List.append_assoc] at hlen
    rw [← List.append_assoc, List.drop_left' (by simp)] at hlen
    have hlen := congrArg UInt32.toNat (eq_zero_of_leU32 hlen)
    rw [UInt32.toNat_ofNat_of_lt' hvalid.length] at hlen
    rw [List.length_eq_zero_iff.mp hlen] at hd
    cases hd
  subst hk
  have hterm := hheader 24 0 rfl
  simp only [Record.header, List.append_assoc] at hterm
  rw [← List.append_assoc, ← List.append_assoc, ← List.append_assoc, List.drop_left' (by simp)] at hterm
  refine ⟨rfl, hcmd, eq_zero_of_leU64 hterm, ?_⟩
  have hlength := congrArg List.length hbytes
  rw [Nat.mul_zero, List.drop_zero, hmore, hcmd, serialise_zeroOrder] at hlength
  rw [hlength]
  simp only [List.length_append, length_header, List.length_replicate, Wal.recordHeaderSize]
  omega

/-- A command whose bytes are zero, in a file that is large enough. -/
theorem reads_zeroOrder (crc32 : Checksum) {m : Nat} (hseq : c.seq ≠ 0) (hcmd : c.cmd = zeroOrder) (hm : 8 ≤ m) :
    ∃ n, Reads crc32 (recordBytes crc32 c ++ List.replicate m 0)
      [{ seq := c.seq, tsNs := c.tsNs, term := 0, payload := List.replicate 50 0 }] (List.replicate n 0) := by
  have hterm : leU64 0 = List.replicate 8 0 := by decide
  have hbytes : recordBytes crc32 c ++ List.replicate m 0 =
      ({ seq := c.seq, tsNs := c.tsNs, term := 0, payload := List.replicate 50 0 } : Record).header crc32 ++
        (List.replicate 50 0 ++ List.replicate (m - 8) 0) := by
    simp only [recordBytes, Record.header, hcmd, serialise_zeroOrder, List.append_assoc, hterm,
      List.replicate_append_replicate, show 50 + m = 8 + (50 + (m - 8)) by omega]
  refine ⟨m - 8 - 6, .record ⟨⟨hseq, ?_⟩, _, hbytes⟩ ?_⟩
  · rw [List.length_replicate]
    decide
  · have hsize : ({ seq := c.seq, tsNs := c.tsNs, term := 0, payload := List.replicate 50 0 } : Record).size = 32 + 56 := by
      rw [Record.size, List.length_replicate]
      decide
    rw [hsize, hbytes, ← List.drop_drop, List.drop_left' (show (Record.header crc32 _).length = 32 from length_header crc32 _),
      List.replicate_append_replicate, List.drop_replicate, show 50 + (m - 8) - 56 = m - 8 - 6 by omega]
    exact .stop (not_startsWith_of_read (read_zeros crc32 _))

theorem paddedBytes_eq (crc32 : Checksum) (c : SequencedCommand) (m : Nat) :
    ∃ n, paddedBytes crc32 c ++ List.replicate m 0 = recordBytes crc32 c ++ List.replicate n 0 := by
  rw [paddedBytes, List.append_assoc, List.replicate_append_replicate]
  exact ⟨_, rfl⟩

theorem recordSize_zeroOrder (hcmd : c.cmd = zeroOrder) : recordSize c = 80 := by
  rw [recordSize, hcmd, serialise_zeroOrder]
  decide

theorem logSize_singleton (c : SequencedCommand) : logSize [c] = recordSize c := by
  rw [logSize, List.map_singleton, List.sum_singleton]

/-- If the commands in a file are recovered, it is one command at most. -/
theorem Holds.eq_of_recovered {res : ScanResult} (h : Holds crc32 cap w cmds)
    (hres : scanWal bincode.toCodec crc32 w.mmap 0 = some res) (hcmds : res.commands = cmds) :
    cmds = [] ∨ ∃ c, cmds = [c] ∧ c.term = 0 ∧ c.cmd = zeroOrder ∧ 114 ≤ cap := by
  obtain ⟨hmagic, hlog, -, -, hfits⟩ := h
  obtain ⟨rs, rest, hreads⟩ := exists_reads crc32 (w.mmap.drop Wal.fileHeaderSize)
  obtain ⟨res', hres', hrec, -⟩ := scanWal_ok bincode.toCodec hmagic hreads 0
  rw [hres] at hres'
  cases hres'
  rw [show w.mmap.drop Wal.fileHeaderSize = _ from hlog] at hreads
  rcases List.eq_nil_or_concat cmds with rfl | ⟨cs, c, hlast⟩
  · exact .inl rfl
  rw [List.concat_eq_append] at hlast
  subst hlast
  obtain ⟨k, r, hr, hd, hterm, hle⟩ := recovered_last hreads (hrec.symm.trans hcmds)
  obtain ⟨i, hi⟩ := logSize_dvd cs
  obtain ⟨n, hn⟩ := paddedBytes_eq crc32 c (cap - (fileHeaderSize + logSize (cs ++ [c])))
  -- the last record, from where it was written on
  have hdrop : (List.flatMap (paddedBytes crc32) (cs ++ [c]) ++
      List.replicate (cap - (fileHeaderSize + logSize (cs ++ [c]))) 0).drop (8 * k) =
        (recordBytes crc32 c ++ List.replicate n 0).drop (8 * (k - i)) := by
    rw [List.flatMap_append, List.flatMap_singleton, List.append_assoc, hn, show 8 * k = 8 * i + 8 * (k - i) by omega,
      ← List.drop_drop, List.drop_left' ((length_flatMap_paddedBytes crc32 cs).trans hi)]
  rw [hdrop] at hr
  obtain ⟨hk, hcmd, hzero, hlength⟩ := found_last hr hd
  have hcs : cs = [] := List.length_eq_zero_iff.mp (by omega)
  subst hcs
  refine .inr ⟨c, rfl, hterm.symm.trans hzero, hcmd, ?_⟩
  rw [← hn, List.length_append, length_paddedBytes, List.length_replicate, List.nil_append, logSize_singleton,
    recordSize_zeroOrder hcmd, fileHeaderSize] at hlength
  rw [List.nil_append, logSize_singleton, recordSize_zeroOrder hcmd, fileHeaderSize] at hfits
  omega

theorem Holds.recovers_nil (h : Holds crc32 cap w []) :
    ∃ res, scanWal bincode.toCodec crc32 w.mmap 0 = some res ∧ res.commands = [] := by
  have hreads := Reads.stop (not_startsWith_of_read (read_zeros crc32 (cap - (fileHeaderSize + logSize []))))
  have hlog := h.log
  rw [List.flatMap_nil, List.nil_append] at hlog
  rw [← hlog] at hreads
  obtain ⟨res, hres, hcmds, -⟩ := scanWal_ok bincode.toCodec h.magic hreads 0
  exact ⟨res, hres, hcmds⟩

/-- A command of zeros is recovered if the larger header has room. -/
theorem Holds.recovers_zeroOrder (h : Holds crc32 cap w [c]) (hc : c.seq ≠ 0) (hterm : c.term = 0) (hcmd : c.cmd = zeroOrder)
    (hcap : 114 ≤ cap) : ∃ res, scanWal bincode.toCodec crc32 w.mmap 0 = some res ∧ res.commands = [c] := by
  have hlen : (Bincode.serialise c.cmd).length = 50 := by rw [hcmd, serialise_zeroOrder, List.length_replicate]
  have hbytes : w.mmap.drop fileHeaderSize = recordBytes crc32 c ++ List.replicate (6 + (cap - (32 + 80))) 0 := by
    rw [h.log, List.flatMap_singleton, paddedBytes, List.append_assoc, List.replicate_append_replicate, hlen,
      logSize_singleton, recordSize_zeroOrder hcmd]
    rfl
  obtain ⟨n, hreads⟩ := reads_zeroOrder crc32 hc hcmd (show 8 ≤ 6 + (cap - (32 + 80)) by omega)
  rw [← hbytes] at hreads
  obtain ⟨res, hres, hcmds, -⟩ := scanWal_ok bincode.toCodec h.magic hreads 0
  refine ⟨res, hres, hcmds.trans ?_⟩
  have hd : bincode.deserialise (List.replicate 50 0) = some c.cmd := by
    rw [bincode.deserialise_eq, hcmd]
    decide
  rw [recover_decoded UInt64.not_lt_zero (UInt64.pos_iff_ne_zero.mpr hc) hd, ← hterm]
  rfl

/-- From a new file, the accepted commands are recovered exactly if there is
none, or a single one whose term and bytes are zero, in a file with room for
the larger header. -/
theorem recovered_iff (bincode : BincodeCodec) (hzero : ∀ b ∈ file, b = 0)
    (hopen : openFile crc32 file cap = some (.ok w₀))
    (hrun : w₀.appendAll bincode.toCodec crc32 cmds = some w) (hseq : ∀ sc ∈ cmds, 1 ≤ sc.seq) :
    (∃ res, scanWal bincode.toCodec crc32 w.mmap 0 = some res ∧ res.commands = cmds) ↔
      cmds = [] ∨ ∃ c, cmds = [c] ∧ c.term = 0 ∧ c.cmd = zeroOrder ∧ 114 ≤ cap := by
  have hholds := (Holds.new hzero hopen).appendAll hrun
  rw [List.nil_append] at hholds
  constructor
  · rintro ⟨res, hres, hcmds⟩
    exact hholds.eq_of_recovered hres hcmds
  · rintro (rfl | ⟨c, rfl, hterm, hcmd, hcap⟩)
    · exact hholds.recovers_nil
    · have hc : c.seq ≠ 0 := seq_ne_zero (hseq c List.mem_cons_self)
      exact hholds.recovers_zeroOrder hc hterm hcmd hcap

set_option maxRecDepth 2000

theorem openFile_demo : ((openFile byteSum [] 256).bind Except.toOption).isSome = true := by decide

/-- A new file of 256 bytes. -/
def demoWriter : PmemWalWriter := Option.get _ openFile_demo

/-- The order whose bytes are all zero. -/
def demoZero : SequencedCommand := { term := 0, seq := 1, tsNs := 5, cmd := zeroOrder }

theorem append_demoZero : (demoWriter.appendAll Bincode.codec byteSum [demoZero]).isSome = true := by decide

theorem recovered_iff_demo : ∃ w, demoWriter.appendAll Bincode.codec byteSum [demoZero] = some w ∧
    ∃ res, scanWal Bincode.codec byteSum w.mmap 0 = some res ∧ res.commands = [demoZero] := by
  refine ⟨Option.get _ append_demoZero, (Option.some_get _).symm, ?_⟩
  exact (recovered_iff Bincode.format (fun _ h => absurd h List.not_mem_nil) (eq_ok_get openFile_demo)
    (Option.some_get append_demoZero).symm (by decide)).mpr (.inr ⟨demoZero, rfl, rfl, rfl, by decide⟩)

/-- An accepted cancel is not recovered. -/
theorem cancel_not_recovered : openFile byteSum [] 256 = some (.ok demoWriter) ∧
    (demoWriter.appendAll Bincode.codec byteSum [demoCancel]).isSome = true ∧
    ((demoWriter.appendAll Bincode.codec byteSum [demoCancel]).bind fun w =>
      scanWal Bincode.codec byteSum w.mmap 0) =
        some { commands := [], corruptRecords := 1, seqGaps := 0, highestTerm := 0 } :=
  ⟨eq_ok_get openFile_demo, by decide, by decide⟩

end MRE.Pmem.Proof
