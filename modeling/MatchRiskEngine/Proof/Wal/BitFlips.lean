import MatchRiskEngine.Proof.Wal.Appends

/-!
# Single bit flips

The checksum covers the payload alone. A bit of the payload, of the checksum or
of an unwritten place changes nothing but where the scan stops. A bit of the
sequence number, the timestamp or the term makes another record of the same
payload (`flipBit_seq`, `flipBit_tsNs`, `flipBit_term`), which is recovered as a
command that was not written unless it is not looked at (`scanWal_flipBit_iff`).
A bit of the length makes a record of another payload, which is no record unless
its checksum fits by accident (`reads_flipBit_length`).
-/

namespace MRE.Wal.Proof

variable {codec : Codec} {crc32 : Checksum} {bs tail : List UInt8} {r r' : Record} {rs : List Record}
  {w w₀ : FileWalWriter} {sc : SequencedCommand} {scs : List SequencedCommand} {cap i : Nat} {file : List UInt8}
  {b : Fin 8}

/-! ## A bit of a header -/

theorem bytes_append (crc32 : Checksum) (r : Record) (tail : List UInt8) :
    r.bytes crc32 ++ tail = leU64 r.seq ++ (leU64 r.tsNs ++ (leU32 (UInt32.ofNat r.payload.length) ++
      (leU32 (crc32 r.payload) ++ (leU64 r.term ++ (r.payload ++
        (List.replicate (r.size - (recordHeaderSize + r.payload.length)) 0 ++ tail)))))) := by
  simp only [Record.bytes, Record.header, List.append_assoc]

theorem flipBit_seq (crc32 : Checksum) (r : Record) (tail : List UInt8) (b : Fin 8) (hi : i < 8) :
    flipBit (r.bytes crc32 ++ tail) i b = Record.bytes crc32 { r with seq := flipU64 r.seq i b } ++ tail := by
  rw [bytes_append, bytes_append, leU64_flipU64]
  exact flipBit_append_left (by rw [length_leU64]; exact hi)

theorem flipBit_tsNs (crc32 : Checksum) (r : Record) (tail : List UInt8) (b : Fin 8) (h₁ : 8 ≤ i)
    (h₂ : i < 16) :
    flipBit (r.bytes crc32 ++ tail) i b = Record.bytes crc32 { r with tsNs := flipU64 r.tsNs (i - 8) b } ++ tail := by
  rw [bytes_append, bytes_append, leU64_flipU64]
  exact flipBit_middle rfl (length_leU64 _) h₁ (by rw [length_leU64]; exact h₂)

theorem flipBit_term (crc32 : Checksum) (r : Record) (tail : List UInt8) (b : Fin 8) (h₁ : 24 ≤ i)
    (h₂ : i < 32) :
    flipBit (r.bytes crc32 ++ tail) i b = Record.bytes crc32 { r with term := flipU64 r.term (i - 24) b } ++ tail := by
  have hbytes : r.bytes crc32 ++ tail = (leU64 r.seq ++ leU64 r.tsNs ++ leU32 (UInt32.ofNat r.payload.length) ++
      leU32 (crc32 r.payload)) ++ (leU64 r.term ++ (r.payload ++
        (List.replicate (r.size - (recordHeaderSize + r.payload.length)) 0 ++ tail))) := by
    rw [bytes_append]
    simp only [List.append_assoc]
  rw [flipBit_middle hbytes (by simp : _ = 24) h₁ (by rw [length_leU64]; exact h₂), bytes_append, leU64_flipU64]
  simp only [List.append_assoc]
  rfl

/-! ## A bit that is caught -/

theorem StartsWith.fields {ids len crc term : List UInt8} (h : StartsWith crc32 (ids ++ (len ++ (crc ++ (term ++ bs)))) r)
    (hids : ids.length = 16) (hlen : len.length = 4) (hcrc : crc.length = 4) (hterm : term.length = 8) :
    ids = leU64 r.seq ++ leU64 r.tsNs ∧ len = leU32 (UInt32.ofNat r.payload.length) ∧ crc = leU32 (crc32 r.payload) ∧
      term = leU64 r.term ∧ bs.take r.payload.length = r.payload := by
  obtain ⟨-, rest, h⟩ := h
  rw [Record.header, List.append_assoc (leU64 r.seq ++ leU64 r.tsNs ++ _ ++ _), List.append_assoc (leU64 r.seq ++ _ ++ _),
    List.append_assoc (leU64 r.seq ++ _)] at h
  obtain ⟨h₀, h⟩ := List.append_inj h (by simp [hids])
  obtain ⟨h₁, h⟩ := List.append_inj h (by simp [hlen])
  obtain ⟨h₂, h⟩ := List.append_inj h (by simp [hcrc])
  obtain ⟨h₃, h⟩ := List.append_inj h (by simp [hterm])
  refine ⟨h₀, h₁, h₂, h₃, ?_⟩
  rw [h, List.take_left]

theorem leU64_inj {x y : UInt64} (h : leU64 x = leU64 y) : x = y := by
  rw [← u64OfLe_leU64 x, h, u64OfLe_leU64]

theorem leU32_inj {x y : UInt32} (h : leU32 x = leU32 y) : x = y := by
  rw [← u32OfLe_leU32 x, h, u32OfLe_leU32]

/-- The length of a record is that of the record which stands in front. -/
theorem length_eq_of_leU32 {m n : Nat} (hm : m < 2 ^ 32) (hn : n < 2 ^ 32)
    (h : leU32 (UInt32.ofNat m) = leU32 (UInt32.ofNat n)) : m = n := by
  have := congrArg UInt32.toNat (leU32_inj h)
  rwa [UInt32.toNat_ofNat_of_lt' hm, UInt32.toNat_ofNat_of_lt' hn] at this

theorem not_startsWith_flipBit_crc (hlen : r.payload.length < 2 ^ 32) (h₁ : 20 ≤ i) (h₂ : i < 24) :
    ∀ r', ¬ StartsWith crc32 (flipBit (r.bytes crc32 ++ tail) i b) r' := by
  intro r' h
  have hbytes : r.bytes crc32 ++ tail = (leU64 r.seq ++ leU64 r.tsNs ++ leU32 (UInt32.ofNat r.payload.length)) ++
      (leU32 (crc32 r.payload) ++ (leU64 r.term ++ (r.payload ++
        (List.replicate (r.size - (recordHeaderSize + r.payload.length)) 0 ++ tail)))) := by
    rw [bytes_append]
    simp only [List.append_assoc]
  rw [flipBit_middle hbytes (by simp : _ = 20) h₁ (by rw [length_leU32]; exact h₂), List.append_assoc] at h
  obtain ⟨-, hlength, hcrc, -, hpayload⟩ := StartsWith.fields h (by simp) (by simp) (by simp) (by simp)
  rw [← length_eq_of_leU32 hlen h.1.length hlength, List.take_left] at hpayload
  rw [← hpayload] at hcrc
  exact flipBit_ne (by rw [length_leU32]; omega) hcrc

theorem not_startsWith_flipBit_payload (hdetect : ∀ bs i b, i < bs.length → crc32 (flipBit bs i b) ≠ crc32 bs)
    (hlen : r.payload.length < 2 ^ 32) (h₁ : recordHeaderSize ≤ i) (h₂ : i < recordHeaderSize + r.payload.length) :
    ∀ r', ¬ StartsWith crc32 (flipBit (r.bytes crc32 ++ tail) i b) r' := by
  intro r' h
  have hbytes : r.bytes crc32 ++ tail = r.header crc32 ++ (r.payload ++
      (List.replicate (r.size - (recordHeaderSize + r.payload.length)) 0 ++ tail)) := by
    simp only [Record.bytes, List.append_assoc]
  rw [flipBit_middle hbytes (length_header crc32 r) h₁ h₂, Record.header, List.append_assoc, List.append_assoc,
    List.append_assoc] at h
  obtain ⟨-, hlength, hcrc, -, hpayload⟩ := StartsWith.fields h (by simp) (by simp) (by simp) (by simp)
  have hsame : (flipBit r.payload (i - recordHeaderSize) b).length = r'.payload.length := by
    rw [length_flipBit]
    exact length_eq_of_leU32 hlen h.1.length hlength
  rw [← hsame, List.take_left] at hpayload
  rw [← hpayload] at hcrc
  exact hdetect r.payload (i - recordHeaderSize) b (by omega) (leU32_inj hcrc).symm

/-! ## A bit of a length -/

theorem strays_iff {rest : List UInt8} (h : Reads crc32 bs rs rest) (t : UInt64) (scs : List SequencedCommand) :
    Strays codec crc32 bs t scs ↔ ¬ (recover codec 0 t rs).1 <+: scs := by
  induction h generalizing t scs with
  | stop h =>
    refine iff_of_false (fun hs => ?_) (not_not.mpr List.nil_prefix)
    rcases hs with ⟨hr, -, -, -⟩ | ⟨hr, -, -⟩ | ⟨hr, -, -⟩ <;> exact absurd hr (h _)
  | @record bs r rs rest h _ ih =>
    have hseq := seq_pos h.1
    by_cases ht : r.term < t
    · rw [recover_stale ht, ← ih]
      refine ⟨fun hs => ?_, .stale h ht⟩
      rcases hs with ⟨hr, ht', -, -⟩ | ⟨hr, -, hs⟩ | ⟨hr, ht', -⟩ <;> cases StartsWith.unique h hr
      · exact absurd ht ht'
      · exact hs
      · exact absurd ht ht'
    cases hd : codec.deserialise r.payload with
    | none =>
      rw [recover_undecodable ht hseq hd]
      refine iff_of_false (fun hs => ?_) (not_not.mpr List.nil_prefix)
      rcases hs with ⟨hr, -, hd', -⟩ | ⟨hr, ht', -⟩ | ⟨hr, -, hd', -⟩ <;> cases StartsWith.unique h hr
      · rw [hd] at hd'; cases hd'
      · exact absurd ht' ht
      · rw [hd] at hd'; cases hd'
    | some cmd =>
      rw [recover_decoded ht hseq hd]
      constructor
      · intro hs
        rcases hs with ⟨hr, -, hd', hne⟩ | ⟨hr, ht', -⟩ | ⟨hr, -, hd', hs⟩ <;> cases StartsWith.unique h hr
        · cases hd.symm.trans hd'
          rintro ⟨rest, rfl⟩
          exact hne rfl
        · exact absurd ht' ht
        · rw [List.cons_prefix_cons, not_and]
          exact fun _ => (ih _ _).mp hs
      · intro hnot
        cases scs with
        | nil => exact .other h ht hd (by simp)
        | cons sc scs =>
          rw [List.cons_prefix_cons, not_and_or, ← ih] at hnot
          rcases hnot with hne | hs
          · exact .other h ht hd fun he => hne (Option.some.inj he).symm
          · by_cases hsc : ({ term := r.term, seq := r.seq, tsNs := r.tsNs, cmd } : SequencedCommand) = sc
            · exact hsc ▸ .next h ht hd hs
            · exact .other h ht hd fun he => hsc (Option.some.inj he).symm

variable {t : UInt64}

/-- What stands there is a record of another payload, if any. -/
theorem reads_flipBit_length (hr : Encodes codec sc r) (ht : ¬ r.term < t) (h₁ : 16 ≤ i) (h₂ : i < 20)
    (hbs : bs = flipBit (r.bytes crc32 ++ tail) i b) :
    ∃ rs' rest, Reads crc32 bs rs' rest ∧ ((recover codec 0 t rs').1 <+: sc :: scs ↔
      ∀ r', StartsWith crc32 bs r' → ∀ cmd, codec.deserialise r'.payload = some cmd →
        cmd = sc.cmd ∧ ¬ Strays codec crc32 (bs.drop r'.size) sc.term scs) := by
  obtain ⟨rs', rest, hreads⟩ := exists_reads crc32 bs
  refine ⟨rs', rest, hreads, ?_⟩
  cases hreads with
  | stop h => exact iff_of_true List.nil_prefix fun r' h' => absurd h' (h r')
  | @record _ r' rs' _ h hrest =>
    -- its other fields are those of the record that was there
    have hbytes : r.bytes crc32 ++ tail = (leU64 r.seq ++ leU64 r.tsNs) ++ (leU32 (UInt32.ofNat r.payload.length) ++
        (leU32 (crc32 r.payload) ++ (leU64 r.term ++ (r.payload ++
          (List.replicate (r.size - (recordHeaderSize + r.payload.length)) 0 ++ tail))))) := by
      rw [bytes_append, List.append_assoc]
    have hfields := h
    rw [hbs, flipBit_middle hbytes (by simp : _ = 16) h₁ (by rw [length_leU32]; exact h₂)] at hfields
    obtain ⟨hids, -, -, hterm, -⟩ := StartsWith.fields hfields (by simp) (by simp) (by simp) (by simp)
    obtain ⟨hseq, htsNs⟩ := List.append_inj hids (by simp)
    have hseq := leU64_inj hseq
    have htsNs := leU64_inj htsNs
    have hterm := leU64_inj hterm
    have hpos := seq_pos h.1
    have huniq : (∀ r'', StartsWith crc32 bs r'' → ∀ cmd, codec.deserialise r''.payload = some cmd →
          cmd = sc.cmd ∧ ¬ Strays codec crc32 (bs.drop r''.size) sc.term scs) ↔
        ∀ cmd, codec.deserialise r'.payload = some cmd →
          cmd = sc.cmd ∧ ¬ Strays codec crc32 (bs.drop r'.size) sc.term scs :=
      ⟨fun hall => hall r' h, fun hall r'' h' => StartsWith.unique h h' ▸ hall⟩
    rw [huniq]
    cases hd : codec.deserialise r'.payload with
    | none =>
      rw [recover_undecodable (hterm ▸ ht) hpos hd]
      exact iff_of_true List.nil_prefix nofun
    | some cmd =>
      rw [recover_decoded (hterm ▸ ht) hpos hd, List.cons_prefix_cons, ← hseq, ← htsNs, ← hterm, hr.2.1, hr.2.2.1, hr.2.2.2,
        strays_iff hrest, not_not]
      simp only [Option.some.injEq, forall_eq']
      refine and_congr_left fun _ => ?_
      cases sc
      simp

/-! ## A bit of an unwritten place -/

/-- What may be read there: an empty payload of term zero. -/
theorem startsWith_flipBit_zeros {n : Nat} (h : StartsWith crc32 (flipBit (List.replicate n 0) i b) r) :
    i < 8 ∧ r.payload = [] ∧ r.term = 0 := by
  have hn : 32 ≤ n := by
    have := StartsWith.length_le h
    rwa [length_flipBit, List.length_replicate] at this
  have hzeros : List.replicate n (0 : UInt8) = List.replicate 8 0 ++ (List.replicate 8 0 ++ (List.replicate 4 0 ++
      (List.replicate 4 0 ++ (List.replicate 8 0 ++ List.replicate (n - 32) 0)))) := by
    simp only [List.replicate_append_replicate]
    congr 1
    omega
  have hi : i < 8 := by
    by_contra hi
    rw [hzeros, flipBit_append_right (by simp; omega)] at h
    refine not_startsWith_of_read (read_of_seq_eq_zero ?_) r h
    rw [slice, List.drop_zero, List.take_left' (by simp)]
    rfl
  rw [hzeros, flipBit_append_left (by simp; omega), ← List.append_assoc] at h
  obtain ⟨-, hlength, -, hterm, -⟩ := StartsWith.fields h (by simp) (by simp) (by simp) (by simp)
  refine ⟨hi, List.length_eq_zero_iff.mp (length_eq_of_leU32 h.1.length (by decide) hlength.symm), ?_⟩
  rw [← u64OfLe_leU64 r.term, ← hterm]
  rfl

theorem recover_flipBit_zeros (hempty : codec.deserialise [] = none) {n : Nat} {rest : List UInt8} (t : UInt64)
    (h : Reads crc32 (flipBit (List.replicate n 0) i b) rs rest) : (recover codec 0 t rs).1 = [] := by
  cases h with
  | stop => rfl
  | @record _ r rs _ h hrest =>
    obtain ⟨hi, hpayload, hterm⟩ := startsWith_flipBit_zeros h
    have hpos := seq_pos h.1
    have hsize : i < r.size := Nat.lt_of_lt_of_le hi (Nat.le_trans (by decide) (header_le_size r))
    by_cases ht : r.term < t
    · -- behind it there are only zeros
      rw [flipBit, List.drop_modify_of_lt _ _ _ _ hsize, List.drop_replicate] at hrest
      rw [recover_stale ht]
      cases hrest with
      | stop => rfl
      | record h => exact absurd h (not_startsWith_of_read (read_zeros crc32 _) _)
    · rw [recover_undecodable ht hpos (by rw [hpayload]; exact hempty)]

/-! ## All bits -/

/-- Without its first element a list goes on as it was if that is repeated. -/
theorem takeWhile_prefix_cons_iff {α : Type} {p : α → Bool} {a : α} {l : List α} :
    l.takeWhile p <+: a :: l ↔ ∀ x ∈ l.takeWhile p, x = a := by
  induction l generalizing a with
  | nil => simp
  | cons y l ih =>
    rw [List.takeWhile_cons]
    split
    · rw [List.cons_prefix_cons, ih, List.forall_mem_cons]
      exact ⟨fun ⟨h, hl⟩ => ⟨h, fun x hx => (hl x hx).trans h⟩, fun ⟨h, hl⟩ => ⟨h, fun x hx => (hl x hx).trans h.symm⟩⟩
    · simp

/-- The record of another header in front of records: what is recovered is
written unless the record is too old to be looked at. -/
theorem prefix_header_iff (hr : Encodes codec sc r) (henc : List.Forall₂ (Encodes codec) scs rs)
    (hterms : (t :: rs.map Record.term).IsChain (· ≤ ·)) (hpayload : r'.payload = r.payload) (hne : r' ≠ r)
    (hseq : r'.seq ≠ 0) :
    (recover codec 0 t ((r' :: rs).takeWhile (·.seq ≠ 0))).1 <+: sc :: scs ↔
      r'.term < t ∧ ∀ x ∈ scs.takeWhile (·.seq ≠ 0), x = sc := by
  rw [List.takeWhile_cons_of_pos (by simpa using hseq)]
  by_cases ht : r'.term < t
  · rw [recover_stale ht, recover_visible henc hterms, takeWhile_prefix_cons_iff, and_iff_right ht]
  · have hdecode : codec.deserialise r'.payload = some sc.cmd := by
      rw [hpayload]
      exact codec.deserialise_serialise hr.1
    rw [recover_decoded ht (UInt64.pos_iff_ne_zero.mpr hseq) hdecode, List.cons_prefix_cons]
    refine iff_of_false (fun ⟨h, _⟩ => hne ?_) fun ⟨h, _⟩ => ht h
    obtain ⟨-, hseq, hts, hterm⟩ := hr
    rw [← h] at hseq hts hterm
    obtain ⟨seq, tsNs, term, payload⟩ := r
    obtain ⟨seq', tsNs', term', payload'⟩ := r'
    exact Record.mk.injEq .. ▸ ⟨hseq.symm, hts.symm, hterm.symm, hpayload⟩

theorem reads_header (hr : Encodes codec sc r) (henc : List.Forall₂ (Encodes codec) scs rs)
    (hterms : (t :: rs.map Record.term).IsChain (· ≤ ·)) (zeros : Nat) (r' : Record) (hpayload : r'.payload = r.payload)
    (hne : r' ≠ r) (hbs : bs = r'.bytes crc32 ++ (rs.flatMap (Record.bytes crc32) ++ List.replicate zeros 0)) :
    ∃ rs' rest, Reads crc32 bs rs' rest ∧ ((recover codec 0 t rs').1 <+: sc :: scs ↔
      r'.seq = 0 ∨ r'.term < t ∧ ∀ x ∈ scs.takeWhile (·.seq ≠ 0), x = sc) := by
  have hlens : ∀ x ∈ r' :: rs, x.payload.length < 2 ^ 32 :=
    List.forall_mem_cons.mpr ⟨by rw [hpayload]; exact hr.length_lt, length_lt_of_encodes henc⟩
  obtain ⟨rest, hreads⟩ := reads_visible crc32 hlens zeros
  rw [List.flatMap_cons, List.append_assoc, ← hbs] at hreads
  refine ⟨_, rest, hreads, ?_⟩
  by_cases hseq : r'.seq = 0
  · rw [List.takeWhile_cons_of_neg (by simp [hseq])]
    exact iff_of_true List.nil_prefix (.inl hseq)
  · rw [prefix_header_iff hr henc hterms hpayload hne hseq, or_iff_right hseq]

/-- A sequence number that is zero hides what is behind it. -/
theorem not_startsWith_flipBit (hseq : r.seq = 0) (hi : 8 ≤ i) :
    ∀ r', ¬ StartsWith crc32 (flipBit (r.bytes crc32 ++ tail) i b) r' := by
  refine not_startsWith_of_read (read_of_seq_eq_zero ?_)
  rw [bytes_append, flipBit_append_right (by rw [length_leU64]; exact hi), slice, List.drop_zero,
    List.take_left' (length_leU64 _), u64OfLe_leU64, hseq]

theorem startsWith_flipBit (hvalid : r.Valid) (hi : recordHeaderSize + r.payload.length ≤ i) :
    StartsWith crc32 (flipBit (r.bytes crc32 ++ tail) i b) r := by
  have hbytes : r.bytes crc32 ++ tail = (r.header crc32 ++ r.payload) ++
      (List.replicate (r.size - (recordHeaderSize + r.payload.length)) 0 ++ tail) := by
    simp only [Record.bytes, List.append_assoc]
  rw [hbytes, flipBit_append_right (by rw [List.length_append, length_header]; exact hi), List.append_assoc]
  exact ⟨hvalid, _, rfl⟩

/-- A bit in the header or the payload of the first record. -/
theorem reads_flipBit_first (hdetect : ∀ bs i b, i < bs.length → crc32 (flipBit bs i b) ≠ crc32 bs)
    {zeros : Nat} (hr : Encodes codec sc r) (henc : List.Forall₂ (Encodes codec) scs rs) (ht : t ≤ r.term)
    (hterms : (t :: rs.map Record.term).IsChain (· ≤ ·))
    (hbs : bs = r.bytes crc32 ++ (rs.flatMap (Record.bytes crc32) ++ List.replicate zeros 0))
    (hi : i < recordHeaderSize + r.payload.length) :
    ∃ rs' rest, Reads crc32 (flipBit bs i b) rs' rest ∧
      ((recover codec 0 t rs').1 <+: sc :: scs ↔ Harmless codec crc32 b bs i t (sc :: scs)) := by
  have ht : ¬ r.term < t := UInt64.not_lt.mpr ht
  have hlen := hr.length_lt
  have hsize : recordSize codec sc = r.size := by rw [recordSize, hr.payloadLen, Record.size]
  -- a record that is not read ends the scan
  have hstop (h : ∀ r', ¬ StartsWith crc32 (flipBit bs i b) r') :
      ∃ rs' rest, Reads crc32 (flipBit bs i b) rs' rest ∧ ((recover codec 0 t rs').1 <+: sc :: scs ↔ True) :=
    ⟨[], _, .stop h, iff_of_true List.nil_prefix trivial⟩
  rw [Harmless]
  subst hbs
  split
  · -- the sequence number
    rename_i hi
    obtain ⟨rs', rest, hreads, hiff⟩ := reads_header hr henc hterms zeros { r with seq := flipU64 r.seq i b } rfl
      (fun h => flipU64_ne _ hi (congrArg Record.seq h)) (flipBit_seq crc32 r _ b hi)
    refine ⟨rs', rest, hreads, hiff.trans ?_⟩
    rw [or_iff_left fun h => ht h.1, hr.2.1]
  rename_i h8
  split
  · rename_i hzero
    exact hstop (not_startsWith_flipBit (hr.2.1.trans hzero) (Nat.not_lt.mp h8))
  rename_i hseq
  have hseq : r.seq ≠ 0 := by rw [hr.2.1]; exact hseq
  split
  · -- the timestamp
    rename_i hi
    obtain ⟨rs', rest, hreads, hiff⟩ := reads_header hr henc hterms zeros { r with tsNs := flipU64 r.tsNs (i - 8) b } rfl
      (fun h => flipU64_ne _ (by omega) (congrArg Record.tsNs h)) (flipBit_tsNs crc32 r _ b (Nat.not_lt.mp h8) hi)
    exact ⟨rs', rest, hreads, hiff.trans (iff_of_false (fun h => h.elim hseq fun h => ht h.1) id)⟩
  rename_i h16
  split
  · rename_i hi
    exact reads_flipBit_length hr ht (Nat.not_lt.mp h16) hi rfl
  rename_i h20
  split
  · rename_i hi
    exact hstop (not_startsWith_flipBit_crc hlen (Nat.not_lt.mp h20) hi)
  rename_i h24
  split
  · -- the term
    rename_i hi
    obtain ⟨rs', rest, hreads, hiff⟩ := reads_header hr henc hterms zeros { r with term := flipU64 r.term (i - 24) b } rfl
      (fun h => flipU64_ne _ (by omega) (congrArg Record.term h)) (flipBit_term crc32 r _ b (Nat.not_lt.mp h24) hi)
    refine ⟨rs', rest, hreads, hiff.trans ?_⟩
    rw [or_iff_right hseq, hr.2.2.2]
  rename_i h32
  rw [if_pos (by rw [hsize]; exact Nat.lt_of_lt_of_le hi (payload_le_size r))]
  exact hstop (not_startsWith_flipBit_payload hdetect hlen (Nat.not_lt.mp h32) hi)

theorem harmless_behind (hr : Encodes codec sc r) (hi : recordHeaderSize + r.payload.length ≤ i) :
    Harmless codec crc32 b bs i t (sc :: scs) ↔
      sc.seq = 0 ∨ i < r.size ∨ Harmless codec crc32 b (bs.drop r.size) (i - r.size) sc.term scs := by
  have hsize : recordSize codec sc = r.size := by rw [recordSize, hr.payloadLen, Record.size]
  have h32 : 32 ≤ i := Nat.le_trans (Nat.le_add_right _ _) hi
  rw [Harmless, if_neg (by omega)]
  split
  · rename_i hzero
    exact iff_of_true trivial (.inl hzero)
  · rename_i hseq
    rw [if_neg (by omega), if_neg (by omega), if_neg (by omega), if_neg (by omega), hsize, or_iff_right hseq]
    split
    · rename_i hpadding
      exact iff_of_true trivial (.inl hpadding)
    · rename_i hpadding
      rw [or_iff_right hpadding]

/-- What is read of some records with a bit the other way. -/
theorem reads_flipBit (hdetect : ∀ bs i b, i < bs.length → crc32 (flipBit bs i b) ≠ crc32 bs)
    (hempty : codec.deserialise [] = none) {image : List UInt8} {zeros o : Nat} (ho : o ≤ i)
    (hlog : image.drop o = rs.flatMap (Record.bytes crc32) ++ List.replicate zeros 0)
    (henc : List.Forall₂ (Encodes codec) scs rs) (hterms : (t :: rs.map Record.term).IsChain (· ≤ ·)) :
    ∃ rs' rest, Reads crc32 ((flipBit image i b).drop o) rs' rest ∧
      ((recover codec 0 t rs').1 <+: scs ↔ Harmless codec crc32 b (image.drop o) (i - o) t scs) := by
  induction henc generalizing o t with
  | nil =>
    obtain ⟨rs', rest, hreads⟩ := exists_reads crc32 ((flipBit image i b).drop o)
    refine ⟨rs', rest, hreads, ?_⟩
    rw [flipBit, List.drop_modify_of_ge _ _ _ _ ho, hlog, List.flatMap_nil, List.nil_append] at hreads
    rw [recover_flipBit_zeros hempty t hreads]
    exact iff_of_true List.nil_prefix trivial
  | @cons sc r scs rs hr henc ih =>
    rw [List.map_cons, List.isChain_cons_cons] at hterms
    rw [List.flatMap_cons, List.append_assoc] at hlog
    have hflip : (flipBit image i b).drop o = flipBit (image.drop o) (i - o) b := List.drop_modify_of_ge _ _ _ _ ho
    by_cases hi : i - o < recordHeaderSize + r.payload.length
    · have hterms' : (t :: rs.map Record.term).IsChain (· ≤ ·) := hterms.2.imp_head fun h => UInt64.le_trans hterms.1 h
      rw [hflip]
      exact reads_flipBit_first hdetect hr henc hterms.1 hterms' hlog hi
    · have hi := Nat.not_lt.mp hi
      rw [harmless_behind hr hi]
      by_cases hzero : sc.seq = 0
      · have h32 : 32 ≤ i - o := Nat.le_trans (Nat.le_add_right _ _) hi
        refine ⟨[], _, .stop ?_, iff_of_true List.nil_prefix (.inl hzero)⟩
        rw [hflip, hlog]
        exact not_startsWith_flipBit (hr.2.1.trans hzero) (by omega)
      have hseq : r.seq ≠ 0 := by rw [hr.2.1]; exact hzero
      have hfirst : StartsWith crc32 ((flipBit image i b).drop o) r := by
        rw [hflip, hlog]
        exact startsWith_flipBit ⟨hseq, hr.length_lt⟩ hi
      have hrecover (rs') : (recover codec 0 t (r :: rs')).1 = sc :: (recover codec 0 r.term rs').1 := by
        rw [recover_decoded (UInt64.not_lt.mpr hterms.1) (UInt64.pos_iff_ne_zero.mpr hseq)
          (codec.deserialise_serialise hr.1), hr.2.1, hr.2.2.1, hr.2.2.2]
      have hdrop : image.drop (o + r.size) = rs.flatMap (Record.bytes crc32) ++ List.replicate zeros 0 := by
        rw [← List.drop_drop, hlog, ← length_bytes crc32 r, List.drop_left]
      by_cases hpadding : i - o < r.size
      · obtain ⟨rest, hrest⟩ := reads_visible crc32 (length_lt_of_encodes henc) zeros
        rw [← hdrop, ← List.drop_modify_of_lt _ i _ _ (by omega), ← List.drop_drop] at hrest
        refine ⟨_, rest, .record hfirst hrest, iff_of_true ?_ (.inr (.inl hpadding))⟩
        rw [hrecover, recover_visible henc hterms.2]
        exact List.cons_prefix_cons.mpr ⟨rfl, List.takeWhile_prefix _⟩
      · obtain ⟨rs', rest, hrest, hiff⟩ := ih (o := o + r.size) (by omega) hdrop hterms.2
        rw [← List.drop_drop] at hrest hiff
        refine ⟨r :: rs', rest, .record hfirst hrest, ?_⟩
        rw [hrecover, List.cons_prefix_cons, and_iff_right rfl, hiff, Nat.sub_sub, hr.2.2.2, or_iff_right hzero,
          or_iff_right hpadding]

/-- A scan of a log with a bit behind the file header the other way returns only
commands that were written, in order, exactly when the bit is harmless. -/
theorem scanWal_flipBit_iff (codec : Codec) (crc32 : Checksum) (file : List UInt8) (cap : Nat)
    (w₀ w : FileWalWriter) (scs : List SequencedCommand) (offsets : List Nat) (hzero : ∀ b ∈ file, b = 0)
    (hopen : openFile crc32 file cap = some (.ok w₀)) (happ : w₀.appendAll codec crc32 scs = (w, offsets.map .ok))
    (hdetect : ∀ bs i b, i < bs.length → crc32 (flipBit bs i b) ≠ crc32 bs) (hempty : codec.deserialise [] = none)
    (i : Nat) (b : Fin 8) (hi : fileHeaderSize ≤ i) :
    ∃ res, scanWal codec crc32 (flipBit w.mmap i b) 0 = some res ∧
      (res.commands <+: scs ↔ Harmless codec crc32 b (w.mmap.drop fileHeaderSize) (i - fileHeaderSize) 0 scs) := by
  obtain ⟨rs, henc, hwritten, -, hterms⟩ := appendAll_fresh hzero hopen happ
  obtain ⟨zeros, hlog⟩ := hwritten.log
  obtain ⟨rs', rest, hreads, hiff⟩ := reads_flipBit hdetect hempty hi hlog henc hterms
  have hmagic : slice (flipBit w.mmap i b) 0 8 = magic := by
    rw [← slice_magic hwritten.header, slice, slice, List.drop_zero, List.drop_zero, flipBit, List.take_modify]
    exact List.modify_eq_self (Nat.le_trans (List.length_take_le _ _) (Nat.le_trans (by decide) hi))
  obtain ⟨res, hres, hcommands, -⟩ := scanWal_ok codec hmagic hreads 0
  exact ⟨res, hres, by rw [hcommands, hiff]⟩

/-- A checksum that detects every bit: the bytes xored. -/
def byteXor (bs : List UInt8) : UInt32 := bs.foldr (fun x c => x.toUInt32 ^^^ c) 0

theorem byteXor_flipBit_ne (bs : List UInt8) (i : Nat) (b : Fin 8) (h : i < bs.length) :
    byteXor (flipBit bs i b) ≠ byteXor bs := by
  induction bs generalizing i with
  | nil => exact absurd h (Nat.not_lt_zero i)
  | cons x bs ih =>
    rcases i with _ | i
    · exact fun he => xor_bit_ne x b (UInt8.toUInt32_inj.mp ((UInt32.xor_left_inj _).mp he))
    · exact fun he => ih i (Nat.lt_of_succ_lt_succ h) ((UInt32.xor_right_inj _).mp he)

set_option maxRecDepth 2000

/-- The second command's term, of 2, becomes 0: it is too old to be looked at,
and the first command alone is recovered. -/
theorem scanWal_flipBit_term : ∃ w res,
    freshWriter.appendAll Bincode.codec byteXor [demoCancel, demoFreeze] = (w, [32, 88].map .ok) ∧
    scanWal Bincode.codec byteXor (flipBit w.mmap 112 1) 0 = some res ∧ res.commands <+: [demoCancel, demoFreeze] := by
  have hoffsets : (freshWriter.appendAll Bincode.codec byteXor [demoCancel, demoFreeze]).2 = [32, 88].map .ok := by
    decide
  obtain ⟨w, happ⟩ := exists_appendAll hoffsets
  obtain ⟨res, hres, hiff⟩ := scanWal_flipBit_iff Bincode.codec byteXor [] 256 freshWriter w _ [32, 88]
    (fun _ h => absurd h List.not_mem_nil) (openFile_fresh byteXor) happ byteXor_flipBit_ne rfl 112 1 (by decide)
  refine ⟨w, res, happ, hres, hiff.mpr ?_⟩
  show flipU64 demoFreeze.term 0 1 < demoCancel.term ∧ ∀ x ∈ ([] : List SequencedCommand), x = demoFreeze
  decide

/-- A bit of a timestamp: the checksum does not cover it. -/
theorem flippedTimestamp_recovered :
    (freshWriter.appendAll Bincode.codec byteXor [demoCancel, demoFreeze]).2 = [32, 88].map .ok ∧
    (scanWal Bincode.codec byteXor
      (flipBit (freshWriter.appendAll Bincode.codec byteXor [demoCancel, demoFreeze]).1.mmap 40 0) 0).map
      ScanResult.commands = some [{ demoCancel with tsNs := 4 }, demoFreeze] ∧
    ¬ [{ demoCancel with tsNs := 4 }, demoFreeze] <+: [demoCancel, demoFreeze] := by
  decide

end MRE.Wal.Proof
