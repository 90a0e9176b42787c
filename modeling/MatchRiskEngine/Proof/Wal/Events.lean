import MatchRiskEngine.Proof.Wal.Appends

/-!
# Events and commands in one log

Which events read as commands is a matter of the bytes (`isSome_event`). Their
records are of term zero, and are looked at until a command of a positive term
has been recovered (`recover_event`). What is recovered are the commands exactly
if no event is (`scanWal_runBoth_iff`).
-/

namespace MRE.Bincode

/-! ## Reading fields of any bytes -/

variable {xs : List UInt8}

theorem getNat_append {n : Nat} (h : xs.length = n) (bs : List UInt8) :
    getNat n (xs ++ bs) = some (ofLeBytes xs, bs) := by
  rw [getNat, if_neg (by rw [List.length_append]; omega), List.take_left' h, List.drop_left' h]

theorem getU64_append (h : xs.length = 8) (bs : List UInt8) :
    getU64 (xs ++ bs) = some (UInt64.ofNat (ofLeBytes xs), bs) := by
  rw [getU64, bind_eq (getNat_append h bs)]
  rfl

theorem getU16_append (h : xs.length = 2) (bs : List UInt8) :
    getU16 (xs ++ bs) = some (UInt16.ofNat (ofLeBytes xs), bs) := by
  rw [getU16, bind_eq (getNat_append h bs)]
  rfl

theorem getIndexed_append {α : Type} (variants : List α) (h : xs.length = 4) (bs : List UInt8) :
    getIndexed variants (xs ++ bs) = (variants[ofLeBytes xs]?).map fun v => (v, bs) := by
  rw [getIndexed, bind_eq (getNat_append h bs)]

/-- A variant is read if its index is one, and so is what follows. -/
theorem isSome_bind_getIndexed {α β : Type} (variants : List α) (h : xs.length = 4) (bs : List UInt8)
    {f : α → Get β} {P : Prop} (hf : ∀ v, (f v bs).isSome ↔ P) :
    ((getIndexed variants >>= f) (xs ++ bs)).isSome ↔ ofLeBytes xs < variants.length ∧ P := by
  have hbind : (getIndexed variants >>= f) (xs ++ bs) = (getIndexed variants (xs ++ bs)).bind fun p => f p.1 p.2 := rfl
  rw [hbind, getIndexed_append variants h]
  by_cases hlt : ofLeBytes xs < variants.length
  · rw [List.getElem?_eq_getElem hlt, Option.map_some, Option.bind_some, hf, and_iff_right hlt]
  · rw [List.getElem?_eq_none (Nat.not_lt.mp hlt), Option.map_none, Option.bind_none]
    exact iff_of_false Bool.false_ne_true fun h => hlt h.1

/-- An order is read from any bytes in which its enumerations are in range. -/
theorem isSome_newOrder {account clientOrderId symbol side price qty orderType timeInForce : List UInt8}
    (h₁ : account.length = 8) (h₂ : clientOrderId.length = 8) (h₃ : symbol.length = 2) (h₄ : side.length = 4)
    (h₅ : price.length = 8) (h₆ : qty.length = 8) (h₇ : orderType.length = 4) (h₈ : timeInForce.length = 4)
    (bs : List UInt8) :
    (deserialise (leBytes 4 0 ++ (account ++ (clientOrderId ++ (symbol ++ (side ++ (price ++ (qty ++ (orderType ++
      (timeInForce ++ bs)))))))))).isSome ↔
      ofLeBytes side < 2 ∧ ofLeBytes orderType < 2 ∧ ofLeBytes timeInForce < 3 := by
  rw [deserialise, Option.isSome_map, getCommand, bind_eq (getNat_leBytes (by decide) _), getFields,
    bind_eq (getU64_append h₁ _), bind_eq (getU64_append h₂ _), bind_eq (getU16_append h₃ _)]
  refine isSome_bind_getIndexed _ h₄ _ fun side => ?_
  rw [bind_eq (getU64_append h₅ _), bind_eq (getU64_append h₆ _)]
  refine isSome_bind_getIndexed _ h₇ _ fun orderType => ?_
  refine (isSome_bind_getIndexed _ h₈ _ fun timeInForce => ?_).trans (and_iff_left trivial)
  exact iff_of_true rfl trivial

/-- An order that is accepted, read as a command: its enumerations stand in the
order's number, at the end of the client's number, and in the price. -/
theorem isSome_accepted (e : Event.Accepted) :
    (deserialise (serialiseEvent (.accepted e))).isSome ↔ Wal.ReadsAsCommand (.accepted e) := by
  have horder (x : Nat) : leBytes 8 x = leBytes 2 x ++ (leBytes 4 (x / 256 ^ 2) ++ leBytes 2 (x / 256 ^ 2 / 256 ^ 4)) := by
    rw [← leBytes_add, ← leBytes_add]
  have hids (x : Nat) : leBytes 8 x = leBytes 6 x ++ leBytes 2 (x / 256 ^ 6) := leBytes_add 6 2 x
  have hside (x : Nat) : leBytes 4 x = leBytes 2 x ++ leBytes 2 (x / 256 ^ 2) := leBytes_add 2 2 x
  have hprice (x : Nat) : leBytes 8 x = leBytes 2 x ++ leBytes 6 (x / 256 ^ 2) := leBytes_add 2 6 x
  have hlayout : serialiseEvent (.accepted e) =
      leBytes 4 0 ++ (leBytes 8 e.seq.raw.toNat ++ (leBytes 8 e.instrumentId.raw.toNat ++ (leBytes 2 e.orderId.raw.toNat ++
        (leBytes 4 (e.orderId.raw.toNat / 256 ^ 2) ++
        ((leBytes 2 (e.orderId.raw.toNat / 256 ^ 2 / 256 ^ 4) ++ leBytes 6 e.accountId.raw.toNat) ++
        ((leBytes 2 (e.accountId.raw.toNat / 256 ^ 6) ++ leBytes 6 e.clientOrderId.raw.toNat) ++
        ((leBytes 2 (e.clientOrderId.raw.toNat / 256 ^ 6) ++ leBytes 2 (Side.index e.side)) ++
        ((leBytes 2 (Side.index e.side / 256 ^ 2) ++ leBytes 2 e.price.raw.toUInt64.toNat) ++
        (leBytes 6 (e.price.raw.toUInt64.toNat / 256 ^ 2) ++ leBytes 8 e.qty.raw.toNat))))))))) := by
    rw [serialiseEvent, serialisePrice, horder e.orderId.raw.toNat, hids e.accountId.raw.toNat,
      hids e.clientOrderId.raw.toNat, hside (Side.index e.side), hprice e.price.raw.toUInt64.toNat]
    simp only [List.append_assoc]
  rw [hlayout, isSome_newOrder (by simp) (by simp) (by simp) (by simp) (by simp) (by simp) (by simp) (by simp)]
  simp only [ofLeBytes_append, ofLeBytes_leBytes_mod, length_leBytes, Wal.ReadsAsCommand]
  have hclient := e.clientOrderId.raw.toNat_lt
  cases e.side with
  | buy =>
    simp [Side.index]
    omega
  | sell =>
    simp [Side.index]

theorem deserialise_of_index {n : Nat} (h₁ : 3 < n) (h₂ : n < 256) (bs : List UInt8) :
    deserialise (leBytes 4 n ++ bs) = none := by
  obtain ⟨m, rfl⟩ : ∃ m, n = m + 4 := ⟨n - 4, by omega⟩
  rw [deserialise, getCommand, bind_eq (getNat_leBytes (Nat.lt_of_lt_of_le h₂ (by decide)) _)]
  rfl

/-- Which events have an encoding that reads as a command. -/
theorem isSome_event (ev : Event) : (deserialise (serialiseEvent ev)).isSome ↔ Wal.ReadsAsCommand ev := by
  cases ev with
  | accepted e => exact isSome_accepted e
  | filled seq fill =>
    -- a cancel, of the fill's instrument
    refine iff_of_true ?_ trivial
    simp only [serialiseEvent, serialiseFill, List.append_assoc]
    rw [deserialise, getCommand, bind_eq (getNat_leBytes (by decide) _), getFields, bind_eq (getU64_leBytes _ _),
      bind_eq (getU64_leBytes _ _)]
    rfl
  | canceled e =>
    -- a liquidation, of the symbol that is the end of the sequence number
    refine iff_of_true ?_ trivial
    have hsplit (x : Nat) : leBytes 8 x = leBytes 2 x ++ leBytes 6 (x / 256 ^ 2) := leBytes_add 2 6 x
    rw [serialiseEvent, hsplit e.seq.raw.toNat, hsplit e.instrumentId.raw.toNat]
    simp only [List.append_assoc]
    rw [deserialise, getCommand, bind_eq (getNat_leBytes (by decide) _), getFields, bind_eq (getU16_append (by simp) _),
      ← List.append_assoc (leBytes 6 _), bind_eq (getU64_append (by simp) _)]
    rfl
  | rejected e =>
    -- a freeze, of the account with the number of the event
    refine iff_of_true ?_ trivial
    simp only [serialiseEvent, List.append_assoc]
    rw [deserialise, getCommand, bind_eq (getNat_leBytes (by decide) _), getFields, bind_eq (getU64_leBytes _ _)]
    rfl
  | modified e =>
    simp only [serialiseEvent, List.append_assoc]
    rw [deserialise_of_index (by decide) (by decide)]
    exact iff_of_false Bool.false_ne_true id
  | instrumentHalted seq instrumentId =>
    simp only [serialiseEvent, List.append_assoc]
    rw [deserialise_of_index (by decide) (by decide)]
    exact iff_of_false Bool.false_ne_true id
  | instrumentResumed seq instrumentId =>
    simp only [serialiseEvent, List.append_assoc]
    rw [deserialise_of_index (by decide) (by decide)]
    exact iff_of_false Bool.false_ne_true id

theorem length_serialiseEvent_le (ev : Event) : (serialiseEvent ev).length ≤ 88 := by
  cases ev with
  | modified e => cases hprice : e.newPrice <;> simp [serialiseEvent, serialisePrice, serialiseOption, hprice]
  | _ => simp [serialiseEvent, serialisePrice, serialiseFill]

end MRE.Bincode

namespace MRE.Wal.Proof

variable {bincode : BincodeCodec} {crc32 : Checksum} {w w₀ : FileWalWriter} {writes : List Write}
  {rs rs₀ : List Record} {cap : Nat}
  {file : List UInt8}

/-! ## What is written -/

/-- The record of an event. -/
def eventRecord (ev : Event) (nowNs : UInt64) : Record :=
  { seq := ev.seq.raw, tsNs := nowNs, term := 0, payload := Bincode.serialiseEvent ev }

/-- The record of a command or an event. -/
def Logs (bincode : BincodeCodec) : Write → Record → Prop
  | .command sc, r => Encodes bincode.toCodec sc r
  | .event ev nowNs, r => r = eventRecord ev nowNs

theorem appendEvent_eq_ok {w' : FileWalWriter} {ev : Event} {nowNs : UInt64}
    (h : w.appendEvent bincode crc32 ev nowNs = (w', .ok ())) :
    w.cursor + (eventRecord ev nowNs).size ≤ w.mmap.length ∧
      w' = { w with
        mmap := splice w.mmap w.cursor ((eventRecord ev nowNs).bytes crc32)
        cursor := w.cursor + (eventRecord ev nowNs).size
        lastSeq := ev.seq.raw } := by
  simp only [FileWalWriter.appendEvent, bincode.serialiseEvent_eq] at h
  rcases hwrite : w.writeRecord crc32 ev.seq.raw 0 nowNs (Bincode.serialiseEvent ev) with ⟨w₁, _ | offset⟩
  · rw [hwrite] at h
    cases h
  · rw [hwrite] at h
    cases h
    exact (writeRecord_eq_ok hwrite).2

/-- The records stand one behind the other, and the terms of the commands do
not decrease. -/
theorem runBoth_written (h : Written crc32 w₀ rs₀) (hrun : w₀.runBoth bincode crc32 writes = some w) :
    ∃ rs, List.Forall₂ (Logs bincode) writes rs ∧ Written crc32 w (rs₀ ++ rs) ∧
      (w₀.highestTerm :: (commandsOf writes).map SequencedCommand.term).IsChain (· ≤ ·) := by
  induction writes generalizing w₀ rs₀ with
  | nil =>
    cases hrun
    exact ⟨[], .nil, by rwa [List.append_nil], .singleton _⟩
  | cons x writes ih =>
    cases x with
    | command sc =>
      rw [FileWalWriter.runBoth] at hrun
      split at hrun
      · rename_i w₁ offset happ
        obtain ⟨r, hr, hterm, hfits, hw₁, -⟩ := append_eq_ok happ
        obtain ⟨h₁, -⟩ := h.write hfits (congrArg FileWalWriter.mmap hw₁) (congrArg FileWalWriter.cursor hw₁)
        obtain ⟨rs, hrs, hwritten, hterms⟩ := ih h₁ hrun
        rw [hw₁] at hterms
        refine ⟨r :: rs, .cons hr hrs, by rwa [List.append_cons], ?_⟩
        rw [hr.2.2.2] at hterm hterms
        exact List.isChain_cons_cons.mpr ⟨hterm, hterms⟩
      · cases hrun
    | event ev nowNs =>
      rw [FileWalWriter.runBoth] at hrun
      split at hrun
      · rename_i w₁ _ happ
        obtain ⟨hfits, hw₁⟩ := appendEvent_eq_ok happ
        obtain ⟨h₁, -⟩ := h.write hfits (congrArg FileWalWriter.mmap hw₁) (congrArg FileWalWriter.cursor hw₁)
        obtain ⟨rs, hrs, hwritten, hterms⟩ := ih h₁ hrun
        rw [hw₁] at hterms
        exact ⟨_ :: rs, .cons rfl hrs, by rwa [List.append_cons], hterms⟩
      · cases hrun

theorem valid_of_logs (hlogs : List.Forall₂ (Logs bincode) writes rs) (hseq : ∀ sc ∈ commandsOf writes, sc.seq ≠ 0) :
    ∀ r ∈ rs, r.Valid := by
  induction hlogs with
  | nil => exact fun _ hr => absurd hr List.not_mem_nil
  | @cons x r writes rs hr _ ih =>
    cases x with
    | command sc =>
      obtain ⟨hsc, hseq⟩ := List.forall_mem_cons.mp (show ∀ x ∈ sc :: commandsOf writes, x.seq ≠ 0 from hseq)
      exact List.forall_mem_cons.mpr ⟨Encodes.valid hr hsc, ih hseq⟩
    | event ev nowNs =>
      subst hr
      have hlen := Bincode.length_serialiseEvent_le ev
      exact List.forall_mem_cons.mpr ⟨⟨ev.seq.ne_zero, Nat.lt_of_le_of_lt hlen (by decide)⟩, ih hseq⟩

/-! ## What is recovered -/

/-- An event is skipped once a term is positive. Before that it is decoded, or
ends the recovery. -/
theorem recover_event {t : UInt64} (ev : Event) (nowNs : UInt64) (rs : List Record) :
    (recover bincode.toCodec 0 t (eventRecord ev nowNs :: rs)).1 =
      if 0 < t then (recover bincode.toCodec 0 t rs).1
      else (Bincode.deserialise (Bincode.serialiseEvent ev)).elim [] fun cmd =>
        { term := 0, seq := ev.seq.raw, tsNs := nowNs, cmd } :: (recover bincode.toCodec 0 0 rs).1 := by
  by_cases ht : 0 < t
  · rw [if_pos ht]
    exact congrArg Prod.fst (recover_stale (r := eventRecord ev nowNs) ht rs)
  · have hseq : 0 < (eventRecord ev nowNs).seq := UInt64.pos_iff_ne_zero.mpr ev.seq.ne_zero
    rw [if_neg ht]
    rcases hd : Bincode.deserialise (Bincode.serialiseEvent ev) with _ | cmd
    · have hd : bincode.deserialise (eventRecord ev nowNs).payload = none := (bincode.deserialise_eq _).trans hd
      exact congrArg Prod.fst (recover_undecodable ht hseq hd rs)
    · have hd : bincode.deserialise (eventRecord ev nowNs).payload = some cmd := (bincode.deserialise_eq _).trans hd
      exact congrArg Prod.fst (recover_decoded ht hseq hd rs)

theorem NoneReadsAs.tail {x : Write} (h : NoneReadsAs (x :: writes)) : NoneReadsAs writes := by
  intro ev nowNs hev cmd hcmd hmem
  refine h ev nowNs (List.mem_cons_of_mem _ hev) cmd hcmd ?_
  rw [commandsOf, List.filterMap_cons]
  split
  · exact hmem
  · exact List.mem_cons_of_mem _ hmem

theorem recover_of_undisturbed {t : UInt64} (hlogs : List.Forall₂ (Logs bincode) writes rs)
    (hterms : (t :: (commandsOf writes).map SequencedCommand.term).IsChain (· ≤ ·))
    (hseq : ∀ sc ∈ commandsOf writes, sc.seq ≠ 0) :
    (Undisturbed t writes → (recover bincode.toCodec 0 t rs).1 = commandsOf writes) ∧
      (NoneReadsAs writes → (recover bincode.toCodec 0 t rs).1 = commandsOf writes → Undisturbed t writes) := by
  induction hlogs generalizing t with
  | nil => exact ⟨fun _ => rfl, fun _ _ => trivial⟩
  | @cons x r writes rs hr _ ih =>
    cases x with
    | command sc =>
      have hcommands : commandsOf (.command sc :: writes) = sc :: commandsOf writes := rfl
      rw [hcommands, List.map_cons, List.isChain_cons_cons] at hterms
      rw [hcommands] at hseq ⊢
      obtain ⟨hsc, hseq⟩ := List.forall_mem_cons.mp hseq
      obtain ⟨hpay, hrseq, hts, hterm⟩ := hr
      have ht : ¬ r.term < t := by
        rw [hterm]
        exact UInt64.not_lt.mpr hterms.1
      have hpos : 0 < r.seq := UInt64.pos_iff_ne_zero.mpr (by rw [hrseq]; exact hsc)
      rw [recover_decoded ht hpos (bincode.deserialise_serialise hpay), hrseq, hts, hterm, List.cons.injEq,
        and_iff_right rfl]
      exact ⟨(ih hterms.2 hseq).1, fun h => (ih hterms.2 hseq).2 (NoneReadsAs.tail h)⟩
    | event ev nowNs =>
      have hcommands : commandsOf (.event ev nowNs :: writes) = commandsOf writes := rfl
      rw [hcommands] at hterms hseq ⊢
      cases hr
      rw [recover_event, Undisturbed]
      by_cases ht : 0 < t
      · rw [if_pos ht, if_pos ht]
        exact ⟨(ih hterms hseq).1, fun h => (ih hterms hseq).2 (NoneReadsAs.tail h)⟩
      · rw [if_neg ht, if_neg ht, ← Bincode.isSome_event]
        rcases hd : Bincode.deserialise (Bincode.serialiseEvent ev) with _ | cmd
        · exact ⟨fun h => h.2.symm, fun _ h => ⟨Bool.false_ne_true, h.symm⟩⟩
        · refine ⟨fun h => absurd rfl h.1, fun h he => ?_⟩
          refine absurd ?_ (h ev nowNs List.mem_cons_self cmd hd)
          rw [hcommands, ← he]
          exact List.mem_cons_self

/-- What a recovery of commands and events in one log returns: the commands, if
it is not disturbed by the events, and no more if that can be seen. -/
theorem scanWal_runBoth_iff (bincode : BincodeCodec) (crc32 : Checksum) (file : List UInt8) (cap : Nat) (w₀ w : FileWalWriter)
    (writes : List Write) (hzero : ∀ b ∈ file, b = 0) (hopen : openFile crc32 file cap = some (.ok w₀))
    (hrun : w₀.runBoth bincode crc32 writes = some w) (hseq : ∀ sc ∈ commandsOf writes, 1 ≤ sc.seq) :
    ∃ res, scanWal bincode.toCodec crc32 w.mmap 0 = some res ∧
      (Undisturbed 0 writes → res.commands = commandsOf writes) ∧
      (NoneReadsAs writes → (res.commands = commandsOf writes ↔ Undisturbed 0 writes)) := by
  have hseq : ∀ sc ∈ commandsOf writes, sc.seq ≠ 0 := fun sc hsc => seq_ne_zero (hseq sc hsc)
  obtain ⟨h₀, -⟩ := openFile_zeros hzero hopen
  obtain ⟨rs, hlogs, hwritten, hterms⟩ := runBoth_written h₀.written hrun
  rw [show w₀.highestTerm = 0 from h₀.highestTerm] at hterms
  rw [List.nil_append] at hwritten
  obtain ⟨zeros, hlog⟩ := hwritten.log
  have hreads := reads_bytes (valid_of_logs hlogs hseq) (Reads.stop (not_startsWith_of_read (read_zeros crc32 zeros)))
  rw [List.append_nil, ← hlog] at hreads
  obtain ⟨res, hres, hcommands, -⟩ := scanWal_ok bincode.toCodec (slice_magic hwritten.header) hreads 0
  obtain ⟨h₁, h₂⟩ := recover_of_undisturbed hlogs hterms hseq
  rw [← hcommands] at h₁ h₂
  exact ⟨res, hres, h₁, fun h => ⟨h₂ h, h₁⟩⟩

def demoRejected : Event :=
  .rejected { seq := .first, accountId := ⟨10⟩, clientOrderId := ⟨7⟩, reason := .invalidPrice }

set_option maxRecDepth 2000

/-- An event between two commands of positive terms. -/
theorem scanWal_runBoth_later : ∃ w res,
    freshWriter.runBoth Bincode.format byteSum [.command demoCancel, .event demoRejected 9, .command demoFreeze] = some w ∧
    scanWal Bincode.codec byteSum w.mmap 0 = some res ∧ res.commands = [demoCancel, demoFreeze] := by
  have hsome : (freshWriter.runBoth Bincode.format byteSum
      [.command demoCancel, .event demoRejected 9, .command demoFreeze]).isSome = true := by decide
  obtain ⟨w, hrun⟩ := Option.isSome_iff_exists.mp hsome
  obtain ⟨res, hres, hcommands, -⟩ := scanWal_runBoth_iff Bincode.format byteSum [] 256 freshWriter w _
    (fun _ h => absurd h List.not_mem_nil) (openFile_fresh byteSum) hrun (by decide)
  refine ⟨w, res, hrun, hres, hcommands ?_⟩
  simp only [Undisturbed]
  decide

/-- An event in front: it is recovered as the freeze of an account that was
never frozen. -/
theorem eventFirst_recovered :
    ((freshWriter.runBoth Bincode.format byteSum [.event demoRejected 9, .command demoCancel]).bind fun w =>
      (scanWal Bincode.codec byteSum w.mmap 0).map ScanResult.commands) =
      some [{ term := 0, seq := 1, tsNs := 9, cmd := .freezeAccount ⟨1⟩ }, demoCancel] := by
  decide

end MRE.Wal.Proof
