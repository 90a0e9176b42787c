import Mathlib.Data.List.Induction
import MatchRiskEngine.Proof.Wal.CrashSafety
import MatchRiskEngine.Proof.Wal.Stores

/-!
# A crash leaves a beginning of the log

Every page on the disk is that page of the log at some earlier time (`past`).
So the first record that is not whole on the disk has lost pages; behind it
recovery finds nothing (`reads_lost`). What is recovered is a beginning of what
was appended, with all that was appended before the last `flush`, and with
everything if the records are synced (`crash_prefix`).
-/

namespace MRE.Wal.Proof

open MappedFile

variable {codec : Codec} {crc32 : Checksum} {w w₀ : FileWalWriter} {r r' : Record} {rs : List Record}
  {sc : SequencedCommand} {c : Call} {cs : List Call} {x : Nat × SequencedCommand}
  {xs front back : List (Nat × SequencedCommand)}
  {cap page offset n : Nat} {syncOnWrite : Bool} {f : MappedFile UInt8} {disk bs t rest : List UInt8}

/-! ## How the disk looks -/

/-- What the file has been: zeros, or some of the records. -/
def past (codec : Codec) (crc32 : Checksum) (cap : Nat) (xs : List (Nat × SequencedCommand))
    (bs : List UInt8) : Prop :=
  bs = List.replicate cap 0 ∨ ∃ ys, ys <+: xs ∧ bs = setLen (logBytes codec crc32 ys) cap

theorem Logged.past (h : Logged codec crc32 cap w xs) : past codec crc32 cap xs w.mmap :=
  .inr ⟨xs, List.prefix_rfl, h.mmap⟩

/-- The writer's memory, and a disk that lags behind it. -/
structure Aged (codec : Codec) (crc32 : Checksum) (cap page : Nat) (w : FileWalWriter)
    (xs : List (Nat × SequencedCommand)) (f : MappedFile UInt8) : Prop where
  mem : f.mem = w.mmap
  lags : f.Lags page (past codec crc32 cap xs)

theorem own_callOps (codec : Codec) (crc32 : Checksum) (syncOnWrite : Bool) (w : FileWalWriter) (c : Call) :
    (w.callOps codec crc32 syncOnWrite c).filter MapOp.own = w.callOps codec crc32 syncOnWrite c := by
  obtain ⟨ps, hops | ⟨off, len, hops⟩⟩ := callOps_eq codec crc32 syncOnWrite w c <;> rw [hops]
  · exact filter_storeAll w.cursor ps
  · rw [List.filter_append, filter_storeAll]
    rfl

theorem Aged.call (h : Aged codec crc32 cap page w xs f) (hlog : Logged codec crc32 cap w xs) (c : Call) :
    Aged codec crc32 cap page (w.call codec crc32 c) (xs ++ w.ackedBy codec crc32 c)
      (f.run page (w.callOps codec crc32 syncOnWrite c)) := by
  have hmem : (f.run page (w.callOps codec crc32 syncOnWrite c)).mem = (w.call codec crc32 c).mmap :=
    mem_callOps h.mem (own_callOps codec crc32 syncOnWrite w c)
  refine ⟨hmem, ?_⟩
  have hnow := (hlog.call c).past
  rw [← hmem] at hnow
  have hold : f.Lags page (past codec crc32 cap (xs ++ w.ackedBy codec crc32 c)) :=
    h.lags.mono fun _ hbs => hbs.imp_right fun ⟨ys, hys, e⟩ => ⟨ys, hys.trans (List.prefix_append _ _), e⟩
  obtain ⟨ps, hops | ⟨off, len, hops⟩⟩ := callOps_eq codec crc32 syncOnWrite w c <;> rw [hops] at hnow ⊢
  · exact hold.stores w.cursor ps
  · rw [run_append] at hnow ⊢
    exact (hold.stores w.cursor ps).sync hnow

/-! ## A record on the disk -/

theorem getElem?_setLen_of_lt {i : Nat} (hi : i < bs.length) (hn : bs.length ≤ n) : (setLen bs n)[i]? = bs[i]? := by
  rw [setLen_of_le hn, List.getElem?_append_left hi]

theorem getElem?_setLen_of_le {i : Nat} (hi : bs.length ≤ i) (hn : i < n) : (setLen bs n)[i]? = some 0 := by
  rw [setLen_of_le (by omega), List.getElem?_append_right hi, List.getElem?_replicate_of_lt (by omega)]

theorem endOf_mono (codec : Codec) {ys : List (Nat × SequencedCommand)} (h : xs <+: ys) :
    endOf codec xs ≤ endOf codec ys := by
  obtain ⟨zs, rfl⟩ := h
  rw [endOf_append]
  exact Nat.le_add_right _ _

/-- What is on the disk in the place of a record: each page on which it stands
has all of it that belongs there, or nothing. -/
theorem torn_of_lags (hlags : f.Lags page (past codec crc32 cap (front ++ x :: back)))
    (hlen : f.disk.length = cap) (hfits : endOf codec (front ++ x :: back) ≤ cap) :
    Torn page (endOf codec front) ((recordOf codec x.2).bytes crc32)
      ((f.disk.drop (endOf codec front)).take (recordOf codec x.2).size) := by
  have hthis : front ++ [x] <+: front ++ x :: back := List.append_cons front x back ▸ List.prefix_append _ _
  have hend := endOf_mono codec hthis
  rw [endOf_concat] at hend
  refine ⟨by rw [List.length_take, List.length_drop, hlen, length_bytes]; omega, fun k => ?_⟩
  obtain ⟨ys, hys, hk⟩ := hlags k
  rw [length_bytes]
  have hat : ∀ i < (recordOf codec x.2).size, (endOf codec front + i) / page = k →
      ((f.disk.drop (endOf codec front)).take (recordOf codec x.2).size)[i]? = ys[endOf codec front + i]? := by
    intro i hi hpage
    rw [List.getElem?_take_of_lt hi, List.getElem?_drop, hk _ hpage]
  rcases hys with rfl | ⟨zs, hzs, rfl⟩
  · refine .inr fun i hi hpage => ?_
    rw [hat i hi hpage, List.getElem?_replicate_of_lt (by omega)]
  have hcases : zs <+: front ∨ front ++ [x] <+: zs := by
    rcases List.prefix_or_prefix_of_prefix hzs hthis with hshort | hlong
    · exact (List.prefix_concat_iff.mp hshort).elim (fun e => .inr (e ▸ List.prefix_rfl)) .inl
    · exact .inr hlong
  rcases hcases with hbefore | ⟨more, rfl⟩
  · refine .inr fun i hi hpage => ?_
    have hle := endOf_mono codec hbefore
    rw [hat i hi hpage, getElem?_setLen_of_le (by rw [length_logBytes]; omega) (by omega)]
  · -- the page was written back with the record
    refine .inl fun i hi hpage => ?_
    have hle := endOf_mono codec hzs
    have hin := endOf_mono codec (List.prefix_append (front ++ [x]) more)
    rw [endOf_concat] at hin
    rw [hat i hi hpage, getElem?_setLen_of_lt (by rw [length_logBytes]; omega) (by rw [length_logBytes]; omega),
      logBytes_append, logBytes_concat, List.append_assoc, List.getElem?_append_right (by rw [length_logBytes]; omega),
      length_logBytes, Nat.add_sub_cancel_left, List.getElem?_append_left (by rw [length_bytes]; exact hi)]

/-! ## A record that is left without a payload -/

theorem div_eq_of_aligned {a p i : Nat} (ha : a % 8 = 0) (hp : p % 8 = 0) (hi : i < 8) : (a + i) / p = a / p := by
  have hp8 : p = 8 * (p / 8) := by omega
  rw [hp8, ← Nat.div_div_eq_div_mul, ← Nat.div_div_eq_div_mul]
  congr 1
  omega

/-- If a page ends within the first half of a header, the next one reaches
beyond the header. -/
theorem div_eq_of_crosses {a p i : Nat} (hp : 64 ≤ p) (hcross : a / p ≠ (a + 16) / p) (h₁ : 32 ≤ i) (h₂ : i < 40) :
    (a + i) / p = (a + 16) / p := by
  have hlt : a / p < (a + 16) / p := Nat.lt_of_le_of_ne (Nat.div_le_div_right (by omega)) hcross
  have hlow : a < (a + 16) / p * p := (Nat.div_lt_iff_lt_mul (by omega)).mp hlt
  have hhigh : (a + 16) / p * p ≤ a + 16 := Nat.div_mul_le_self _ _
  refine Nat.div_eq_of_lt_le (by omega) ?_
  rw [Nat.add_mul, Nat.one_mul]
  omega

theorem endOf_mod (codec : Codec) (xs : List (Nat × SequencedCommand)) : endOf codec xs % 8 = 0 := by
  induction xs using List.reverseRecOn with
  | nil => exact show fileHeaderSize % 8 = 0 from rfl
  | append_singleton xs x ih =>
    rw [endOf_concat, Record.size, align8]
    omega

/-- A number that is not zero has a byte that is not zero. -/
theorem exists_ne_zero {k m : Nat} (hm : m < 256 ^ k) (hne : m ≠ 0) : ∃ i < k, (leBytes k m)[i]? ≠ some 0 := by
  by_contra! hall
  have hzeros : leBytes k m = List.replicate k 0 := by
    refine List.ext_getElem? fun i => ?_
    by_cases hi : i < k
    · rw [hall i hi, List.getElem?_replicate_of_lt hi]
    · rw [List.getElem?_eq_none, List.getElem?_eq_none] <;> simp <;> omega
  rw [← ofLeBytes_leBytes hm, hzeros, ofLeBytes_replicate] at hne
  exact hne rfl

theorem u64OfLe_eq_zero {a : Nat} (h : ∀ i < 8, bs[a + i]? = some 0) : u64OfLe (slice (bs.drop a) 0 8) = 0 := by
  have hzeros : slice (bs.drop a) 0 8 = (List.replicate 8 0).take 8 :=
    take_eq_take fun i hi => by rw [List.drop_zero, List.getElem?_drop, h i hi, List.getElem?_replicate_of_lt hi]
  rw [hzeros]
  rfl

theorem getElem?_header_seq (crc32 : Checksum) (r : Record) {i : Nat} (hi : i < 8) :
    (r.header crc32)[i]? = (leBytes 8 r.seq.toNat)[i]? := by
  simp only [Record.header, List.append_assoc]
  exact List.getElem?_append_left (by rwa [length_leU64])

theorem getElem?_header_len (crc32 : Checksum) (r : Record) {i : Nat} (hi : i < 4) :
    (r.header crc32)[16 + i]? = (leBytes 4 (UInt32.ofNat r.payload.length).toNat)[i]? := by
  have hlen : (leU64 r.seq ++ leU64 r.tsNs).length = 16 := rfl
  rw [Record.header, List.append_assoc, List.append_assoc, List.getElem?_append_right (hlen ▸ Nat.le_add_right _ _), hlen,
    Nat.add_sub_cancel_left]
  exact List.getElem?_append_left (by rwa [length_leU32])

/-- Where a record has lost its length and not its number, it has also lost
the front of its payload. -/
theorem lost_payload (htorn : Torn page offset (r.bytes crc32) t) (hoff : offset % 8 = 0) (hpage : page % 8 = 0)
    (h64 : 64 ≤ page) (hpos : 0 < r.payload.length) (hlt : r.payload.length < 2 ^ 32)
    (hr' : StartsWith crc32 (t ++ rest) r') (hempty : r'.payload = []) :
    u64OfLe (slice ((t ++ rest).drop 32) 0 8) = 0 := by
  obtain ⟨hlen, hpages⟩ := htorn
  obtain ⟨hvalid, rest', hrest⟩ := hr'
  have hsize : 40 ≤ r.size := by
    rw [Record.size, align8, recordHeaderSize]
    omega
  rw [length_bytes] at hlen hpages
  have hin : ∀ i < r.size, (t ++ rest)[i]? = t[i]? := fun i hi => List.getElem?_append_left (hlen ▸ hi)
  have hhead : ∀ i < 32, t[i]? = (r'.header crc32)[i]? := by
    intro i hi
    rw [← hin i (by omega), hrest, List.getElem?_append_left (by rw [length_header]; exact hi)]
  -- a byte of the number is there
  obtain ⟨i₀, hi₀, hseq⟩ := exists_ne_zero (k := 8) (UInt64.toNat_lt r'.seq) fun h => hvalid.seq (UInt64.toNat_inj.mp h)
  rw [← getElem?_header_seq crc32 r' hi₀, ← hhead i₀ (by omega)] at hseq
  -- a byte of the length is not
  obtain ⟨i₁, hi₁, hne⟩ := exists_ne_zero (k := 4) hlt (by omega)
  rw [← UInt32.toNat_ofNat_of_lt' hlt, ← getElem?_header_len crc32 _ hi₁] at hne
  have hzero : t[16 + i₁]? = some 0 := by
    rw [hhead _ (by omega), getElem?_header_len crc32 r' hi₁, hempty]
    exact List.getElem?_replicate_of_lt (n := 4) hi₁
  have hlost : ∀ i < r.size, (offset + i) / page = (offset + 16) / page → t[i]? = some 0 := by
    refine (hpages _).resolve_left fun hkept => hne ?_
    have hbyte := hkept (16 + i₁) (by omega) (by
      rw [← Nat.add_assoc]
      exact div_eq_of_aligned (by omega) hpage (by omega))
    rw [hzero, Record.bytes, List.append_assoc, List.getElem?_append_left (by rw [length_header, recordHeaderSize]; omega)]
      at hbyte
    exact hbyte.symm
  have hcross : offset / page ≠ (offset + 16) / page := fun h =>
    hseq (hlost i₀ (by omega) ((div_eq_of_aligned hoff hpage hi₀).trans h))
  refine u64OfLe_eq_zero fun i hi => ?_
  rw [hin _ (by omega), hlost (32 + i) (by omega) (div_eq_of_crosses h64 hcross (by omega) (by omega))]

/-! ## What is read -/

theorem zeros_behind (hlags : f.Lags page (past codec crc32 cap xs)) (hlen : f.disk.length = cap) :
    ∀ b ∈ f.disk.drop (endOf codec xs), b = 0 := by
  intro b hb
  obtain ⟨i, hi⟩ := List.getElem?_of_mem hb
  have hlt := (List.getElem?_eq_some_iff.mp hi).1
  rw [List.length_drop, hlen] at hlt
  obtain ⟨ys, hys, hk⟩ := hlags ((endOf codec xs + i) / page)
  rw [List.getElem?_drop, hk _ rfl] at hi
  rcases hys with rfl | ⟨zs, hzs, rfl⟩
  · rw [List.getElem?_replicate_of_lt (by omega)] at hi
    exact (Option.some.inj hi).symm
  · have := endOf_mono codec hzs
    rw [getElem?_setLen_of_le (by rw [length_logBytes]; omega) (by omega)] at hi
    exact (Option.some.inj hi).symm

/-- What the file still is for recovery: the records of `got`, and behind them
nothing that can be recovered. -/
structure Beginning (codec : Codec) (crc32 : Checksum) (disk : List UInt8)
    (front back got : List (Nat × SequencedCommand)) : Prop where
  isPrefix : got <+: back
  reads : ∃ rs rest, Reads crc32 (disk.drop (endOf codec front)) (records codec got ++ rs) rest ∧
    ∀ t, (recover codec 0 t rs).1 = []
  most : ∀ ys, ys <+: back → logBytes codec crc32 (front ++ ys) <+: disk → ys <+: got

theorem recover_empty (hnone : codec.deserialise [] = none) (hr : r.Valid) (hempty : r.payload = []) (t : UInt64) :
    (recover codec 0 t [r]).1 = [] := by
  by_cases ht : r.term < t
  · rw [recover_stale ht]
    rfl
  · rw [recover_undecodable ht (seq_pos hr) (by rw [hempty]; exact hnone)]

theorem length_offsetsFrom (offset : Nat) (rs : List Record) : (offsetsFrom offset rs).length = rs.length := by
  induction rs generalizing offset with
  | nil => rfl
  | cons r rs ih => rw [offsetsFrom, List.length_cons, List.length_cons, ih]

theorem Logged.offset_eq (h : Logged codec crc32 cap w (front ++ x :: back)) : x.1 = endOf codec front := by
  have hoff := h.offsets
  rw [records_append, offsetsFrom_append, List.map_append] at hoff
  have hrest := (List.append_inj hoff (by rw [List.length_map, length_offsetsFrom, records, List.length_map])).2
  exact (List.cons.inj hrest).1

theorem Logged.payload_pos (h : Logged codec crc32 cap w xs) (hnone : codec.deserialise [] = none) (hx : x ∈ xs) :
    0 < (recordOf codec x.2).payload.length := by
  refine List.length_pos_iff.mpr fun hnil => ?_
  have hdec := codec.deserialise_serialise (h.encodes x hx).1
  rw [hnil, hnone] at hdec
  cases hdec

/-- Behind a record that is not whole, nothing is recovered. -/
theorem reads_lost (hlog : Logged codec crc32 cap w (front ++ x :: back)) (hvalid : (recordOf codec x.2).Valid)
    (hnone : codec.deserialise [] = none) (hlags : f.Lags page (past codec crc32 cap (front ++ x :: back)))
    (hlen : f.disk.length = cap) (hpage : page % 8 = 0) (h64 : 64 ≤ page)
    (htears : TearsShow crc32 page x.1 (recordOf codec x.2)) (hfront : logBytes codec crc32 front <+: f.disk)
    (hlost : ¬ logBytes codec crc32 (front ++ [x]) <+: f.disk) :
    ∃ rs rest, Reads crc32 (f.disk.drop (endOf codec front)) rs rest ∧ ∀ t, (recover codec 0 t rs).1 = [] := by
  have hx : x ∈ front ++ x :: back := List.mem_append_right _ List.mem_cons_self
  have htorn := torn_of_lags hlags hlen (hlog.fits (List.ne_nil_of_mem hx))
  have hne : (f.disk.drop (endOf codec front)).take (recordOf codec x.2).size ≠ (recordOf codec x.2).bytes crc32 := by
    obtain ⟨rest, hrest⟩ := hfront
    rw [← hrest, ← length_logBytes codec crc32, List.drop_left]
    intro ht
    rw [← hrest, logBytes_concat, ← ht] at hlost
    exact hlost ((List.prefix_append_right_inj _).mpr (List.take_prefix _ _))
  rw [← List.take_append_drop (recordOf codec x.2).size (f.disk.drop (endOf codec front))]
  generalize (f.disk.drop (endOf codec front)).take (recordOf codec x.2).size = t at htorn hne ⊢
  generalize (f.disk.drop (endOf codec front)).drop (recordOf codec x.2).size = rest
  by_cases hsome : ∃ r', StartsWith crc32 (t ++ rest) r'
  · obtain ⟨r', hr'⟩ := hsome
    have hempty : r'.payload = [] := htears t (hlog.offset_eq ▸ htorn) hne rest r' hr'
    have hzero := lost_payload htorn (endOf_mod codec front) hpage h64 (hlog.payload_pos hnone hx) hvalid.length hr' hempty
    refine ⟨[r'], _, .record hr' (.stop ?_), recover_empty hnone hr'.1 hempty⟩
    rw [Record.size, hempty]
    exact not_startsWith_of_read (read_of_seq_eq_zero hzero)
  · exact ⟨[], _, .stop (not_exists.mp hsome), fun _ => rfl⟩

theorem exists_beginning (front : List (Nat × SequencedCommand)) (hlog : Logged codec crc32 cap w (front ++ back))
    (hseq : ∀ x ∈ back, x.2.seq ≠ 0)
    (hnone : codec.deserialise [] = none) (hlags : f.Lags page (past codec crc32 cap (front ++ back)))
    (hlen : f.disk.length = cap) (hpage : page % 8 = 0) (h64 : 64 ≤ page)
    (htears : ∀ x ∈ back, TearsShow crc32 page x.1 (recordOf codec x.2))
    (hfront : logBytes codec crc32 front <+: f.disk) : ∃ got, Beginning codec crc32 f.disk front back got := by
  induction back generalizing front with
  | nil =>
    rw [List.append_nil] at hlags
    have hstop : ∀ r, ¬ StartsWith crc32 (f.disk.drop (endOf codec front)) r := by
      rw [List.eq_replicate_of_mem (zeros_behind hlags hlen)]
      exact not_startsWith_of_read (read_zeros crc32 _)
    exact ⟨[], List.prefix_rfl, ⟨[], _, .stop hstop, fun _ => rfl⟩, fun ys hys _ => hys⟩
  | cons x back ih =>
    have hcons : front ++ x :: back = front ++ [x] ++ back := List.append_cons front x back
    obtain ⟨hseqx, hseq⟩ := List.forall_mem_cons.mp hseq
    obtain ⟨htearsx, htears⟩ := List.forall_mem_cons.mp htears
    have hvalid := (hlog.encodes x (List.mem_append_right _ List.mem_cons_self)).valid hseqx
    by_cases hwhole : logBytes codec crc32 (front ++ [x]) <+: f.disk
    · -- the record is there, go on behind it
      obtain ⟨got, hgot⟩ := ih (front ++ [x]) (hcons ▸ hlog) hseq (hcons ▸ hlags) htears hwhole
      obtain ⟨rs, rest, hreads, hrs⟩ := hgot.reads
      refine ⟨x :: got, List.cons_prefix_cons.mpr ⟨rfl, hgot.isPrefix⟩, ⟨rs, rest, ?_, hrs⟩, fun ys hys hpre => ?_⟩
      · obtain ⟨behind, hbehind⟩ := hwhole
        have hthis : f.disk.drop (endOf codec front) = (recordOf codec x.2).bytes crc32 ++ behind := by
          rw [← hbehind, logBytes_concat, List.append_assoc, ← length_logBytes codec crc32, List.drop_left]
        rw [endOf_concat, ← List.drop_drop, hthis] at hreads
        rw [hthis]
        exact .record (startsWith_bytes hvalid behind) hreads
      · rcases List.prefix_cons_iff.mp hys with rfl | ⟨zs, rfl, hzs⟩
        · exact List.nil_prefix
        · rw [List.append_cons] at hpre
          exact List.cons_prefix_cons.mpr ⟨rfl, hgot.most zs hzs hpre⟩
    · -- it has lost pages
      refine ⟨[], List.nil_prefix, reads_lost hlog hvalid hnone hlags hlen hpage h64 htearsx hfront hwhole,
        fun ys hys hpre => ?_⟩
      rcases List.prefix_cons_iff.mp hys with rfl | ⟨zs, rfl, hzs⟩
      · exact List.prefix_rfl
      · rw [List.append_cons, logBytes_append] at hpre
        exact absurd ((List.prefix_append _ _).trans hpre) hwhole

/-! ## What is recovered -/

/-- The page with the file header has it, or has never been written. -/
theorem header_cases (hlags : f.Lags page (past codec crc32 cap xs)) (hcap : fileHeaderSize ≤ cap) (h64 : 64 ≤ page) :
    logBytes codec crc32 [] <+: f.disk ∨ slice f.disk 0 8 ≠ magic := by
  obtain ⟨ys, hys, hk⟩ := hlags 0
  have hfirst : ∀ {n}, n ≤ fileHeaderSize → f.disk.take n = ys.take n := fun hn => take_eq_take fun i hi =>
    hk i (Nat.div_eq_of_lt (Nat.lt_of_lt_of_le hi (Nat.le_trans hn (Nat.le_trans (by decide) h64))))
  rcases hys with rfl | ⟨zs, -, rfl⟩
  · refine .inr ?_
    rw [slice, List.drop_zero, hfirst (by decide)]
    exact slice_zeros_ne_magic cap
  · refine .inl ?_
    have hbytes : (logBytes codec crc32 []).length = fileHeaderSize := length_logBytes codec crc32 []
    rw [List.prefix_iff_eq_take, hbytes, hfirst (Nat.le_refl _), ← List.nil_append zs, logBytes_append, setLen,
      List.take_append_of_le_length, List.take_take, Nat.min_eq_left hcap, ← hbytes, List.take_left]
    rw [List.length_take, List.length_append, hbytes]
    omega

theorem Logged.recover_got (hlog : Logged codec crc32 cap w xs) (hseq : ∀ x ∈ xs, x.2.seq ≠ 0)
    {got : List (Nat × SequencedCommand)} (hgot : got <+: xs) (hrs : ∀ t, (recover codec 0 t rs).1 = []) :
    (recover codec 0 0 (records codec got ++ rs)).1 = got.map Prod.snd := by
  have hterms : (0 :: (records codec got).map Record.term).IsChain (· ≤ ·) := by
    obtain ⟨more, rfl⟩ := hgot
    have hall := hlog.terms
    rw [records_append, List.map_append, ← List.cons_append] at hall
    exact hall.left_of_append
  obtain ⟨t, hrecover⟩ := recover_records (fun x hx => hlog.encodes x (hgot.subset hx))
    (fun x hx => hseq x (hgot.subset hx)) hterms rs
  rw [hrecover, hrs, List.append_nil]

/-- A disk that lags behind is recovered as a beginning of what was appended,
with all that is whole on it. -/
theorem scanWal_aged (hlog : Logged codec crc32 cap w xs) (hseq : ∀ x ∈ xs, x.2.seq ≠ 0)
    (hnone : codec.deserialise [] = none) (hlags : f.Lags page (past codec crc32 cap xs))
    (hlen : f.disk.length = cap) (hpage : page % 8 = 0) (h64 : 64 ≤ page)
    (htears : ∀ x ∈ xs, TearsShow crc32 page x.1 (recordOf codec x.2)) :
    ∃ got, got <+: xs ∧ (∃ res, scanWal codec crc32 f.disk 0 = some res ∧ res.commands = got.map Prod.snd) ∧
      ∀ ys, ys <+: xs → logBytes codec crc32 ys <+: f.disk → ys <+: got := by
  by_cases hcap : fileHeaderSize ≤ cap
  · rcases header_cases hlags hcap h64 with hfront | hmagic
    · obtain ⟨got, hgot⟩ := exists_beginning [] hlog hseq hnone hlags hlen hpage h64 htears hfront
      obtain ⟨rs, rest, hreads, hrs⟩ := hgot.reads
      obtain ⟨res, hres, hcmds, -⟩ := scanWal_ok codec (slice_of_front hfront) hreads 0
      exact ⟨got, hgot.isPrefix, ⟨res, hres, hcmds.trans (hlog.recover_got hseq hgot.isPrefix hrs)⟩, hgot.most⟩
    · refine ⟨[], List.nil_prefix, ⟨.empty, ?_, rfl⟩, fun ys _ hpre => absurd (slice_of_front hpre) hmagic⟩
      rw [scanWal, if_pos hmagic, ite_self]
  · have hxs : xs = [] := by
      by_contra hne
      exact hcap (Nat.le_trans (Nat.le_add_right _ _) (hlog.fits hne))
    refine ⟨[], List.nil_prefix, ⟨.empty, ?_, rfl⟩, fun ys hys _ => hxs ▸ hys⟩
    rw [scanWal, if_pos (by rw [hlen]; exact Nat.not_le.mp hcap)]

/-! ## Runs -/

theorem calls_cons (codec : Codec) (crc32 : Checksum) (w : FileWalWriter) (c : Call) (cs : List Call) :
    w.calls codec crc32 (c :: cs) = (w.call codec crc32 c).calls codec crc32 cs := rfl

theorem own_momentOps (codec : Codec) (crc32 : Checksum) (syncOnWrite : Bool) (w : FileWalWriter)
    (ms : List Moment) : (w.momentOps codec crc32 syncOnWrite ms).filter MapOp.own =
      w.ops codec crc32 syncOnWrite (callsOf ms) := by
  induction ms generalizing w with
  | nil => rfl
  | cons m ms ih =>
    cases m with
    | call c =>
      rw [FileWalWriter.momentOps, List.filter_append, own_callOps, ih]
      rfl
    | writeback k => exact ih w

theorem above_momentOps (codec : Codec) (crc32 : Checksum) (syncOnWrite : Bool) (w : FileWalWriter)
    (ms : List Moment) : ∀ op ∈ w.momentOps codec crc32 syncOnWrite ms, op.Above w.cursor := by
  refine above_of_filter ?_
  rw [own_momentOps]
  exact above_ops

theorem momentOps_append (codec : Codec) (crc32 : Checksum) (syncOnWrite : Bool) (w : FileWalWriter)
    (ms ms' : List Moment) : w.momentOps codec crc32 syncOnWrite (ms ++ ms') =
      w.momentOps codec crc32 syncOnWrite ms ++
        (w.calls codec crc32 (callsOf ms)).momentOps codec crc32 syncOnWrite ms' := by
  induction ms generalizing w with
  | nil => rfl
  | cons m ms ih =>
    cases m with
    | call c =>
      rw [List.cons_append, FileWalWriter.momentOps, FileWalWriter.momentOps, ih, List.append_assoc]
      rfl
    | writeback k =>
      rw [List.cons_append, FileWalWriter.momentOps, FileWalWriter.momentOps, ih]
      rfl

theorem acked_append (codec : Codec) (crc32 : Checksum) (w : FileWalWriter) (cs cs' : List Call) :
    w.acked codec crc32 (cs ++ cs') = w.acked codec crc32 cs ++ (w.calls codec crc32 cs).acked codec crc32 cs' := by
  induction cs generalizing w with
  | nil => rfl
  | cons c cs ih => rw [List.cons_append, FileWalWriter.acked, FileWalWriter.acked, ih, List.append_assoc, calls_cons]

theorem Aged.moments (h : Aged codec crc32 cap page w xs f) (hlog : Logged codec crc32 cap w xs) (syncOnWrite : Bool)
    (ms : List Moment) :
    Aged codec crc32 cap page (w.calls codec crc32 (callsOf ms)) (xs ++ w.acked codec crc32 (callsOf ms))
        (f.run page (w.momentOps codec crc32 syncOnWrite ms)) ∧
      Logged codec crc32 cap (w.calls codec crc32 (callsOf ms)) (xs ++ w.acked codec crc32 (callsOf ms)) := by
  induction ms generalizing w xs f with
  | nil =>
    rw [callsOf, List.filterMap_nil, FileWalWriter.acked, List.append_nil]
    exact ⟨h, hlog⟩
  | cons m ms ih =>
    cases m with
    | call c =>
      rw [FileWalWriter.momentOps, run_append, show callsOf (.call c :: ms) = c :: callsOf ms from rfl,
        FileWalWriter.acked, ← List.append_assoc, calls_cons]
      exact ih (h.call hlog c) (hlog.call c)
    | writeback k =>
      rw [FileWalWriter.momentOps, run_cons]
      exact ih ⟨h.mem, h.lags.copyPages (h.mem ▸ hlog.past) _⟩ hlog

theorem Aged.flush (h : Aged codec crc32 cap page w xs f) (hlog : Logged codec crc32 cap w xs) :
    Safe w xs (f.run page [.sync 0 w.mmap.length]) := by
  refine ⟨h.mem, ?_⟩
  by_cases hxs : xs = []
  · exact .inl hxs
  · refine .inr (Synced.mono (Synced.sync (fun i hi => absurd hi (Nat.not_lt_zero i)) (Nat.le_refl _) _) ?_)
    rw [Nat.zero_add, hlog.length_mmap, hlog.cursor]
    exact hlog.fits hxs

/-- If pages are written back between the calls only, then whatever a crash
leaves is recovered as a beginning of what was appended. It has all that was
appended before a `flush`, and with `sync_on_write` it is everything. -/
theorem crash_prefix (codec : Codec) (crc32 : Checksum) (hpage : page % 8 = 0) (h64 : 64 ≤ page)
    (hnone : codec.deserialise [] = none) (hopen : openFile crc32 [] cap = some (.ok w₀)) (syncOnWrite : Bool)
    (ms : List Moment) (hseq : ∀ x ∈ w₀.acked codec crc32 (callsOf ms), x.2.seq ≠ 0)
    (htears : ∀ x ∈ w₀.acked codec crc32 (callsOf ms), TearsShow crc32 page x.1 (recordOf codec x.2)) :
    ∃ got, got <+: w₀.acked codec crc32 (callsOf ms) ∧
      (∃ res, scanWal codec crc32 ((clean (List.replicate cap 0)).run page
          (writeFileHeaderOps ++ w₀.momentOps codec crc32 syncOnWrite ms)).disk 0 = some res ∧
        res.commands = got.map Prod.snd) ∧
      (syncOnWrite = true → got = w₀.acked codec crc32 (callsOf ms)) ∧
      ∀ before after, ms = before ++ .call .flush :: after → w₀.acked codec crc32 (callsOf before) <+: got := by
  have hnew : Aged codec crc32 cap page w₀ [] ((clean (List.replicate cap 0)).run page writeFileHeaderOps) :=
    ⟨openFile_mem hopen rfl, (lags_clean page (.inl rfl)).stores 0 [magic, leU32 version]⟩
  have hlen : ((clean (List.replicate cap 0)).run page
      (writeFileHeaderOps ++ w₀.momentOps codec crc32 syncOnWrite ms)).disk.length = cap := by
    rw [sameLength, length_mem_run]
    exact List.length_replicate
  rw [run_append] at hlen ⊢
  generalize (clean (List.replicate cap 0)).run page writeFileHeaderOps = f at hnew hlen ⊢
  have hlog₀ : Logged codec crc32 cap w₀ [] := openFile_logged hopen
  obtain ⟨haged, hlog⟩ := hnew.moments hlog₀ syncOnWrite ms
  rw [List.nil_append] at haged hlog
  obtain ⟨got, hgot, hres, hmost⟩ := scanWal_aged hlog hseq hnone haged.lags hlen hpage h64 htears
  refine ⟨got, hgot, hres, fun hsync => ?_, fun before after hms => ?_⟩
  · subst hsync
    by_cases hnil : w₀.acked codec crc32 (callsOf ms) = []
    · rw [hnil] at hgot ⊢
      exact List.prefix_nil.mp hgot
    · obtain ⟨hsafe, -⟩ := Safe.calls ⟨hnew.mem, .inl rfl⟩ hlog₀ (Nat.lt_of_lt_of_le (by decide) h64)
        (own_momentOps codec crc32 true w₀ ms)
      have hall := hmost _ List.prefix_rfl (hsafe.front hlog hnil page (List.forall_mem_nil _))
      exact hgot.eq_of_length_le hall.length_le
  · obtain ⟨haged₁, hlog₁⟩ := hnew.moments hlog₀ syncOnWrite before
    rw [List.nil_append] at haged₁ hlog₁
    by_cases hnil : w₀.acked codec crc32 (callsOf before) = []
    · rw [hnil]
      exact List.nil_prefix
    · refine hmost _ ?_ ?_
      · rw [hms, show callsOf (before ++ .call .flush :: after) = callsOf before ++ _ from List.filterMap_append,
          acked_append]
        exact List.prefix_append _ _
      · rw [hms, momentOps_append, run_append, FileWalWriter.momentOps, run_append]
        exact (haged₁.flush hlog₁).front hlog₁ hnil page (above_momentOps codec crc32 syncOnWrite _ after)

theorem tearsShow_of_le (crc32 : Checksum) (h : offset + r.size ≤ page) : TearsShow crc32 page offset r := by
  intro t ⟨hlen, hpages⟩ hne rest r' hr'
  rw [length_bytes] at hlen hpages
  have hfirst : ∀ i < r.size, (offset + i) / page = 0 := fun i hi => Nat.div_eq_of_lt (by omega)
  have hsize : 32 ≤ r.size := header_le_size r
  rcases hpages 0 with hkept | hlost
  · have hsame := take_eq_take fun i hi => hkept i hi (hfirst i hi)
    rw [List.take_of_length_le (Nat.le_of_eq hlen), ← length_bytes crc32, List.take_length] at hsame
    exact absurd hsame hne
  · refine absurd hr' (not_startsWith_of_read (read_of_seq_eq_zero ?_) r')
    refine u64OfLe_eq_zero (a := 0) fun i hi => ?_
    rw [Nat.zero_add, List.getElem?_append_left (by omega), hlost i (by omega) (hfirst i (by omega))]

/-- A command that was flushed, and one that was not. -/
def flushedOnce : List Moment := [.call (.append demoCancel), .call .flush, .call (.append demoFreeze)]

set_option maxRecDepth 8000 in
theorem acked_flushedOnce : freshWriter.acked Bincode.codec byteSum (callsOf flushedOnce) =
    [(32, demoCancel), (88, demoFreeze)] := rfl

set_option maxRecDepth 8000 in
theorem crash_prefix_flushedOnce : ∃ got, got <+: [(32, demoCancel), (88, demoFreeze)] ∧
    (∃ res, scanWal Bincode.codec byteSum ((clean (List.replicate 256 0)).run 4096
        (writeFileHeaderOps ++ freshWriter.momentOps Bincode.codec byteSum false flushedOnce)).disk 0 = some res ∧
      res.commands = got.map Prod.snd) ∧ [(32, demoCancel)] <+: got := by
  have hpages : ∀ x ∈ [(32, demoCancel), (88, demoFreeze)],
      TearsShow byteSum 4096 x.1 (recordOf Bincode.codec x.2) := by
    refine List.forall_mem_cons.mpr ⟨tearsShow_of_le byteSum (by decide), List.forall_mem_singleton.mpr ?_⟩
    exact tearsShow_of_le byteSum (by decide)
  obtain ⟨got, hgot, hres, -, hflushed⟩ := crash_prefix Bincode.codec byteSum (show 4096 % 8 = 0 from rfl) (by decide)
    rfl (openFile_fresh byteSum) false flushedOnce (by rw [acked_flushedOnce]; decide)
    (by rw [acked_flushedOnce]; exact hpages)
  rw [acked_flushedOnce] at hgot
  exact ⟨got, hgot, hres, hflushed [.call (.append demoCancel)] [.call (.append demoFreeze)] rfl⟩

end MRE.Wal.Proof
