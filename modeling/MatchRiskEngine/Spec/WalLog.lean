import MatchRiskEngine.Impl.Bincode
import MatchRiskEngine.Impl.WalSync

/-!
# The format of the log

A record and its bytes, and when a list of bytes starts with one. `Blocks` and
`Yields` say of a part of a log that a recovery of it stops at a record that it
cannot decode, and that it finds a command; `FirstAfter` says which number comes
first in it, and `Harmless` when a single bit the other way does not matter.

`FileWalWriter.run` is a writer's life between successful steps,
`FileWalWriter.runBoth` one with events in it, which may read as commands
(`ReadsAsCommand`). A record from which a crash has taken pages is not to be taken
for another (`TearsShow`).
-/

namespace MRE.Wal

structure Record where
  seq : UInt64
  tsNs : UInt64
  term : UInt64
  payload : List UInt8
  deriving DecidableEq, Repr

namespace Record

def header (crc32 : Checksum) (r : Record) : List UInt8 :=
  leU64 r.seq ++ leU64 r.tsNs ++ leU32 (UInt32.ofNat r.payload.length) ++ leU32 (crc32 r.payload) ++ leU64 r.term

def size (r : Record) : Nat := align8 (recordHeaderSize + r.payload.length)

def bytes (crc32 : Checksum) (r : Record) : List UInt8 :=
  r.header crc32 ++ r.payload ++ List.replicate (r.size - (recordHeaderSize + r.payload.length)) 0

/-- A record that can be told from unwritten space, and whose length fits its
field. -/
structure Valid (r : Record) : Prop where
  seq : r.seq ≠ 0
  length : r.payload.length < 2 ^ 32

end Record

/-- The bytes start with the header and the payload of a record. -/
def StartsWith (crc32 : Checksum) (bs : List UInt8) (r : Record) : Prop :=
  r.Valid ∧ ∃ rest, bs = r.header crc32 ++ (r.payload ++ rest)

/-- A recovery of `bs`, past a record of term `t`, comes to a record that is
not of an older term and cannot be decoded. -/
inductive Blocks (codec : Codec) (crc32 : Checksum) : List UInt8 → UInt64 → Prop
  | undecodable {bs : List UInt8} {t : UInt64} {r : Record} (h : StartsWith crc32 bs r) (ht : ¬ r.term < t)
      (hd : codec.deserialise r.payload = none) : Blocks codec crc32 bs t
  | stale {bs : List UInt8} {t : UInt64} {r : Record} (h : StartsWith crc32 bs r) (ht : r.term < t)
      (hb : Blocks codec crc32 (bs.drop r.size) t) : Blocks codec crc32 bs t
  | next {bs : List UInt8} {t : UInt64} {r : Record} (h : StartsWith crc32 bs r) (ht : ¬ r.term < t)
      (hb : Blocks codec crc32 (bs.drop r.size) r.term) : Blocks codec crc32 bs t

/-- A recovery of `bs`, past a record of term `t`, finds a command: behind
records of older terms there is one that is not and can be decoded. -/
inductive Yields (codec : Codec) (crc32 : Checksum) : List UInt8 → UInt64 → Prop
  | decodable {bs : List UInt8} {t : UInt64} {r : Record} (h : StartsWith crc32 bs r) (ht : ¬ r.term < t)
      (hd : (codec.deserialise r.payload).isSome) : Yields codec crc32 bs t
  | stale {bs : List UInt8} {t : UInt64} {r : Record} (h : StartsWith crc32 bs r) (ht : r.term < t)
      (hy : Yields codec crc32 (bs.drop r.size) t) : Yields codec crc32 bs t

/-- Past a record of term `t`, the first record of `bs` that is not of an older
term and comes after `afterSeq` has the number `n`. -/
inductive FirstAfter (crc32 : Checksum) (afterSeq : UInt64) : List UInt8 → UInt64 → UInt64 → Prop
  | here {bs : List UInt8} {t : UInt64} {r : Record} (h : StartsWith crc32 bs r) (ht : ¬ r.term < t)
      (hs : afterSeq < r.seq) : FirstAfter crc32 afterSeq bs t r.seq
  | stale {bs : List UInt8} {t n : UInt64} {r : Record} (h : StartsWith crc32 bs r) (ht : r.term < t)
      (hf : FirstAfter crc32 afterSeq (bs.drop r.size) t n) : FirstAfter crc32 afterSeq bs t n
  | earlier {bs : List UInt8} {t n : UInt64} {r : Record} (h : StartsWith crc32 bs r) (ht : ¬ r.term < t)
      (hs : ¬ afterSeq < r.seq) (hf : FirstAfter crc32 afterSeq (bs.drop r.size) r.term n) :
      FirstAfter crc32 afterSeq bs t n

/-! ## Runs of a writer -/

/-- A step of a log's life. -/
inductive Op where
  | append (sc : SequencedCommand)
  /-- The file is closed and opened again. -/
  | reopen

def appended (ops : List Op) : List SequencedCommand :=
  ops.filterMap fun
    | .append sc => some sc
    | .reopen => none

/-- The writer after some steps that all succeed. -/
def FileWalWriter.run (codec : Codec) (crc32 : Checksum) (fileCapacity : Nat) :
    FileWalWriter → List Op → Option FileWalWriter
  | w, [] => some w
  | w, .append sc :: ops =>
    match w.append codec crc32 sc with
    | (w', .ok _) => w'.run codec crc32 fileCapacity ops
    | (_, .error _) => none
  | w, .reopen :: ops =>
    match openFile crc32 w.mmap fileCapacity with
    | some (.ok w') => w'.run codec crc32 fileCapacity ops
    | _ => none

/-- A log written to a new file, with everything from some offset behind the
file header on replaced. -/
def TornImage (codec : Codec) (crc32 : Checksum) (fileCapacity : Nat) (image : List UInt8) : Prop :=
  ∃ (file : List UInt8) (w₀ w : FileWalWriter) (scs : List SequencedCommand) (p : Nat) (tail : List UInt8),
    (∀ b ∈ file, b = 0) ∧ openFile crc32 file fileCapacity = some (.ok w₀) ∧
    w₀.run codec crc32 fileCapacity (scs.map .append) = some w ∧ fileHeaderSize ≤ p ∧
    image = w.mmap.take p ++ tail ∧ image.length = w.mmap.length

def room (codec : Codec) (scs : List SequencedCommand) : Nat :=
  (scs.map fun sc => align8 (recordHeaderSize + ((codec.serialise sc.cmd).getD []).length)).sum

/-- Appending `scs` at `cursor` to a torn image keeps all there is to recover,
and adds no more than the commands: nothing in front blocks the recovery, no
command looks like unwritten space, and the recovery finds nothing in what
is left of the image behind them. -/
def Extends (codec : Codec) (crc32 : Checksum) (image : List UInt8) (cursor : Nat)
    (scs : List SequencedCommand) : Prop :=
  ¬ Blocks codec crc32 (image.drop fileHeaderSize) 0 ∧ (∀ sc ∈ scs, sc.seq ≠ 0) ∧
    ∀ sc ∈ scs.getLast?, ¬ Yields codec crc32 (image.drop (cursor + room codec scs)) sc.term

/-! ## Sequences of appends -/

def payloadLen (codec : Codec) (sc : SequencedCommand) : Nat := ((codec.serialise sc.cmd).getD []).length

namespace FileWalWriter

/-- The writer after some appends, and what each of them returned. -/
def appendAll (codec : Codec) (crc32 : Checksum) :
    FileWalWriter → List SequencedCommand → FileWalWriter × List (Except WalError Nat)
  | w, [] => (w, [])
  | w, sc :: scs =>
    let r := w.append codec crc32 sc
    let rest := appendAll codec crc32 r.1 scs
    (rest.1, r.2 :: rest.2)

/-- All later appends return the same, and leave the same bytes in the file. -/
def SameLater (codec : Codec) (crc32 : Checksum) (w w' : FileWalWriter) : Prop :=
  ∀ scs, (w.appendAll codec crc32 scs).2 = (w'.appendAll codec crc32 scs).2 ∧
    (w.appendAll codec crc32 scs).1.mmap = (w'.appendAll codec crc32 scs).1.mmap

end FileWalWriter

/-! ## Bit flips -/

def recordSize (codec : Codec) (sc : SequencedCommand) : Nat := align8 (recordHeaderSize + payloadLen codec sc)

/-- A recovery of `bs`, past a record of term `t`, finds something other than a
beginning of the commands. -/
inductive Strays (codec : Codec) (crc32 : Checksum) : List UInt8 → UInt64 → List SequencedCommand → Prop
  | other {bs : List UInt8} {t : UInt64} {r : Record} {cmd : InboundCommand} {scs : List SequencedCommand}
      (h : StartsWith crc32 bs r) (ht : ¬ r.term < t) (hd : codec.deserialise r.payload = some cmd)
      (hne : scs.head? ≠ some { term := r.term, seq := r.seq, tsNs := r.tsNs, cmd }) : Strays codec crc32 bs t scs
  | stale {bs : List UInt8} {t : UInt64} {r : Record} {scs : List SequencedCommand} (h : StartsWith crc32 bs r)
      (ht : r.term < t) (hs : Strays codec crc32 (bs.drop r.size) t scs) : Strays codec crc32 bs t scs
  | next {bs : List UInt8} {t : UInt64} {r : Record} {cmd : InboundCommand} {scs : List SequencedCommand}
      (h : StartsWith crc32 bs r) (ht : ¬ r.term < t) (hd : codec.deserialise r.payload = some cmd)
      (hs : Strays codec crc32 (bs.drop r.size) r.term scs) :
      Strays codec crc32 bs t ({ term := r.term, seq := r.seq, tsNs := r.tsNs, cmd } :: scs)

/-- The log `bs` of some commands, past one of term `t`, with bit `b` of its byte
`i` the other way yields no command that was not written: the bit is in a
sequence number that becomes zero, in a checksum, in a term that becomes too old
to be looked at, with nothing else behind it, in a payload or its padding, or
behind a sequence number of zero. If it is in a length, no record stands there
with the wrong length and a checksum that fits by accident; or it cannot be
decoded, or it is the same command and nothing behind it goes astray. -/
def Harmless (codec : Codec) (crc32 : Checksum) (b : Fin 8) :
    List UInt8 → Nat → UInt64 → List SequencedCommand → Prop
  | _, _, _, [] => True
  | bs, i, t, sc :: scs =>
    if i < 8 then flipU64 sc.seq i b = 0
    else if sc.seq = 0 then True
    -- the timestamp
    else if i < 16 then False
    -- the length
    else if i < 20 then ∀ r, StartsWith crc32 (flipBit bs i b) r → ∀ cmd, codec.deserialise r.payload = some cmd →
      cmd = sc.cmd ∧ ¬ Strays codec crc32 ((flipBit bs i b).drop r.size) sc.term scs
    -- the checksum
    else if i < 24 then True
    else if i < 32 then flipU64 sc.term (i - 24) b < t ∧ ∀ x ∈ scs.takeWhile (·.seq ≠ 0), x = sc
    else if i < recordSize codec sc then True
    else Harmless codec crc32 b (bs.drop (recordSize codec sc)) (i - recordSize codec sc) sc.term scs

/-! ## Events and commands in one log -/

inductive Write where
  | command (sc : SequencedCommand)
  | event (ev : Event) (nowNs : UInt64)

def Write.command? : Write → Option SequencedCommand
  | .command sc => some sc
  | .event _ _ => none

def commandsOf (writes : List Write) : List SequencedCommand := writes.filterMap Write.command?

/-- The writer after some appends that all succeed. -/
def FileWalWriter.runBoth (bincode : BincodeCodec) (crc32 : Checksum) :
    FileWalWriter → List Write → Option FileWalWriter
  | w, [] => some w
  | w, .command sc :: writes =>
    match w.append bincode.toCodec crc32 sc with
    | (w', .ok _) => w'.runBoth bincode crc32 writes
    | (_, .error _) => none
  | w, .event ev nowNs :: writes =>
    match w.appendEvent bincode crc32 ev nowNs with
    | (w', .ok _) => w'.runBoth bincode crc32 writes
    | (_, .error _) => none

/-- The encoding of the event reads as a command. The index of the variant is
that of a command for the first four of them. A command of the first is an
order, whose enumerations are read from other fields. -/
def ReadsAsCommand : Event → Prop
  | .accepted e =>
    e.orderId.raw.toNat / 2 ^ 16 % 2 ^ 32 < 2 ∧ e.side = .buy ∧ e.clientOrderId.raw.toNat < 2 ^ 49 ∧
      e.price.raw.toUInt64.toNat % 2 ^ 16 = 0
  | .filled _ _ | .canceled _ | .rejected _ => True
  | .modified _ | .instrumentHalted _ _ | .instrumentResumed _ _ => False

instance ReadsAsCommand.decidable : ∀ ev, Decidable (ReadsAsCommand ev)
  | .accepted e => inferInstanceAs (Decidable (e.orderId.raw.toNat / 2 ^ 16 % 2 ^ 32 < 2 ∧ e.side = .buy ∧
      e.clientOrderId.raw.toNat < 2 ^ 49 ∧ e.price.raw.toUInt64.toNat % 2 ^ 16 = 0))
  | .filled _ _ | .canceled _ | .rejected _ => inferInstanceAs (Decidable True)
  | .modified _ | .instrumentHalted _ _ | .instrumentResumed _ _ => inferInstanceAs (Decidable False)

/-- A recovery that has come to the term `t` is not disturbed by events: an
event is looked at only while the term is zero, and then it is one that does not
read as a command, where the recovery ends, and has no commands behind it. -/
def Undisturbed : UInt64 → List Write → Prop
  | _, [] => True
  | _, .command sc :: writes => Undisturbed sc.term writes
  | t, .event ev _ :: writes =>
    if 0 < t then Undisturbed t writes else ¬ ReadsAsCommand ev ∧ commandsOf writes = []

/-- No event reads as one of the commands. -/
def NoneReadsAs (writes : List Write) : Prop :=
  ∀ ev nowNs, .event ev nowNs ∈ writes → ∀ cmd, Bincode.deserialise (Bincode.serialiseEvent ev) = some cmd →
    { term := 0, seq := ev.seq.raw, tsNs := nowNs, cmd } ∉ commandsOf writes

def recordOf (codec : Codec) (sc : SequencedCommand) : Record :=
  { seq := sc.seq, tsNs := sc.tsNs, term := sc.term, payload := (codec.serialise sc.cmd).getD [] }

namespace FileWalWriter

/-- The command of a call that appends it, with its offset. -/
def ackedBy (codec : Codec) (crc32 : Checksum) (w : FileWalWriter) : Call → List (Nat × SequencedCommand)
  | .append sc =>
    match (w.append codec crc32 sc).2 with
    | .ok offset => [(offset, sc)]
    | .error _ => []
  | .flush => []

/-- The commands that some calls append, with their offsets. -/
def acked (codec : Codec) (crc32 : Checksum) : FileWalWriter → List Call → List (Nat × SequencedCommand)
  | _, [] => []
  | w, c :: cs => w.ackedBy codec crc32 c ++ (w.call codec crc32 c).acked codec crc32 cs

end FileWalWriter

inductive Moment where
  | call (c : Call)
  /-- The system writes a page back. -/
  | writeback (k : Nat)
  deriving DecidableEq, Repr

def callsOf (ms : List Moment) : List Call :=
  ms.filterMap fun
    | .call c => some c
    | .writeback _ => none

/-- What happens to the file if pages are written back between the calls. -/
def FileWalWriter.momentOps (codec : Codec) (crc32 : Checksum) (syncOnWrite : Bool) :
    FileWalWriter → List Moment → List (MapOp UInt8)
  | _, [] => []
  | w, .call c :: ms =>
    w.callOps codec crc32 syncOnWrite c ++ (w.call codec crc32 c).momentOps codec crc32 syncOnWrite ms
  | w, .writeback k :: ms => .writeback k :: w.momentOps codec crc32 syncOnWrite ms

/-- `t` is `bs`, which stands at `offset`, without the contents of some of its
pages. -/
def Torn (page offset : Nat) (bs t : List UInt8) : Prop :=
  t.length = bs.length ∧ ∀ k, (∀ i < bs.length, (offset + i) / page = k → t[i]? = bs[i]?) ∨
    ∀ i < bs.length, (offset + i) / page = k → t[i]? = some 0

/-- Where a record has lost pages there is no record, except perhaps for one
without a payload. -/
def TearsShow (crc32 : Checksum) (page offset : Nat) (r : Record) : Prop :=
  ∀ t, Torn page offset (r.bytes crc32) t → t ≠ r.bytes crc32 →
    ∀ rest r', StartsWith crc32 (t ++ rest) r' → r'.payload = []

end MRE.Wal
