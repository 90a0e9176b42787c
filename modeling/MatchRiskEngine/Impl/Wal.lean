import MatchRiskEngine.Framework.Bytes
import MatchRiskEngine.Impl.CoreTypes

/-!
# The write-ahead log

The `wal` crate: `FileWalWriter`, which appends commands to a memory-mapped file of
fixed capacity and finds the end of the log again when the file is opened
(`scanToEnd`), and the scanner of recovery (`scanWal`).

A file is a header of 32 bytes, then records of a header of 32 bytes (sequence
number, timestamp, length and checksum of the payload, term), the payload, and
zeros up to a multiple of eight bytes. The serialiser (`Codec`) and the checksum
are parameters. File operations are taken to succeed. As in a release build `+`
wraps. `none` is a panic, or the bound on the iterations of a scan being reached.
-/

namespace MRE

structure Codec where
  serialise : InboundCommand → Option (List UInt8)
  deserialise : List UInt8 → Option InboundCommand
  deserialise_serialise {cmd : InboundCommand} {bs : List UInt8} (h : serialise cmd = some bs) :
    deserialise bs = some cmd
  /-- A payload's length fits in 32 bits. -/
  length_lt {cmd : InboundCommand} {bs : List UInt8} (h : serialise cmd = some bs) : bs.length < 2 ^ 32

namespace Wal

/-- `MREWAL01`. -/
def magic : List UInt8 := [0x4D, 0x52, 0x45, 0x57, 0x41, 0x4C, 0x30, 0x31]

def version : UInt32 := 2

def fileHeaderSize : Nat := 32

def recordHeaderSize : Nat := 32

/-- Round `n` up to the next multiple of 8. -/
def align8 (n : Nat) : Nat := (n + 7) / 8 * 8

inductive WalError where
  | capacityExhausted (capacity needed : Nat)
  | serialise
  | staleTerm (got highest : UInt64)
  | invalidMagic
  | unsupportedVersion (version : UInt32)
  deriving DecidableEq, Repr

/-! ## The writer -/

structure FileWalWriter where
  mmap : List UInt8
  cursor : Nat
  lastSeq : UInt64
  highestTerm : UInt64
  deriving DecidableEq, Repr

/-- Cut a file off, or extend it by zeros. -/
def setLen (file : List UInt8) (n : Nat) : List UInt8 := file.take n ++ List.replicate (n - file.length) 0

def writeFileHeader (mmap : List UInt8) : List UInt8 := splice (splice mmap 0 magic) 8 (leU32 version)

def validateFileHeader (mmap : List UInt8) : Except WalError Unit :=
  if slice mmap 0 8 ≠ magic then .error .invalidMagic
  else
    let v := u32OfLe (slice mmap 8 12)
    if v ≠ version then .error (.unsupportedVersion v) else .ok ()

/-- The loop of `scanToEnd`, for at most so many iterations. -/
def scanToEndLoop (crc32 : Checksum) (mmap : List UInt8) :
    Nat → Nat → UInt64 → UInt64 → Option (Nat × UInt64 × UInt64)
  | 0, _, _, _ => none
  | fuel + 1, offset, lastSeq, highestTerm =>
    if mmap.length < offset + recordHeaderSize then some (offset, lastSeq, highestTerm)
    else
      let seq := u64OfLe (slice mmap offset (offset + 8))
      -- the unwritten region
      if seq = 0 then some (offset, lastSeq, highestTerm)
      else
        let len := (u32OfLe (slice mmap (offset + 16) (offset + 20))).toNat
        let crcStored := u32OfLe (slice mmap (offset + 20) (offset + 24))
        let term := u64OfLe (slice mmap (offset + 24) (offset + 32))
        let payloadEnd := offset + recordHeaderSize + len
        if mmap.length < payloadEnd then some (offset, lastSeq, highestTerm)
        else if crc32 (slice mmap (offset + recordHeaderSize) payloadEnd) ≠ crcStored then
          some (offset, lastSeq, highestTerm)
        else scanToEndLoop crc32 mmap fuel (offset + align8 (recordHeaderSize + len)) seq term

/-- The end of the log, and the last sequence number and term in it. -/
def scanToEnd (crc32 : Checksum) (mmap : List UInt8) : Option (Nat × UInt64 × UInt64) :=
  scanToEndLoop crc32 mmap (mmap.length + 1) fileHeaderSize 0 0

/-- `FileWalWriter::open`, on the bytes of a file. -/
def openFile (crc32 : Checksum) (file : List UInt8) (fileCapacity : Nat) :
    Option (Except WalError FileWalWriter) :=
  let mmap := setLen file fileCapacity
  -- the header is indexed without a check
  if mmap.length < 12 then none
  else if slice mmap 0 8 ≠ magic then
    some (.ok { mmap := writeFileHeader mmap, cursor := fileHeaderSize, lastSeq := 0, highestTerm := 0 })
  else
    match validateFileHeader mmap with
    | .error e => some (.error e)
    | .ok () => do
      let (cursor, lastSeq, highestTerm) ← scanToEnd crc32 mmap
      some (.ok { mmap, cursor, lastSeq, highestTerm })

namespace FileWalWriter

/-- The offset of the record, or the error; the writer is changed in both
cases. -/
def writeRecord (crc32 : Checksum) (w : FileWalWriter) (seq term tsNs : UInt64) (payload : List UInt8) :
    FileWalWriter × Except WalError Nat :=
  let payloadLen := payload.length
  let recordSize := align8 (recordHeaderSize + payloadLen)
  let endOff := w.cursor + recordSize
  if w.mmap.length < endOff then (w, .error (.capacityExhausted w.mmap.length endOff))
  else
    let buf := leU64 seq ++ leU64 tsNs ++ leU32 (UInt32.ofNat payloadLen) ++ leU32 (crc32 payload) ++ leU64 term ++
      payload ++ List.replicate (recordSize - (recordHeaderSize + payloadLen)) 0
    ({ w with mmap := splice w.mmap w.cursor buf, cursor := endOff, lastSeq := seq }, .ok w.cursor)

def append (codec : Codec) (crc32 : Checksum) (w : FileWalWriter) (sc : SequencedCommand) :
    FileWalWriter × Except WalError Nat :=
  if sc.term < w.highestTerm then (w, .error (.staleTerm sc.term w.highestTerm))
  else
    let w := { w with highestTerm := sc.term }
    match codec.serialise sc.cmd with
    | none => (w, .error .serialise)
    | some payload => w.writeRecord crc32 sc.seq sc.term sc.tsNs payload

end FileWalWriter

/-! ## The scanner of recovery -/

structure ScanResult where
  commands : List SequencedCommand
  corruptRecords : Nat
  seqGaps : Nat
  highestTerm : UInt64
  deriving DecidableEq, Repr

def ScanResult.empty : ScanResult := { commands := [], corruptRecords := 0, seqGaps := 0, highestTerm := 0 }

/-- The loop of `scanWal`, for at most so many iterations. -/
def scanWalLoop (codec : Codec) (crc32 : Checksum) (data : List UInt8) (afterSeq : UInt64) :
    Nat → Nat → UInt64 → ScanResult → Option ScanResult
  | 0, _, _, _ => none
  | fuel + 1, offset, lastSeq, res =>
    if data.length < offset + recordHeaderSize then some res
    else
      let seq := u64OfLe (slice data offset (offset + 8))
      -- the unwritten region
      if seq = 0 then some res
      else
        let tsNs := u64OfLe (slice data (offset + 8) (offset + 16))
        let len := (u32OfLe (slice data (offset + 16) (offset + 20))).toNat
        let crcStored := u32OfLe (slice data (offset + 20) (offset + 24))
        let term := u64OfLe (slice data (offset + 24) (offset + 32))
        let payloadStart := offset + recordHeaderSize
        let payloadEnd := payloadStart + len
        if data.length < payloadEnd then some { res with corruptRecords := res.corruptRecords + 1 }
        else
          let payload := slice data payloadStart payloadEnd
          let recordSize := align8 (recordHeaderSize + len)
          if crc32 payload ≠ crcStored then some { res with corruptRecords := res.corruptRecords + 1 }
          -- a record of an older term
          else if term < res.highestTerm then
            scanWalLoop codec crc32 data afterSeq fuel (offset + recordSize) lastSeq res
          else
            let gap := seq ≠ lastSeq + 1 ∧ lastSeq ≠ 0 ∧ lastSeq ≠ afterSeq
            let res := { res with highestTerm := term, seqGaps := if gap then res.seqGaps + 1 else res.seqGaps }
            if afterSeq < seq then
              match codec.deserialise payload with
              | some cmd =>
                scanWalLoop codec crc32 data afterSeq fuel (offset + recordSize) seq
                  { res with commands := res.commands ++ [{ term, seq, tsNs, cmd }] }
              | none => some { res with corruptRecords := res.corruptRecords + 1 }
            else scanWalLoop codec crc32 data afterSeq fuel (offset + recordSize) seq res

/-- The commands of a log with sequence numbers above `afterSeq`. -/
def scanWal (codec : Codec) (crc32 : Checksum) (data : List UInt8) (afterSeq : UInt64) : Option ScanResult :=
  if data.length < fileHeaderSize then some .empty
  else if slice data 0 8 ≠ magic then some .empty
  else scanWalLoop codec crc32 data afterSeq (data.length + 1) fileHeaderSize afterSeq .empty

end Wal

/-- The elements from `a` up to `b`; a panic if there are not as many. -/
def sliceChecked {α : Type} (xs : List α) (a b : Nat) : Option (List α) :=
  if a ≤ b ∧ b ≤ xs.length then some (slice xs a b) else none

namespace Wal

/-- The loop of `scanWalChecked`, for at most so many iterations. -/
def scanWalLoopChecked (codec : Codec) (crc32 : Checksum) (data : List UInt8) (afterSeq : UInt64) :
    Nat → Nat → UInt64 → ScanResult → Option ScanResult
  | 0, _, _, _ => none
  | fuel + 1, offset, lastSeq, res =>
    if data.length < offset + recordHeaderSize then some res
    else do
      let seq := u64OfLe (← sliceChecked data offset (offset + 8))
      -- the unwritten region
      if seq = 0 then some res
      else
        let tsNs := u64OfLe (← sliceChecked data (offset + 8) (offset + 16))
        let len := (u32OfLe (← sliceChecked data (offset + 16) (offset + 20))).toNat
        let crcStored := u32OfLe (← sliceChecked data (offset + 20) (offset + 24))
        let term := u64OfLe (← sliceChecked data (offset + 24) (offset + 32))
        let payloadStart := offset + recordHeaderSize
        let payloadEnd := payloadStart + len
        if data.length < payloadEnd then some { res with corruptRecords := res.corruptRecords + 1 }
        else
          let payload ← sliceChecked data payloadStart payloadEnd
          let recordSize := align8 (recordHeaderSize + len)
          if crc32 payload ≠ crcStored then some { res with corruptRecords := res.corruptRecords + 1 }
          -- a record of an older term
          else if term < res.highestTerm then
            scanWalLoopChecked codec crc32 data afterSeq fuel (offset + recordSize) lastSeq res
          else
            let gap := seq ≠ lastSeq + 1 ∧ lastSeq ≠ 0 ∧ lastSeq ≠ afterSeq
            let res := { res with highestTerm := term, seqGaps := if gap then res.seqGaps + 1 else res.seqGaps }
            if afterSeq < seq then
              match codec.deserialise payload with
              | some cmd =>
                scanWalLoopChecked codec crc32 data afterSeq fuel (offset + recordSize) seq
                  { res with commands := res.commands ++ [{ term, seq, tsNs, cmd }] }
              | none => some { res with corruptRecords := res.corruptRecords + 1 }
            else scanWalLoopChecked codec crc32 data afterSeq fuel (offset + recordSize) seq res

/-- `scanWal`, with its accesses checked. -/
def scanWalChecked (codec : Codec) (crc32 : Checksum) (data : List UInt8) (afterSeq : UInt64) :
    Option ScanResult :=
  if data.length < fileHeaderSize then some .empty
  else do
    let start ← sliceChecked data 0 8
    if start ≠ magic then some .empty
    else scanWalLoopChecked codec crc32 data afterSeq (data.length + 1) fileHeaderSize afterSeq .empty

end Wal

end MRE
