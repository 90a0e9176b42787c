import MatchRiskEngine.Impl.Wal

/-!
# The log in persistent memory

The `wal` crate's `PmemWalWriter`, which appends commands to a file in
persistent memory. It has a layout of its own, with a record header of 24
bytes and without the term. Flushing the cache is not modelled. As in
`FileWalWriter`, debug assertions are off, and `none` is a panic or the bound
on the iterations of a scan being reached.
-/

namespace MRE.Pmem

/-- `MREWAL01`. -/
def magic : List UInt8 := [0x4D, 0x52, 0x45, 0x57, 0x41, 0x4C, 0x30, 0x31]

def version : UInt32 := 1

def fileHeaderSize : Nat := 32

def recordHeaderSize : Nat := 24

inductive PmemError where
  | wal (e : Wal.WalError)
  | unsupportedCpu
  deriving DecidableEq, Repr

structure PmemWalWriter where
  mmap : List UInt8
  cursor : Nat
  lastSeq : UInt64
  deriving DecidableEq, Repr

/-- The loop of `scanToEnd`, for at most so many iterations. -/
def scanToEndLoop (crc32 : Checksum) (mmap : List UInt8) : Nat → Nat → UInt64 → Option (Nat × UInt64)
  | 0, _, _ => none
  | fuel + 1, cursor, lastSeq =>
    if mmap.length < cursor + recordHeaderSize then some (cursor, lastSeq)
    else
      let seq := u64OfLe (slice mmap cursor (cursor + 8))
      -- the unwritten tail
      if seq = 0 then some (cursor, lastSeq)
      else
        let len := (u32OfLe (slice mmap (cursor + 16) (cursor + 20))).toNat
        let storedCrc := u32OfLe (slice mmap (cursor + 20) (cursor + 24))
        let payloadStart := cursor + recordHeaderSize
        let payloadEnd := payloadStart + len
        if mmap.length < payloadEnd then some (cursor, lastSeq)
        else if crc32 (slice mmap payloadStart payloadEnd) ≠ storedCrc then some (cursor, lastSeq)
        else scanToEndLoop crc32 mmap fuel (Wal.align8 payloadEnd) seq

/-- The end of the log, and the last sequence number in it. -/
def scanToEnd (crc32 : Checksum) (mmap : List UInt8) : Option (Nat × UInt64) :=
  scanToEndLoop crc32 mmap (mmap.length + 1) fileHeaderSize 0

/-- `PmemWalWriter::open`, on the bytes of a file. -/
def openFile (crc32 : Checksum) (file : List UInt8) (fileCapacity : Nat) :
    Option (Except PmemError PmemWalWriter) :=
  let mmap := Wal.setLen file fileCapacity
  -- the header is indexed without a check
  if mmap.length < 8 then none
  else if slice mmap 0 8 ≠ magic then
    if mmap.length < fileHeaderSize then none
    else
      let mmap := splice (splice (splice mmap 0 magic) 8 (leU32 version)) 12 (List.replicate 20 0)
      some (.ok { mmap, cursor := fileHeaderSize, lastSeq := 0 })
  else if slice mmap 0 8 ≠ magic then some (.error (.wal .invalidMagic))
  else do
    let (cursor, lastSeq) ← scanToEnd crc32 mmap
    some (.ok { mmap, cursor, lastSeq })

namespace PmemWalWriter

/-- The offset of the record, or the error. -/
def append (codec : Codec) (crc32 : Checksum) (w : PmemWalWriter) (sc : SequencedCommand) :
    PmemWalWriter × Except PmemError Nat :=
  match codec.serialise sc.cmd with
  | none => (w, .error (.wal .serialise))
  | some payload =>
    let recordSize := Wal.align8 (recordHeaderSize + payload.length)
    let endOff := w.cursor + recordSize
    if w.mmap.length < endOff then (w, .error (.wal (.capacityExhausted w.mmap.length endOff)))
    else
      let buf := leU64 sc.seq ++ leU64 sc.tsNs ++ leU32 (UInt32.ofNat payload.length) ++ leU32 (crc32 payload) ++
        payload ++ List.replicate (recordSize - (recordHeaderSize + payload.length)) 0
      ({ mmap := splice w.mmap w.cursor buf, cursor := endOff, lastSeq := sc.seq }, .ok w.cursor)

/-- Append commands one after the other; `none` if one of them is refused. -/
def appendAll (codec : Codec) (crc32 : Checksum) : PmemWalWriter → List SequencedCommand → Option PmemWalWriter
  | w, [] => some w
  | w, sc :: scs =>
    match w.append codec crc32 sc with
    | (w', .ok _) => appendAll codec crc32 w' scs
    | (_, .error _) => none

end PmemWalWriter

end MRE.Pmem
