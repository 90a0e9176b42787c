import MatchRiskEngine.Framework.PageCache
import MatchRiskEngine.Impl.Wal

/-!
# What the log does to its mapped file

`open` on a new file, `append` and `flush` of `FileWalWriter` once more, as the
stores into the mapped file, in the order of the source, and the `msync` of the
pages of a record (if `sync_on_write` is set) or of the whole file.
-/

namespace MRE.Wal

def writeFileHeaderOps : List (MapOp UInt8) := [.store 0 magic, .store 8 (leU32 version)]

/-- A call of the writer's interface. -/
inductive Call where
  | append (sc : SequencedCommand)
  | flush
  deriving DecidableEq, Repr

namespace FileWalWriter

def writeRecordOps (crc32 : Checksum) (syncOnWrite : Bool) (w : FileWalWriter) (seq term tsNs : UInt64)
    (payload : List UInt8) : List (MapOp UInt8) :=
  let payloadLen := payload.length
  let recordSize := align8 (recordHeaderSize + payloadLen)
  if w.mmap.length < w.cursor + recordSize then []
  else
    let offset := w.cursor
    [.store offset (leU64 seq), .store (offset + 8) (leU64 tsNs),
      .store (offset + 16) (leU32 (UInt32.ofNat payloadLen)), .store (offset + 20) (leU32 (crc32 payload)),
      .store (offset + 24) (leU64 term), .store (offset + 32) payload] ++
    (List.range (recordSize - (32 + payloadLen))).map (fun i => .store (offset + (32 + payloadLen) + i) [0]) ++
    if syncOnWrite then [.sync offset recordSize] else []

def appendOps (codec : Codec) (crc32 : Checksum) (syncOnWrite : Bool) (w : FileWalWriter)
    (sc : SequencedCommand) : List (MapOp UInt8) :=
  if sc.term < w.highestTerm then []
  else
    match codec.serialise sc.cmd with
    | none => []
    | some payload => w.writeRecordOps crc32 syncOnWrite sc.seq sc.term sc.tsNs payload

def callOps (codec : Codec) (crc32 : Checksum) (syncOnWrite : Bool) (w : FileWalWriter) :
    Call → List (MapOp UInt8)
  | .append sc => w.appendOps codec crc32 syncOnWrite sc
  | .flush => [.sync 0 w.mmap.length]

def call (codec : Codec) (crc32 : Checksum) (w : FileWalWriter) : Call → FileWalWriter
  | .append sc => (w.append codec crc32 sc).1
  | .flush => w

def calls (codec : Codec) (crc32 : Checksum) (w : FileWalWriter) (cs : List Call) : FileWalWriter :=
  cs.foldl (call codec crc32) w

def ops (codec : Codec) (crc32 : Checksum) (syncOnWrite : Bool) :
    FileWalWriter → List Call → List (MapOp UInt8)
  | _, [] => []
  | w, c :: cs => w.callOps codec crc32 syncOnWrite c ++ (w.call codec crc32 c).ops codec crc32 syncOnWrite cs

end FileWalWriter

end MRE.Wal
