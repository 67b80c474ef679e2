import ClawDesk.Acp.RollingHash
import Mathlib.Data.List.TakeDrop
import Mathlib.Data.PNat.Notation
import Mathlib.Data.PNat.Defs

/-!
# The delta stream

A response is sent as a stream of deltas.  A delta carries the byte offset at
which it applies and the hash of the text after it; the decoder skips what it has
seen.  After a disconnect a new decoder starts from a checkpoint, which is the
position, the hash state, and the text so far.

Offsets are in bytes.  Inserting in the middle of a character is an abort of the
process (`none`).
-/

namespace ClawDesk.Acp

/-- `as_bytes()`. -/
def bytesOf (s : String) : List UInt8 := s.toUTF8.data.toList

theorem bytesOf_append (s t : String) : bytesOf (s ++ t) = bytesOf s ++ bytesOf t := by
  simp [bytesOf]

/-- A single delta in the incremental stream. -/
structure TextDelta where
  seq : ℕ
  offset : ℕ
  text : String
  /-- Whether this is the final delta. -/
  done : Bool
  /-- Hash of the full assembled text after applying this delta. -/
  hash : ℕ
  deriving DecidableEq

/-- Checkpoint for stream resumption. -/
structure StreamCheckpoint where
  lastSeq : ℕ
  offset : ℕ
  hash : ℕ
  hashPower : ℕ
  deriving DecidableEq

/-! ### The encoder -/

/-- Server-side delta stream encoder.  Checkpoints are kept oldest first; the remainder
by an interval of zero would be an abort. -/
structure DeltaEncoder where
  taskId : String
  assembled : String
  seq : ℕ
  checkpointInterval : ℕ+
  checkpoints : List StreamCheckpoint
  maxCheckpoints : ℕ
  rollingHash : RollingHash

namespace DeltaEncoder

def new (taskId : String) : DeltaEncoder where
  taskId := taskId
  assembled := ""
  seq := 0
  checkpointInterval := 10
  checkpoints := []
  maxCheckpoints := 50
  rollingHash := .new

def withCheckpointInterval (encoder : DeltaEncoder) (interval : ℕ+) : DeltaEncoder :=
  { encoder with checkpointInterval := interval }

/-- Keep a checkpoint, and drop the oldest if there are too many. -/
def keep (encoder : DeltaEncoder) (cp : StreamCheckpoint) : List StreamCheckpoint :=
  if encoder.maxCheckpoints < (encoder.checkpoints ++ [cp]).length then
    (encoder.checkpoints ++ [cp]).tail
  else encoder.checkpoints ++ [cp]

/-- Append a text chunk and produce a delta. -/
def push (encoder : DeltaEncoder) (text : String) : TextDelta × DeltaEncoder :=
  let offset := encoder.assembled.utf8ByteSize
  let assembled := encoder.assembled ++ text
  let rollingHash := encoder.rollingHash.append (bytesOf text)
  let cp : StreamCheckpoint :=
    { lastSeq := encoder.seq
      offset := assembled.utf8ByteSize
      hash := rollingHash.value
      hashPower := rollingHash.power }
  ({ seq := encoder.seq
     offset := offset
     text := text
     done := false
     hash := rollingHash.value },
    { encoder with
      assembled := assembled
      rollingHash := rollingHash
      seq := encoder.seq + 1
      checkpoints :=
        if 0 < encoder.seq ∧ encoder.seq % encoder.checkpointInterval = 0 then encoder.keep cp
        else encoder.checkpoints })

/-- Emit the final (done) delta. -/
def finish (encoder : DeltaEncoder) : TextDelta × DeltaEncoder :=
  ({ seq := encoder.seq
     offset := encoder.assembled.utf8ByteSize
     text := ""
     done := true
     hash := encoder.rollingHash.value },
    { encoder with seq := encoder.seq + 1 })

/-- The nearest checkpoint at or before the given sequence. -/
def checkpointAtOrBefore (encoder : DeltaEncoder) (seq : ℕ) : Option StreamCheckpoint :=
  encoder.checkpoints.reverse.find? fun cp => cp.lastSeq ≤ seq

/-- Push chunk after chunk. -/
def pushAll (encoder : DeltaEncoder) : List String → List TextDelta × DeltaEncoder
  | [] => ([], encoder)
  | chunk :: chunks =>
      let (delta, encoder) := encoder.push chunk
      let (deltas, encoder) := encoder.pushAll chunks
      (delta :: deltas, encoder)

/-- The stream of a response: its chunks, and the final delta. -/
def stream (encoder : DeltaEncoder) (chunks : List String) : List TextDelta :=
  (encoder.pushAll chunks).1 ++ [(encoder.pushAll chunks).2.finish.1]

end DeltaEncoder

/-! ### The decoder -/

/-- Client-side delta stream decoder. -/
structure DeltaDecoder where
  assembled : String
  lastSeq : Option ℕ
  deltasApplied : ℕ
  done : Bool
  hashMismatches : ℕ
  rollingHash : RollingHash
  hashValid : Bool

/-- Split a text at a byte offset; there is no such split inside a character. -/
def splitBytes : ℕ → List Char → Option (List Char × List Char)
  | 0, cs => some ([], cs)
  | _ + 1, [] => none
  | n + 1, c :: cs =>
      if c.utf8Size ≤ n + 1 then (splitBytes (n + 1 - c.utf8Size) cs).map fun p => (c :: p.1, p.2)
      else none

/-- `s.replace_range(offset..offset, text)`. -/
def insertAt (s : String) (offset : ℕ) (text : String) : Option String :=
  (splitBytes offset s.toList).map fun p => String.ofList p.1 ++ text ++ String.ofList p.2

namespace DeltaDecoder

def new : DeltaDecoder where
  assembled := ""
  lastSeq := none
  deltasApplied := 0
  done := false
  hashMismatches := 0
  rollingHash := .new
  hashValid := true

/-- Resume from a checkpoint. -/
def fromCheckpoint (cp : StreamCheckpoint) (assembledSoFar : String) : DeltaDecoder where
  assembled := assembledSoFar
  lastSeq := some cp.lastSeq
  deltasApplied := 0
  done := false
  hashMismatches := 0
  rollingHash := .fromCheckpointState cp.hash cp.hashPower
  hashValid := true

/-- The current hash. -/
def currentHash (decoder : DeltaDecoder) : ℕ :=
  if decoder.hashValid then decoder.rollingHash.value
  else RollingHash.compute (bytesOf decoder.assembled)

/-- Compare with the hash the delta carries. -/
def verify (decoder : DeltaDecoder) (delta : TextDelta) : Bool × DeltaDecoder :=
  if decoder.currentHash ≠ delta.hash then
    (false, { decoder with hashMismatches := decoder.hashMismatches + 1 })
  else (true, decoder)

/-- The text and its hash state after the delta. -/
def edit (decoder : DeltaDecoder) (delta : TextDelta) : Option (String × RollingHash) :=
  let length := decoder.assembled.utf8ByteSize
  if delta.offset = length then
    some (decoder.assembled ++ delta.text,
      if decoder.hashValid then decoder.rollingHash.append (bytesOf delta.text)
      else decoder.rollingHash)
  else if delta.offset < length then
    (insertAt decoder.assembled delta.offset delta.text).map fun s =>
      (s, .fromData (bytesOf s))
  else
    let s := decoder.assembled ++ String.ofList (List.replicate (delta.offset - length) ' ') ++
      delta.text
    some (s, .fromData (bytesOf s))

/-- Apply a delta to the assembled text. -/
def apply (decoder : DeltaDecoder) (delta : TextDelta) : Option (Bool × DeltaDecoder) :=
  if decoder.lastSeq.any fun last => delta.seq ≤ last then some (true, decoder)
  else if delta.done then
    some (verify { decoder with done := true, lastSeq := some delta.seq } delta)
  else
    (decoder.edit delta).map fun p =>
      verify { decoder with
        assembled := p.1
        rollingHash := p.2
        lastSeq := some delta.seq
        deltasApplied := decoder.deltasApplied + 1 } delta

/-- Create a checkpoint of the current decoder state. -/
def checkpoint (decoder : DeltaDecoder) : Option StreamCheckpoint :=
  decoder.lastSeq.map fun seq =>
    { lastSeq := seq
      offset := decoder.assembled.utf8ByteSize
      hash := decoder.currentHash
      hashPower := decoder.rollingHash.power }

end DeltaDecoder

end ClawDesk.Acp
