import Mathlib.Data.BitVec

/-!
# The hash of a key

Shards are chosen by the FNV-1a hash of a key, with 64 bits.
-/

namespace ClawDesk.Gateway

/-- One byte of the key. -/
def fnv1aStep (hash : BitVec 64) (byte : UInt8) : BitVec 64 :=
  (hash ^^^ byte.toBitVec.setWidth 64) * 0x100000001b3#64

/-- Simple FNV-1a hash for shard selection. -/
def fnv1aHash (key : List UInt8) : BitVec 64 :=
  key.foldl fnv1aStep 0xcbf29ce484222325#64

/-- The bytes of a key. -/
def keyBytes (key : String) : List UInt8 := key.toUTF8.data.toList

theorem keyBytes_ofList (l : List Char) :
    keyBytes (String.ofList l) = l.flatMap String.utf8EncodeChar := by
  unfold keyBytes
  rw [String.toUTF8_eq_toByteArray, String.toByteArray_ofList]
  unfold List.utf8Encode
  rw [List.data_toByteArray]

end ClawDesk.Gateway
