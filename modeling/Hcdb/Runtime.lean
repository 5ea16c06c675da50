import Hcdb.Lib.ByteString

namespace Hcdb

open Hcdb.Lib.ByteString

/-- What the program takes from its runtime: the hash functions and the sizes of a Bloom
filter. -/
class Runtime where
  checksumIEEE : Bytes → UInt32
  fnv64a : Bytes → UInt64
  fnv32a : Bytes → UInt32
  bloomSize : Nat
  bloomNumHash : Nat
  bloomSize_pos : 0 < bloomSize
  bloomSize_lt : bloomSize < 2 ^ 32
  bloomNumHash_lt : bloomNumHash < 2 ^ 32

namespace Runtime

/-- One byte of the reflected CRC-32 with the IEEE polynomial. -/
def crcStep (crc : UInt32) (b : UInt8) : UInt32 :=
  (List.range 8).foldl
    (fun c _ => if c &&& 1 = 1 then (c >>> 1) ^^^ 0xedb88320 else c >>> 1)
    (crc ^^^ b.toUInt32)

/-- The runtime of the real program: CRC-32 IEEE, FNV-1a, and the filter that
`findOptimalParamsValues(100000, 0.01)` sizes. -/
instance goRuntime : Runtime where
  checksumIEEE bs := bs.foldl crcStep 0xffffffff ^^^ 0xffffffff
  fnv64a bs := bs.foldl (fun h b => (h ^^^ b.toUInt64) * 1099511628211) 14695981039346656037
  fnv32a bs := bs.foldl (fun h b => (h ^^^ b.toUInt32) * 16777619) 2166136261
  bloomSize := 958506
  bloomNumHash := 7
  bloomSize_pos := by decide
  bloomSize_lt := by decide
  bloomNumHash_lt := by decide

end Runtime

end Hcdb
