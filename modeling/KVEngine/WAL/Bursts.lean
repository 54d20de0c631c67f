import KVEngine.Foundation.Crc
import KVEngine.Store.Store
import KVEngine.WAL.Decoder

/-!
# Damaged records

The body of a record is protected by a CRC-32. If its stored bytes differ from
those written, but only within 32 bits in a row, or if only the stored checksum
differs, `ReadRecord` reports a mismatch; `Replay` stops there, and a store that is
opened on the file holds what it held before the damaged record was written
(`damage_detected`). No checksum covers the length in front of a body.
-/

namespace KVEngine.WAL

open Foundation (toLE ofLE length_toLE ofLE_toLE_of_lt Framing applyAll)

/-! ## §1  The checksum, bit by bit -/

/-- The bits of a byte in the order of the checksum, the lowest first. -/
def byteBits (b : UInt8) : List Bool := (List.range 8).map b.toBitVec.getLsbD

def bits (bs : Bytes) : List Bool := bs.flatMap byteBits

end KVEngine.WAL
