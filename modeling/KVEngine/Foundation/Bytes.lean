import Mathlib.Data.List.Lex
import Mathlib.Data.Nat.Notation
import Mathlib.Tactic.Ring

/-!
# Byte strings

Byte strings, compared lexicographically, and fixed-width little-endian numbers.
-/

namespace KVEngine

abbrev Bytes : Type := List UInt8

namespace Foundation

instance linearOrderByte : LinearOrder UInt8 where
  le_refl := UInt8.le_refl
  le_trans _ _ _ := UInt8.le_trans
  le_antisymm _ _ := UInt8.le_antisymm
  le_total := UInt8.le_total
  lt_iff_le_not_ge a b := by
    rw [UInt8.lt_iff_toNat_lt, UInt8.le_iff_toNat_le, UInt8.le_iff_toNat_le]
    omega
  toDecidableLE := inferInstance

instance lawfulBEqBytes : LawfulBEq Bytes := inferInstance

/-- The `k` low bytes of `n`, least significant first. -/
def toLE : ℕ → ℕ → Bytes
  | 0, _ => []
  | k + 1, n => UInt8.ofNat n :: toLE k (n / 256)

def ofLE : Bytes → ℕ
  | [] => 0
  | b :: bs => b.toNat + 256 * ofLE bs

@[simp] theorem length_toLE : ∀ (k n : ℕ), (toLE k n).length = k
  | 0, _ => rfl
  | k + 1, n => by rw [toLE, List.length_cons, length_toLE k]

theorem ofLE_toLE : ∀ (k n : ℕ), ofLE (toLE k n) = n % 256 ^ k
  | 0, n => by simp [toLE, ofLE, Nat.mod_one]
  | k + 1, n => by
      have hb : (UInt8.ofNat n).toNat = n % 256 := by simp
      rw [toLE, ofLE, ofLE_toLE k, hb, Nat.pow_succ', Nat.mod_mul]

/-- A number that fits is read back. -/
theorem ofLE_toLE_of_lt {k n : ℕ} (h : n < 256 ^ k) : ofLE (toLE k n) = n := by
  rw [ofLE_toLE, Nat.mod_eq_of_lt h]

theorem ofLE_lt : ∀ bs : Bytes, ofLE bs < 256 ^ bs.length
  | [] => Nat.one_pos
  | b :: bs => by
      have hb := b.toNat_lt
      have hbs := ofLE_lt bs
      rw [ofLE, List.length_cons, Nat.pow_succ']
      omega

/-- The digits of a number are the ones it was read from. -/
theorem toLE_ofLE : ∀ {k : ℕ} {bs : Bytes}, bs.length = k → toLE k (ofLE bs) = bs
  | 0, [], _ => rfl
  | k + 1, b :: bs, h => by
      have hb : UInt8.ofNat (b.toNat + 256 * ofLE bs) = b := by
        rw [← UInt8.toNat_inj, UInt8.toNat_ofNat']
        have := b.toNat_lt
        omega
      have hdiv : (b.toNat + 256 * ofLE bs) / 256 = ofLE bs := by
        have := b.toNat_lt
        omega
      rw [ofLE, toLE, hb, hdiv, toLE_ofLE (Nat.succ.inj h)]

end Foundation

end KVEngine
