import Mathlib.Data.List.Basic
import Mathlib.Tactic.Ring

/-!
# Numbers in groups of seven bits

A number is written in groups of seven bits, the lowest first; every byte but the last has
its highest bit set.  What is read is given up after a number of bytes.

## Main definitions

* `Varint.encode`, `Varint.decode` — writing and reading, with the number of bytes allowed.

## Main results

* `Varint.decode_encode` — what is written is read, whatever follows.
-/

namespace K2Graph.Varint

/-- Writes a number to at most `k + 1` bytes. -/
def encode : ℕ → ℕ → List UInt8
  | 0, n => [UInt8.ofNat n]
  | k + 1, n =>
      if n < 128 then [UInt8.ofNat n] else UInt8.ofNat (n % 128 + 128) :: encode k (n / 128)

/-- Reads a number of at most `k` bytes, with the number of bytes. -/
def decode : ℕ → List UInt8 → Option (ℕ × ℕ)
  | 0, _ => none
  | _ + 1, [] => none
  | k + 1, b :: bs =>
      if b.toNat < 128 then some (b.toNat, 1)
      else (decode k bs).map fun r => (b.toNat - 128 + 128 * r.1, r.2 + 1)

theorem decode_encode (h : n < 128 ^ (k + 1)) (rest : List UInt8) :
    decode (k + 1) (encode k n ++ rest) = some (n, (encode k n).length) := by
  induction k generalizing n with
  | zero =>
    have hbyte : (UInt8.ofNat n).toNat = n := by
      rw [UInt8.toNat_ofNat']
      omega
    rw [encode, List.singleton_append, decode, hbyte, if_pos (by omega)]
    rfl
  | succ k ih =>
    rw [encode]
    split_ifs with hsmall
    · have hbyte : (UInt8.ofNat n).toNat = n := by
        rw [UInt8.toNat_ofNat']
        omega
      rw [List.singleton_append, decode, hbyte, if_pos hsmall]
      rfl
    have hbyte : (UInt8.ofNat (n % 128 + 128)).toNat = n % 128 + 128 := by
      rw [UInt8.toNat_ofNat']
      omega
    have hrest : n / 128 < 128 ^ (k + 1) :=
      Nat.div_lt_of_lt_mul (by rw [← pow_succ']; exact h)
    rw [List.cons_append, decode, hbyte, if_neg (by omega), ih hrest, Option.map_some,
      List.length_cons]
    have hval : n % 128 + 128 - 128 + 128 * (n / 128) = n := by omega
    rw [hval]

end K2Graph.Varint
