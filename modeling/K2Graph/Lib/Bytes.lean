import Mathlib.Tactic.Positivity
import Mathlib.Tactic.Zify

/-!
# Byte strings: fixed-width integers and reading at an offset

An integer is stored in `n` bytes, least significant byte first, in two's
complement.  `readAt` is `pread` on a file: it fails before the first byte, and when
fewer bytes than asked for are left.

## Main definitions

* `LittleEndian.ofInt`, `LittleEndian.toInt` — storing and loading an integer.
* `readAt`, `readInt`, `readNat` — reading bytes and a number at an offset.

## Main results

* `LittleEndian.toInt_ofInt` — what is stored is loaded, if it fits.
* `readAt_append`, `readInt_append` — reading what was written.
* `readAt_eq_none` — reading over the end.
-/

namespace K2Graph

variable {x pos : ℤ}

namespace LittleEndian

/-! ### Natural numbers -/

/-- The `n` lowest bytes of a number. -/
def ofNat : ℕ → ℕ → List UInt8
  | 0, _ => []
  | n + 1, x => UInt8.ofNat (x % 256) :: ofNat n (x / 256)

/-- The number given by its bytes. -/
def toNat : List UInt8 → ℕ
  | [] => 0
  | b :: bs => b.toNat + 256 * toNat bs

@[simp] theorem length_ofNat (n x : ℕ) : (ofNat n x).length = n := by
  induction n generalizing x with
  | zero => rfl
  | succ n ih => rw [ofNat, List.length_cons, ih]

variable (bs : List UInt8)

theorem toNat_lt : toNat bs < 256 ^ bs.length := by
  induction bs with
  | nil => simp [toNat]
  | cons b bs ih =>
    have hb : b.toNat < 256 := b.toNat_lt
    rw [toNat, List.length_cons]
    omega

theorem toNat_ofNat {x : ℕ} (h : x < 256 ^ n) : toNat (ofNat n x) = x := by
  induction n generalizing x with
  | zero =>
    rw [ofNat, toNat]
    omega
  | succ n ih =>
    have hdiv : x / 256 < 256 ^ n := by omega
    have hbyte : (UInt8.ofNat (x % 256)).toNat = x % 256 := by
      rw [UInt8.toNat_ofNat']
      omega
    rw [ofNat, toNat, ih hdiv]
    omega

/-! ### Integers -/

/-- An integer in `n` bytes. -/
def ofInt (n : ℕ) (x : ℤ) : List UInt8 := ofNat n (x % 256 ^ n).toNat

/-- The integer given by its bytes. -/
def toInt : ℤ :=
  if 2 * toNat bs < 256 ^ bs.length then toNat bs else toNat bs - 256 ^ bs.length

@[simp] theorem length_ofInt (n : ℕ) (x : ℤ) : (ofInt n x).length = n := length_ofNat n _

/-- The integers that `n` bytes hold. -/
def Fits (n : ℕ) (x : ℤ) : Prop := -256 ^ n ≤ 2 * x ∧ 2 * x < 256 ^ n

instance (n : ℕ) (x : ℤ) : Decidable (Fits n x) := inferInstanceAs (Decidable (_ ∧ _))

theorem toInt_ofInt (h : Fits n x) : toInt (ofInt n x) = x := by
  obtain ⟨hlow, hhigh⟩ := h
  have hpos : (0 : ℤ) < 256 ^ n := by positivity
  have hmod := Int.emod_nonneg x hpos.ne'
  have hlt := Int.emod_lt_of_pos x hpos
  have hcast : ((x % 256 ^ n).toNat : ℤ) = x % 256 ^ n := Int.toNat_of_nonneg hmod
  have hnat : (x % 256 ^ n).toNat < 256 ^ n := by
    zify
    rw [hcast]
    exact hlt
  rw [toInt, length_ofInt, ofInt, toNat_ofNat hnat, hcast]
  have hiff : 2 * (x % 256 ^ n).toNat < 256 ^ n ↔ 2 * (x % 256 ^ n) < 256 ^ n := by
    zify
    rw [hcast]
  rcases le_or_gt 0 x with hx | hx
  · -- a number that is not negative is its own remainder
    have hself : x % 256 ^ n = x := Int.emod_eq_of_lt hx (by omega)
    rw [if_pos (hiff.mpr (by rw [hself]; exact hhigh)), hself]
  have hself : x % 256 ^ n = x + 256 ^ n := by
    rw [← Int.add_emod_right]
    exact Int.emod_eq_of_lt (by omega) (by omega)
  rw [if_neg (fun hc => ?_)]
  · omega
  · omega

theorem toNat_inj {bs : List UInt8} (hlen : bs.length = cs.length) (h : toNat bs = toNat cs) :
    bs = cs := by
  induction bs generalizing cs with
  | nil => exact (List.length_eq_zero_iff.mp hlen.symm).symm
  | cons b bs ih =>
    cases cs with
    | nil => cases hlen
    | cons c cs =>
      have hb := b.toNat_lt
      have hc := c.toNat_lt
      rw [toNat, toNat] at h
      have hhead : b.toNat = c.toNat := by omega
      have htail : toNat bs = toNat cs := by omega
      rw [UInt8.toNat_inj.mp hhead, ih (Nat.succ.inj hlen) htail]

theorem toInt_inj {bs : List UInt8} (hlen : bs.length = cs.length) (h : toInt bs = toInt cs) :
    bs = cs := by
  refine toNat_inj hlen ?_
  have hb := toNat_lt bs
  have hc := toNat_lt cs
  rw [toInt, toInt, ← hlen] at h
  rw [← hlen] at hc
  zify at hb hc ⊢
  split_ifs at h <;> omega

theorem fits_toInt : Fits bs.length (toInt bs) := by
  have hlt := toNat_lt bs
  rw [Fits, toInt]
  zify at hlt
  split_ifs with h <;> zify at h <;> omega

end LittleEndian

open LittleEndian

/-! ### Reading -/

variable (bytes : List UInt8)

/-- `pread`, when all `n` bytes are there. -/
def readAt (pos : ℤ) (n : ℕ) : Option (List UInt8) :=
  if 0 ≤ pos ∧ pos + n ≤ bytes.length then some ((bytes.drop pos.toNat).take n) else none

/-- Reads an integer of `n` bytes. -/
def readInt (pos : ℤ) (n : ℕ) : Option ℤ := (readAt bytes pos n).map toInt

/-- Reads a number of `n` bytes. -/
def readNat (pos : ℤ) (n : ℕ) : Option ℕ := (readAt bytes pos n).map toNat

variable {bytes : List UInt8} {n : ℕ} (pre : List UInt8)

theorem readAt_append (s post : List UInt8) :
    readAt (pre ++ (s ++ post)) pre.length s.length = some s := by
  have hlen : (0 : ℤ) ≤ pre.length ∧
      (pre.length : ℤ) + s.length ≤ ((pre ++ (s ++ post)).length : ℕ) := by
    simp only [List.length_append]
    omega
  rw [readAt, if_pos hlen, Int.toNat_natCast, List.drop_left, List.take_left]

theorem readAt_of_eq (h : ∃ post, bytes = pre ++ (s ++ post)) (hpos : pos = pre.length)
    (hn : n = s.length) : readAt bytes pos n = some s := by
  obtain ⟨post, h⟩ := h
  rw [h, hpos, hn]
  exact readAt_append pre s post

theorem readInt_of_eq (hx : Fits n x) (h : ∃ post, bytes = pre ++ (ofInt n x ++ post))
    (hpos : pos = pre.length) : readInt bytes pos n = some x := by
  rw [readInt, readAt_of_eq pre h hpos (length_ofInt n x).symm, Option.map_some, toInt_ofInt hx]

theorem readNat_of_eq {x : ℕ} (hx : x < 256 ^ n) (h : ∃ post, bytes = pre ++ (ofNat n x ++ post))
    (hpos : pos = pre.length) : readNat bytes pos n = some x := by
  rw [readNat, readAt_of_eq pre h hpos (length_ofNat n x).symm, Option.map_some, toNat_ofNat hx]

theorem readAt_eq_none (h : (bytes.length : ℤ) < pos + n) : readAt bytes pos n = none := by
  rw [readAt, if_neg]
  omega

theorem readInt_eq_none (h : (bytes.length : ℤ) < pos + n) : readInt bytes pos n = none := by
  rw [readInt, readAt_eq_none h, Option.map_none]

theorem le_of_readInt (h : readInt bytes pos n = some x) : 0 ≤ pos ∧ pos + n ≤ bytes.length := by
  rw [readInt, readAt] at h
  split at h
  · assumption
  · cases h

end K2Graph
