import Mathlib.Data.Nat.Log
import Mathlib.Algebra.Order.BigOperators.Group.List
import Mathlib.Tactic.Ring
import Mathlib.Tactic.Linarith

set_option autoImplicit false

/-! # Integers in SQLite

Columns are signed 64-bit. `SUM` of a column fails when it leaves their range; `+` goes on in double
precision, which near the end of the range is exact to 1024 (`add_overflow_ge`). Doubles of this
size are integers, so a value is an integer in both cases.
-/

namespace Thegn.SqlInt

def inRange (n : Int) : Bool := -2 ^ 63 ≤ n && n < 2 ^ 63

/-- Rust's `as i64` of an unsigned 64-bit number. -/
def asI64 (n : UInt64) : Int := if n.toNat < 2 ^ 63 then n.toNat else n.toNat - 2 ^ 64

/-- Rust's `as u64` of a column. -/
def asU64 (n : Int) : Nat := (n % 2 ^ 64).toNat

/-- `SUM` over a column, row by row; no value when it overflows. -/
def sumFrom (acc : Int) : List Int → Option Int
  | [] => some acc
  | n :: ns => if inRange (acc + n) then sumFrom (acc + n) ns else none

/-- `COALESCE(SUM(…), 0)`. -/
def sum (ns : List Int) : Option Int := sumFrom 0 ns

/-- A natural number rounded to 53 significant bits, half to even. -/
def roundBits (n : Nat) : Nat :=
  let k := Nat.log 2 n - 52
  let q := n / 2 ^ k
  let r := n % 2 ^ k
  if 2 * r > 2 ^ k ∨ 2 * r = 2 ^ k ∧ q % 2 = 1 then (q + 1) * 2 ^ k else q * 2 ^ k

def toReal (n : Int) : Int := if n < 0 then -(roundBits n.natAbs : Int) else roundBits n.natAbs

/-- `+`. -/
def add (a b : Int) : Int := if inRange (a + b) then a + b else toReal (toReal a + toReal b)

theorem asI64_of_lt {n : UInt64} (h : n.toNat < 2 ^ 63) : asI64 n = n.toNat := if_pos h

theorem asU64_of_nonneg {n : Int} (h : 0 ≤ n) (h' : n < 2 ^ 63) : (asU64 n : Int) = n := by
  unfold asU64
  omega

theorem inRange_iff {n : Int} : inRange n = true ↔ -2 ^ 63 ≤ n ∧ n < 2 ^ 63 := by
  rw [inRange, Bool.and_eq_true, decide_eq_true_iff, decide_eq_true_iff]

/-- A sum of numbers that are not negative is exact. -/
theorem sumFrom_of_nonneg {ns : List Int} {acc : Int} (hacc : 0 ≤ acc) (hns : ∀ n ∈ ns, 0 ≤ n)
    (hsum : acc + ns.sum < 2 ^ 63) : sumFrom acc ns = some (acc + ns.sum) := by
  induction ns generalizing acc with
  | nil => rw [sumFrom, List.sum_nil, add_zero]
  | cons n ns ih =>
    have hn := hns n (.head _)
    have hrest : 0 ≤ ns.sum := List.sum_nonneg fun m hm => hns m (.tail _ hm)
    rw [List.sum_cons] at hsum ⊢
    have hin : inRange (acc + n) = true := by
      rw [inRange_iff]
      omega
    rw [sumFrom, if_pos hin, ih (by omega) (fun m hm => hns m (.tail _ hm)) (by omega), add_assoc]

theorem log_lt_of_lt {n e : Nat} (hn : n < 2 ^ e) (he : 0 < e) : Nat.log 2 n < e := by
  by_cases hz : n = 0
  · rw [hz, Nat.log_zero_right]
    exact he
  · exact Nat.log_lt_of_lt_pow hz hn

theorem roundBits_ge_floor (n : Nat) :
    n / 2 ^ (Nat.log 2 n - 52) * 2 ^ (Nat.log 2 n - 52) ≤ roundBits n := by
  unfold roundBits
  dsimp only
  split_ifs
  · exact Nat.mul_le_mul_right _ (Nat.le_succ _)
  · exact le_rfl

/-- Rounding goes down by at most half a unit. -/
theorem le_roundBits_add (n : Nat) : 2 * n ≤ 2 * roundBits n + 2 ^ (Nat.log 2 n - 52) := by
  have hdiv := Nat.div_add_mod n (2 ^ (Nat.log 2 n - 52))
  have hlt := Nat.mod_lt n (Nat.two_pow_pos (Nat.log 2 n - 52))
  rw [mul_comm] at hdiv
  unfold roundBits
  dsimp only
  generalize 2 ^ (Nat.log 2 n - 52) = u at hdiv hlt ⊢
  split_ifs with h
  · rw [add_mul]
    omega
  · rw [not_or] at h
    omega

theorem roundBits_le_add (n : Nat) : roundBits n ≤ n + 2 ^ (Nat.log 2 n - 52) := by
  have hdiv := Nat.div_add_mod n (2 ^ (Nat.log 2 n - 52))
  rw [mul_comm] at hdiv
  unfold roundBits
  dsimp only
  generalize 2 ^ (Nat.log 2 n - 52) = u at hdiv ⊢
  split_ifs
  · rw [add_mul]
    omega
  · omega

/-- The unit of the last place, for numbers of up to 63 bits. -/
theorem unit_le {n : Nat} (hn : n < 2 ^ 63) : 2 ^ (Nat.log 2 n - 52) ≤ 1024 := by
  have hlog := log_lt_of_lt hn (by decide)
  calc 2 ^ (Nat.log 2 n - 52) ≤ 2 ^ 10 := Nat.pow_le_pow_right (by decide) (by omega)
    _ = 1024 := by decide

/-- Numbers from `2 ^ 63 - 1024` on do not round below it. -/
theorem roundBits_ge {n : Nat} (h : 2 ^ 63 - 1024 ≤ n) (h' : n < 2 ^ 65) :
    2 ^ 63 - 1024 ≤ roundBits n := by
  have hlog : 62 ≤ Nat.log 2 n := by
    have hpow : 2 ^ 62 ≤ n := by omega
    exact (Nat.le_log_iff_pow_le (by decide) (by omega)).mpr hpow
  have hlog' := log_lt_of_lt h' (by decide)
  have hfloor := roundBits_ge_floor n
  have hcases : Nat.log 2 n = 62 ∨ Nat.log 2 n = 63 ∨ Nat.log 2 n = 64 := by omega
  rcases hcases with hl | hl | hl
  · rw [hl, show 2 ^ (62 - 52) = 1024 from rfl] at hfloor
    omega
  · rw [hl, show 2 ^ (63 - 52) = 2048 from rfl] at hfloor
    have hpow : 2 ^ 63 ≤ n := by
      have h63 := Nat.pow_log_le_self 2 (show n ≠ 0 by omega)
      rwa [hl] at h63
    omega
  · rw [hl, show 2 ^ (64 - 52) = 4096 from rfl] at hfloor
    have hpow : 2 ^ 64 ≤ n := by
      have h64 := Nat.pow_log_le_self 2 (show n ≠ 0 by omega)
      rwa [hl] at h64
    omega

theorem toReal_natCast (n : Nat) : toReal n = roundBits n := by
  unfold toReal
  rw [if_neg (by omega), Int.natAbs_natCast]

/-- **A sum that overflows is not far below the end of the range.** -/
theorem add_overflow_ge {a b : Nat} (ha : a < 2 ^ 63) (hb : b < 2 ^ 63) (h : 2 ^ 63 ≤ a + b) :
    2 ^ 63 - 1024 ≤ add a b := by
  have hout : inRange ((a : Int) + b) = false := by
    rw [← Bool.not_eq_true, inRange_iff]
    omega
  rw [add, hout, if_neg Bool.false_ne_true, toReal_natCast, toReal_natCast, ← Nat.cast_add,
    toReal_natCast]
  have hda := le_roundBits_add a
  have hdb := le_roundBits_add b
  have hua := unit_le ha
  have hub := unit_le hb
  have hma := roundBits_le_add a
  have hmb := roundBits_le_add b
  have hround : 2 ^ 63 - 1024 ≤ roundBits (roundBits a + roundBits b) := by
    apply roundBits_ge
    · omega
    · omega
  omega

theorem add_of_lt {a b : Nat} (h : a + b < 2 ^ 63) : add a b = a + b := by
  rw [add, if_pos]
  rw [inRange_iff]
  omega

end Thegn.SqlInt
