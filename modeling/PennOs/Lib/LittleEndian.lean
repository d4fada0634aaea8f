import Mathlib.Algebra.Group.Int.Defs
import Mathlib.Algebra.Group.Nat.Defs
import Mathlib.Data.Nat.Basic

set_option autoImplicit false

namespace LittleEndian

/-- The number whose `width` least significant bytes are `bytes 0`, `bytes 1`, … -/
def value (bytes : Nat → UInt8) : Nat → Nat
  | 0 => 0
  | width + 1 => (bytes 0).toNat + 256 * value (fun i => bytes (i + 1)) width

/-- Byte `i` of a number, least significant first. -/
def byte (n i : Nat) : UInt8 := UInt8.ofNat (n / 256 ^ i)

theorem value_lt (bytes : Nat → UInt8) (width : Nat) : value bytes width < 256 ^ width := by
  induction width generalizing bytes with
  | zero => simp [value]
  | succ width ih =>
      have low := (bytes 0).toNat_lt
      have high := ih (fun i => bytes (i + 1))
      simp only [value, Nat.pow_succ]
      omega

theorem value_congr {left right : Nat → UInt8} {width : Nat}
    (same : ∀ i < width, left i = right i) : value left width = value right width := by
  induction width generalizing left right with
  | zero => rfl
  | succ width ih =>
      simp only [value]
      rw [same 0 (by omega), ih (fun i below => same (i + 1) (by omega))]

theorem byte_succ (n i : Nat) : byte n (i + 1) = byte (n / 256) i := by
  simp only [byte, Nat.pow_succ, Nat.div_div_eq_div_mul, Nat.mul_comm]

theorem value_byte (n width : Nat) : value (byte n) width = n % 256 ^ width := by
  induction width generalizing n with
  | zero => simp [value, Nat.mod_one]
  | succ width ih =>
      have tail : (fun i => byte n (i + 1)) = byte (n / 256) := by
        funext i
        exact byte_succ n i
      have head : (byte n 0).toNat = n % 256 := by simp [byte]
      simp only [value, tail, ih, head]
      rw [Nat.pow_succ, Nat.mul_comm (256 ^ width) 256, Nat.mod_mul]

theorem value_byte_of_lt {n width : Nat} (bound : n < 256 ^ width) :
    value (byte n) width = n := by
  rw [value_byte, Nat.mod_eq_of_lt bound]

/-- Equal values of one width have equal bytes. -/
theorem value_injective {left right : Nat → UInt8} {width : Nat}
    (same : value left width = value right width) : ∀ i < width, left i = right i := by
  induction width generalizing left right with
  | zero => omega
  | succ width ih =>
      have low := (left 0).toNat_lt
      have low' := (right 0).toNat_lt
      simp only [value] at same
      have head : (left 0).toNat = (right 0).toNat := by omega
      have tail : value (fun i => left (i + 1)) width = value (fun i => right (i + 1)) width := by
        omega
      have rest := ih tail
      intro i below
      cases i with
      | zero => exact UInt8.toNat_inj.mp head
      | succ i => exact rest i (by omega)

end LittleEndian
