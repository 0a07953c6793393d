import Mathlib.Algebra.Group.Nat.Even

/-!
# Byte buffers

Numbers are written into a buffer as little-endian bytes of a fixed width, each into a slice of its own. A slice
that does not fit the bytes is a panic.
-/

namespace ByteBuffer

/-- `to_le_bytes` of a number with that many bytes. -/
def toLeBytes : ℕ → ℕ → List UInt8
  | 0, _ => []
  | width + 1, n => UInt8.ofNat n :: toLeBytes width (n / 256)

/-- `data[start..stop].copy_from_slice(src)`; `none` is the panic. -/
def copyInto (start stop : ℕ) (src data : List UInt8) : Option (List UInt8) :=
  if start ≤ stop ∧ stop ≤ data.length ∧ src.length = stop - start then
    some (data.take start ++ src ++ data.drop stop)
  else none

@[simp] theorem length_toLeBytes (width n : ℕ) : (toLeBytes width n).length = width := by
  induction width generalizing n with
  | zero => rfl
  | succ width ih => rw [toLeBytes, List.length_cons, ih]

/-- Numbers that fit the width are told apart by their bytes. -/
theorem toLeBytes_inj {width n m : ℕ} (hn : n < 256 ^ width) (hm : m < 256 ^ width) :
    toLeBytes width n = toLeBytes width m ↔ n = m := by
  refine ⟨fun h ↦ ?_, fun h ↦ by rw [h]⟩
  induction width generalizing n m with
  | zero =>
    rw [Nat.pow_zero, Nat.lt_one_iff] at hn hm
    rw [hn, hm]
  | succ width ih =>
    rw [toLeBytes, toLeBytes, List.cons.injEq] at h
    have hlow : n % 256 = m % 256 := by simpa using congrArg UInt8.toNat h.1
    have hsmall {k : ℕ} (hk : k < 256 ^ (width + 1)) : k / 256 < 256 ^ width := by
      rw [Nat.pow_succ] at hk
      exact Nat.div_lt_of_lt_mul (Nat.mul_comm _ _ ▸ hk)
    have hhigh : n / 256 = m / 256 := ih (hsmall hn) (hsmall hm) h.2
    omega

/-- Writing right behind what was written. -/
theorem copyInto_append {start stop : ℕ} {done src rest : List UInt8} (hstart : done.length = start)
    (hstop : start + src.length = stop) (hfits : src.length ≤ rest.length) :
    copyInto start stop src (done ++ rest) = some (done ++ src ++ rest.drop src.length) := by
  rw [copyInto, if_pos]
  · rw [← hstop, ← hstart, List.take_left, List.drop_append, List.drop_of_length_le (Nat.le_add_right _ _),
      List.nil_append, Nat.add_sub_cancel_left]
  · rw [List.length_append]
    omega

end ByteBuffer
