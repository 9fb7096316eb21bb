import Mathlib.Tactic.Common

/-!
# Base-128 varints

A number is written seven bits at a time, low bits first, and every byte but the
last carries the continuation bit.  The fact every consumer of the format needs is
`decodeVarint_encodeVarint`: reading what was written gives the number back and
leaves the bytes behind it untouched.

The numbers are unbounded.  A machine word is written through its value, and a
length prefix through the length of the list, so no side condition on sizes is
ever read.
-/

namespace MalakethTurbo
namespace Wire

/-- A byte string. -/
abbrev Bytes := List UInt8

theorem toNat_ofNat_of_lt {n : Nat} (h : n < 256) : (UInt8.ofNat n).toNat = n := by
  rw [UInt8.toNat_ofNat', Nat.mod_eq_of_lt (by simpa using h)]

/-- The varint of `n`, with `fuel` bytes at most. -/
def putVarint : Nat → Nat → Bytes
  | 0, _ => []
  | fuel + 1, n =>
      if n < 128 then [UInt8.ofNat n]
      else UInt8.ofNat (n % 128 + 128) :: putVarint fuel (n / 128)

/-- The varint of `n`.  A number needs no more bytes than its own value plus
one, which is what the recursion is on. -/
def encodeVarint (n : Nat) : Bytes := putVarint (n + 1) n

/-- Reads one varint off the front, and what is behind it. -/
def decodeVarint : Bytes → Option (Nat × Bytes)
  | [] => none
  | b :: bs =>
      if b.toNat < 128 then some (b.toNat, bs)
      else
        match decodeVarint bs with
        | some (n, rest) => some (b.toNat - 128 + 128 * n, rest)
        | none => none

theorem putVarint_ne_nil {fuel n : Nat} (h : 0 < fuel) : putVarint fuel n ≠ [] := by
  obtain ⟨f, rfl⟩ := Nat.exists_eq_succ_of_ne_zero (Nat.ne_of_gt h)
  rw [putVarint]
  split <;> simp

theorem encodeVarint_ne_nil (n : Nat) : encodeVarint n ≠ [] :=
  putVarint_ne_nil (Nat.succ_pos n)

/-- Reading undoes writing as soon as the fuel covers the number. -/
theorem decodeVarint_putVarint (fuel n : Nat) (h : n < fuel) (rest : Bytes) :
    decodeVarint (putVarint fuel n ++ rest) = some (n, rest) := by
  induction fuel generalizing n with
  | zero => exact absurd h (Nat.not_lt_zero n)
  | succ fuel ih =>
      rw [putVarint]
      by_cases hn : n < 128
      · rw [if_pos hn, List.singleton_append, decodeVarint, toNat_ofNat_of_lt (by omega),
          if_pos hn]
      · have hbyte : (UInt8.ofNat (n % 128 + 128)).toNat = n % 128 + 128 :=
          toNat_ofNat_of_lt (by omega)
        have hrec := ih (n / 128) (by omega)
        rw [if_neg hn, List.cons_append, decodeVarint, hbyte, if_neg (by omega), hrec]
        have hsplit : n % 128 + 128 - 128 + 128 * (n / 128) = n := by omega
        simp only [hsplit]

/-- **Reading undoes writing.** -/
@[simp] theorem decodeVarint_encodeVarint (n : Nat) (rest : Bytes) :
    decodeVarint (encodeVarint n ++ rest) = some (n, rest) :=
  decodeVarint_putVarint (n + 1) n (Nat.lt_succ_self n) rest

end Wire
end MalakethTurbo
