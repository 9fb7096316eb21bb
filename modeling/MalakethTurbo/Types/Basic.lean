import MalakethTurbo.Wire.Varint
import Mathlib.Algebra.Order.Ring.Int
import Mathlib.Data.List.Basic

/-!
# Calls, byte strings and machine words

A call of the program ends in one of three ways: with a value, with an error that
the caller sees, or with a panic that takes the task down.  `Call` keeps the last
two apart, since a panic inside a blocking task and an error of the same task do
different things to the node.

The words the program writes are big endian, and a signed word is written through
its two's complement.  `beBytes_injective` is what the signature hash rests on: a
word of a known width is read off its bytes.
-/

namespace MalakethTurbo

open Wire (Bytes)

/-! ## How a call ends without a value -/

/-- A call ends without a value by returning an error or by panicking. -/
inductive Stop (ε : Type) where
  | err : ε → Stop ε
  | panic : Stop ε
  deriving DecidableEq

/-- A call that may fail or panic. -/
abbrev Call (ε α : Type) := Except (Stop ε) α

variable {ε α : Type}

/-- `Option::unwrap` and `Option::expect`. -/
def unwrap : Option α → Call ε α
  | some a => .ok a
  | none => .error .panic

/-- `Option::ok_or_else`. -/
def okOr (e : ε) : Option α → Call ε α
  | some a => .ok a
  | none => .error (.err e)

/-- `assert!`. -/
def assert (p : Prop) [Decidable p] : Call ε Unit :=
  if p then .ok () else .error .panic

/-- A checked `+` of `u64` and of `usize`, which has 64 bits. -/
def checkedAdd (a b : Nat) : Call ε Nat :=
  if a + b < 2 ^ 64 then .ok (a + b) else .error .panic

/-- A checked `-`. -/
def checkedSub (a b : Nat) : Call ε Nat :=
  if b ≤ a then .ok (a - b) else .error .panic

/-- A checked `%`. -/
def checkedRem (a b : Nat) : Call ε Nat := if b = 0 then .error .panic else .ok (a % b)

/-- `Iterator::sum`, each addition checked. -/
def checkedSum (l : List Nat) : Call ε Nat := l.foldlM checkedAdd 0

@[simp] theorem unwrap_some (a : α) : (unwrap (some a) : Call ε α) = .ok a := rfl

@[simp] theorem unwrap_none : (unwrap none : Call ε α) = .error .panic := rfl

@[simp] theorem okOr_some (e : ε) (a : α) : okOr e (some a) = .ok a := rfl

@[simp] theorem okOr_none (e : ε) : (okOr e none : Call ε α) = .error (.err e) := rfl

/-- What must be there is read from what is. -/
theorem okOr_eq_ok {e : ε} {o : Option α} {a : α} : okOr e o = .ok a ↔ o = some a := by
  cases o with
  | none => simp
  | some b => simp

theorem unwrap_eq_ok {o : Option α} {a : α} : (unwrap o : Call ε α) = .ok a ↔ o = some a := by
  cases o with
  | none => simp
  | some b => simp

theorem assert_of {p : Prop} [Decidable p] (h : p) : (assert p : Call ε Unit) = .ok () :=
  if_pos h

theorem assert_of_not {p : Prop} [Decidable p] (h : ¬ p) :
    (assert p : Call ε Unit) = .error .panic :=
  if_neg h

@[simp] theorem call_ok_bind {β : Type} (a : α) (f : α → Call ε β) :
    ((.ok a : Call ε α) >>= f) = f a := rfl

@[simp] theorem call_error_bind {β : Type} (e : Stop ε) (f : α → Call ε β) :
    ((.error e : Call ε α) >>= f) = .error e := rfl

@[simp] theorem call_pure (a : α) : (pure a : Call ε α) = .ok a := rfl

/-- A sequence of two calls returns a value only through both. -/
theorem call_bind_eq_ok {β : Type} {x : Call ε α} {f : α → Call ε β} {b : β} :
    (x >>= f) = .ok b ↔ ∃ a, x = .ok a ∧ f a = .ok b := by
  cases x with
  | error e => simp
  | ok a => simp

theorem foldlM_checkedAdd (l : List Nat) {n : Nat} (h : n < 2 ^ 64) :
    l.foldlM checkedAdd n =
      (if n + l.sum < 2 ^ 64 then .ok (n + l.sum) else .error .panic : Call ε Nat) := by
  induction l generalizing n with
  | nil =>
      rw [List.sum_nil, Nat.add_zero, if_pos h]
      rfl
  | cons m l ih =>
      rw [List.foldlM_cons, List.sum_cons, checkedAdd]
      by_cases hnext : n + m < 2 ^ 64
      · rw [if_pos hnext, call_ok_bind, ih hnext, Nat.add_assoc]
      · have hover : ¬ n + (m + l.sum) < 2 ^ 64 := by omega
        rw [if_neg hnext, if_neg hover, call_error_bind]

/-- **A sum that is checked at each step** is the sum, or it panics if that is too large. -/
theorem checkedSum_eq (l : List Nat) :
    checkedSum l = (if l.sum < 2 ^ 64 then .ok l.sum else .error .panic : Call ε Nat) := by
  rw [checkedSum, foldlM_checkedAdd l (by decide), Nat.zero_add]

/-! ## Byte strings of a fixed length -/

/-- Byte strings are compared as the numbers they consist of. -/
theorem map_toNat_injective : Function.Injective (List.map UInt8.toNat) :=
  List.map_injective_iff.mpr fun _ _ h => UInt8.toNat_inj.mp h

/-- `[u8; n]`. -/
def FixedBytes (n : Nat) := { b : Bytes // b.length = n }

namespace FixedBytes

variable {n : Nat}

instance : DecidableEq (FixedBytes n) :=
  inferInstanceAs (DecidableEq { b : Bytes // b.length = n })

/-- `<[u8; n]>::try_from`. -/
def tryFrom (n : Nat) (b : Bytes) : Option (FixedBytes n) :=
  if h : b.length = n then some ⟨b, h⟩ else none

@[simp] theorem tryFrom_val (b : FixedBytes n) : tryFrom n b.val = some b :=
  dif_pos b.property

theorem tryFrom_eq_some {b : Bytes} {x : FixedBytes n} : tryFrom n b = some x ↔ b = x.val := by
  constructor
  · intro h
    by_cases hlen : b.length = n
    · rw [tryFrom, dif_pos hlen] at h
      exact congrArg Subtype.val (Option.some.inj h)
    · rw [tryFrom, dif_neg hlen] at h
      cases h
  · rintro rfl
    exact tryFrom_val x

theorem val_injective : Function.Injective (Subtype.val : FixedBytes n → Bytes) :=
  Subtype.val_injective

/-- The first `n` bytes of a string, filled up with zeros. -/
def ofBytes (n : Nat) (b : Bytes) : FixedBytes n :=
  ⟨(b ++ List.replicate n 0).take n, by
    rw [List.length_take, List.length_append, List.length_replicate]
    omega⟩

theorem val_ofBytes {b : Bytes} (h : b.length ≤ n) :
    (ofBytes n b).val = b ++ List.replicate (n - b.length) 0 := by
  show (b ++ List.replicate n 0).take n = _
  rw [List.take_append, List.take_of_length_le h, List.take_replicate,
    Nat.min_eq_left (Nat.sub_le n b.length)]

end FixedBytes

/-! ## Big-endian words -/

/-- `to_be_bytes` of a word of `width` bytes. -/
def beBytes : Nat → Nat → Bytes
  | 0, _ => []
  | width + 1, n => beBytes width (n / 256) ++ [UInt8.ofNat n]

@[simp] theorem length_beBytes (width n : Nat) : (beBytes width n).length = width := by
  induction width generalizing n with
  | zero => rfl
  | succ width ih => rw [beBytes, List.length_append, ih, List.length_singleton]

/-- The bytes of a word, read from the first to the last, spell the word. -/
theorem foldl_beBytes {width n : Nat} (h : n < 256 ^ width) :
    (beBytes width n).foldl (fun n x => n * 256 + x.toNat) 0 = n := by
  induction width generalizing n with
  | zero =>
      rw [Nat.pow_zero] at h
      have hzero : n = 0 := by omega
      rw [hzero]
      rfl
  | succ width ih =>
      rw [Nat.pow_succ] at h
      have hbyte : (UInt8.ofNat n).toNat = n % 256 := by simp
      rw [beBytes, List.foldl_append, ih (by omega), List.foldl_cons, List.foldl_nil, hbyte]
      omega

/-- **A word is read off its bytes.** -/
theorem beBytes_injective {width n m : Nat} (hn : n < 256 ^ width) (hm : m < 256 ^ width)
    (h : beBytes width n = beBytes width m) : n = m := by
  rw [← foldl_beBytes hn, h, foldl_beBytes hm]

/-- `u64::to_be_bytes`. -/
def u64Bytes (n : UInt64) : Bytes := beBytes 8 n.toNat

/-- `u32::to_be_bytes`. -/
def u32Bytes (n : UInt32) : Bytes := beBytes 4 n.toNat

/-- `i64::to_be_bytes`: the two's complement of the number. -/
def i64Bytes (i : Int) : Bytes := beBytes 8 (i % 2 ^ 64).toNat

@[simp] theorem length_u64Bytes (n : UInt64) : (u64Bytes n).length = 8 := length_beBytes 8 _

@[simp] theorem length_u32Bytes (n : UInt32) : (u32Bytes n).length = 4 := length_beBytes 4 _

@[simp] theorem length_i64Bytes (i : Int) : (i64Bytes i).length = 8 := length_beBytes 8 _

theorem u64Bytes_injective : Function.Injective u64Bytes := by
  intro n m h
  have hn := n.toNat_lt
  have hm := m.toNat_lt
  exact UInt64.toNat_inj.mp (beBytes_injective (by omega) (by omega) h)

theorem u32Bytes_injective : Function.Injective u32Bytes := by
  intro n m h
  have hn := n.toNat_lt
  have hm := m.toNat_lt
  exact UInt32.toNat_inj.mp (beBytes_injective (by omega) (by omega) h)

theorem i64Bytes_inj {i j : Int} (hi : -1 ≤ i ∧ i < 2 ^ 63) (hj : -1 ≤ j ∧ j < 2 ^ 63)
    (h : i64Bytes i = i64Bytes j) : i = j := by
  have hij : (i % 2 ^ 64).toNat = (j % 2 ^ 64).toNat :=
    beBytes_injective (by omega) (by omega) h
  omega

end MalakethTurbo
