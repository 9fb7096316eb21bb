import MalakethTurbo.App.Store
import MalakethTurbo.Data.KeyFormat
import Mathlib.Data.List.Induction

/-!
# The keys of the tables

A height is stored as eight bytes from the last, a round as a signed word from the last,
`-1` if there is none, and the pair of the two one after the other.  Such bytes are not in
the order of the numbers they spell, so the store compares what it reads from them.

What is written reads back, and the bytes of two keys compare as the keys do, by height and
then by round with a missing round first (`UndecidedValueKey.compare_asBytes_iff`).  So the
range below `(retain, Nil)` is that of the heights below `retain`, and the first entry of a
table has its least key (`keys_faithful`).
-/

namespace MalakethTurbo

open Wire (Bytes)

/-! ## The bytes of a key -/

/-- `u64::from_le_bytes`. -/
def leNat : Bytes → Nat
  | [] => 0
  | x :: b => x.toNat + 256 * leNat b

/-- `i64::from_le_bytes`. -/
def leInt (b : Bytes) : Int := if leNat b < 2 ^ 63 then leNat b else leNat b - 2 ^ 64

/-- Read from the last byte, the bytes spell the same number as in reverse from the first. -/
theorem leNat_reverse (b : Bytes) :
    leNat b.reverse = b.foldl (fun n x => n * 256 + x.toNat) 0 := by
  induction b using List.reverseRecOn with
  | nil => rfl
  | append_singleton b x ih =>
      rw [List.reverse_append, List.reverse_singleton, List.singleton_append, leNat, ih,
        List.foldl_append, List.foldl_cons, List.foldl_nil]
      omega

theorem leNat_reverse_beBytes {width n : Nat} (h : n < 256 ^ width) :
    leNat (beBytes width n).reverse = n := by
  rw [leNat_reverse, foldl_beBytes h]

/-- `HeightKey::as_bytes`. -/
def HeightKey.asBytes (height : Height) : Bytes := (u64Bytes height.asU64).reverse

/-- `HeightKey::from_bytes`. -/
def HeightKey.fromBytes (data : Bytes) : Height := ⟨UInt64.ofNat (leNat data)⟩

/-- `HeightKey::compare`. -/
def HeightKey.compare (data₁ data₂ : Bytes) : Ordering := Ord.compare (leNat data₁) (leNat data₂)

/-- `RoundKey::as_bytes`. -/
def RoundKey.asBytes (round : Round) : Bytes := (i64Bytes round.asI64).reverse

/-- `Round::from` a signed number: a negative one is no round. -/
def Round.ofI64 (round : Int) : Round :=
  if round < 0 then .nil else .some (UInt32.ofNat round.toNat)

/-- `RoundKey::from_bytes`, on the bytes of keys.  A number above `u32::MAX`, on which
`Round::from` panics, is wrapped: no key has its bytes. -/
def RoundKey.fromBytes (data : Bytes) : Round := Round.ofI64 (leInt data)

/-- `RoundKey::compare`. -/
def RoundKey.compare (data₁ data₂ : Bytes) : Ordering := Ord.compare (leInt data₁) (leInt data₂)

theorem leNat_asBytes (height : Height) :
    leNat (HeightKey.asBytes height) = height.asU64.toNat := by
  have hlt := height.asU64.toNat_lt
  exact leNat_reverse_beBytes (by omega)

theorem leInt_asBytes (round : Round) : leInt (RoundKey.asBytes round) = round.asI64 := by
  obtain ⟨hlow, hhigh⟩ := round.asI64_range
  have hword : leNat (RoundKey.asBytes round) = (round.asI64 % 2 ^ 64).toNat :=
    leNat_reverse_beBytes (by omega)
  rw [leInt, hword]
  split_ifs with hsign <;> omega

/-! ## What is written reads back -/

theorem HeightKey.fromBytes_asBytes (height : Height) : fromBytes (asBytes height) = height := by
  rw [fromBytes, leNat_asBytes, UInt64.ofNat_toNat]

theorem Round.ofI64_asI64 (round : Round) : ofI64 round.asI64 = round := by
  cases round with
  | nil => rfl
  | some r =>
      have hsign : ¬ ((Round.some r).asI64 < 0) := by
        rw [asI64]
        omega
      have hword : UInt32.ofNat (Round.some r).asI64.toNat = r := UInt32.ofNat_toNat
      rw [ofI64, if_neg hsign, hword]

theorem RoundKey.fromBytes_asBytes (round : Round) : fromBytes (asBytes round) = round := by
  rw [fromBytes, leInt_asBytes, Round.ofI64_asI64]

/-! ## Pairs -/

namespace UndecidedValueKey

/-- The bytes of a pair of keys of fixed width, one after the other. -/
def asBytes (key : UndecidedValueKey) : Bytes :=
  HeightKey.asBytes key.height ++ RoundKey.asBytes key.round

/-- The pair that bytes spell. -/
def fromBytes (data : Bytes) : UndecidedValueKey :=
  ⟨HeightKey.fromBytes (data.take 8), RoundKey.fromBytes (data.drop 8)⟩

/-- Pairs are compared part by part. -/
def compare (data₁ data₂ : Bytes) : Ordering :=
  (HeightKey.compare (data₁.take 8) (data₂.take 8)).then
    (RoundKey.compare (data₁.drop 8) (data₂.drop 8))

theorem take_asBytes (key : UndecidedValueKey) :
    key.asBytes.take 8 = HeightKey.asBytes key.height :=
  List.take_left' (by simp [HeightKey.asBytes])

theorem drop_asBytes (key : UndecidedValueKey) :
    key.asBytes.drop 8 = RoundKey.asBytes key.round :=
  List.drop_left' (by simp [HeightKey.asBytes])

theorem fromBytes_asBytes (key : UndecidedValueKey) : fromBytes key.asBytes = key := by
  rw [fromBytes, take_asBytes, drop_asBytes, HeightKey.fromBytes_asBytes,
    RoundKey.fromBytes_asBytes]

/-- The bytes of two keys compare as their heights and then their rounds do. -/
theorem compare_asBytes (key key' : UndecidedValueKey) :
    compare key.asBytes key'.asBytes =
      (Ord.compare key.height.asU64.toNat key'.height.asU64.toNat).then
        (Ord.compare key.round.asI64 key'.round.asI64) := by
  rw [compare, take_asBytes, take_asBytes, drop_asBytes, drop_asBytes, HeightKey.compare,
    RoundKey.compare, leNat_asBytes, leNat_asBytes, leInt_asBytes, leInt_asBytes]

/-- **The order of the keys is that of their bytes.** -/
theorem compare_asBytes_iff (key key' : UndecidedValueKey) :
    compare key.asBytes key'.asBytes = .lt ↔ key < key' := by
  rw [compare_asBytes, Ordering.then_eq_lt, compare_lt_iff_lt, compare_eq_iff_eq,
    compare_lt_iff_lt, lt_iff, Height.lt_iff, Round.lt_iff]
  exact or_congr Iff.rfl (and_congr_left fun _ => Height.toNat_asU64_injective.eq_iff)

theorem compare_asBytes_eq_iff (key key' : UndecidedValueKey) :
    compare key.asBytes key'.asBytes = .eq ↔ key = key' := by
  rw [compare_asBytes, Ordering.then_eq_eq, compare_eq_iff_eq, compare_eq_iff_eq]
  constructor
  · rintro ⟨hheight, hround⟩
    exact order_injective (congrArg toLex (Prod.ext hheight hround))
  · rintro rfl
    exact ⟨rfl, rfl⟩

/-- The range that ends before `(retain, Nil)` is that of the heights below. -/
theorem compare_nil_iff (key : UndecidedValueKey) (retain : Height) :
    compare key.asBytes (asBytes ⟨retain, .nil⟩) = .lt ↔ key.height < retain := by
  rw [compare_asBytes_iff, lt_nil_iff]

/-- How the keys of the undecided tables are stored. -/
def format : KeyFormat UndecidedValueKey Bytes where
  asBytes := asBytes
  fromBytes := fromBytes
  compare := compare
  fromBytes_asBytes := fromBytes_asBytes
  compare_eq_lt_iff := compare_asBytes_iff
  compare_eq_eq_iff := compare_asBytes_eq_iff

end UndecidedValueKey

/-- How the keys of the decided tables are stored. -/
def HeightKey.format : KeyFormat Height Bytes where
  asBytes := asBytes
  fromBytes := fromBytes
  compare := compare
  fromBytes_asBytes := fromBytes_asBytes
  compare_eq_lt_iff height height' := by
    rw [compare, leNat_asBytes, leNat_asBytes, compare_lt_iff_lt, Height.lt_iff]
  compare_eq_eq_iff height height' := by
    rw [compare, leNat_asBytes, leNat_asBytes, compare_eq_iff_eq]
    exact Height.toNat_asU64_injective.eq_iff

/-! ## What the store reads -/

section Reads

variable (db : Db)

/-- The keys that are pruned are those of the range below the bytes of the bound. -/
theorem prune_fst_eq (retain : Height) :
    (db.prune retain).1 = HeightKey.format.keysOf (HeightKey.format.below
      (HeightKey.asBytes retain) (HeightKey.format.stored db.decidedValues)) :=
  (HeightKey.format.keysOf_below_stored retain db.decidedValues).symm

/-- The least height with a decision is read from the first entry. -/
theorem minDecidedValueHeight_eq :
    db.minDecidedValueHeight = (HeightKey.format.stored db.decidedValues).head?.map fun e =>
      HeightKey.fromBytes e.1 := by
  have hkeys := congrArg List.head? (HeightKey.format.keysOf_stored db.decidedValues)
  rw [KeyFormat.keysOf, List.head?_map, OrderedMap.keys, List.head?_map] at hkeys
  exact hkeys.symm

end Reads

/-! ## The order of the keys -/

/-- A missing round is before every round, and rounds are in the order of their numbers. -/
def Round.Before : Round → Round → Prop
  | _, .nil => False
  | .nil, .some _ => True
  | .some r, .some s => r < s

theorem Round.before_iff_lt (round round' : Round) : round.Before round' ↔ round < round' := by
  cases round' with
  | nil => exact iff_of_false id (not_lt.mpr (Round.nil_le round))
  | some s =>
      rw [Round.lt_iff]
      cases round with
      | nil =>
          rw [asI64, asI64]
          exact iff_of_true trivial (by omega)
      | some r =>
          rw [asI64, asI64, Int.ofNat_lt]
          exact UInt32.lt_iff_toNat_lt

/-- **The keys of the store are faithful and ordered.**  Heights, rounds and pairs are read
back from their bytes, and no two pairs have the same.  The bytes of pairs compare by height
and then by round, a missing round before all others.  So whatever keys a table has, the
range below `(retain, Nil)` reads as those with a height below `retain`, each once, and the
first entry of a table of heights as the least height. -/
theorem keys_faithful :
    (∀ height, HeightKey.fromBytes (HeightKey.asBytes height) = height) ∧
      (∀ round, RoundKey.fromBytes (RoundKey.asBytes round) = round) ∧
      (∀ key : UndecidedValueKey, .fromBytes key.asBytes = key) ∧
      Function.Injective UndecidedValueKey.asBytes ∧
      (∀ key key' : UndecidedValueKey,
        (UndecidedValueKey.compare key.asBytes key'.asBytes = .lt ↔
            key.height.asU64 < key'.height.asU64 ∨
              key.height = key'.height ∧ key.round.Before key'.round) ∧
          (UndecidedValueKey.compare key.asBytes key'.asBytes = .eq ↔ key = key')) ∧
      (∀ (keys : List UndecidedValueKey) (retain : Height),
        let selected := UndecidedValueKey.format.keysOf (UndecidedValueKey.format.below
          (UndecidedValueKey.asBytes ⟨retain, .nil⟩) (UndecidedValueKey.format.tableOf keys))
        selected.Nodup ∧
          ∀ key, key ∈ selected ↔ key ∈ keys ∧ key.height.asU64 < retain.asU64) ∧
      ∀ (heights : List Height) (least : Height),
        (HeightKey.format.tableOf heights).head?.map (fun e => HeightKey.fromBytes e.1) =
            some least ↔
          least ∈ heights ∧ ∀ height ∈ heights, least.asU64 ≤ height.asU64 := by
  refine ⟨HeightKey.fromBytes_asBytes, RoundKey.fromBytes_asBytes,
    UndecidedValueKey.fromBytes_asBytes, UndecidedValueKey.format.asBytes_injective,
    fun key key' => ⟨?_, UndecidedValueKey.compare_asBytes_eq_iff key key'⟩,
    fun keys retain => ?_, fun heights least => ?_⟩
  · rw [UndecidedValueKey.compare_asBytes_iff, UndecidedValueKey.lt_iff, Round.before_iff_lt,
      Height.lt_iff, UInt64.lt_iff_toNat_lt]
  · obtain ⟨hmem, hincreasing⟩ :=
      UndecidedValueKey.format.mem_below_tableOf keys ⟨retain, .nil⟩
    refine ⟨hincreasing.imp fun hlt => hlt.ne, fun key => (hmem key).trans ?_⟩
    rw [UndecidedValueKey.lt_nil_iff, Height.lt_iff, UInt64.lt_iff_toNat_lt]
  · refine (HeightKey.format.head?_tableOf heights least).trans ?_
    simp only [Height.le_iff, UInt64.le_iff_toNat_le]

end MalakethTurbo
