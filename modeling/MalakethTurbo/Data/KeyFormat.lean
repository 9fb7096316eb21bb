import MalakethTurbo.Data.OrderedMap

/-!
# Maps that are stored by the bytes of their keys

An embedded store writes each key as bytes, and finds its place among the others by
comparing bytes with bytes.  A `KeyFormat` is a way of writing keys under which nothing is
lost: what is written reads back, and bytes compare as the keys do.

The entries of a table are then those of the map of its keys, in the same order
(`put_stored`, `exists_tableOf`), and what the table finds below the bytes of a bound, or at
its beginning, is what the map finds (`mem_below_tableOf`, `head?_tableOf`).
-/

namespace MalakethTurbo

/-- How keys are written, read and compared. -/
structure KeyFormat (κ β : Type) [LinearOrder κ] where
  asBytes : κ → β
  fromBytes : β → κ
  compare : β → β → Ordering
  fromBytes_asBytes : ∀ k, fromBytes (asBytes k) = k
  compare_eq_lt_iff : ∀ k k', compare (asBytes k) (asBytes k') = .lt ↔ k < k'
  compare_eq_eq_iff : ∀ k k', compare (asBytes k) (asBytes k') = .eq ↔ k = k'

namespace KeyFormat

variable {κ β ν : Type} [LinearOrder κ] (F : KeyFormat κ β)

theorem asBytes_injective : Function.Injective F.asBytes := fun k k' h => by
  rw [← F.fromBytes_asBytes k, h, F.fromBytes_asBytes]

/-! ## A table -/

/-- Puts an entry where its bytes belong, replacing the entry that has them. -/
def put (b : β) (v : ν) : List (β × ν) → List (β × ν)
  | [] => [(b, v)]
  | e :: es =>
      match F.compare b e.1 with
      | .lt => (b, v) :: e :: es
      | .eq => (b, v) :: es
      | .gt => e :: put b v es

/-- The entries of the half-open range below the bytes of a bound. -/
def below (bound : β) (es : List (β × ν)) : List (β × ν) :=
  es.filter fun e => F.compare e.1 bound = .lt

/-- The keys of entries, as they are read. -/
def keysOf (es : List (β × ν)) : List κ := es.map fun e => F.fromBytes e.1

/-- The table with some keys, put into it one after the other. -/
def tableOf (ks : List κ) : List (β × Unit) :=
  ks.foldl (fun es k => F.put (F.asBytes k) () es) []

/-! ## The map of a table -/

/-- The entries of a map, as they are stored. -/
def stored (m : OrderedMap κ ν) : List (β × ν) := m.entries.map fun e => (F.asBytes e.1, e.2)

/-- The place of a key among bytes is its place among the keys. -/
theorem put_map (k : κ) (v : ν) (es : List (κ × ν)) :
    F.put (F.asBytes k) v (es.map fun e => (F.asBytes e.1, e.2)) =
      (OrderedMap.insertEntry k v es).map fun e => (F.asBytes e.1, e.2) := by
  induction es with
  | nil => rfl
  | cons e es ih =>
      rw [List.map_cons, put, OrderedMap.insertEntry]
      cases hcompare : F.compare (F.asBytes k) (F.asBytes e.1) with
      | lt => rw [if_pos ((F.compare_eq_lt_iff k e.1).mp hcompare), List.map_cons, List.map_cons]
      | eq =>
          have heq := (F.compare_eq_eq_iff k e.1).mp hcompare
          rw [if_neg (by rw [heq]; exact lt_irrefl _), if_pos heq, List.map_cons]
      | gt =>
          have hlt : ¬ k < e.1 := by
            rw [← F.compare_eq_lt_iff, hcompare]
            decide
          have hne : ¬ k = e.1 := by
            rw [← F.compare_eq_eq_iff, hcompare]
            decide
          rw [if_neg hlt, if_neg hne, List.map_cons, ih]

/-- **Putting an entry into the table is inserting it into the map.** -/
theorem put_stored (k : κ) (v : ν) (m : OrderedMap κ ν) :
    F.put (F.asBytes k) v (F.stored m) = F.stored (m.insert k v) :=
  F.put_map k v m.entries

/-- By induction on the keys. -/
theorem foldl_put_stored (ks : List κ) (m : OrderedMap κ Unit) :
    ks.foldl (fun es k => F.put (F.asBytes k) () es) (F.stored m) =
      F.stored (ks.foldl (fun m k => m.insert k ()) m) := by
  induction ks generalizing m with
  | nil => rfl
  | cons k ks ih => rw [List.foldl_cons, put_stored, ih, List.foldl_cons]

@[simp] theorem keysOf_stored (m : OrderedMap κ ν) : F.keysOf (F.stored m) = m.keys := by
  rw [keysOf, stored, List.map_map, OrderedMap.keys]
  exact List.map_congr_left fun e _ => F.fromBytes_asBytes e.1

/-- **The range below the bytes of a bound holds the keys below the bound.** -/
theorem keysOf_below_stored (bound : κ) (m : OrderedMap κ ν) :
    F.keysOf (F.below (F.asBytes bound) (F.stored m)) = m.rangeTo bound := by
  have hbelow : F.below (F.asBytes bound) (F.stored m) =
      (m.entries.filter fun e => e.1 < bound).map fun e => (F.asBytes e.1, e.2) := by
    rw [below, stored, List.filter_map]
    refine congrArg _ (List.filter_congr fun e _ => ?_)
    exact decide_eq_decide.mpr (F.compare_eq_lt_iff e.1 bound)
  rw [hbelow, keysOf, List.map_map, OrderedMap.rangeTo, OrderedMap.keys, List.filter_map]
  exact List.map_congr_left fun e _ => F.fromBytes_asBytes e.1

/-! ## Sets of keys -/

/-- The map with some keys. -/
theorem exists_tableOf (ks : List κ) :
    ∃ m : OrderedMap κ Unit, F.tableOf ks = F.stored m ∧ ∀ k, k ∈ m.keys ↔ k ∈ ks := by
  refine ⟨ks.foldl (fun m k => m.insert k ()) OrderedMap.empty,
    F.foldl_put_stored ks OrderedMap.empty, fun k => ?_⟩
  have hfold : ∀ m : OrderedMap κ Unit,
      k ∈ (ks.foldl (fun m k => m.insert k ()) m).keys ↔ k ∈ m.keys ∨ k ∈ ks := by
    induction ks with
    | nil => exact fun m => (or_iff_left List.not_mem_nil).symm
    | cons k' ks ih =>
        intro m
        rw [List.foldl_cons, ih, List.mem_cons, OrderedMap.mem_keys_iff, OrderedMap.get?_insert,
          OrderedMap.mem_keys_iff]
        by_cases hk : k = k' <;> simp [hk]
  rw [hfold, OrderedMap.mem_keys_iff, OrderedMap.get?_empty]
  simp

/-- **Every key below a bound, and no other, is read from the range below its bytes**, in
increasing order. -/
theorem mem_below_tableOf (ks : List κ) (bound : κ) :
    (∀ k, k ∈ F.keysOf (F.below (F.asBytes bound) (F.tableOf ks)) ↔ k ∈ ks ∧ k < bound) ∧
      (F.keysOf (F.below (F.asBytes bound) (F.tableOf ks))).Pairwise (· < ·) := by
  obtain ⟨m, htable, hkeys⟩ := F.exists_tableOf ks
  rw [htable, keysOf_below_stored]
  refine ⟨fun k => ?_, m.keys_increasing.filter _⟩
  rw [OrderedMap.mem_rangeTo_iff, ← OrderedMap.mem_keys_iff, hkeys, and_comm]

/-- **The first entry has the least key.** -/
theorem head?_tableOf (ks : List κ) (k : κ) :
    (F.tableOf ks).head?.map (fun e => F.fromBytes e.1) = some k ↔
      k ∈ ks ∧ ∀ k' ∈ ks, k ≤ k' := by
  obtain ⟨m, htable, hkeys⟩ := F.exists_tableOf ks
  have hhead : (F.tableOf ks).head?.map (fun e => F.fromBytes e.1) = m.keys.head? := by
    rw [htable, ← keysOf_stored, keysOf, List.head?_map]
  rw [hhead]
  have hincreasing := m.keys_increasing
  simp only [← hkeys]
  cases hlist : m.keys with
  | nil => simp
  | cons least rest =>
      rw [hlist] at hincreasing
      rw [List.head?_cons, Option.some_inj]
      have hleast := (List.pairwise_cons.mp hincreasing).1
      constructor
      · rintro rfl
        refine ⟨List.mem_cons_self, List.forall_mem_cons.mpr ⟨le_refl _, fun k hk => ?_⟩⟩
        exact (hleast k hk).le
      · rintro ⟨hmem, hall⟩
        rcases List.mem_cons.mp hmem with rfl | hmem
        · rfl
        · exact absurd (hleast k hmem) (not_lt.mpr (hall least List.mem_cons_self))

end KeyFormat
end MalakethTurbo
