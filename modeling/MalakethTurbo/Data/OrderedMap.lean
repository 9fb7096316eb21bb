import Mathlib.Data.List.Perm.Subperm
import Mathlib.Order.Lattice
import Mathlib.Tactic.Common

/-!
# Ordered maps

A finite map with its entries in increasing order of the keys, as an embedded
key-value store or a B-tree keeps them.  That the keys increase is a field of
the structure, so no map is out of order and no key occurs twice.

A map is only ever used through `get?`: each operation has one lemma that says
what `get?` reads afterwards, at every key.  `removeBelow` is the operation a
store prunes with, and `get?_removeBelow` says it in one line: the keys below the
bound are gone and no other entry has changed.
-/

namespace MalakethTurbo

/-- A finite map whose entries are listed in increasing order of the keys. -/
structure OrderedMap (κ ν : Type) [LinearOrder κ] where
  entries : List (κ × ν)
  increasing : entries.Pairwise fun e e' => e.1 < e'.1

namespace OrderedMap

variable {κ ν : Type} [LinearOrder κ]

/-- The first entry with a key. -/
def lookup (k : κ) : List (κ × ν) → Option ν
  | [] => none
  | e :: es => if k = e.1 then some e.2 else lookup k es

/-- Puts an entry where its key belongs, replacing the entry that has it. -/
def insertEntry (k : κ) (v : ν) : List (κ × ν) → List (κ × ν)
  | [] => [(k, v)]
  | e :: es =>
      if k < e.1 then (k, v) :: e :: es
      else if k = e.1 then (k, v) :: es
      else e :: insertEntry k v es

theorem fst_of_mem_insertEntry {k : κ} {v : ν} {es : List (κ × ν)} {e : κ × ν}
    (h : e ∈ insertEntry k v es) : e.1 = k ∨ e ∈ es := by
  induction es with
  | nil =>
      rw [insertEntry, List.mem_singleton] at h
      exact Or.inl (by rw [h])
  | cons e' es ih =>
      rw [insertEntry] at h
      split_ifs at h with hlt heq
      · rcases List.mem_cons.mp h with rfl | h
        · exact Or.inl rfl
        · exact Or.inr h
      · rcases List.mem_cons.mp h with rfl | h
        · exact Or.inl rfl
        · exact Or.inr (List.mem_cons_of_mem _ h)
      · rcases List.mem_cons.mp h with rfl | h
        · exact Or.inr List.mem_cons_self
        · rcases ih h with h | h
          · exact Or.inl h
          · exact Or.inr (List.mem_cons_of_mem _ h)

theorem pairwise_insertEntry (k : κ) (v : ν) {es : List (κ × ν)}
    (h : es.Pairwise fun e e' => e.1 < e'.1) :
    (insertEntry k v es).Pairwise fun e e' => e.1 < e'.1 := by
  induction es with
  | nil => exact List.pairwise_singleton _ _
  | cons e es ih =>
      obtain ⟨hhead, htail⟩ := List.pairwise_cons.mp h
      rw [insertEntry]
      split_ifs with hlt heq
      · refine List.pairwise_cons.mpr ⟨fun e' he' => ?_, h⟩
        rcases List.mem_cons.mp he' with rfl | he'
        · exact hlt
        · exact lt_trans hlt (hhead e' he')
      · refine List.pairwise_cons.mpr ⟨fun e' he' => ?_, htail⟩
        rw [show ((k, v) : κ × ν).1 = e.1 from heq]
        exact hhead e' he'
      · refine List.pairwise_cons.mpr ⟨fun e' he' => ?_, ih htail⟩
        rcases fst_of_mem_insertEntry he' with hk | he'
        · rw [hk]
          exact lt_of_le_of_ne (not_lt.mp hlt) (Ne.symm heq)
        · exact hhead e' he'

/-- The map with no entry. -/
def empty : OrderedMap κ ν := ⟨[], List.Pairwise.nil⟩

def get? (m : OrderedMap κ ν) (k : κ) : Option ν := lookup k m.entries

def insert (m : OrderedMap κ ν) (k : κ) (v : ν) : OrderedMap κ ν :=
  ⟨insertEntry k v m.entries, pairwise_insertEntry k v m.increasing⟩

def remove (m : OrderedMap κ ν) (k : κ) : OrderedMap κ ν :=
  ⟨m.entries.filter fun e => e.1 ≠ k, m.increasing.filter _⟩

/-- The keys, in increasing order. -/
def keys (m : OrderedMap κ ν) : List κ := m.entries.map Prod.fst

/-- The keys of the half-open range below a bound, in increasing order. -/
def rangeTo (m : OrderedMap κ ν) (bound : κ) : List κ := m.keys.filter (· < bound)

/-- The entry with the least key. -/
def first? (m : OrderedMap κ ν) : Option (κ × ν) := m.entries.head?

/-- Removes keys one after the other. -/
def removeAll (m : OrderedMap κ ν) (ks : List κ) : OrderedMap κ ν := ks.foldl remove m

/-- Removes every key below a bound. -/
def removeBelow (m : OrderedMap κ ν) (bound : κ) : OrderedMap κ ν :=
  m.removeAll (m.rangeTo bound)

/-! ## What `get?` reads after each operation -/

@[simp] theorem get?_empty (k : κ) : (empty : OrderedMap κ ν).get? k = none := rfl

theorem lookup_insertEntry (k k' : κ) (v : ν) (es : List (κ × ν)) :
    lookup k' (insertEntry k v es) = if k' = k then some v else lookup k' es := by
  induction es with
  | nil => rfl
  | cons e es ih =>
      rw [insertEntry]
      by_cases hlt : k < e.1
      · rw [if_pos hlt, lookup]
      · rw [if_neg hlt]
        by_cases heq : k = e.1
        · rw [if_pos heq, lookup, lookup]
          by_cases hk : k' = k
          · rw [if_pos hk, if_pos hk]
          · rw [if_neg hk, if_neg hk, if_neg (by rw [← heq]; exact hk)]
        · rw [if_neg heq, lookup, lookup, ih]
          by_cases hk : k' = k
          · rw [if_pos hk, if_pos hk, if_neg (by rw [hk]; exact heq)]
          · rw [if_neg hk, if_neg hk]

@[simp] theorem get?_insert (m : OrderedMap κ ν) (k k' : κ) (v : ν) :
    (m.insert k v).get? k' = if k' = k then some v else m.get? k' :=
  lookup_insertEntry k k' v m.entries

/-- Inserting only where nothing is: an entry that is there is kept. -/
theorem get?_insertIfAbsent (m : OrderedMap κ ν) (k k' : κ) (v : ν) :
    (if (m.get? k).isNone then m.insert k v else m).get? k' =
      if k' = k then some ((m.get? k).getD v) else m.get? k' := by
  cases hk : m.get? k with
  | none => rw [if_pos Option.isNone_none, get?_insert, Option.getD_none]
  | some w =>
      rw [if_neg (by simp : ¬ (some w).isNone = true), Option.getD_some]
      by_cases hkk : k' = k
      · rw [if_pos hkk, hkk, hk]
      · rw [if_neg hkk]

theorem lookup_filter_ne (k k' : κ) (es : List (κ × ν)) :
    lookup k' (es.filter fun e => e.1 ≠ k) = if k' = k then none else lookup k' es := by
  induction es with
  | nil => simp [lookup]
  | cons e es ih =>
      rw [List.filter_cons]
      by_cases he : e.1 = k
      · rw [if_neg (by simp [he]), ih, lookup]
        by_cases hk : k' = k
        · rw [if_pos hk, if_pos hk]
        · rw [if_neg hk, if_neg hk, if_neg (by rw [he]; exact hk)]
      · rw [if_pos (by simp [he]), lookup, ih, lookup]
        by_cases hk : k' = k
        · rw [if_pos hk, if_pos hk, if_neg (by rw [hk]; exact Ne.symm he)]
        · rw [if_neg hk, if_neg hk]

@[simp] theorem get?_remove (m : OrderedMap κ ν) (k k' : κ) :
    (m.remove k).get? k' = if k' = k then none else m.get? k' :=
  lookup_filter_ne k k' m.entries

theorem get?_removeAll (m : OrderedMap κ ν) (ks : List κ) (k : κ) :
    (m.removeAll ks).get? k = if k ∈ ks then none else m.get? k := by
  induction ks generalizing m with
  | nil => simp [removeAll]
  | cons k' ks ih =>
      have hstep := ih (m.remove k')
      rw [removeAll] at hstep
      rw [removeAll, List.foldl_cons, hstep, get?_remove]
      by_cases hk : k = k' <;> by_cases hks : k ∈ ks <;> simp [hk, hks]

theorem mem_keys_iff (m : OrderedMap κ ν) (k : κ) : k ∈ m.keys ↔ (m.get? k).isSome := by
  rw [keys, get?]
  induction m.entries with
  | nil => simp [lookup]
  | cons e es ih =>
      rw [lookup, List.map_cons, List.mem_cons, ih]
      by_cases hk : k = e.1 <;> simp [hk]

theorem lookup_eq_some_iff {es : List (κ × ν)} (h : es.Pairwise fun e e' => e.1 < e'.1) {k : κ}
    {v : ν} : lookup k es = some v ↔ (k, v) ∈ es := by
  induction es with
  | nil => simp [lookup]
  | cons e es ih =>
      obtain ⟨hhead, htail⟩ := List.pairwise_cons.mp h
      rw [lookup, List.mem_cons]
      by_cases hk : k = e.1
      · rw [if_pos hk, Option.some_inj]
        constructor
        · rintro rfl
          exact Or.inl (Prod.ext hk rfl)
        · rintro (rfl | hmem)
          · rfl
          · -- the key cannot come a second time
            exact absurd (hhead (k, v) hmem) (by rw [hk]; exact lt_irrefl _)
      · rw [if_neg hk, ih htail]
        refine (or_iff_right ?_).symm
        rintro rfl
        exact hk rfl

theorem get?_eq_some_iff (m : OrderedMap κ ν) {k : κ} {v : ν} :
    m.get? k = some v ↔ (k, v) ∈ m.entries :=
  lookup_eq_some_iff m.increasing

/-- The first entry of a map that has any is the one with the least key. -/
theorem exists_first? (m : OrderedMap κ ν) {k : κ} (hk : (m.get? k).isSome) :
    ∃ e, m.first? = some e ∧ (m.get? e.1).isSome ∧ ∀ k', (m.get? k').isSome → e.1 ≤ k' := by
  simp only [← mem_keys_iff, keys] at hk ⊢
  rw [first?]
  have hincreasing := m.increasing
  cases hentries : m.entries with
  | nil =>
      rw [hentries] at hk
      exact absurd hk List.not_mem_nil
  | cons e es =>
      rw [hentries] at hincreasing
      refine ⟨e, rfl, List.mem_map_of_mem List.mem_cons_self, fun k' hk' => ?_⟩
      rcases List.mem_cons.mp hk' with rfl | hk'
      · exact le_refl _
      · obtain ⟨e', he', rfl⟩ := List.mem_map.mp hk'
        exact le_of_lt ((List.pairwise_cons.mp hincreasing).1 e' he')

theorem mem_rangeTo_iff (m : OrderedMap κ ν) (bound k : κ) :
    k ∈ m.rangeTo bound ↔ k < bound ∧ (m.get? k).isSome := by
  rw [rangeTo, List.mem_filter, mem_keys_iff, decide_eq_true_iff, and_comm]

theorem keys_increasing (m : OrderedMap κ ν) : m.keys.Pairwise (· < ·) :=
  List.pairwise_map.mpr m.increasing

/-- Removing the keys that another map has below a bound, from a map with no others. -/
theorem get?_removeAll_rangeTo {ν' : Type} (m : OrderedMap κ ν) (m' : OrderedMap κ ν') (bound : κ)
    (h : ∀ k, (m.get? k).isSome → (m'.get? k).isSome) (k : κ) :
    (m.removeAll (m'.rangeTo bound)).get? k = if k < bound then none else m.get? k := by
  rw [get?_removeAll]
  by_cases hk : k < bound
  · rw [if_pos hk]
    split_ifs with hmem
    · rfl
    · -- nothing to remove: the key would have been in the range
      cases hv : m.get? k with
      | none => rfl
      | some v =>
          exact absurd ((m'.mem_rangeTo_iff bound k).mpr ⟨hk, h k (by rw [hv]; rfl)⟩) hmem
  · rw [if_neg hk, if_neg fun hmem => hk ((m'.mem_rangeTo_iff bound k).mp hmem).1]

/-- **Removing a range.**  The keys below the bound are gone and no other entry
has changed. -/
@[simp] theorem get?_removeBelow (m : OrderedMap κ ν) (bound k : κ) :
    (m.removeBelow bound).get? k = if k < bound then none else m.get? k :=
  m.get?_removeAll_rangeTo m bound (fun _ => id) k

/-- A map has at most as many keys as one that has them all. -/
theorem length_keys_le {ν' : Type} {m : OrderedMap κ ν} {m' : OrderedMap κ ν'}
    (h : ∀ k, (m.get? k).isSome → (m'.get? k).isSome) : m.keys.length ≤ m'.keys.length := by
  have hnodup : m.keys.Nodup := m.keys_increasing.imp fun hlt => hlt.ne
  refine (List.subperm_of_subset hnodup fun k hk => ?_).length_le
  rw [mem_keys_iff] at hk ⊢
  exact h k hk

end OrderedMap
end MalakethTurbo
