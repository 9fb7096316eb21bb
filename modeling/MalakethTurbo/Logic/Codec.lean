import MalakethTurbo.Types.Basic
import Mathlib.Data.List.Forall2

/-!
# Codecs

A codec is a pair of calls between a type and the structure it travels in.  Three
things can be asked of it:

* `Restores m`: the value `m` is written, and reads back as itself;
* `CanonicalOn good`: a structure that is read as a value is what the value is
  written as exactly if it is good, so no two good structures read as the same value;
* `Total`: whatever is read, reading returns.

A decoder is a sequence of calls with lists and optional members in between:
`mapM_eq_ok` turns a call on every element of a list into a relation between two
lists, and `Returns` is what a whole sequence inherits from its parts.
-/

namespace MalakethTurbo

variable {ε α β P Q : Type}

/-! ## Calls that return -/

/-- The call ends in a value or in an error, not in a panic. -/
def Returns (x : Call ε α) : Prop := x ≠ .error .panic

@[simp] theorem returns_ok (a : α) : Returns (.ok a : Call ε α) := by
  intro h
  cases h

@[simp] theorem returns_err (e : ε) : Returns (.error (.err e) : Call ε α) := by
  intro h
  cases h

@[simp] theorem returns_okOr (e : ε) (o : Option α) : Returns (okOr e o) := by
  cases o with
  | none => exact returns_err e
  | some a => exact returns_ok a

/-- What returns without a value returns an error. -/
theorem Returns.exists_err {stop : Stop ε} (h : Returns (.error stop : Call ε α)) :
    ∃ e, stop = .err e := by
  cases stop with
  | err e => exact ⟨e, rfl⟩
  | panic => exact absurd rfl h

/-- **A sequence returns if its parts do.** -/
theorem Returns.bind {x : Call ε α} {f : α → Call ε β} (hx : Returns x)
    (hf : ∀ a, Returns (f a)) : Returns (x >>= f) := by
  cases x with
  | ok a => exact hf a
  | error e =>
      intro h
      rw [call_error_bind] at h
      injection h with he
      exact hx (congrArg Except.error he)

theorem Returns.mapM {f : α → Call ε β} (hf : ∀ a, Returns (f a)) (l : List α) :
    Returns (l.mapM f) := by
  induction l with
  | nil => exact returns_ok []
  | cons a l ih =>
      rw [List.mapM_cons]
      exact (hf a).bind fun b => ih.bind fun l' => returns_ok _

theorem Returns.filterMapM {f : α → Call ε (Option β)} (hf : ∀ a, Returns (f a))
    (l : List α) : Returns (l.filterMapM f) := by
  induction l with
  | nil => exact returns_ok []
  | cons a l ih =>
      rw [List.filterMapM_cons]
      refine (hf a).bind fun o => ?_
      cases o with
      | none => exact ih
      | some b => exact ih.bind fun l' => returns_ok _

theorem Returns.optionMapM {f : α → Call ε β} (hf : ∀ a, Returns (f a)) (o : Option α) :
    Returns (o.mapM f) := by
  cases o with
  | none => exact returns_ok none
  | some a =>
      rw [Option.mapM_some, map_eq_pure_bind]
      exact (hf a).bind fun b => returns_ok _

/-! ## A call on every element -/

/-- **A list of results is what the call returns on each element.** -/
theorem mapM_eq_ok {f : α → Call ε β} {l : List α} {l' : List β} :
    l.mapM f = .ok l' ↔ List.Forall₂ (fun a b => f a = .ok b) l l' := by
  induction l generalizing l' with
  | nil =>
      rw [List.mapM_nil, List.forall₂_nil_left_iff]
      constructor
      · intro h
        exact (Except.ok.inj h).symm
      · intro h
        rw [h]
        rfl
  | cons a l ih =>
      rw [List.mapM_cons, call_bind_eq_ok, List.forall₂_cons_left_iff]
      constructor
      · rintro ⟨b, hb, hrest⟩
        obtain ⟨l'', hl'', heq⟩ := call_bind_eq_ok.mp hrest
        exact ⟨b, l'', hb, ih.mp hl'', (Except.ok.inj heq).symm⟩
      · rintro ⟨b, l'', hb, hl'', rfl⟩
        exact ⟨b, hb, call_bind_eq_ok.mpr ⟨l'', ih.mpr hl'', rfl⟩⟩

/-- What holds of every value a call returns holds of every element of the list. -/
theorem forall_mem_of_mapM {f : α → Call ε β} {R : β → Prop} (h : ∀ a b, f a = .ok b → R b)
    {l : List α} {l' : List β} (hl : l.mapM f = .ok l') : ∀ b ∈ l', R b := by
  rw [mapM_eq_ok] at hl
  induction hl with
  | nil =>
      intro b hb
      cases hb
  | cons hab _ ih =>
      intro b hb
      rcases List.mem_cons.mp hb with rfl | hb
      · exact h _ _ hab
      · exact ih b hb

/-! ## Codecs -/

/-- How a type is written as a structure and read from one. -/
structure Codec (ε α P : Type) where
  toProto : α → Call ε P
  fromProto : P → Call ε α

namespace Codec

variable (c : Codec ε α P)

/-- The value is written, and reads back as itself. -/
def Restores (m : α) : Prop := ∃ p, c.toProto m = .ok p ∧ c.fromProto p = .ok m

/-- Of the structures that are read, exactly the good ones are what their value is
written as. -/
def CanonicalOn (good : P → Prop) : Prop :=
  ∀ p m, c.fromProto p = .ok m → (c.toProto m = .ok p ↔ good p)

/-- Reading returns on every structure. -/
def Total : Prop := ∀ p, Returns (c.fromProto p)

variable {c}

/-- **Good structures are told apart by what they are read as.** -/
theorem CanonicalOn.inj {good : P → Prop} (h : c.CanonicalOn good) {p q : P} {m : α}
    (hp : good p) (hq : good q) (hpm : c.fromProto p = .ok m) (hqm : c.fromProto q = .ok m) :
    p = q := by
  have hto := (h p m hpm).mpr hp
  rw [(h q m hqm).mpr hq] at hto
  exact (Except.ok.inj hto).symm

end Codec

end MalakethTurbo
