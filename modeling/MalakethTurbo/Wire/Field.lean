import MalakethTurbo.Wire.Varint

/-!
# Tagged fields

The proto3 wire format writes a message as a sequence of fields: a key, which is
the field number and one of two wire types, and behind it a varint or a
length-prefixed byte string.

Everything about a message that its bytes determine is in the list of its
fields, and the list is determined by the bytes: `decodeFields_encodeFields`.
So a statement about encodings is proved on lists of fields and never on bytes.

`Message` is a type with a schema: how a value is laid out in fields, and how it
is read back.  The instances are built from the emitters and readers of the
second half, one pair for each kind of field, and the `@[simp]` lemmas that
relate the two are all that an instance's law needs.
-/

namespace MalakethTurbo
namespace Wire

/-- What stands behind a key. -/
inductive Payload where
  | varint : Nat → Payload
  | len : Bytes → Payload
  deriving DecidableEq

/-- One field of a message. -/
structure Field where
  tag : Nat
  payload : Payload
  deriving DecidableEq

/-- The bytes of a field: wire type `0` for a varint, `2` for a length prefix. -/
def encodeField : Field → Bytes
  | ⟨tag, .varint n⟩ => encodeVarint (tag * 8) ++ encodeVarint n
  | ⟨tag, .len b⟩ => encodeVarint (tag * 8 + 2) ++ (encodeVarint b.length ++ b)

/-- The bytes of a message, field by field. -/
def encodeFields (fs : List Field) : Bytes := fs.flatMap encodeField

/-- Reads one field off the front. -/
def decodeField (bs : Bytes) : Option (Field × Bytes) :=
  match decodeVarint bs with
  | none => none
  | some (key, rest) =>
      match decodeVarint rest with
      | none => none
      | some (n, rest') =>
          if key % 8 = 0 then some (⟨key / 8, .varint n⟩, rest')
          else if key % 8 = 2 ∧ n ≤ rest'.length then
            some (⟨key / 8, .len (rest'.take n)⟩, rest'.drop n)
          else none

/-- Reads fields until the bytes run out; every field takes at least one byte, so
the length of the input is enough fuel. -/
def takeFields : Nat → Bytes → Option (List Field)
  | _, [] => some []
  | 0, _ :: _ => none
  | fuel + 1, b :: bs =>
      match decodeField (b :: bs) with
      | none => none
      | some (f, rest) => (takeFields fuel rest).map (f :: ·)

def decodeFields (bs : Bytes) : Option (List Field) := takeFields bs.length bs

@[simp] theorem encodeFields_nil : encodeFields [] = [] := rfl

@[simp] theorem encodeFields_cons (f : Field) (fs : List Field) :
    encodeFields (f :: fs) = encodeField f ++ encodeFields fs := rfl

@[simp] theorem decodeField_encodeField (f : Field) (rest : Bytes) :
    decodeField (encodeField f ++ rest) = some (f, rest) := by
  obtain ⟨tag, payload⟩ := f
  cases payload with
  | varint n =>
      rw [encodeField, List.append_assoc, decodeField, decodeVarint_encodeVarint]
      simp only [decodeVarint_encodeVarint]
      rw [if_pos (by omega), Nat.mul_div_cancel _ (by omega)]
  | len b =>
      rw [encodeField, List.append_assoc, decodeField, decodeVarint_encodeVarint]
      simp only [List.append_assoc, decodeVarint_encodeVarint]
      have hkey : (tag * 8 + 2) / 8 = tag := by omega
      rw [if_neg (by omega), if_pos ⟨by omega, by simp⟩, hkey, List.take_left, List.drop_left]

theorem encodeField_ne_nil (f : Field) : encodeField f ≠ [] := by
  obtain ⟨tag, payload⟩ := f
  cases payload <;> simp [encodeField, encodeVarint_ne_nil]

theorem takeFields_encodeFields (fs : List Field) (fuel : Nat)
    (h : (encodeFields fs).length ≤ fuel) : takeFields fuel (encodeFields fs) = some fs := by
  induction fs generalizing fuel with
  | nil => cases fuel <;> rfl
  | cons f fs ih =>
      obtain ⟨b, bs, hb⟩ := List.exists_cons_of_ne_nil (encodeField_ne_nil f)
      have hread := decodeField_encodeField f (encodeFields fs)
      rw [encodeFields_cons, hb, List.cons_append] at h ⊢
      rw [hb, List.cons_append] at hread
      cases fuel with
      | zero => exact absurd h (by simp)
      | succ fuel =>
          have hrest : (encodeFields fs).length ≤ fuel := by
            rw [List.length_cons, List.length_append] at h
            omega
          rw [takeFields, hread]
          simp only [ih fuel hrest, Option.map_some]

/-- **Reading the fields undoes writing them.** -/
@[simp] theorem decodeFields_encodeFields (fs : List Field) :
    decodeFields (encodeFields fs) = some fs :=
  takeFields_encodeFields fs _ (Nat.le_refl _)

/-- **The bytes determine the fields.** -/
theorem encodeFields_injective : Function.Injective encodeFields := by
  intro fs gs h
  have hd := congrArg decodeFields h
  rw [decodeFields_encodeFields, decodeFields_encodeFields] at hd
  exact Option.some.inj hd

/-! ## Messages -/

/-- A type laid out in fields.  `ofFields` fails on fields that are not a
message of the type. -/
class Message (α : Type) where
  toFields : α → List Field
  ofFields : List Field → Option α
  ofFields_toFields : ∀ m, ofFields (toFields m) = some m

export Message (toFields ofFields)

variable {α β : Type}

/-- The bytes of a message. -/
def encodeToVec [Message α] (m : α) : Bytes := encodeFields (toFields m)

/-- Reads a message back from its fields. -/
def decodeMessage [Message α] (bs : Bytes) : Option α := (decodeFields bs).bind ofFields

@[simp] theorem decodeMessage_encodeToVec [Message α] (m : α) :
    decodeMessage (encodeToVec m) = some m := by
  rw [decodeMessage, encodeToVec, decodeFields_encodeFields, Option.bind_some,
    Message.ofFields_toFields]

theorem toFields_injective [Message α] : Function.Injective (toFields (α := α)) := by
  intro m m' h
  have hd := congrArg (ofFields (α := α)) h
  rw [Message.ofFields_toFields, Message.ofFields_toFields] at hd
  exact Option.some.inj hd

theorem encodeToVec_injective [Message α] : Function.Injective (encodeToVec (α := α)) :=
  fun _ _ h => toFields_injective (encodeFields_injective h)

/-! ## Emitters: how each kind of field is written -/

/-- A plain scalar; zero is not written. -/
def scalar (tag n : Nat) : List Field := if n = 0 then [] else [⟨tag, .varint n⟩]

/-- A scalar with presence; written whenever it is there. -/
def optScalar (tag : Nat) : Option Nat → List Field
  | none => []
  | some n => [⟨tag, .varint n⟩]

/-- A plain byte string; the empty one is not written. -/
def bytes (tag : Nat) (b : Bytes) : List Field := if b = [] then [] else [⟨tag, .len b⟩]

/-- A message field; written whenever it is there. -/
def message [Message β] (tag : Nat) : Option β → List Field
  | none => []
  | some m => [⟨tag, .len (encodeToVec m)⟩]

/-- A repeated message field. -/
def repeated [Message β] (tag : Nat) (ms : List β) : List Field :=
  ms.map fun m => ⟨tag, .len (encodeToVec m)⟩

/-! ## Readers: how each kind of field is read back -/

/-- The payloads that carry a field number. -/
def select (tag : Nat) (fs : List Field) : List Payload :=
  fs.filterMap fun f => if f.tag = tag then some f.payload else none

/-- The last varint of a list of payloads, none of which may be of the other
wire type. -/
def lastVarint : List Payload → Option (Option Nat)
  | [] => some none
  | [.varint n] => some (some n)
  | .varint _ :: ps => lastVarint ps
  | .len _ :: _ => none

/-- The last byte string of a list of payloads. -/
def lastBytes : List Payload → Option (Option Bytes)
  | [] => some none
  | [.len b] => some (some b)
  | .len _ :: ps => lastBytes ps
  | .varint _ :: _ => none

def readScalar (tag : Nat) (fs : List Field) : Option Nat :=
  (lastVarint (select tag fs)).map (·.getD 0)

def readOptScalar (tag : Nat) (fs : List Field) : Option (Option Nat) :=
  lastVarint (select tag fs)

def readBytes (tag : Nat) (fs : List Field) : Option Bytes :=
  (lastBytes (select tag fs)).map (·.getD [])

def readMessage [Message β] (tag : Nat) (fs : List Field) : Option (Option β) :=
  match lastBytes (select tag fs) with
  | none => none
  | some none => some none
  | some (some b) => (decodeMessage b).map some

/-- One element of a repeated message field. -/
def readElement [Message β] : Payload → Option β
  | .varint _ => none
  | .len b => decodeMessage b

def readRepeated [Message β] (tag : Nat) (fs : List Field) : Option (List β) :=
  (select tag fs).mapM readElement

/-! ## Reading what was written -/

@[simp] theorem select_nil (tag : Nat) : select tag [] = [] := rfl

@[simp] theorem select_append (tag : Nat) (fs gs : List Field) :
    select tag (fs ++ gs) = select tag fs ++ select tag gs :=
  List.filterMap_append

@[simp] theorem select_cons (tag : Nat) (f : Field) (fs : List Field) :
    select tag (f :: fs) =
      (if f.tag = tag then [f.payload] else []) ++ select tag fs := by
  by_cases h : f.tag = tag <;> simp [select, h]

@[simp] theorem select_scalar (tag t n : Nat) :
    select tag (scalar t n) = if t = tag ∧ n ≠ 0 then [.varint n] else [] := by
  by_cases hn : n = 0 <;> simp [scalar, hn]

@[simp] theorem select_optScalar (tag t : Nat) (o : Option Nat) :
    select tag (optScalar t o) =
      if t = tag then (o.map Payload.varint).toList else [] := by
  cases o <;> simp [optScalar]

@[simp] theorem select_bytes (tag t : Nat) (b : Bytes) :
    select tag (bytes t b) = if t = tag ∧ b ≠ [] then [.len b] else [] := by
  by_cases hb : b = [] <;> simp [bytes, hb]

@[simp] theorem select_message [Message β] (tag t : Nat) (o : Option β) :
    select tag (message t o) =
      if t = tag then (o.map fun m => Payload.len (encodeToVec m)).toList else [] := by
  cases o <;> simp [message]

@[simp] theorem select_repeated [Message β] (tag t : Nat) (ms : List β) :
    select tag (repeated t ms) =
      if t = tag then ms.map fun m => Payload.len (encodeToVec m) else [] := by
  induction ms with
  | nil => simp [repeated]
  | cons m ms ih =>
      rw [repeated, List.map_cons, select_cons, ← repeated, ih]
      by_cases h : t = tag <;> simp [h]

@[simp] theorem lastVarint_ite (n : Nat) :
    lastVarint (if n ≠ 0 then [.varint n] else []) = some (if n = 0 then none else some n) := by
  by_cases h : n = 0 <;> simp [h, lastVarint]

@[simp] theorem lastVarint_option (o : Option Nat) :
    lastVarint (o.map Payload.varint).toList = some o := by
  cases o <;> rfl

@[simp] theorem lastBytes_ite (b : Bytes) :
    lastBytes (if b ≠ [] then [.len b] else []) = some (if b = [] then none else some b) := by
  by_cases h : b = [] <;> simp [h, lastBytes]

@[simp] theorem lastBytes_option [Message β] (o : Option β) :
    lastBytes (o.map fun m => Payload.len (encodeToVec m)).toList = some (o.map encodeToVec) := by
  cases o <;> rfl

/-- A scalar is read back from a selection that holds exactly what was written. -/
theorem readScalar_eq {tag n : Nat} {fs : List Field}
    (h : select tag fs = if n ≠ 0 then [.varint n] else []) : readScalar tag fs = some n := by
  rw [readScalar, h, lastVarint_ite]
  by_cases hn : n = 0 <;> simp [hn]

theorem readOptScalar_eq {tag : Nat} {o : Option Nat} {fs : List Field}
    (h : select tag fs = (o.map Payload.varint).toList) : readOptScalar tag fs = some o := by
  rw [readOptScalar, h, lastVarint_option]

theorem readBytes_eq {tag : Nat} {b : Bytes} {fs : List Field}
    (h : select tag fs = if b ≠ [] then [.len b] else []) : readBytes tag fs = some b := by
  rw [readBytes, h, lastBytes_ite]
  by_cases hb : b = [] <;> simp [hb]

theorem readMessage_eq [Message β] {tag : Nat} {o : Option β} {fs : List Field}
    (h : select tag fs = (o.map fun m => Payload.len (encodeToVec m)).toList) :
    readMessage tag fs = some o := by
  rw [readMessage, h, lastBytes_option]
  cases o <;> simp

theorem readRepeated_eq [Message β] {tag : Nat} {l : List β} {fs : List Field}
    (h : select tag fs = l.map fun m => Payload.len (encodeToVec m)) :
    readRepeated tag fs = some l := by
  rw [readRepeated, h]
  clear h
  induction l with
  | nil => rfl
  | cons m l ih => simp [readElement, ih]

/-! ## Alternatives -/

section OneOf

variable {γ : Type} {write : γ → Field} {read : Field → Option (Option γ)}

/-- A `oneof` writes the field of the member that is chosen, whatever it holds. -/
def oneOf (write : γ → Field) (o : Option γ) : List Field := (o.map write).toList

/-- The last field of a `oneof` decides.  `read` is `none` on fields of the rest of
the message and `some none` on a member that does not parse. -/
def readOneOf (read : Field → Option (Option γ)) (fs : List Field) : Option (Option γ) :=
  match (fs.filterMap read).getLast? with
  | none => some none
  | some member => member.map some

/-- The other fields of a message are not in its `oneof`. -/
theorem select_oneOf {tag : Nat} (h : ∀ c, (write c).tag ≠ tag) (o : Option γ) :
    select tag (oneOf write o) = [] := by
  cases o with
  | none => rfl
  | some c => simp [oneOf, h c]

theorem filterMap_eq_nil_of_tag {tag : Nat} (h : ∀ p, read ⟨tag, p⟩ = none) {fs : List Field}
    (hfs : ∀ f ∈ fs, f.tag = tag) : fs.filterMap read = [] := by
  rw [List.filterMap_eq_nil_iff]
  rintro ⟨t, p⟩ hf
  obtain rfl : t = tag := hfs _ hf
  exact h p

theorem tag_of_mem_scalar {tag n : Nat} : ∀ f ∈ scalar tag n, f.tag = tag := by
  intro f hf
  by_cases hn : n = 0
  · simp [scalar, hn] at hf
  · simp only [scalar, if_neg hn, List.mem_singleton] at hf
    rw [hf]

theorem tag_of_mem_bytes {tag : Nat} {b : Bytes} : ∀ f ∈ bytes tag b, f.tag = tag := by
  intro f hf
  by_cases hb : b = []
  · simp [bytes, hb] at hf
  · simp only [bytes, if_neg hb, List.mem_singleton] at hf
    rw [hf]

theorem tag_of_mem_message [Message β] {tag : Nat} {o : Option β} :
    ∀ f ∈ message tag o, f.tag = tag := by
  intro f hf
  cases o with
  | none => simp [message] at hf
  | some m =>
      simp only [message, List.mem_singleton] at hf
      rw [hf]

/-- A `oneof` is read back from the fields that belong to it. -/
theorem readOneOf_eq {o : Option γ} {fs : List Field}
    (hread : ∀ c, read (write c) = some (some c))
    (h : fs.filterMap read = (oneOf write o).filterMap read) : readOneOf read fs = some o := by
  rw [readOneOf, h]
  cases o with
  | none => rfl
  | some c => simp [oneOf, hread c]

end OneOf

end Wire
end MalakethTurbo
