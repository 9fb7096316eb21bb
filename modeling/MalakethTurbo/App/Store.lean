import MalakethTurbo.Data.OrderedMap
import MalakethTurbo.Types.Codec
import Mathlib.Data.Prod.Lex

/-!
# The store

Five tables of encoded entries.  Certificates, decided values and decided block
data are kept by height; undecided proposals and undecided block data are kept by
height and round.  The writers disagree on what to do with an entry that is
already there: a decided value and its certificate replace it, every other writer
leaves it alone.

Each write is one transaction.  `StoreWrite` names the five of them, so that a
call of the application can be followed by the list of the transactions it has
committed, and a process that stops in the middle of a call leaves the store that
a first part of the list produces.
-/

namespace MalakethTurbo

open Wire (Bytes encodeToVec)

variable {ε α : Type}

/-! ## Keys and errors -/

/-- The key of the undecided tables. -/
structure UndecidedValueKey where
  height : Height
  round : Round

namespace UndecidedValueKey

/-- Keys are compared by height and then by round. -/
def order (key : UndecidedValueKey) : ℕ ×ₗ ℤ := toLex (key.height.asU64.toNat, key.round.asI64)

theorem order_injective : Function.Injective order := by
  rintro ⟨h, r⟩ ⟨h', r'⟩ heq
  obtain ⟨hh, hr⟩ := Prod.mk.inj (toLex_inj.mp heq)
  rw [UndecidedValueKey.mk.injEq]
  exact ⟨Height.toNat_asU64_injective hh, Round.asI64_injective hr⟩

instance : LinearOrder UndecidedValueKey := LinearOrder.lift' order order_injective

theorem lt_iff {k k' : UndecidedValueKey} :
    k < k' ↔ k.height < k'.height ∨ k.height = k'.height ∧ k.round < k'.round := by
  have hlex : k < k' ↔ k.order < k'.order := Iff.rfl
  rw [hlex, order, order, Prod.Lex.toLex_lt_toLex, Height.lt_iff, Round.lt_iff]
  refine or_congr Iff.rfl (and_congr_left fun _ => ?_)
  exact ⟨fun h => Height.toNat_asU64_injective h, fun h => by rw [h]⟩

/-- No round comes before the missing one, so the keys below `(h, Nil)` are the
keys of the heights below `h`. -/
@[simp] theorem lt_nil_iff {k : UndecidedValueKey} {h : Height} :
    k < ⟨h, .nil⟩ ↔ k.height < h := by
  rw [lt_iff]
  refine ⟨?_, Or.inl⟩
  rintro (hlt | ⟨-, hround⟩)
  · exact hlt
  · exact absurd (Round.nil_le k.round) (not_le.mpr hround)

end UndecidedValueKey

/-- The errors of the store: of its codec, and of a blocking task that
panicked. -/
inductive StoreError where
  | protobuf : ProtoError → StoreError
  | taskJoin : StoreError
  deriving DecidableEq

/-- The `?` that turns a codec error into a store error. -/
def protobuf : Call ProtoError α → Call StoreError α
  | .ok a => .ok a
  | .error (.err e) => .error (.err (.protobuf e))
  | .error .panic => .error .panic

@[simp] theorem protobuf_ok (a : α) : protobuf (.ok a : Call ProtoError α) = .ok a := rfl

/-- `spawn_blocking(..).await?`: a panic of the task comes back as an error. -/
def spawnBlocking : Call StoreError α → Call StoreError α
  | .ok a => .ok a
  | .error (.err e) => .error (.err e)
  | .error .panic => .error (.err .taskJoin)

@[simp] theorem spawnBlocking_ok (a : α) :
    spawnBlocking (.ok a : Call StoreError α) = .ok a := rfl

/-! ## The tables -/

/-- A decided value with its certificate. -/
structure DecidedValue where
  value : Value
  certificate : CommitCertificate
  deriving DecidableEq

/-- The tables of the database. -/
structure Db where
  certificates : OrderedMap Height Bytes
  decidedValues : OrderedMap Height Bytes
  undecidedProposals : OrderedMap UndecidedValueKey Bytes
  decidedBlockData : OrderedMap Height Bytes
  undecidedBlockData : OrderedMap UndecidedValueKey Bytes

namespace Db

/-- The database after `create_tables`. -/
def empty : Db :=
  ⟨OrderedMap.empty, OrderedMap.empty, OrderedMap.empty, OrderedMap.empty, OrderedMap.empty⟩

/-! ## Reading -/

section Read

variable [Prost]

/-- `decode_certificate` of the store, on bytes. -/
def decodeCertificateBytes (b : Bytes) : Call ProtoError CommitCertificate := do
  let proto : Proto.CommitCertificate ← decodeProto b
  decodeCertificate proto

/-- `Db::get_decided_value`: an entry that does not decode counts as absent. -/
def getDecidedValue (db : Db) (height : Height) : Option DecidedValue :=
  let value := (db.decidedValues.get? height).bind fun b => (Value.fromBytes b).toOption
  let certificate :=
    (db.certificates.get? height).bind fun b => (decodeCertificateBytes b).toOption
  match value, certificate with
  | some value, some certificate => some ⟨value, certificate⟩
  | _, _ => none

/-- `Db::get_undecided_proposal`. -/
def getUndecidedProposal (db : Db) (height : Height) (round : Round) :
    Call StoreError (Option ProposedValue) :=
  match db.undecidedProposals.get? ⟨height, round⟩ with
  | some b => do
      let proposal ← protobuf (decodeProposedValue b)
      return some proposal
  | none => return none

/-- `Db::get_block_data`: undecided block data first, then decided. -/
def getBlockData (db : Db) (height : Height) (round : Round) : Option Bytes :=
  match db.undecidedBlockData.get? ⟨height, round⟩ with
  | some data => some data
  | none => db.decidedBlockData.get? height

/-- `Db::min_decided_value_height`. -/
def minDecidedValueHeight (db : Db) : Option Height := db.decidedValues.first?.map Prod.fst

end Read

/-! ## Writing -/

/-- `encode_certificate` of the store, to bytes. -/
def encodeCertificateBytes (c : CommitCertificate) : Call ProtoError Bytes := do
  return encodeToVec (← encodeCertificate c)

/-- `Db::insert_decided_value`: both entries are replaced. -/
def insertDecidedValue (db : Db) (decided : DecidedValue) : Call StoreError Db := do
  let height := decided.certificate.height
  let certificate ← protobuf (encodeCertificateBytes decided.certificate)
  return { db with
    decidedValues := db.decidedValues.insert height decided.value.toBytes
    certificates := db.certificates.insert height certificate }

/-- `Db::insert_undecided_proposal`: an entry that is there is kept. -/
def insertUndecidedProposal (db : Db) (proposal : ProposedValue) : Call StoreError Db := do
  let key := ⟨proposal.height, proposal.round⟩
  let value ← protobuf (encodeProposedValue proposal)
  return { db with
    undecidedProposals :=
      if (db.undecidedProposals.get? key).isNone then db.undecidedProposals.insert key value
      else db.undecidedProposals }

/-- `Db::insert_undecided_block_data`: an entry that is there is kept. -/
def insertUndecidedBlockData (db : Db) (height : Height) (round : Round) (data : Bytes) : Db :=
  let key := ⟨height, round⟩
  { db with
    undecidedBlockData :=
      if (db.undecidedBlockData.get? key).isNone then db.undecidedBlockData.insert key data
      else db.undecidedBlockData }

/-- `Db::insert_decided_block_data`: an entry that is there is kept. -/
def insertDecidedBlockData (db : Db) (height : Height) (data : Bytes) : Db :=
  { db with
    decidedBlockData :=
      if (db.decidedBlockData.get? height).isNone then db.decidedBlockData.insert height data
      else db.decidedBlockData }

/-- `Db::prune`.  Certificates and decided block data go with the decided values
of their heights. -/
def prune (db : Db) (retainHeight : Height) : List Height × Db :=
  let keys := db.decidedValues.rangeTo retainHeight
  (keys,
    { undecidedProposals := db.undecidedProposals.removeBelow ⟨retainHeight, .nil⟩
      undecidedBlockData := db.undecidedBlockData.removeBelow ⟨retainHeight, .nil⟩
      decidedValues := db.decidedValues.removeAll keys
      certificates := db.certificates.removeAll keys
      decidedBlockData := db.decidedBlockData.removeAll keys })

end Db

/-! ## Transactions -/

/-- The write transactions. -/
inductive StoreWrite where
  | undecidedProposal : ProposedValue → StoreWrite
  | undecidedBlockData : Height → Round → Bytes → StoreWrite
  | decidedValue : DecidedValue → StoreWrite
  | decidedBlockData : Height → Bytes → StoreWrite
  | prune : Height → StoreWrite
  deriving DecidableEq

namespace StoreWrite

/-- Runs a transaction. -/
def run : StoreWrite → Db → Call StoreError Db
  | undecidedProposal p, db => db.insertUndecidedProposal p
  | undecidedBlockData h r data, db => .ok (db.insertUndecidedBlockData h r data)
  | decidedValue v, db => db.insertDecidedValue v
  | decidedBlockData h data, db => .ok (db.insertDecidedBlockData h data)
  | prune h, db => .ok (db.prune h).2

/-- The store after a transaction; one that fails leaves it as it was. -/
def apply (db : Db) (w : StoreWrite) : Db :=
  match w.run db with
  | .ok db' => db'
  | .error _ => db

/-- The store after a list of transactions. -/
def applyAll (db : Db) (ws : List StoreWrite) : Db := ws.foldl apply db

/-- The encoder of the transaction's entry has the round it writes. -/
def Writable : StoreWrite → Prop
  | undecidedProposal p => p.round ≠ .nil
  | decidedValue v => v.certificate.round ≠ .nil
  | _ => True

theorem apply_of_run {db db' : Db} {w : StoreWrite} (h : w.run db = .ok db') :
    apply db w = db' := by
  rw [apply, h]

@[simp] theorem applyAll_nil (db : Db) : applyAll db [] = db := rfl

@[simp] theorem applyAll_cons (db : Db) (w : StoreWrite) (ws : List StoreWrite) :
    applyAll db (w :: ws) = applyAll (apply db w) ws := rfl

theorem applyAll_append (db : Db) (ws vs : List StoreWrite) :
    applyAll db (ws ++ vs) = applyAll (applyAll db ws) vs :=
  List.foldl_append

/-- **What each transaction keeps, every list of them keeps.** -/
theorem applyAll_induction {P : Db → Prop} {db : Db} {ws : List StoreWrite} (h : P db)
    (hstep : ∀ db, P db → ∀ w ∈ ws, P (apply db w)) : P (applyAll db ws) := by
  induction ws generalizing db with
  | nil => exact h
  | cons w ws ih =>
      exact ih (hstep db h w List.mem_cons_self)
        fun db hdb v hv => hstep db hdb v (List.mem_cons_of_mem _ hv)

end StoreWrite

end MalakethTurbo
