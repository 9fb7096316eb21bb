import MalakethTurbo.Types.Basic

/-!
# Heights, rounds, keys and consensus messages

The data the nodes agree on and the messages they sign: heights and rounds,
addresses and keys, the value to decide on, votes, proposals, the parts of a
streamed proposal and the certificate of a decision.

The cryptography is a parameter.  `Crypto` names the functions the program calls
and nothing else: what a theorem needs of them (that a signature of a key
verifies, that two hashed strings do not collide) stands in its hypotheses.
`demoCrypto` is an instance that can be run.
-/

namespace MalakethTurbo

open Wire (Bytes)

variable {ε : Type}

/-! ## Heights -/

/-- A blockchain height. -/
structure Height where
  asU64 : UInt64

namespace Height

theorem toNat_asU64_injective : Function.Injective fun h : Height => h.asU64.toNat := by
  rintro ⟨a⟩ ⟨b⟩ h
  exact congrArg Height.mk (UInt64.toNat_inj.mp h)

/-- Heights are compared as numbers. -/
instance : LinearOrder Height := LinearOrder.lift' _ toNat_asU64_injective

theorem lt_iff {a b : Height} : a < b ↔ a.asU64.toNat < b.asU64.toNat := Iff.rfl

theorem le_iff {a b : Height} : a ≤ b ↔ a.asU64.toNat ≤ b.asU64.toNat := Iff.rfl

/-- The default height, which a node without a start height begins at. -/
instance : Inhabited Height := ⟨⟨1⟩⟩

/-- `Height::increment`; the addition is checked. -/
def increment (h : Height) : Call ε Height :=
  if h.asU64.toNat + 1 < 2 ^ 64 then .ok ⟨h.asU64 + 1⟩ else .error .panic

/-- `u64::saturating_sub` on heights. -/
def saturatingSub (h : Height) (n : UInt64) : Height :=
  if n ≤ h.asU64 then ⟨h.asU64 - n⟩ else ⟨0⟩

theorem toNat_saturatingSub (h : Height) (n : UInt64) :
    (h.saturatingSub n).asU64.toNat = h.asU64.toNat - n.toNat := by
  rw [saturatingSub]
  by_cases hn : n ≤ h.asU64
  · rw [if_pos hn, UInt64.toNat_sub_of_le _ _ hn]
  · rw [if_neg hn]
    rw [UInt64.le_iff_toNat_le] at hn
    exact (Nat.sub_eq_zero_of_le (by omega)).symm

theorem saturatingSub_le (h : Height) (n : UInt64) : h.saturatingSub n ≤ h := by
  rw [le_iff, toNat_saturatingSub]
  exact Nat.sub_le _ _

end Height

/-! ## Rounds -/

/-- A round of consensus, or none. -/
inductive Round where
  | nil : Round
  | some : UInt32 → Round

namespace Round

/-- `Round::new`. -/
abbrev new (r : UInt32) : Round := .some r

/-- `Round::as_i64`; no round is `-1`. -/
def asI64 : Round → Int
  | nil => -1
  | some r => r.toNat

/-- `Round::as_u32`. -/
def asU32 : Round → Option UInt32
  | nil => none
  | some r => Option.some r

/-- `Round::from` of an optional number. -/
def ofOption : Option UInt32 → Round
  | none => nil
  | Option.some r => some r

@[simp] theorem asU32_some (r : UInt32) : (Round.some r).asU32 = Option.some r := rfl

@[simp] theorem asU32_nil : Round.nil.asU32 = none := rfl

@[simp] theorem ofOption_asU32 (r : Round) : ofOption r.asU32 = r := by
  cases r <;> rfl

theorem asU32_injective : Function.Injective asU32 := by
  intro r s h
  rw [← ofOption_asU32 r, h, ofOption_asU32]

theorem asI64_range (r : Round) : -1 ≤ r.asI64 ∧ r.asI64 < 2 ^ 63 := by
  cases r with
  | nil => decide
  | some r =>
      have hr := r.toNat_lt
      rw [asI64]
      omega

theorem asI64_injective : Function.Injective asI64 := by
  intro r s h
  cases r with
  | nil =>
      cases s with
      | nil => rfl
      | some s => simp only [asI64] at h; omega
  | some r =>
      cases s with
      | nil => simp only [asI64] at h; omega
      | some s =>
          simp only [asI64, Int.natCast_inj] at h
          rw [UInt32.toNat_inj.mp h]

/-- Rounds are compared as signed numbers, so no round comes first. -/
instance : LinearOrder Round := LinearOrder.lift' _ asI64_injective

theorem lt_iff {r s : Round} : r < s ↔ r.asI64 < s.asI64 := Iff.rfl

theorem nil_le (r : Round) : Round.nil ≤ r := (asI64_range r).1

/-- The bytes a round is hashed through. -/
def toBeBytes (r : Round) : Bytes := i64Bytes r.asI64

@[simp] theorem length_toBeBytes (r : Round) : r.toBeBytes.length = 8 := length_i64Bytes _

theorem toBeBytes_injective : Function.Injective toBeBytes := fun r s h =>
  asI64_injective (i64Bytes_inj (asI64_range r) (asI64_range s) h)

end Round

/-! ## Keys and addresses -/

abbrev PublicKey := FixedBytes 32

abbrev PrivateKey := FixedBytes 32

abbrev Signature := FixedBytes 64

/-- The address of a validator. -/
structure Address where
  intoInner : FixedBytes 20
  deriving DecidableEq

/-- The number of bytes of an address. -/
def Address.LENGTH : Nat := 20

/-- The functions the program takes from its cryptography: the 64-bit hash of the
standard library, Keccak-256, and Ed25519. -/
class Crypto where
  /-- `Hash` of a byte string into `DefaultHasher`. -/
  hash : Bytes → UInt64
  keccak256 : Bytes → FixedBytes 32
  publicKey : PrivateKey → PublicKey
  sign : PrivateKey → Bytes → Signature
  verify : PublicKey → Bytes → Signature → Bool

/-- A signature that spells out the key and the message it is for. -/
def sealBytes (key : FixedBytes 32) (message : Bytes) : Signature :=
  FixedBytes.ofBytes 64 (key.val.take 1 ++ UInt8.ofNat message.length :: message)

/-- An instance to run the program with: hashes and signatures spell out their
argument, so that on short strings no two collide and every signature verifies
under its own key and for its own message only. -/
@[reducible] def demoCrypto : Crypto where
  hash b := b.foldl (fun acc x => acc * 257 + x.toUInt64 + 1) 0
  keccak256 b := FixedBytes.ofBytes 32 (UInt8.ofNat b.length :: b)
  publicKey k := k
  sign k b := sealBytes k b
  verify k b s := decide (b.length ≤ 62) && decide (s = sealBytes k b)

/-- The `i`-th key to run the program with. -/
def demoKey (i : UInt8) : PrivateKey := FixedBytes.ofBytes 32 [i]

/-- A seal of a short message spells the message out. -/
theorem sealBytes_inj {key key' : FixedBytes 32} {message message' : Bytes}
    (h : message.length ≤ 62) (h' : message'.length ≤ 62)
    (heq : sealBytes key message = sealBytes key' message') :
    key.val.take 1 = key'.val.take 1 ∧ message = message' := by
  have hkey : ∀ k : FixedBytes 32, (k.val.take 1).length = 1 := by
    intro k
    rw [List.length_take, k.property]
    rfl
  have hbytes := congrArg Subtype.val heq
  rw [sealBytes, sealBytes, FixedBytes.val_ofBytes (by simp [hkey]; omega),
    FixedBytes.val_ofBytes (by simp [hkey]; omega), List.append_assoc, List.append_assoc]
    at hbytes
  obtain ⟨hhead, htail⟩ := List.append_inj hbytes (by rw [hkey, hkey])
  obtain ⟨hlast, hrest⟩ := List.cons.inj htail
  have hlen : message.length = message'.length := by
    have hto := congrArg UInt8.toNat hlast
    simp only [UInt8.toNat_ofNat'] at hto
    omega
  exact ⟨hhead, (List.append_inj hrest hlen).1⟩

/-- A demo signature verifies for the message it was made for only. -/
theorem demoCrypto_exact {key key' : FixedBytes 32} {b b' : Bytes} (h : b.length ≤ 62)
    (hverify : demoCrypto.verify key' b' (demoCrypto.sign key b) = true) :
    key.val.take 1 = key'.val.take 1 ∧ b' = b := by
  obtain ⟨hlen, hseal⟩ := Bool.and_eq_true_iff.mp hverify
  obtain ⟨hkey, hb⟩ := sealBytes_inj h (of_decide_eq_true hlen) (of_decide_eq_true hseal)
  exact ⟨hkey, hb.symm⟩

/-- A demo signature of a hash verifies. -/
theorem demoCrypto_accepts (key hash : FixedBytes 32) :
    demoCrypto.verify (demoCrypto.publicKey key) hash.val (demoCrypto.sign key hash.val) =
      true := by
  have hlen : hash.val.length ≤ 62 := by
    rw [hash.property]
    decide
  exact Bool.and_eq_true_iff.mpr ⟨decide_eq_true hlen, decide_eq_true rfl⟩

/-- `Address::from_public_key`: the first bytes of the hash of the key. -/
def Address.fromPublicKey [Crypto] (key : PublicKey) : Address :=
  ⟨⟨(Crypto.keccak256 key.val).val.take 20, by
    rw [List.length_take, (Crypto.keccak256 key.val).property]
    rfl⟩⟩

/-! ## Values -/

/-- The identifier of a value. -/
structure ValueId where
  asU64 : UInt64
  deriving DecidableEq

/-- The value to decide on. -/
structure Value where
  value : UInt64
  extensions : Bytes
  deriving DecidableEq

namespace Value

/-- `Value::new`: the value of a byte string is its hash. -/
def new [Crypto] (data : Bytes) : Value := ⟨Crypto.hash data, data⟩

def id (v : Value) : ValueId := ⟨v.value⟩

@[simp] theorem extensions_new [Crypto] (data : Bytes) : (Value.new data).extensions = data := rfl

end Value

/-! ## Consensus messages -/

inductive VoteType where
  | prevote
  | precommit
  deriving DecidableEq

inductive NilOrVal (α : Type) where
  | nil : NilOrVal α
  | val : α → NilOrVal α
  deriving DecidableEq

/-- A vote extension with its signature. -/
structure SignedExtension where
  message : Bytes
  signature : Signature
  deriving DecidableEq

/-- A vote for a value in a round. -/
structure Vote where
  typ : VoteType
  height : Height
  round : Round
  value : NilOrVal ValueId
  validatorAddress : Address
  extension : Option SignedExtension
  deriving DecidableEq

/-- `Vote::new_precommit`. -/
def Vote.newPrecommit (height : Height) (round : Round) (value : NilOrVal ValueId)
    (address : Address) : Vote :=
  { typ := .precommit
    height := height
    round := round
    value := value
    validatorAddress := address
    extension := none }

/-- A proposal for a value in a round. -/
structure Proposal where
  height : Height
  round : Round
  value : Value
  polRound : Round
  validatorAddress : Address
  deriving DecidableEq

/-- The first part of a streamed proposal. -/
structure ProposalInit where
  height : Height
  round : Round
  proposer : Address
  deriving DecidableEq

/-- A chunk of the data of a streamed proposal. -/
structure ProposalData where
  bytes : Bytes
  deriving DecidableEq

/-- The last part of a streamed proposal. -/
structure ProposalFin where
  signature : Signature
  deriving DecidableEq

/-- A part of a streamed proposal. -/
inductive ProposalPart where
  | init : ProposalInit → ProposalPart
  | data : ProposalData → ProposalPart
  | fin : ProposalFin → ProposalPart
  deriving DecidableEq

namespace ProposalPart

def asInit : ProposalPart → Option ProposalInit
  | init i => some i
  | _ => none

def asData : ProposalPart → Option ProposalData
  | data d => some d
  | _ => none

def getType : ProposalPart → String
  | init _ => "init"
  | data _ => "data"
  | fin _ => "fin"

end ProposalPart

/-- The precommit of one validator in a certificate. -/
structure CommitSignature where
  address : Address
  signature : Signature
  deriving DecidableEq

structure AggregatedSignature where
  signatures : List CommitSignature
  deriving DecidableEq

/-- The proof that a value has been decided on. -/
structure CommitCertificate where
  height : Height
  round : Round
  valueId : ValueId
  aggregatedSignature : AggregatedSignature
  deriving DecidableEq

inductive Validity where
  | valid
  | invalid
  deriving DecidableEq

def Validity.toBool : Validity → Bool
  | valid => true
  | invalid => false

def Validity.fromBool : Bool → Validity
  | true => valid
  | false => invalid

@[simp] theorem Validity.fromBool_toBool (v : Validity) : fromBool v.toBool = v := by
  cases v <;> rfl

/-- A value with the slot it is proposed for, as the node knows it. -/
structure ProposedValue where
  height : Height
  round : Round
  validRound : Round
  proposer : Address
  value : Value
  validity : Validity
  deriving DecidableEq

/-- A value the node proposes itself. -/
structure LocallyProposedValue where
  height : Height
  round : Round
  value : Value
  deriving DecidableEq

end MalakethTurbo
