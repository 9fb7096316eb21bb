import MalakethTurbo.Types.Proto

/-!
# The schema of the network messages

The rest of `consensus.proto` and `sync.proto`: signed messages, the messages of a
stream, and what nodes send each other to catch up.

Four of these messages are a `oneof`.  The member that is chosen is written even
where it is empty, zero or false, so an end marker that says `false` is a message
of its own.
-/

namespace MalakethTurbo
namespace Proto

open Wire

/-! ## Structures -/

/-- The `oneof message` of `message SignedMessage`. -/
inductive SignedMessage.Message where
  | proposal : Proposal → SignedMessage.Message
  | vote : Vote → SignedMessage.Message
  deriving DecidableEq

/-- `message SignedMessage`. -/
structure SignedMessage where
  message : Option SignedMessage.Message
  signature : Option Signature
  deriving DecidableEq

/-- The `oneof content` of `message StreamMessage`. -/
inductive StreamMessage.Content where
  | data : Bytes → StreamMessage.Content
  | fin : Bool → StreamMessage.Content
  deriving DecidableEq

/-- `message StreamMessage`. -/
structure StreamMessage where
  streamId : Bytes
  sequence : UInt64
  content : Option StreamMessage.Content
  deriving DecidableEq

/-- `message PeerId`. -/
structure PeerId where
  id : Bytes
  deriving DecidableEq

/-- `message Status`. -/
structure Status where
  peerId : Option PeerId
  height : UInt64
  earliestHeight : UInt64
  deriving DecidableEq

/-- `message ValueRequest`. -/
structure ValueRequest where
  height : UInt64
  deriving DecidableEq

/-- `message SyncedValue`. -/
structure SyncedValue where
  valueBytes : Bytes
  certificate : Option CommitCertificate
  deriving DecidableEq

/-- `message ValueResponse`. -/
structure ValueResponse where
  height : UInt64
  value : Option SyncedValue
  deriving DecidableEq

/-- `message VoteSetRequest`. -/
structure VoteSetRequest where
  height : UInt64
  round : UInt32
  deriving DecidableEq

/-- `message VoteSet`. -/
structure VoteSet where
  signedVotes : List SignedMessage
  deriving DecidableEq

/-- `message VoteSetResponse`. -/
structure VoteSetResponse where
  height : UInt64
  round : UInt32
  voteSet : Option VoteSet
  deriving DecidableEq

/-- The `oneof request` of `message SyncRequest`. -/
inductive SyncRequest.Request where
  | valueRequest : ValueRequest → SyncRequest.Request
  | voteSetRequest : VoteSetRequest → SyncRequest.Request
  deriving DecidableEq

/-- `message SyncRequest`. -/
structure SyncRequest where
  request : Option SyncRequest.Request
  deriving DecidableEq

/-- The `oneof response` of `message SyncResponse`. -/
inductive SyncResponse.Response where
  | valueResponse : ValueResponse → SyncResponse.Response
  | voteSetResponse : VoteSetResponse → SyncResponse.Response
  deriving DecidableEq

/-- `message SyncResponse`. -/
structure SyncResponse where
  response : Option SyncResponse.Response
  deriving DecidableEq

/-! ## Layout -/

def SignedMessage.Message.toField : SignedMessage.Message → Field
  | .proposal m => ⟨1, .len (encodeToVec m)⟩
  | .vote m => ⟨2, .len (encodeToVec m)⟩

def SignedMessage.Message.ofField : Field → Option (Option SignedMessage.Message)
  | ⟨1, .len b⟩ => some ((decodeMessage b).map .proposal)
  | ⟨2, .len b⟩ => some ((decodeMessage b).map .vote)
  | ⟨1, .varint _⟩ => some none
  | ⟨2, .varint _⟩ => some none
  | _ => none

instance : Message SignedMessage where
  toFields m := oneOf SignedMessage.Message.toField m.message ++ message 3 m.signature
  ofFields fs := do
    let msg ← readOneOf SignedMessage.Message.ofField fs
    let signature ← readMessage 3 fs
    return ⟨msg, signature⟩
  ofFields_toFields m := by
    have hmsg : ∀ c, SignedMessage.Message.ofField (SignedMessage.Message.toField c) =
        some (some c) := by
      intro c
      cases c <;>
        simp [SignedMessage.Message.toField, SignedMessage.Message.ofField]
    have htag : ∀ c, (SignedMessage.Message.toField c).tag ≠ 3 := by
      intro c
      cases c <;> simp [SignedMessage.Message.toField]
    rw [readOneOf_eq (o := m.message) hmsg (by
        rw [List.filterMap_append,
          filterMap_eq_nil_of_tag (fun p => rfl) tag_of_mem_message, List.append_nil]),
      readMessage_eq (o := m.signature) (by simp [select_oneOf htag])]
    simp

def StreamMessage.Content.toField : StreamMessage.Content → Field
  | .data b => ⟨3, .len b⟩
  | .fin b => ⟨4, .varint b.toNat⟩

def StreamMessage.Content.ofField : Field → Option (Option StreamMessage.Content)
  | ⟨3, .len b⟩ => some (some (.data b))
  | ⟨4, .varint n⟩ => some (some (.fin (decide (n ≠ 0))))
  | ⟨3, .varint _⟩ => some none
  | ⟨4, .len _⟩ => some none
  | _ => none

instance : Message StreamMessage where
  toFields m :=
    bytes 1 m.streamId ++ scalar 2 m.sequence.toNat ++
      oneOf StreamMessage.Content.toField m.content
  ofFields fs := do
    let streamId ← readBytes 1 fs
    let sequence ← readScalar 2 fs
    let content ← readOneOf StreamMessage.Content.ofField fs
    return ⟨streamId, UInt64.ofNat sequence, content⟩
  ofFields_toFields m := by
    have hcontent : ∀ c, StreamMessage.Content.ofField (StreamMessage.Content.toField c) =
        some (some c) := by
      intro c
      cases c with
      | data b => rfl
      | fin b => cases b <;> rfl
    have htag : ∀ t, t ≠ 3 → t ≠ 4 → ∀ c, (StreamMessage.Content.toField c).tag ≠ t := by
      intro t h3 h4 c
      cases c with
      | data b => exact h3.symm
      | fin b => exact h4.symm
    rw [readBytes_eq (b := m.streamId) (by simp [select_oneOf (htag 1 (by omega) (by omega))]),
      readScalar_eq (n := m.sequence.toNat)
        (by simp [select_oneOf (htag 2 (by omega) (by omega))]),
      readOneOf_eq (o := m.content) hcontent (by
        rw [List.filterMap_append, List.filterMap_append,
          filterMap_eq_nil_of_tag (fun p => rfl) tag_of_mem_bytes,
          filterMap_eq_nil_of_tag (fun p => rfl) tag_of_mem_scalar, List.nil_append,
          List.nil_append])]
    simp

instance : Message PeerId where
  toFields m := bytes 1 m.id
  ofFields fs := (readBytes 1 fs).map PeerId.mk
  ofFields_toFields m := by
    rw [readBytes_eq (b := m.id) (by simp)]
    rfl

instance : Message Status where
  toFields m :=
    message 1 m.peerId ++ scalar 2 m.height.toNat ++ scalar 3 m.earliestHeight.toNat
  ofFields fs := do
    let peerId ← readMessage 1 fs
    let height ← readScalar 2 fs
    let earliestHeight ← readScalar 3 fs
    return ⟨peerId, UInt64.ofNat height, UInt64.ofNat earliestHeight⟩
  ofFields_toFields m := by
    rw [readMessage_eq (o := m.peerId) (by simp),
      readScalar_eq (n := m.height.toNat) (by simp),
      readScalar_eq (n := m.earliestHeight.toNat) (by simp)]
    simp

instance : Message ValueRequest where
  toFields m := scalar 1 m.height.toNat
  ofFields fs := (readScalar 1 fs).map fun n => ⟨UInt64.ofNat n⟩
  ofFields_toFields m := by
    rw [readScalar_eq (n := m.height.toNat) (by simp)]
    simp

instance : Message SyncedValue where
  toFields m := bytes 1 m.valueBytes ++ message 2 m.certificate
  ofFields fs := do
    let valueBytes ← readBytes 1 fs
    let certificate ← readMessage 2 fs
    return ⟨valueBytes, certificate⟩
  ofFields_toFields m := by
    rw [readBytes_eq (b := m.valueBytes) (by simp),
      readMessage_eq (o := m.certificate) (by simp)]
    simp

instance : Message ValueResponse where
  toFields m := scalar 1 m.height.toNat ++ message 2 m.value
  ofFields fs := do
    let height ← readScalar 1 fs
    let value ← readMessage 2 fs
    return ⟨UInt64.ofNat height, value⟩
  ofFields_toFields m := by
    rw [readScalar_eq (n := m.height.toNat) (by simp),
      readMessage_eq (o := m.value) (by simp)]
    simp

instance : Message VoteSetRequest where
  toFields m := scalar 1 m.height.toNat ++ scalar 2 m.round.toNat
  ofFields fs := do
    let height ← readScalar 1 fs
    let round ← readScalar 2 fs
    return ⟨UInt64.ofNat height, UInt32.ofNat round⟩
  ofFields_toFields m := by
    rw [readScalar_eq (n := m.height.toNat) (by simp),
      readScalar_eq (n := m.round.toNat) (by simp)]
    simp

instance : Message VoteSet where
  toFields m := repeated 1 m.signedVotes
  ofFields fs := (readRepeated 1 fs).map VoteSet.mk
  ofFields_toFields m := by
    rw [readRepeated_eq (l := m.signedVotes) (by simp)]
    rfl

instance : Message VoteSetResponse where
  toFields m :=
    scalar 1 m.height.toNat ++ scalar 2 m.round.toNat ++ message 3 m.voteSet
  ofFields fs := do
    let height ← readScalar 1 fs
    let round ← readScalar 2 fs
    let voteSet ← readMessage 3 fs
    return ⟨UInt64.ofNat height, UInt32.ofNat round, voteSet⟩
  ofFields_toFields m := by
    rw [readScalar_eq (n := m.height.toNat) (by simp),
      readScalar_eq (n := m.round.toNat) (by simp),
      readMessage_eq (o := m.voteSet) (by simp)]
    simp

def SyncRequest.Request.toField : SyncRequest.Request → Field
  | .valueRequest m => ⟨1, .len (encodeToVec m)⟩
  | .voteSetRequest m => ⟨2, .len (encodeToVec m)⟩

def SyncRequest.Request.ofField : Field → Option (Option SyncRequest.Request)
  | ⟨1, .len b⟩ => some ((decodeMessage b).map .valueRequest)
  | ⟨2, .len b⟩ => some ((decodeMessage b).map .voteSetRequest)
  | ⟨1, .varint _⟩ => some none
  | ⟨2, .varint _⟩ => some none
  | _ => none

instance : Message SyncRequest where
  toFields m := oneOf SyncRequest.Request.toField m.request
  ofFields fs := (readOneOf SyncRequest.Request.ofField fs).map SyncRequest.mk
  ofFields_toFields m := by
    have hrequest : ∀ c, SyncRequest.Request.ofField (SyncRequest.Request.toField c) =
        some (some c) := by
      intro c
      cases c <;> simp [SyncRequest.Request.toField, SyncRequest.Request.ofField]
    rw [readOneOf_eq (o := m.request) hrequest rfl]
    rfl

def SyncResponse.Response.toField : SyncResponse.Response → Field
  | .valueResponse m => ⟨1, .len (encodeToVec m)⟩
  | .voteSetResponse m => ⟨2, .len (encodeToVec m)⟩

def SyncResponse.Response.ofField : Field → Option (Option SyncResponse.Response)
  | ⟨1, .len b⟩ => some ((decodeMessage b).map .valueResponse)
  | ⟨2, .len b⟩ => some ((decodeMessage b).map .voteSetResponse)
  | ⟨1, .varint _⟩ => some none
  | ⟨2, .varint _⟩ => some none
  | _ => none

instance : Message SyncResponse where
  toFields m := oneOf SyncResponse.Response.toField m.response
  ofFields fs := (readOneOf SyncResponse.Response.ofField fs).map SyncResponse.mk
  ofFields_toFields m := by
    have hresponse : ∀ c, SyncResponse.Response.ofField (SyncResponse.Response.toField c) =
        some (some c) := by
      intro c
      cases c <;> simp [SyncResponse.Response.toField, SyncResponse.Response.ofField]
    rw [readOneOf_eq (o := m.response) hresponse rfl]
    rfl

end Proto
end MalakethTurbo
