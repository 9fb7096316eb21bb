import MalakethTurbo.App.Ledger
import MalakethTurbo.App.Streaming
import MalakethTurbo.Logic.Action
import MalakethTurbo.Types.ValidatorSet
import Mathlib.Data.Finset.Basic

/-!
# The state of the application

The methods of `State`, each an action on the state: what it returns, what it
leaves behind, and what it does to the outside on its way (the transactions it
commits, the replies it sends, the messages it publishes, the execution tasks it
spawns).  The effects are in the order in which they happen, so a process that
dies in the middle of a method leaves the store that a first part of its
transactions produces.

Two producers fill the undecided slots.  `proposeValue` writes the node's own
proposal and `receivedProposalPart` the proposal of a peer whose stream is
complete; both write the proposal and its block data with the insert-if-absent
writers of the store and hand the value they have just built to the caller.
`commit` looks a decided value up by the height and the round of its certificate.
-/

namespace MalakethTurbo

open Wire (Bytes)
open MalakethTurbo.Action (read change lift perform performAll)

/-! ## Errors, replies and effects -/

/-- The errors a method returns. -/
inductive AppError where
  | io : AppError
  | payload : AppError
  | store : StoreError → AppError
  deriving DecidableEq

/-- A value decided elsewhere, as it is sent over the wire. -/
structure RawDecidedValue where
  certificate : CommitCertificate
  valueBytes : Bytes
  deriving DecidableEq

/-- The replies to consensus. -/
inductive Reply where
  | startHeight : Height → ValidatorSet → Reply
  | localValue : LocallyProposedValue → Reply
  | receivedValue : Option ProposedValue → Reply
  | validatorSet : ValidatorSet → Reply
  | syncedValue : ProposedValue → Reply
  | decidedValue : Option RawDecidedValue → Reply
  | historyMinHeight : Height → Reply
  | noExtension : Reply
  | extensionOk : Reply
  deriving DecidableEq

/-- What the application does to the outside. -/
inductive Effect where
  | write : StoreWrite → Effect
  | reply : Reply → Effect
  | publish : StreamMessage ProposalPart → Effect
  | spawn : Height → Bytes → Effect
  deriving DecidableEq

namespace Effect

def asWrite : Effect → Option StoreWrite
  | write w => some w
  | _ => none

def asReply : Effect → Option Reply
  | reply r => some r
  | _ => none

def asPublish : Effect → Option (StreamMessage ProposalPart)
  | publish m => some m
  | _ => none

end Effect

/-- The transactions among the effects. -/
def writes (es : List Effect) : List StoreWrite := es.filterMap Effect.asWrite

/-- The replies among the effects. -/
def replies (es : List Effect) : List Reply := es.filterMap Effect.asReply

/-- The messages published among the effects. -/
def published (es : List Effect) : List (StreamMessage ProposalPart) :=
  es.filterMap Effect.asPublish

section Selecting

variable (es es' : List Effect)

@[simp] theorem writes_nil : writes [] = [] := rfl

@[simp] theorem replies_nil : replies [] = [] := rfl

@[simp] theorem published_nil : published [] = [] := rfl

@[simp] theorem writes_append : writes (es ++ es') = writes es ++ writes es' :=
  List.filterMap_append

@[simp] theorem replies_append : replies (es ++ es') = replies es ++ replies es' :=
  List.filterMap_append

@[simp] theorem published_append : published (es ++ es') = published es ++ published es' :=
  List.filterMap_append

@[simp] theorem writes_write_cons (w : StoreWrite) :
    writes (.write w :: es) = w :: writes es := rfl

@[simp] theorem writes_reply_cons (r : Reply) : writes (.reply r :: es) = writes es := rfl

@[simp] theorem writes_spawn_cons (h : Height) (data : Bytes) :
    writes (.spawn h data :: es) = writes es := rfl

@[simp] theorem replies_write_cons (w : StoreWrite) : replies (.write w :: es) = replies es := rfl

@[simp] theorem replies_reply_cons (r : Reply) :
    replies (.reply r :: es) = r :: replies es := rfl

@[simp] theorem replies_spawn_cons (h : Height) (data : Bytes) :
    replies (.spawn h data :: es) = replies es := rfl

@[simp] theorem published_write_cons (w : StoreWrite) :
    published (.write w :: es) = published es := rfl

@[simp] theorem published_reply_cons (r : Reply) :
    published (.reply r :: es) = published es := rfl

@[simp] theorem published_spawn_cons (h : Height) (data : Bytes) :
    published (.spawn h data :: es) = published es := rfl

@[simp] theorem writes_map_write (ws : List StoreWrite) : writes (ws.map .write) = ws := by
  rw [writes, List.filterMap_map]
  exact List.filterMap_some

@[simp] theorem replies_map_write (ws : List StoreWrite) : replies (ws.map .write) = [] := by
  rw [replies, List.filterMap_map]
  exact List.filterMap_none _

@[simp] theorem published_map_write (ws : List StoreWrite) : published (ws.map .write) = [] := by
  rw [published, List.filterMap_map]
  exact List.filterMap_none _

@[simp] theorem writes_map_publish (msgs : List (StreamMessage ProposalPart)) :
    writes (msgs.map .publish) = [] := by
  rw [writes, List.filterMap_map]
  exact List.filterMap_none _

@[simp] theorem replies_map_publish (msgs : List (StreamMessage ProposalPart)) :
    replies (msgs.map .publish) = [] := by
  rw [replies, List.filterMap_map]
  exact List.filterMap_none _

@[simp] theorem published_map_publish (msgs : List (StreamMessage ProposalPart)) :
    published (msgs.map .publish) = msgs := by
  rw [published, List.filterMap_map]
  exact List.filterMap_some

end Selecting

/-! ## The block source -/

/-- A block as the proposer sees it: the number in its header, and what it has beside. -/
structure NumberedBlock (ρ : Type) where
  number : UInt64
  rest : ρ

/-- The libraries that read the execution payload of a block and write it. -/
class Payload where
  ExecutionPayloadV1 : Type
  /-- A block but for its number. -/
  Rest : Type
  /-- `serde_json::from_slice`. -/
  fromSlice : Bytes → Option ExecutionPayloadV1
  tryIntoBlock : ExecutionPayloadV1 → Option (NumberedBlock Rest)
  fromBlockSlow : NumberedBlock Rest → ExecutionPayloadV1
  /-- `serde_json::to_vec`. -/
  toVec : ExecutionPayloadV1 → Option Bytes

/-- The payload of a block with another number.  Bytes that are no payload of a block have
none. -/
def Payload.withNumber [Payload] (number : UInt64) (block : Bytes) : Option Bytes := do
  let payload ← fromSlice block
  let block ← tryIntoBlock payload
  toVec (fromBlockSlow { block with number := number })

/-- A payload to run the program with: block numbers are not looked at. -/
@[reducible] def demoPayload : Payload where
  ExecutionPayloadV1 := Bytes
  Rest := Bytes
  fromSlice := some
  tryIntoBlock payload := some ⟨0, payload⟩
  fromBlockSlow block := block.rest
  toVec := some

/-- `BlockProposer`: what is left of the file of blocks. -/
structure BlockProposer where
  reader : Bytes

namespace BlockProposer

/-- `u32::from_be_bytes`, of the four bytes it is given. -/
def lengthOf (b : Bytes) : Nat := b.foldl (fun n x => n * 256 + x.toNat) 0

/-- `BlockProposer::read_block`: a file that ends in the length of a block has no
further block, one that ends in the block itself is an error. -/
def readBlock (p : BlockProposer) : Call AppError (Option Bytes) × BlockProposer :=
  if p.reader.length < 4 then (.ok none, ⟨[]⟩)
  else
    let len := lengthOf (p.reader.take 4)
    let rest := p.reader.drop 4
    if rest.length < len then (.error (.err .io), ⟨[]⟩)
    else (.ok (some (rest.take len)), ⟨rest.drop len⟩)

/-- `BlockProposer::propose_block`: no block left is an empty block. -/
def proposeBlock [Payload] (p : BlockProposer) (currentHeight : UInt64) :
    Call AppError Bytes × BlockProposer :=
  match p.readBlock with
  | (.error e, p) => (.error e, p)
  | (.ok none, p) => (.ok [], p)
  | (.ok (some block), p) => (okOr .payload (Payload.withNumber currentHeight block), p)

end BlockProposer

/-! ## The state -/

/-- `State`. -/
structure State where
  genesis : Genesis
  signingKey : PrivateKey
  address : Address
  store : Db
  streamNonce : UInt32
  streamsMap : PartStreamsMap
  blockProposer : BlockProposer
  rpcServer : Bool
  currentHeight : Height
  currentRound : Round
  currentProposer : Option Address
  peers : Finset PeerId

/-- What a node is started with, the contents of its store apart. -/
structure Config where
  genesis : Genesis
  signingKey : PrivateKey
  startHeight : Option Height
  blocks : Bytes
  enableRpc : Bool

/-- `State::new`, as `App::start` calls it.  The server may fail to start. -/
def State.new [Crypto] (config : Config) (store : Db) (serverStarts : Bool) : State where
  genesis := config.genesis
  signingKey := config.signingKey
  address := Address.fromPublicKey (Crypto.publicKey config.signingKey)
  store := store
  streamNonce := 0
  streamsMap := .new
  blockProposer := ⟨config.blocks⟩
  rpcServer := config.enableRpc && serverStarts
  currentHeight := config.startHeight.getD default
  currentRound := .new 0
  currentProposer := none
  peers := ∅

/-- The actions of the application. -/
abbrev AppM := Action State Effect (Stop AppError)

/-- The `?` on a call into the store. -/
def storeCall {α : Type} : Call StoreError α → Call AppError α
  | .ok a => .ok a
  | .error (.err e) => .error (.err (.store e))
  | .error .panic => .error .panic

/-- A write transaction, run on a blocking task. -/
def writeStore (w : StoreWrite) : AppM Unit := fun s =>
  match storeCall (spawnBlocking (w.run s.store)) with
  | .ok db => ⟨.ok (), { s with store := db }, [.write w]⟩
  | .error e => ⟨.error e, s, []⟩

/-! ## Proposing -/

/-- Size of the chunks in which the data is split for streaming: 128 KiB. -/
def CHUNK_SIZE : Nat := 128 * 1024

/-- `slice::chunks`; the first argument bounds the number of chunks. -/
def chunksUpTo : Nat → Nat → Bytes → List Bytes
  | 0, _, _ => []
  | _ + 1, _, [] => []
  | n + 1, size, b :: data =>
      (b :: data).take size :: chunksUpTo n size ((b :: data).drop size)

/-- `slice::chunks`. -/
def chunks (size : Nat) (data : Bytes) : List Bytes := chunksUpTo data.length size data

/-- What `Hasher::update` is given for the height and the round of a proposal. -/
def slotBytes (height : Height) (round : Round) : Bytes :=
  u64Bytes height.asU64 ++ i64Bytes round.asI64

namespace State

variable [Crypto] [Prost] [Payload]

/-- `State::make_block`. -/
def makeBlock : AppM Bytes := do
  let s ← read
  let (block, proposer) := s.blockProposer.proposeBlock s.currentHeight.asU64
  change fun s => { s with blockProposer := proposer }
  lift block

/-- The two writes of a producer: the proposal and its block data. -/
def keepProposal (proposal : ProposedValue) (height : Height) (round : Round) (data : Bytes) :
    AppM Unit := do
  writeStore (.undecidedProposal proposal)
  writeStore (.undecidedBlockData height round data)

/-- The proposal of this node for a value. -/
def localProposal (s : State) (height : Height) (round : Round) (value : Value) :
    ProposedValue where
  height := height
  round := round
  validRound := .nil
  proposer := s.address
  value := value
  validity := .valid

/-- `State::propose_value`. -/
def proposeValue (height : Height) (round : Round) (data : Bytes) :
    AppM LocallyProposedValue := do
  let s ← read
  lift (assert (height = s.currentHeight))
  lift (assert (round = s.currentRound))
  let value := Value.new data
  let proposal := s.localProposal height round value
  keepProposal proposal height round data
  return ⟨proposal.height, proposal.round, proposal.value⟩

/-- `State::stream_id`. -/
def streamId : AppM StreamId := do
  let s ← read
  let round ← lift (unwrap s.currentRound.asU32)
  let bytes := u64Bytes s.currentHeight.asU64 ++ u32Bytes round ++ u32Bytes s.streamNonce
  lift (assert (s.streamNonce.toNat + 1 < 2 ^ 32))
  change fun s => { s with streamNonce := s.streamNonce + 1 }
  return ⟨bytes⟩

/-- `State::make_proposal_parts`. -/
def makeProposalParts (s : State) (value : LocallyProposedValue) (data : Bytes) :
    List ProposalPart :=
  let init := ProposalPart.init ⟨value.height, value.round, s.address⟩
  let chunks := chunks CHUNK_SIZE data
  let hash := Crypto.keccak256 (slotBytes value.height value.round ++ chunks.flatten)
  let signature := Crypto.sign s.signingKey hash.val
  init :: chunks.map (fun chunk => .data ⟨chunk⟩) ++ [.fin ⟨signature⟩]

/-- The messages of a stream from a sequence on: one for each part and the end. -/
def streamMessages (streamId : StreamId) :
    UInt64 → List ProposalPart → List (StreamMessage ProposalPart)
  | sequence, [] => [⟨streamId, sequence, .fin⟩]
  | sequence, part :: parts =>
      ⟨streamId, sequence, .data part⟩ :: streamMessages streamId (sequence + 1) parts

/-- `State::stream_proposal`.  The number of messages is computed before the first
is numbered, so no sequence overflows. -/
def streamProposal (value : LocallyProposedValue) (data : Bytes) :
    AppM (List (StreamMessage ProposalPart)) := do
  let s ← read
  let parts := s.makeProposalParts value data
  let streamId ← streamId
  let _ ← lift (checkedAdd parts.length 1)
  return streamMessages streamId 0 parts

/-! ## Receiving -/

/-- The errors of `verify_proposal_signature`. -/
inductive SignatureVerificationError where
  | missingFinPart
  | proposerNotFound
  | invalidSignature
  deriving DecidableEq

/-- One part in the loop of `verify_proposal_signature`: what has been hashed so far
and the last signature seen. -/
def recreate : Bytes × Option Signature → ProposalPart → Bytes × Option Signature
  | (hasher, signature), .init init => (hasher ++ slotBytes init.height init.round, signature)
  | (hasher, signature), .data data => (hasher ++ data.bytes, signature)
  | (hasher, _), .fin fin => (hasher, some fin.signature)

/-- `State::verify_proposal_signature`. -/
def verifyProposalSignature (s : State) (parts : ProposalParts) :
    Except SignatureVerificationError Unit :=
  let (hasher, signature) := parts.parts.foldl recreate ([], none)
  let hash := Crypto.keccak256 hasher
  match signature with
  | none => .error .missingFinPart
  | some signature =>
      match s.genesis.validatorSet.getByAddress parts.proposer with
      | none => .error .proposerNotFound
      | some validator =>
          if Crypto.verify validator.publicKey hash.val signature then .ok ()
          else .error .invalidSignature

/-- `assemble_value_from_parts`. -/
def assembleValueFromParts (parts : ProposalParts) : ProposedValue × Bytes :=
  let data := (parts.parts.filterMap ProposalPart.asData).flatMap ProposalData.bytes
  ({ height := parts.height
     round := parts.round
     validRound := .nil
     proposer := parts.proposer
     value := Value.new data
     validity := .valid }, data)

/-- `State::received_proposal_part`. -/
def receivedProposalPart (peer : PeerId) (part : StreamMessage ProposalPart) :
    AppM (Option ProposedValue) := do
  let s ← read
  let (result, streamsMap) ← lift (s.streamsMap.insert peer part)
  change fun s => { s with streamsMap := streamsMap }
  match result with
  | none => return none
  | some parts =>
      if parts.height < s.currentHeight then return none
      else
        match s.verifyProposalSignature parts with
        | .error _ => return none
        | .ok () => do
            let (value, data) := assembleValueFromParts parts
            keepProposal value parts.height parts.round data
            return some value

/-! ## Deciding -/

/-- Maximum number of blocks to keep in history. -/
def MAX_HISTORY_LENGTH : UInt64 := 25

/-- The block data of a decided value: stored, and executed in the background on a
node that runs the RPC server. -/
def commitBlockData (certificate : CommitCertificate) : AppM Unit := do
  let s ← read
  match s.store.getBlockData certificate.height certificate.round with
  | none => return ()
  | some data =>
      writeStore (.decidedBlockData certificate.height data)
      if data ≠ [] ∧ s.rpcServer then perform (.spawn certificate.height data)
      else return ()

/-- Moves to the next height. -/
def nextHeight : AppM Unit := do
  let s ← read
  let height ← lift s.currentHeight.increment
  change fun s => { s with currentHeight := height, currentRound := .new 0 }

/-- `State::commit`. -/
def commit (certificate : CommitCertificate) : AppM Unit := do
  let s ← read
  let proposal ← lift (storeCall (spawnBlocking
    (s.store.getUndecidedProposal certificate.height certificate.round)))
  match proposal with
  | none => return ()
  | some proposal =>
      writeStore (.decidedValue ⟨proposal.value, certificate⟩)
      commitBlockData certificate
      writeStore (.prune (certificate.height.saturatingSub MAX_HISTORY_LENGTH))
      nextHeight

/-! ## Queries -/

/-- `State::get_earliest_height`. -/
def getEarliestHeight (s : State) : Height := s.store.minDecidedValueHeight.getD default

/-- `State::get_decided_value`. -/
def getDecidedValue (s : State) (height : Height) : Option DecidedValue :=
  s.store.getDecidedValue height

end State

end MalakethTurbo
