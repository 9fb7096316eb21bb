import MalakethTurbo.Data.OrderedMap
import MalakethTurbo.Types.Core
import Mathlib.Data.List.Sort
import Mathlib.Data.List.Lex
import Mathlib.Data.Prod.Lex

/-!
# Reassembling streamed proposals

A proposer sends its proposal in numbered messages, the last of which only says
that the stream is over.  The receiver keeps one `StreamState` for each peer and
stream: a heap of the messages in the order of their numbers, the numbers it has
seen, and what it has learnt from the first and from the last message.

`StreamState.insert` decides that a stream is complete by counting: the heap
holds as many messages as the end marker announced.
-/

namespace MalakethTurbo

open Wire (Bytes)

variable {ε T : Type}

/-! ## Stream messages -/

/-- A peer of the network, known by its identifier only. -/
structure PeerId where
  bytes : Bytes
  deriving DecidableEq

/-- The identifier a sender gives to a stream. -/
structure StreamId where
  bytes : Bytes
  deriving DecidableEq

/-- A message carries a part or ends its stream. -/
inductive StreamContent (T : Type) where
  | data : T → StreamContent T
  | fin : StreamContent T
  deriving DecidableEq

namespace StreamContent

def asData : StreamContent T → Option T
  | data t => some t
  | fin => none

end StreamContent

/-- A numbered message of a stream. -/
structure StreamMessage (T : Type) where
  streamId : StreamId
  sequence : UInt64
  content : StreamContent T
  deriving DecidableEq

namespace StreamMessage

/-- `is_first`: the message has sequence `0`. -/
def isFirst (msg : StreamMessage T) : Bool := msg.sequence = 0

/-- `is_fin`: the message ends its stream. -/
def isFin (msg : StreamMessage T) : Bool :=
  match msg.content with
  | .data _ => false
  | .fin => true

/-- The order of the heap: lower sequences come out first. -/
def before (a b : StreamMessage T) : Prop := a.sequence.toNat ≤ b.sequence.toNat

instance : DecidableRel (before : StreamMessage T → StreamMessage T → Prop) :=
  fun a b => inferInstanceAs (Decidable (a.sequence.toNat ≤ b.sequence.toNat))

instance : Std.Total (before : StreamMessage T → StreamMessage T → Prop) :=
  ⟨fun a b => Nat.le_total a.sequence.toNat b.sequence.toNat⟩

instance : IsTrans (StreamMessage T) before :=
  ⟨fun _ _ _ hab hbc => Nat.le_trans hab hbc⟩

end StreamMessage

/-! ## The heap -/

/-- A heap of messages, listed in the order it is drained in. -/
structure MinHeap (T : Type) where
  msgs : List (StreamMessage T)
  ordered : msgs.Pairwise StreamMessage.before

namespace MinHeap

def empty : MinHeap T := ⟨[], List.Pairwise.nil⟩

def push (heap : MinHeap T) (msg : StreamMessage T) : MinHeap T :=
  ⟨heap.msgs.orderedInsert StreamMessage.before msg, heap.ordered.orderedInsert msg _⟩

def len (heap : MinHeap T) : Nat := heap.msgs.length

/-- The parts in the order of their sequences; end markers carry none. -/
def drain (heap : MinHeap T) : List T := heap.msgs.filterMap fun msg => msg.content.asData

end MinHeap

/-! ## One stream -/

/-- What is known of one stream. -/
structure StreamState where
  buffer : MinHeap ProposalPart
  initInfo : Option ProposalInit
  seenSequences : List UInt64
  totalMessages : Nat
  finReceived : Bool

/-- A proposal whose stream is complete. -/
structure ProposalParts where
  height : Height
  round : Round
  proposer : Address
  parts : List ProposalPart
  deriving DecidableEq

namespace StreamState

instance : Inhabited StreamState := ⟨⟨MinHeap.empty, none, [], 0, false⟩⟩

/-- `StreamState::is_done`. -/
def isDone (state : StreamState) : Bool :=
  state.initInfo.isSome && state.finReceived &&
    decide (state.buffer.len = state.totalMessages)

/-- The first message carries what the proposal is for. -/
def recordFirst (state : StreamState) (msg : StreamMessage ProposalPart) : StreamState :=
  if msg.isFirst then
    { state with initInfo := msg.content.asData.bind ProposalPart.asInit }
  else state

/-- The last message carries how many there are; the addition is checked. -/
def recordFin (state : StreamState) (msg : StreamMessage ProposalPart) :
    Call ε StreamState :=
  if msg.isFin then do
    let total ← checkedAdd msg.sequence.toNat 1
    return { state with finReceived := true, totalMessages := total }
  else return state

/-- The end of `StreamState::insert`: a complete stream is drained and its first
message is taken out. -/
def complete (state : StreamState) : Option ProposalParts × StreamState :=
  if state.isDone then
    match state.initInfo with
    | none => (none, state)
    | some init =>
        (some ⟨init.height, init.round, init.proposer, state.buffer.drain⟩,
          { state with initInfo := none, buffer := MinHeap.empty })
  else (none, state)

/-- `StreamState::insert`. -/
def insert (state : StreamState) (msg : StreamMessage ProposalPart) :
    Call ε (Option ProposalParts × StreamState) := do
  let state ← (state.recordFirst msg).recordFin msg
  return complete { state with buffer := state.buffer.push msg }

end StreamState

/-! ## All streams -/

/-- Streams are kept for each peer and stream identifier. -/
structure StreamKey where
  peerId : PeerId
  streamId : StreamId

namespace StreamKey

/-- The bytes of a key as numbers, peer first. -/
def order (key : StreamKey) : List ℕ ×ₗ List ℕ :=
  toLex (key.peerId.bytes.map UInt8.toNat, key.streamId.bytes.map UInt8.toNat)

theorem order_injective : Function.Injective order := by
  rintro ⟨⟨a⟩, ⟨b⟩⟩ ⟨⟨a'⟩, ⟨b'⟩⟩ h
  obtain ⟨ha, hb⟩ := Prod.mk.inj (toLex_inj.mp h)
  have ha' : a = a' := map_toNat_injective ha
  have hb' : b = b' := map_toNat_injective hb
  rw [ha', hb']

instance : LinearOrder StreamKey := LinearOrder.lift' order order_injective

end StreamKey

/-- `PartStreamsMap`. -/
structure PartStreamsMap where
  streams : OrderedMap StreamKey StreamState

namespace PartStreamsMap

/-- `PartStreamsMap::new`. -/
def new : PartStreamsMap := ⟨OrderedMap.empty⟩

/-- `entry(key).or_default()`. -/
def entry (map : PartStreamsMap) (key : StreamKey) : StreamState :=
  (map.streams.get? key).getD default

/-- Puts the state of a stream back; a stream that is done is dropped. -/
def store (map : PartStreamsMap) (key : StreamKey) (state : StreamState) : PartStreamsMap :=
  if state.isDone then ⟨(map.streams.insert key state).remove key⟩
  else ⟨map.streams.insert key state⟩

/-- `PartStreamsMap::insert`: a message whose sequence has been seen is dropped. -/
def insert (map : PartStreamsMap) (peerId : PeerId) (msg : StreamMessage ProposalPart) :
    Call ε (Option ProposalParts × PartStreamsMap) :=
  let key := ⟨peerId, msg.streamId⟩
  let state := map.entry key
  if msg.sequence ∈ state.seenSequences then
    return (none, ⟨map.streams.insert key state⟩)
  else do
    let state := { state with seenSequences := msg.sequence :: state.seenSequences }
    let (result, state) ← state.insert msg
    return (result, map.store key state)

end PartStreamsMap

end MalakethTurbo
