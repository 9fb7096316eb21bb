import MalakethTurbo.App.Reassembly
import MalakethTurbo.App.Run

/-!
# Proposals on the wire

A proposal leaves its proposer as a stream: the slot, the data cut into chunks, the
signature, and the end.  The sender's half says that this is a well-formed stream and
that the hash the proposer signs is the hash a receiver computes over the parts, so
that from the parts put back in order the receiver verifies the signature and
assembles the data it was cut from.

The receiver's half follows one stream of one peer through a node: no message but
those of the stream itself touches what the node has of it.
-/

namespace MalakethTurbo

open Wire (Bytes)

/-! ## Chunks -/

theorem flatten_chunksUpTo {n size : Nat} {data : Bytes} (hsize : 0 < size)
    (hn : data.length ≤ n) : (chunksUpTo n size data).flatten = data := by
  induction n generalizing data with
  | zero =>
      rw [List.eq_nil_of_length_eq_zero (Nat.le_zero.mp hn)]
      rfl
  | succ n ih =>
      cases data with
      | nil => rfl
      | cons b data =>
          have hrest : ((b :: data).drop size).length ≤ n := by
            rw [List.length_drop]
            omega
          rw [chunksUpTo, List.flatten_cons, ih hrest, List.take_append_drop]

/-- The chunks are the data. -/
theorem flatten_chunks {size : Nat} (hsize : 0 < size) (data : Bytes) :
    (chunks size data).flatten = data :=
  flatten_chunksUpTo hsize le_rfl

/-! ## The messages of a stream -/

namespace State

variable {id : StreamId} {n : UInt64} {parts : List ProposalPart}
  {m : StreamMessage ProposalPart}

theorem length_streamMessages (id : StreamId) (n : UInt64) (parts : List ProposalPart) :
    (streamMessages id n parts).length = parts.length + 1 := by
  induction parts generalizing n with
  | nil => rfl
  | cons part parts ih => rw [streamMessages, List.length_cons, ih, List.length_cons]

theorem streamId_of_mem (h : m ∈ streamMessages id n parts) : m.streamId = id := by
  induction parts generalizing n with
  | nil => rw [List.mem_singleton.mp h]
  | cons part parts ih =>
      rcases List.mem_cons.mp h with rfl | h
      · rfl
      · exact ih h

/-- The parts are read off the messages. -/
theorem parts_streamMessages (id : StreamId) (n : UInt64) (parts : List ProposalPart) :
    (streamMessages id n parts).filterMap (fun m => m.content.asData) = parts := by
  induction parts generalizing n with
  | nil => rfl
  | cons part parts ih =>
      show part :: (streamMessages id (n + 1) parts).filterMap _ = _
      rw [ih]

/-- Each message is numbered, and the number of the end is how far the parts go. -/
theorem sequence_of_mem (hn : n.toNat + parts.length < 2 ^ 64)
    (h : m ∈ streamMessages id n parts) :
    n.toNat ≤ m.sequence.toNat ∧ (m.isFin → m.sequence.toNat = n.toNat + parts.length) := by
  induction parts generalizing n with
  | nil =>
      rw [List.mem_singleton.mp h]
      exact ⟨le_rfl, fun _ => rfl⟩
  | cons part parts ih =>
      rw [List.length_cons] at hn ⊢
      have hsucc : (n + 1).toNat = n.toNat + 1 := by
        rw [UInt64.toNat_add]
        exact Nat.mod_eq_of_lt (by show n.toNat + 1 < 2 ^ 64; omega)
      rcases List.mem_cons.mp h with rfl | h
      · exact ⟨le_rfl, fun hfin => absurd hfin (by simp [StreamMessage.isFin])⟩
      · obtain ⟨hle, hfin⟩ := ih (by omega) h
        refine ⟨by omega, fun hm => ?_⟩
        rw [hfin hm]
        omega

theorem pairwise_streamMessages (id : StreamId) (hn : n.toNat + parts.length < 2 ^ 64) :
    (streamMessages id n parts).Pairwise fun a b => a.sequence.toNat < b.sequence.toNat := by
  induction parts generalizing n with
  | nil => exact List.pairwise_singleton _ _
  | cons part parts ih =>
      rw [List.length_cons] at hn
      have hsucc : (n + 1).toNat = n.toNat + 1 := by
        rw [UInt64.toNat_add]
        exact Nat.mod_eq_of_lt (by show n.toNat + 1 < 2 ^ 64; omega)
      refine List.pairwise_cons.mpr ⟨fun m hm => ?_, ih (by omega)⟩
      have hle := (sequence_of_mem (by omega) hm).1
      show n.toNat < m.sequence.toNat
      omega

theorem exists_fin (id : StreamId) (n : UInt64) (parts : List ProposalPart) :
    ∃ m ∈ streamMessages id n parts, m.isFin := by
  induction parts generalizing n with
  | nil => exact ⟨_, List.mem_singleton_self _, rfl⟩
  | cons part parts ih =>
      obtain ⟨m, hm, hfin⟩ := ih (n + 1)
      exact ⟨m, List.mem_cons_of_mem _ hm, hfin⟩

/-- **Numbering parts makes a well-formed stream.** -/
theorem isStream_streamMessages (id : StreamId) (first : ProposalInit)
    {parts : List ProposalPart} (hlen : (ProposalPart.init first :: parts).length + 1 < 2 ^ 64) :
    IsStream (streamMessages id 0 (.init first :: parts)) first := by
  have hn : (0 : UInt64).toNat + (ProposalPart.init first :: parts).length < 2 ^ 64 := by
    show 0 + _ < _
    omega
  have hfirst : ∀ m ∈ streamMessages id 0 (.init first :: parts), m.sequence = 0 →
      m.content = .data (.init first) := by
    intro m hm hzero
    rcases List.mem_cons.mp hm with rfl | hm
    · rfl
    · have hbound : (0 + 1 : UInt64).toNat + parts.length < 2 ^ 64 := by
        rw [List.length_cons] at hlen
        show 1 + parts.length < 2 ^ 64
        omega
      have hle := (sequence_of_mem hbound hm).1
      rw [hzero] at hle
      exact absurd hle (by decide)
  refine ⟨pairwise_streamMessages id hn, ⟨_, List.mem_cons_self, rfl⟩, hfirst,
    exists_fin id 0 _, fun m hm hfin => ?_, ?_⟩
  · rw [(sequence_of_mem hn hm).2 hfin, length_streamMessages]
    show 0 + _ + 1 = _
    omega
  · rw [length_streamMessages]
    exact hlen

/-! ## What the receiver makes of the parts -/

section Parts

variable [Crypto]

/-- What a proposer signs for the data of a slot. -/
def hashed (height : Height) (round : Round) (data : Bytes) : Bytes :=
  Crypto.keccak256 (slotBytes height round ++ data) |>.val

omit [Crypto] in
/-- The data of a proposal in parts is the data. -/
theorem foldl_recreate_data (chunks : List Bytes) (hasher : Bytes) (o : Option Signature) :
    (chunks.map fun chunk => ProposalPart.data ⟨chunk⟩).foldl recreate (hasher, o) =
      (hasher ++ chunks.flatten, o) := by
  induction chunks generalizing hasher with
  | nil => rw [List.flatten_nil, List.append_nil]; rfl
  | cons chunk chunks ih =>
      rw [List.map_cons, List.foldl_cons, recreate, ih, List.flatten_cons, List.append_assoc]

/-- The receiver hashes what the proposer has hashed, and finds its signature. -/
theorem foldl_recreate_makeProposalParts (s : State) (v : LocallyProposedValue) (data : Bytes) :
    (s.makeProposalParts v data).foldl recreate ([], none) =
      (slotBytes v.height v.round ++ data,
        some (Crypto.sign s.signingKey (hashed v.height v.round data))) := by
  have hsize : 0 < CHUNK_SIZE := by decide
  have hdata := flatten_chunks hsize data
  unfold makeProposalParts
  rw [List.cons_append, List.foldl_cons, recreate, List.foldl_append, foldl_recreate_data,
    List.foldl_cons, recreate, List.foldl_nil, List.nil_append, hdata]
  rfl

/-- What the parts of a proposal are put together to. -/
def madeParts (s : State) (v : LocallyProposedValue) (data : Bytes) : ProposalParts :=
  ⟨v.height, v.round, s.address, s.makeProposalParts v data⟩

/-- **The parts of a proposal are assembled to the proposal.** -/
theorem assembleValueFromParts_madeParts (s : State) (v : LocallyProposedValue) (data : Bytes) :
    assembleValueFromParts (s.madeParts v data) =
      (s.localProposal v.height v.round (Value.new data), data) := by
  have hchunks : (s.makeProposalParts v data).filterMap ProposalPart.asData =
      (chunks CHUNK_SIZE data).map ProposalData.mk := by
    unfold makeProposalParts
    rw [List.cons_append, List.filterMap_cons_none rfl, List.filterMap_append,
      List.filterMap_map]
    show (chunks CHUNK_SIZE data).filterMap (some ∘ ProposalData.mk) ++ [] = _
    rw [List.append_nil, List.filterMap_eq_map]
  have hdata : ((s.makeProposalParts v data).filterMap ProposalPart.asData).flatMap
      ProposalData.bytes = data := by
    rw [hchunks, List.flatMap_map]
    show ((chunks CHUNK_SIZE data).flatMap fun chunk => chunk) = data
    rw [List.flatMap_id', flatten_chunks (by decide)]
  unfold assembleValueFromParts madeParts
  dsimp only
  rw [hdata]
  rfl

/-- The receiver accepts the signature if it knows the proposer by its key and the key
verifies its own signatures. -/
theorem verifyProposalSignature_madeParts {s receiver : State} {w : Validator}
    (v : LocallyProposedValue) (data : Bytes)
    (hknown : receiver.genesis.validatorSet.getByAddress s.address = some w)
    (hverify : Crypto.verify w.publicKey (hashed v.height v.round data)
      (Crypto.sign s.signingKey (hashed v.height v.round data)) = true) :
    receiver.verifyProposalSignature (s.madeParts v data) = .ok () := by
  unfold verifyProposalSignature madeParts
  dsimp only
  rw [foldl_recreate_makeProposalParts]
  dsimp only
  rw [hknown]
  exact if_pos hverify

end Parts

end State

/-! ## A whole stream -/

section Stream

variable [Crypto] {s : State} {v : LocallyProposedValue} {data : Bytes}
  {msgs : List (StreamMessage ProposalPart)}

/-- The beginning of the stream of a proposal. -/
def State.initOf (s : State) (v : LocallyProposedValue) : ProposalInit :=
  ⟨v.height, v.round, s.address⟩

/-- **What a proposer publishes is a well-formed stream of its proposal**, under the
identifier its height, its round and its nonce make. -/
theorem State.isStream_of_ok (h : (State.streamProposal v data s).result = .ok msgs) :
    IsStream msgs (s.initOf v) ∧ handedOut msgs (s.initOf v) = s.madeParts v data ∧
      ∃ round, s.currentRound = .some round ∧
        ∀ m ∈ msgs, m.streamId = s.nextStreamId round := by
  obtain ⟨round, hround, -, hlen, -, rfl⟩ := State.streamProposal_of_ok h
  refine ⟨State.isStream_streamMessages _ _ hlen, ?_, round, hround,
    fun m hm => State.streamId_of_mem hm⟩
  unfold handedOut State.madeParts
  rw [State.parts_streamMessages]
  rfl

/-- The only beginning among the messages of a proposal is the one of its slot. -/
theorem State.init_of_mem (h : handedOut msgs (s.initOf v) = s.madeParts v data)
    {m : StreamMessage ProposalPart} (hm : m ∈ msgs) {i : ProposalInit}
    (hi : m.content = .data (.init i)) : i = s.initOf v := by
  have hparts : msgs.filterMap (fun m => m.content.asData) = s.makeProposalParts v data :=
    congrArg ProposalParts.parts h
  have hmem : ProposalPart.init i ∈ s.makeProposalParts v data := by
    rw [← hparts]
    exact List.mem_filterMap.mpr ⟨m, hm, by rw [hi]; rfl⟩
  unfold State.makeProposalParts at hmem
  simpa [State.initOf] using hmem

omit [Crypto] in
/-- A part whose beginning names a round can be described. -/
theorem exists_describePart {content : StreamContent ProposalPart}
    (h : ∀ i, content = .data (.init i) → i.round ≠ .nil) :
    ∃ description, describePart content = .ok description := by
  cases content with
  | fin => exact ⟨_, rfl⟩
  | data part =>
      cases part with
      | data d => exact ⟨_, rfl⟩
      | fin f => exact ⟨_, rfl⟩
      | init i =>
          cases hround : i.round with
          | nil => exact absurd hround (h i rfl)
          | some r =>
              have hproto : (ProposalPart.init i).toProto =
                  .ok ⟨some (.init ⟨i.height.asU64, r, some i.proposer.toProto⟩)⟩ := by
                rw [ProposalPart.toProto, hround]
                rfl
              unfold describePart
              dsimp only
              unfold ProposalPart.sizeBytes ProposalPart.toSignBytes
              rw [hproto]
              exact ⟨_, rfl⟩

end Stream

/-! ## What the reassembler is given -/

/-- An action leaves the reassembler alone. -/
def LeavesStreams (s : State) (_ : List Effect) (s' : State) : Prop :=
  s'.streamsMap = s.streamsMap

theorem LeavesStreams.frame : Frame LeavesStreams where
  composes := ⟨fun _ => rfl, fun h h' => h'.trans h⟩
  write w s := by
    by_cases hw : w.Writable
    · rw [writeStore_of_writable hw]
      rfl
    · rw [writeStore_of_not_writable hw]
      rfl
  effect _ _ := rfl
  notes h := h.streamsMap

section Streams

variable [Crypto] {s : State} {peer : PeerId} {part : StreamMessage ProposalPart}

/-- A streamed part goes to the reassembler, whatever becomes of its proposal. -/
theorem streamsMap_receivedProposalPart :
    (State.receivedProposalPart peer part s).state.streamsMap =
      match (s.streamsMap.insert peer part : Call AppError _) with
      | .ok (_, map) => map
      | .error _ => s.streamsMap := by
  rcases State.receivedProposalPart_cases s peer part with
    ⟨e, hinsert, hrun⟩ | ⟨o, map, hinsert, hrun⟩ | ⟨parts, map, hinsert, haccept⟩
  · rw [hrun, hinsert]
  · rw [hrun, hinsert]
  · rw [State.receivedProposalPart_of_acceptable hinsert haccept, hinsert]
    exact Action.Keeps.bind (R := LeavesStreams) LeavesStreams.frame.composes
      (LeavesStreams.frame.keepProposal _ _ _ _)
      (fun _ => Action.Keeps.pure LeavesStreams.frame.composes
        (some (State.assembleValueFromParts parts).1)) { s with streamsMap := map }

/-- The answer to a part does not touch the state. -/
theorem state_handle_receivedProposalPart [Prost] [Payload] {description : String × Nat}
    (hpart : describePart part.content = .ok description) :
    (handle (.receivedProposalPart peer part) s).state =
      (State.receivedProposalPart peer part s).state := by
  rw [handle, hpart, Action.lift_ok_bind]
  rcases hrun : State.receivedProposalPart peer part s with ⟨e | o, s', es⟩
  · rw [Action.bind_of_error hrun]
  · rw [Action.bind_of_ok hrun]
    rfl

/-- **What becomes of the reassembler.**  A message leaves it alone, or is a part that it
is given. -/
theorem streamsMap_handle_cases [Prost] [Payload] (s : State) (msg : AppMsg) :
    (handle msg s).state.streamsMap = s.streamsMap ∨
      ∃ peer part o, msg = .receivedProposalPart peer part ∧
        s.streamsMap.insert peer part =
          (.ok (o, (handle msg s).state.streamsMap) : Call AppError _) := by
  by_cases hmsg : ∀ peer part, msg ≠ .receivedProposalPart peer part
  · exact Or.inl (LeavesStreams.frame.handle hmsg s)
  · push Not at hmsg
    obtain ⟨peer, part, rfl⟩ := hmsg
    rcases hpart : describePart part.content with e | description
    · rw [handle, hpart, Action.lift_error_bind]
      exact Or.inl rfl
    · rw [state_handle_receivedProposalPart hpart, streamsMap_receivedProposalPart]
      rcases hinsert : (s.streamsMap.insert peer part : Call AppError _) with e | ⟨o, map⟩
      · exact Or.inl rfl
      · exact Or.inr ⟨peer, part, o, rfl, hinsert⟩

/-- **Streams do not disturb each other.**  Only a message of the stream itself changes
what a node has of a stream. -/
theorem entry_handle_of_ne [Prost] [Payload] {msg : AppMsg} {key : StreamKey}
    (h : ∀ peer part, msg = .receivedProposalPart peer part → key ≠ ⟨peer, part.streamId⟩) :
    (handle msg s).state.streamsMap.entry key = s.streamsMap.entry key := by
  rcases streamsMap_handle_cases s msg with hsame | ⟨peer, part, o, hmsg, hinsert⟩
  · rw [hsame]
  · exact PartStreamsMap.entry_of_ne hinsert (h peer part hmsg)

end Streams

end MalakethTurbo
