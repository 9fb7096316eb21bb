import MalakethTurbo.App.State

/-!
# What each method does

One lemma for each method and each way it can go, as an equation for the whole
outcome: the result, the state and the effects.  Everything after this module
uses these equations and never looks into a method.

The two producers share `keepProposal_run`: the proposal and its block data are
written together or, when the round is missing, not at all.  A commit either finds
a proposal in the slot of its certificate and does all it has to
(`commit_of_slot`), or it does nothing (`commit_of_empty`, `commit_of_error`).
-/

namespace MalakethTurbo

open Wire (Bytes)

/-! ## Transactions -/

/-- The state after transactions. -/
def State.afterWrites (s : State) (ws : List StoreWrite) : State :=
  { s with store := StoreWrite.applyAll s.store ws }

@[simp] theorem State.store_afterWrites (s : State) (ws : List StoreWrite) :
    (s.afterWrites ws).store = StoreWrite.applyAll s.store ws := rfl

@[simp] theorem State.afterWrites_nil (s : State) : s.afterWrites [] = s := rfl

theorem State.afterWrites_append (s : State) (ws vs : List StoreWrite) :
    s.afterWrites (ws ++ vs) = (s.afterWrites ws).afterWrites vs := by
  rw [State.afterWrites, StoreWrite.applyAll_append]
  rfl

theorem writeStore_of_writable {w : StoreWrite} (h : w.Writable) (s : State) :
    writeStore w s = ⟨.ok (), s.afterWrites [w], [.write w]⟩ := by
  rw [writeStore, StoreWrite.run_of_writable h]
  rfl

theorem writeStore_of_not_writable {w : StoreWrite} (h : ¬ w.Writable) (s : State) :
    writeStore w s = ⟨.error (.err (.store .taskJoin)), s, []⟩ := by
  rw [writeStore, StoreWrite.run_of_not_writable h]
  rfl

namespace State

/-! ## The producers -/

section Producers

/-- The transactions of a producer. -/
def keepWrites (p : ProposedValue) (height : Height) (round : Round) (data : Bytes) :
    List StoreWrite :=
  [.undecidedProposal p, .undecidedBlockData height round data]

/-- The two writes of a producer go through together: only a missing round stops
them, and it stops the first. -/
theorem keepProposal_run {p : ProposedValue} (h : p.round ≠ .nil) (height : Height)
    (round : Round) (data : Bytes) (s : State) :
    keepProposal p height round data s =
      ⟨.ok (), s.afterWrites (keepWrites p height round data),
        (keepWrites p height round data).map .write⟩ := by
  have hfirst := writeStore_of_writable (w := .undecidedProposal p) h s
  rw [keepProposal, Action.bind_of_ok hfirst,
    writeStore_of_writable (w := .undecidedBlockData height round data) trivial]
  rfl

theorem keepProposal_of_nil {p : ProposedValue} (h : p.round = .nil) (height : Height)
    (round : Round) (data : Bytes) (s : State) :
    keepProposal p height round data s = ⟨.error (.err (.store .taskJoin)), s, []⟩ :=
  Action.bind_of_error
    (writeStore_of_not_writable (w := .undecidedProposal p) (fun hw => hw h) s)

variable [Crypto]

/-- The node proposes for the height and the round it is in, and keeps what it
proposes unless the slot is taken. -/
theorem proposeValue_run {s : State} (h : s.currentRound ≠ .nil) (data : Bytes) :
    ∃ ws, ws = keepWrites (s.localProposal s.currentHeight s.currentRound (Value.new data))
        s.currentHeight s.currentRound data ∧
      proposeValue s.currentHeight s.currentRound data s =
        ⟨.ok ⟨s.currentHeight, s.currentRound, Value.new data⟩, s.afterWrites ws,
          ws.map .write⟩ := by
  refine ⟨_, rfl, ?_⟩
  have hkeep := keepProposal_run
    (p := s.localProposal s.currentHeight s.currentRound (Value.new data)) h
    s.currentHeight s.currentRound data s
  simp only [proposeValue, Action.read_bind, assert_of, Action.lift_ok_bind]
  rw [Action.bind_of_ok hkeep]
  rfl

/-- It proposes nothing else. -/
theorem proposeValue_of_not {s : State} {height : Height} {round : Round} (data : Bytes)
    (h : ¬ (height = s.currentHeight ∧ round = s.currentRound ∧ round ≠ .nil)) :
    ∃ e, proposeValue height round data s = ⟨.error e, s, []⟩ := by
  simp only [proposeValue, Action.read_bind]
  by_cases hheight : height = s.currentHeight
  · rw [assert_of hheight, Action.lift_ok_bind]
    by_cases hround : round = s.currentRound
    · rw [assert_of hround, Action.lift_ok_bind]
      have hnil : round = .nil := by
        by_contra hne
        exact h ⟨hheight, hround, hne⟩
      exact ⟨_, Action.bind_of_error (keepProposal_of_nil hnil _ _ _ _)⟩
    · rw [assert_of_not hround, Action.lift_error_bind]
      exact ⟨_, rfl⟩
  · rw [assert_of_not hheight, Action.lift_error_bind]
    exact ⟨_, rfl⟩

/-- A node proposes in the height and the round it is in, and the value is the data it
was given. -/
theorem proposeValue_of_ok {s : State} {height : Height} {round : Round} {data : Bytes}
    {v : LocallyProposedValue} (h : (proposeValue height round data s).result = .ok v) :
    height = s.currentHeight ∧ round = s.currentRound ∧ round ≠ .nil ∧
      v = ⟨height, round, Value.new data⟩ := by
  by_cases hslot : height = s.currentHeight ∧ round = s.currentRound ∧ round ≠ .nil
  · obtain ⟨rfl, rfl, hround⟩ := hslot
    obtain ⟨ws, -, hrun⟩ := proposeValue_run hround data
    rw [hrun] at h
    exact ⟨rfl, rfl, hround, (Except.ok.inj h).symm⟩
  · obtain ⟨e, hrun⟩ := proposeValue_of_not data hslot
    rw [hrun] at h
    exact absurd h (by simp)

/-- A complete proposal that is kept: it is not outdated and its signature
verifies. -/
def Acceptable (s : State) (parts : ProposalParts) : Prop :=
  ¬ parts.height < s.currentHeight ∧ s.verifyProposalSignature parts = .ok ()

/-- A part that completes an acceptable proposal hands its value over and keeps it
unless the slot is taken. -/
theorem receivedProposalPart_of_acceptable {s : State} {peer : PeerId}
    {part : StreamMessage ProposalPart} {parts : ProposalParts} {map : PartStreamsMap}
    (hinsert : s.streamsMap.insert peer part = (.ok (some parts, map) : Call AppError _))
    (h : s.Acceptable parts) :
    receivedProposalPart peer part s =
      (do
        keepProposal (assembleValueFromParts parts).1 parts.height parts.round
          (assembleValueFromParts parts).2
        return some (assembleValueFromParts parts).1)
        { s with streamsMap := map } := by
  simp only [receivedProposalPart, Action.read_bind, hinsert, Action.lift_ok_bind,
    Action.change_bind, if_neg h.1, h.2]

theorem receivedProposalPart_run {s : State} {peer : PeerId}
    {part : StreamMessage ProposalPart} {parts : ProposalParts} {map : PartStreamsMap}
    (hinsert : s.streamsMap.insert peer part = (.ok (some parts, map) : Call AppError _))
    (h : s.Acceptable parts) (hround : parts.round ≠ .nil) :
    ∃ ws, ws = keepWrites (assembleValueFromParts parts).1 parts.height parts.round
        (assembleValueFromParts parts).2 ∧
      receivedProposalPart peer part s =
        ⟨.ok (some (assembleValueFromParts parts).1),
          { s with streamsMap := map }.afterWrites ws, ws.map .write⟩ := by
  refine ⟨_, rfl, ?_⟩
  have hkeep := keepProposal_run (p := (assembleValueFromParts parts).1) hround parts.height
    parts.round (assembleValueFromParts parts).2 { s with streamsMap := map }
  rw [receivedProposalPart_of_acceptable hinsert h, Action.bind_of_ok hkeep]
  simp [Action.after]

theorem receivedProposalPart_of_nil {s : State} {peer : PeerId}
    {part : StreamMessage ProposalPart} {parts : ProposalParts} {map : PartStreamsMap}
    (hinsert : s.streamsMap.insert peer part = (.ok (some parts, map) : Call AppError _))
    (h : s.Acceptable parts) (hround : parts.round = .nil) :
    receivedProposalPart peer part s =
      ⟨.error (.err (.store .taskJoin)), { s with streamsMap := map }, []⟩ := by
  rw [receivedProposalPart_of_acceptable hinsert h]
  exact Action.bind_of_error (keepProposal_of_nil hround _ _ _ _)

/-- A part that completes nothing acceptable changes the reassembler only. -/
theorem receivedProposalPart_of_not {s : State} {peer : PeerId}
    {part : StreamMessage ProposalPart} {o : Option ProposalParts} {map : PartStreamsMap}
    (hinsert : s.streamsMap.insert peer part = (.ok (o, map) : Call AppError _))
    (h : ∀ parts, o = some parts → ¬ s.Acceptable parts) :
    receivedProposalPart peer part s = ⟨.ok none, { s with streamsMap := map }, []⟩ := by
  simp only [receivedProposalPart, Action.read_bind, hinsert, Action.lift_ok_bind,
    Action.change_bind]
  cases o with
  | none => rfl
  | some parts =>
      by_cases hheight : parts.height < s.currentHeight
      · simp only [if_pos hheight]
        rfl
      · simp only [if_neg hheight]
        cases hverify : s.verifyProposalSignature parts with
        | error e => rfl
        | ok u => exact absurd ⟨hheight, hverify⟩ (h parts rfl)

theorem receivedProposalPart_of_error {s : State} {peer : PeerId}
    {part : StreamMessage ProposalPart} {e : Stop AppError}
    (hinsert : s.streamsMap.insert peer part = (.error e : Call AppError _)) :
    receivedProposalPart peer part s = ⟨.error e, s, []⟩ := by
  simp only [receivedProposalPart, Action.read_bind, hinsert, Action.lift_error_bind]

/-- **What a part does.**  It fails at the reassembler, or it completes nothing acceptable
and changes the reassembler only, or it completes an acceptable proposal. -/
theorem receivedProposalPart_cases (s : State) (peer : PeerId)
    (part : StreamMessage ProposalPart) :
    (∃ e, s.streamsMap.insert peer part = (.error e : Call AppError _) ∧
        receivedProposalPart peer part s = ⟨.error e, s, []⟩) ∨
      (∃ o map, s.streamsMap.insert peer part = (.ok (o, map) : Call AppError _) ∧
        receivedProposalPart peer part s = ⟨.ok none, { s with streamsMap := map }, []⟩) ∨
      ∃ parts map,
        s.streamsMap.insert peer part = (.ok (some parts, map) : Call AppError _) ∧
          s.Acceptable parts := by
  rcases hinsert : (s.streamsMap.insert peer part : Call AppError _) with e | ⟨o, map⟩
  · exact Or.inl ⟨e, rfl, receivedProposalPart_of_error hinsert⟩
  · by_cases hnone : ∀ parts, o = some parts → ¬ s.Acceptable parts
    · exact Or.inr (Or.inl ⟨o, map, rfl, receivedProposalPart_of_not hinsert hnone⟩)
    · push Not at hnone
      obtain ⟨parts, rfl, haccept⟩ := hnone
      exact Or.inr (Or.inr ⟨parts, map, rfl, haccept⟩)

/-! ## Blocks and streams -/

omit [Crypto] in
theorem makeBlock_run [Payload] (s : State) :
    makeBlock s =
      ⟨(s.blockProposer.proposeBlock s.currentHeight.asU64).1,
        { s with blockProposer := (s.blockProposer.proposeBlock s.currentHeight.asU64).2 },
        []⟩ := rfl

/-- The bytes of the next stream identifier in a round. -/
def nextStreamId (s : State) (round : UInt32) : StreamId :=
  ⟨u64Bytes s.currentHeight.asU64 ++ u32Bytes round ++ u32Bytes s.streamNonce⟩

omit [Crypto] in
theorem streamId_run {s : State} {round : UInt32} (hround : s.currentRound = .some round)
    (hnonce : s.streamNonce.toNat + 1 < 2 ^ 32) :
    streamId s =
      ⟨.ok (s.nextStreamId round), { s with streamNonce := s.streamNonce + 1 }, []⟩ := by
  simp only [streamId, Action.read_bind]
  rw [hround, Round.asU32_some, unwrap_some, Action.lift_ok_bind, assert_of hnonce, ← hround]
  rfl

omit [Crypto] in
/-- A stream identifier needs a round and a nonce that is not used up. -/
theorem streamId_cases (s : State) :
    (∃ e, streamId s = ⟨.error e, s, []⟩) ∨
      ∃ round, s.currentRound = .some round ∧ s.streamNonce.toNat + 1 < 2 ^ 32 ∧
        streamId s =
          ⟨.ok (s.nextStreamId round), { s with streamNonce := s.streamNonce + 1 }, []⟩ := by
  cases hround : s.currentRound with
  | nil =>
      simp only [streamId, Action.read_bind, hround]
      exact Or.inl ⟨_, rfl⟩
  | some round =>
      by_cases hnonce : s.streamNonce.toNat + 1 < 2 ^ 32
      · have hrun := streamId_run hround hnonce
        rw [hround] at hrun
        exact Or.inr ⟨round, rfl, hnonce, hrun⟩
      · simp only [streamId, Action.read_bind]
        rw [hround, Round.asU32_some, unwrap_some, Action.lift_ok_bind, assert_of_not hnonce]
        exact Or.inl ⟨_, rfl⟩

/-- Streaming changes the nonce only. -/
theorem streamProposal_frame (s : State) (v : LocallyProposedValue) (data : Bytes) :
    ∃ nonce, (streamProposal v data s).state = { s with streamNonce := nonce } ∧
      (streamProposal v data s).effects = [] := by
  simp only [streamProposal, Action.read_bind]
  rcases streamId_cases s with ⟨e, hid⟩ | ⟨round, -, -, hid⟩
  · rw [Action.bind_of_error hid]
    exact ⟨s.streamNonce, rfl, rfl⟩
  · rw [Action.bind_of_ok hid]
    cases checkedAdd (s.makeProposalParts v data).length 1 with
    | error e => exact ⟨_, rfl, rfl⟩
    | ok n => exact ⟨_, rfl, rfl⟩

/-- A stream is the parts of the proposal under a fresh identifier, for which a nonce is
used up; there are fewer than `2 ^ 64` messages. -/
theorem streamProposal_of_ok {s : State} {v : LocallyProposedValue} {data : Bytes}
    {msgs : List (StreamMessage ProposalPart)}
    (h : (streamProposal v data s).result = .ok msgs) :
    ∃ round, s.currentRound = .some round ∧ s.streamNonce.toNat + 1 < 2 ^ 32 ∧
      (s.makeProposalParts v data).length + 1 < 2 ^ 64 ∧
      streamProposal v data s = ⟨.ok msgs, { s with streamNonce := s.streamNonce + 1 }, []⟩ ∧
      msgs = streamMessages (s.nextStreamId round) 0 (s.makeProposalParts v data) := by
  have hrun : streamProposal v data s = (do
      let streamId ← streamId
      let _ ← Action.lift (checkedAdd (s.makeProposalParts v data).length 1)
      return streamMessages streamId 0 (s.makeProposalParts v data)) s := rfl
  rcases streamId_cases s with ⟨e, hid⟩ | ⟨round, hround, hnonce, hid⟩
  · rw [hrun, Action.bind_of_error hid] at h
    exact absurd h (by simp)
  · rw [Action.bind_of_ok hid, checkedAdd] at hrun
    split_ifs at hrun with hlen
    · rw [hrun] at h
      obtain rfl := Except.ok.inj h
      exact ⟨round, hround, hnonce, hlen, hrun, rfl⟩
    · rw [hrun] at h
      exact absurd h (by simp)

end Producers

/-! ## Committing -/

section Commit

/-- What `commitBlockData` does to the outside. -/
def blockDataEffects (s : State) (c : CommitCertificate) : List Effect :=
  match s.store.getBlockData c.height c.round with
  | none => []
  | some data =>
      .write (.decidedBlockData c.height data) ::
        if data ≠ [] ∧ s.rpcServer then [.spawn c.height data] else []

theorem commitBlockData_run (s : State) (c : CommitCertificate) :
    commitBlockData c s =
      ⟨.ok (), s.afterWrites (writes (s.blockDataEffects c)), s.blockDataEffects c⟩ := by
  simp only [commitBlockData, Action.read_bind, blockDataEffects]
  cases s.store.getBlockData c.height c.round with
  | none => rfl
  | some data =>
      have hwrite := writeStore_of_writable (w := .decidedBlockData c.height data) trivial s
      dsimp only
      rw [Action.bind_of_ok hwrite]
      by_cases hspawn : data ≠ [] ∧ s.rpcServer
      · rw [if_pos hspawn, if_pos hspawn]
        rfl
      · rw [if_neg hspawn, if_neg hspawn]
        rfl

/-- The block data is stored and executed as if the decision had not been written. -/
theorem blockDataEffects_afterWrites (s : State) (v : DecidedValue) (c : CommitCertificate) :
    (s.afterWrites [.decidedValue v]).blockDataEffects c = s.blockDataEffects c := by
  have hdata : (s.afterWrites [.decidedValue v]).store.getBlockData c.height c.round =
      s.store.getBlockData c.height c.round :=
    Db.getBlockData_apply_decidedValue s.store v c.height c.round
  rw [blockDataEffects, blockDataEffects, hdata]
  rfl

/-- What a commit does after it has stored the decision. -/
def settleEffects (s : State) (c : CommitCertificate) : List Effect :=
  s.blockDataEffects c ++ [.write (.prune (c.height.saturatingSub MAX_HISTORY_LENGTH))]

/-- After the decision a commit writes the block data of its slot and prunes below its
height. -/
theorem mem_writes_settleEffects {s : State} {c : CommitCertificate} {w : StoreWrite}
    (h : w ∈ writes (s.settleEffects c)) :
    (∃ data, s.store.getBlockData c.height c.round = some data ∧
        w = .decidedBlockData c.height data) ∨
      w = .prune (c.height.saturatingSub MAX_HISTORY_LENGTH) := by
  rw [settleEffects, writes_append] at h
  rcases List.mem_append.mp h with hw | hw
  · rw [blockDataEffects] at hw
    cases hd : s.store.getBlockData c.height c.round with
    | none =>
        rw [hd] at hw
        exact absurd hw List.not_mem_nil
    | some data =>
        rw [hd] at hw
        refine Or.inl ⟨data, rfl, ?_⟩
        dsimp only at hw
        split_ifs at hw <;> exact List.mem_singleton.mp hw
  · exact Or.inr (List.mem_singleton.mp hw)

/-- What a commit does when the slot of the certificate holds a proposal. -/
def commitEffects (s : State) (c : CommitCertificate) (p : ProposedValue) : List Effect :=
  .write (.decidedValue ⟨p.value, c⟩) :: s.settleEffects c

theorem nextHeight_effects (s : State) : (nextHeight s).effects = [] := by
  cases h : (s.currentHeight.increment : Call AppError Height) with
  | error e => simp [nextHeight, h]
  | ok height => simp [nextHeight, h]

/-- A commit writes and spawns; it neither replies nor publishes. -/
theorem commitEffects_silent (s : State) (c : CommitCertificate) (p : ProposedValue) :
    replies (s.commitEffects c p) = [] ∧ published (s.commitEffects c p) = [] := by
  have hdata : replies (s.blockDataEffects c) = [] ∧ published (s.blockDataEffects c) = [] := by
    rw [blockDataEffects]
    cases s.store.getBlockData c.height c.round with
    | none => exact ⟨rfl, rfl⟩
    | some data => dsimp only; split_ifs <;> exact ⟨rfl, rfl⟩
  simp [commitEffects, settleEffects, hdata.1, hdata.2]

theorem nextHeight_of_lt {s : State} (h : s.currentHeight.asU64.toNat + 1 < 2 ^ 64) :
    nextHeight s =
      ⟨.ok (),
        { s with currentHeight := ⟨s.currentHeight.asU64 + 1⟩, currentRound := .new 0 }, []⟩ := by
  simp only [nextHeight, Action.read_bind, Height.increment, if_pos h]
  rfl

theorem nextHeight_of_not_lt {s : State} (h : ¬ s.currentHeight.asU64.toNat + 1 < 2 ^ 64) :
    nextHeight s = ⟨.error .panic, s, []⟩ := by
  simp only [nextHeight, Action.read_bind, Height.increment, if_neg h]
  rfl

section Prost

variable [Prost] {s : State} {c : CommitCertificate}

/-- **A commit records whatever the slot of the certificate holds** and moves on. -/
theorem commit_of_slot {p : ProposedValue}
    (hslot : s.store.getUndecidedProposal c.height c.round = .ok (some p))
    (hround : c.round ≠ .nil) :
    commit c s = Action.after (s.commitEffects c p)
      (nextHeight (s.afterWrites (writes (s.commitEffects c p)))) := by
  have hdecided := writeStore_of_writable (w := .decidedValue ⟨p.value, c⟩) hround s
  have hdata := commitBlockData_run (s.afterWrites [.decidedValue ⟨p.value, c⟩]) c
  rw [blockDataEffects_afterWrites] at hdata
  have hprune := writeStore_of_writable
    (w := .prune (c.height.saturatingSub MAX_HISTORY_LENGTH)) trivial
    ((s.afterWrites [.decidedValue ⟨p.value, c⟩]).afterWrites (writes (s.blockDataEffects c)))
  have hslot' : storeCall (spawnBlocking (s.store.getUndecidedProposal c.height c.round)) =
      .ok (some p) := by
    rw [hslot]
    rfl
  simp only [commit, Action.read_bind, hslot', Action.lift_ok_bind]
  rw [Action.bind_of_ok hdecided, Action.bind_of_ok hdata, Action.bind_of_ok hprune]
  simp only [← afterWrites_append, commitEffects, settleEffects, writes_append,
    writes_write_cons, writes_nil, Action.after, List.append_assoc, List.cons_append,
    List.nil_append]

/-- A commit whose slot is empty does nothing, and says so to nobody. -/
theorem commit_of_empty
    (hslot : s.store.getUndecidedProposal c.height c.round = .ok none) :
    commit c s = ⟨.ok (), s, []⟩ := by
  simp only [commit, Action.read_bind, hslot]
  rfl

/-- Without a round in the certificate, or with a slot that does not decode, a
commit fails before it writes anything. -/
theorem commit_of_error
    (h : c.round = .nil ∨ ∃ e, s.store.getUndecidedProposal c.height c.round = .error e) :
    (commit c s).effects = [] ∧ (commit c s).state = s := by
  simp only [commit, Action.read_bind]
  rcases hslot : s.store.getUndecidedProposal c.height c.round with (e | _) | (_ | p)
  · exact ⟨rfl, rfl⟩
  · exact ⟨rfl, rfl⟩
  · exact ⟨rfl, rfl⟩
  · obtain hnil | ⟨e, he⟩ := h
    · have hwrite := writeStore_of_not_writable (w := .decidedValue ⟨p.value, c⟩)
        (fun hw => hw hnil) s
      simp only [spawnBlocking_ok, storeCall, Action.lift_ok_bind]
      rw [Action.bind_of_error hwrite]
      exact ⟨rfl, rfl⟩
    · rw [hslot] at he
      exact absurd he (by simp)

/-- Every commit is one of these. -/
theorem commit_cases (s : State) (c : CommitCertificate) :
    ((commit c s).effects = [] ∧ (commit c s).state = s) ∨
      ∃ p, s.store.getUndecidedProposal c.height c.round = .ok (some p) ∧ c.round ≠ .nil ∧
        commit c s = Action.after (s.commitEffects c p)
          (nextHeight (s.afterWrites (writes (s.commitEffects c p)))) := by
  rcases hslot : s.store.getUndecidedProposal c.height c.round with e | (_ | p)
  · exact Or.inl (commit_of_error (Or.inr ⟨e, hslot⟩))
  · rw [commit_of_empty hslot]
    exact Or.inl ⟨rfl, rfl⟩
  · by_cases hround : c.round = .nil
    · exact Or.inl (commit_of_error (Or.inl hround))
    · exact Or.inr ⟨p, rfl, hround, commit_of_slot hslot hround⟩

end Prost
end Commit
end State
end MalakethTurbo
