import MalakethTurbo.App.Run

/-!
# What a node notes down for itself

Beside the store and the reassembler a node keeps a few notes: the height and the round
it is in, the blocks it has left and the nonce of its next stream.  Three messages change
them.  The start of a round moves the node, a request for a value takes a block and a
nonce (`handle_getValue_of_ok`), and a decision moves the node to the next height
(`handle_decided_of_proposal`).  Every other message leaves the notes alone (`SameNotes.handle`).
-/

namespace MalakethTurbo

open Wire (Bytes)
open MalakethTurbo.Action (Keeps)

/-- The notes are the same before and after. -/
structure SameNotes (s : State) (_ : List Effect) (s' : State) : Prop where
  currentHeight : s'.currentHeight = s.currentHeight
  currentRound : s'.currentRound = s.currentRound
  streamNonce : s'.streamNonce = s.streamNonce
  blockProposer : s'.blockProposer = s.blockProposer

/-- The messages that change no note. -/
def AppMsg.KeepsNotes : AppMsg → Prop
  | .startedRound .. => False
  | .getValue .. => False
  | .decided _ => False
  | _ => True

theorem AppMsg.notes_cases (msg : AppMsg) :
    (∃ height round proposer, msg = .startedRound height round proposer) ∨
      (∃ height round, msg = .getValue height round) ∨ (∃ c, msg = .decided c) ∨
      msg.KeepsNotes := by
  cases msg <;> simp [KeepsNotes]

namespace SameNotes

theorem composes : Action.Composes SameNotes where
  refl _ := ⟨rfl, rfl, rfl, rfl⟩
  trans h h' := ⟨h'.currentHeight.trans h.currentHeight, h'.currentRound.trans h.currentRound,
    h'.streamNonce.trans h.streamNonce, h'.blockProposer.trans h.blockProposer⟩

theorem perform (e : Effect) : Keeps SameNotes (Action.perform e : AppM Unit) :=
  Keeps.perform fun _ => ⟨rfl, rfl, rfl, rfl⟩

theorem writeStore (w : StoreWrite) : Keeps SameNotes (writeStore w) := by
  intro s
  by_cases hw : w.Writable
  · rw [writeStore_of_writable hw]
    exact ⟨rfl, rfl, rfl, rfl⟩
  · rw [writeStore_of_not_writable hw]
    exact composes.refl s

theorem keepProposal (p : ProposedValue) (height : Height) (round : Round) (data : Bytes) :
    Keeps SameNotes (State.keepProposal p height round data) :=
  Keeps.bind composes (writeStore _) fun _ => writeStore _

variable [Crypto]

theorem receivedProposalPart (peer : PeerId) (part : StreamMessage ProposalPart) :
    Keeps SameNotes (State.receivedProposalPart peer part) := by
  refine Keeps.bind composes (Keeps.read composes) fun s => ?_
  refine Keeps.bind composes (Keeps.lift composes _) fun inserted => ?_
  refine Keeps.bind composes (Keeps.change fun _ => ⟨rfl, rfl, rfl, rfl⟩) fun _ => ?_
  cases inserted.1 with
  | none => exact Keeps.pure composes none
  | some parts =>
      dsimp only
      split_ifs with hheight
      · exact Keeps.pure composes none
      · cases s.verifyProposalSignature parts with
        | error e => exact Keeps.pure composes none
        | ok u =>
            exact Keeps.bind composes (keepProposal _ _ _ _) fun _ => Keeps.pure composes _

/-- **Three messages apart, no message changes the notes.** -/
theorem handle [Prost] [Payload] {msg : AppMsg} (h : msg.KeepsNotes) :
    Keeps SameNotes (handle msg) := by
  have hread := Keeps.read (ε := Stop AppError) composes
  cases msg with
  | consensusReady => exact hread.bind composes fun _ => perform _
  | startedRound height round proposer => exact absurd h id
  | getValue height round => exact absurd h id
  | receivedProposalPart peer part =>
      refine Keeps.bind composes (Keeps.lift composes _) fun _ => ?_
      exact Keeps.bind composes (receivedProposalPart peer part) fun _ => perform _
  | getValidatorSet height => exact hread.bind composes fun _ => perform _
  | decided certificate => exact absurd h id
  | processSyncedValue height round proposer valueBytes =>
      exact Keeps.bind composes (Keeps.lift composes _) fun _ => perform _
  | getDecidedValue height => exact hread.bind composes fun _ => perform _
  | getHistoryMinHeight => exact hread.bind composes fun _ => perform _
  | restreamProposal => exact Keeps.pure composes ()
  | extendVote => exact perform _
  | verifyVoteExtension => exact perform _
  | peerJoined peer => exact Keeps.change fun _ => ⟨rfl, rfl, rfl, rfl⟩
  | peerLeft peer => exact Keeps.change fun _ => ⟨rfl, rfl, rfl, rfl⟩

end SameNotes

/-! ## The messages that change them -/

section Changes

variable [Crypto] [Prost] [Payload] {s : State}

/-- The state after a request for a value that is answered with some data. -/
def State.afterValue (s : State) (data : Bytes) : State :=
  { s with
    blockProposer := (s.blockProposer.proposeBlock s.currentHeight.asU64).2
    streamNonce := s.streamNonce + 1 }.afterWrites
      (State.keepWrites (s.localProposal s.currentHeight s.currentRound (Value.new data))
        s.currentHeight s.currentRound data)

omit [Prost] in
@[simp] theorem State.streamNonce_afterValue (data : Bytes) :
    (s.afterValue data).streamNonce = s.streamNonce + 1 := rfl

omit [Prost] in
@[simp] theorem State.blockProposer_afterValue (data : Bytes) :
    (s.afterValue data).blockProposer =
      (s.blockProposer.proposeBlock s.currentHeight.asU64).2 := rfl

/-- **A request for a value that is answered** takes the next block and the next nonce. -/
theorem handle_getValue_of_ok {height : Height} {round : Round}
    (hok : (handle (.getValue height round) s).result = .ok ()) :
    ∃ data r, (s.blockProposer.proposeBlock s.currentHeight.asU64).1 = .ok data ∧
      height = s.currentHeight ∧ round = .some r ∧ s.currentRound = .some r ∧
      s.streamNonce.toNat + 1 < 2 ^ 32 ∧
      (handle (.getValue height round) s).state = s.afterValue data := by
  have hmake := State.makeBlock_run s
  rcases hblock : (s.blockProposer.proposeBlock s.currentHeight.asU64).1 with e | data
  · rw [hblock] at hmake
    rw [handle, Action.bind_of_error hmake] at hok
    exact absurd hok (by simp)
  rw [hblock] at hmake
  rw [handle, Action.bind_of_ok hmake, Action.after_nil] at hok ⊢
  by_cases hslot : height = s.currentHeight ∧ round = s.currentRound ∧ round ≠ .nil
  · obtain ⟨rfl, rfl, hround⟩ := hslot
    obtain ⟨ws, hws, hpropose⟩ := State.proposeValue_run
      (s := { s with blockProposer := (s.blockProposer.proposeBlock s.currentHeight.asU64).2 })
      hround data
    rw [Action.bind_of_ok hpropose, Action.perform_bind] at hok ⊢
    rw [Action.after_result, Action.after_result] at hok
    rw [Action.after_state, Action.after_state]
    generalize hkept : State.afterWrites _ ws = kept at hok ⊢
    rcases hstream : State.streamProposal ⟨s.currentHeight, s.currentRound, Value.new data⟩
      data kept with ⟨e | msgs, s', es⟩
    · rw [Action.bind_of_error hstream] at hok
      exact absurd hok (by simp)
    · obtain ⟨r, hr, hnonce, -, hrun, -⟩ :=
        State.streamProposal_of_ok (congrArg Outcome.result hstream)
      rw [Action.bind_of_ok hrun]
      subst hkept hws
      exact ⟨data, r, rfl, rfl, hr, hr, hnonce, rfl⟩
  · obtain ⟨e, hpropose⟩ := State.proposeValue_of_not
      (s := { s with blockProposer := (s.blockProposer.proposeBlock s.currentHeight.asU64).2 })
      data hslot
    rw [Action.bind_of_error hpropose] at hok
    exact absurd hok (by simp)

/-- A request for a value leaves the node where it is, whether it is answered or not. -/
theorem currentHeight_handle_getValue (height : Height) (round : Round) :
    (handle (.getValue height round) s).state.currentHeight = s.currentHeight := by
  let R : State → List Effect → State → Prop := fun s _ s' => s'.currentHeight = s.currentHeight
  have hR : Action.Composes R := ⟨fun _ => rfl, fun h h' => h'.trans h⟩
  have hmake : Keeps R State.makeBlock := fun s => by rw [State.makeBlock_run]
  have hkeep (p : ProposedValue) (height : Height) (round : Round) (data : Bytes) :
      Keeps R (State.keepProposal p height round data) := fun s =>
    (SameNotes.keepProposal p height round data s).currentHeight
  have hpropose (data : Bytes) : Keeps R (State.proposeValue height round data) := by
    refine Keeps.bind hR (Keeps.read hR) fun s => ?_
    refine Keeps.bind hR (Keeps.lift hR _) fun _ => ?_
    refine Keeps.bind hR (Keeps.lift hR _) fun _ => ?_
    exact Keeps.bind hR (hkeep _ _ _ _) fun _ => Keeps.pure hR _
  have hstream (v : LocallyProposedValue) (data : Bytes) :
      Keeps R (State.streamProposal v data) := fun s => by
    obtain ⟨nonce, hstate, -⟩ := State.streamProposal_frame s v data
    rw [hstate]
  have hhandle : Keeps R (handle (.getValue height round)) := by
    refine Keeps.bind hR hmake fun blockBytes => ?_
    refine Keeps.bind hR (hpropose blockBytes) fun v => ?_
    refine Keeps.bind hR (Keeps.perform fun _ => rfl) fun _ => ?_
    exact Keeps.bind hR (hstream v blockBytes) fun msgs =>
      Keeps.performAll hR fun _ _ _ => rfl
  exact hhandle s

/-- The state after a decision for a slot that holds a proposal. -/
def State.afterCommit (s : State) (c : CommitCertificate) (p : ProposedValue) : State :=
  { s.afterWrites (writes (s.commitEffects c p)) with
    currentHeight := ⟨s.currentHeight.asU64 + 1⟩
    currentRound := .new 0 }

omit [Crypto] [Prost] [Payload] in
@[simp] theorem State.store_afterCommit (c : CommitCertificate) (p : ProposedValue) :
    (s.afterCommit c p).store = StoreWrite.applyAll s.store (writes (s.commitEffects c p)) :=
  rfl

omit [Crypto] [Prost] [Payload] in
@[simp] theorem State.currentHeight_afterCommit (c : CommitCertificate) (p : ProposedValue) :
    (s.afterCommit c p).currentHeight = ⟨s.currentHeight.asU64 + 1⟩ := rfl

/-- **A decision for a slot that holds a proposal** stores it and moves the node to the
next height. -/
theorem handle_decided_of_proposal {c : CommitCertificate} {p : ProposedValue}
    (hslot : s.store.getUndecidedProposal c.height c.round = .ok (some p))
    (hround : c.round ≠ .nil) (hok : (handle (.decided c) s).result = .ok ()) :
    s.currentHeight.asU64.toNat + 1 < 2 ^ 64 ∧
      (handle (.decided c) s).state = s.afterCommit c p := by
  have hcommit := State.commit_of_slot hslot hround
  by_cases hlt : s.currentHeight.asU64.toNat + 1 < 2 ^ 64
  · refine ⟨hlt, ?_⟩
    rw [handle_decided_state, hcommit, State.nextHeight_of_lt
      (s := s.afterWrites (writes (s.commitEffects c p))) hlt]
    rfl
  · rw [State.nextHeight_of_not_lt
      (s := s.afterWrites (writes (s.commitEffects c p))) hlt] at hcommit
    rw [handle, Action.bind_of_error hcommit] at hok
    exact absurd hok (by simp)

/-- Any other decision changes nothing. -/
theorem handle_decided_of_ok {c : CommitCertificate}
    (hok : (handle (.decided c) s).result = .ok ()) :
    (handle (.decided c) s).state = s ∨
      ∃ p, s.store.getUndecidedProposal c.height c.round = .ok (some p) ∧ c.round ≠ .nil ∧
        (handle (.decided c) s).state = s.afterCommit c p := by
  rcases State.commit_cases s c with ⟨-, hstate⟩ | ⟨p, hslot, hround, -⟩
  · exact Or.inl ((handle_decided_state c).trans hstate)
  · exact Or.inr ⟨p, hslot, hround, (handle_decided_of_proposal hslot hround hok).2⟩

end Changes
end MalakethTurbo
