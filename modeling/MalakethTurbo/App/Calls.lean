import MalakethTurbo.App.Run

/-!
# Calls of the methods

The store is written by three methods only.  `calls config` is the system of their
calls: in any order and with any arguments, each to its end or up to a point at which
the process stops and is started again on the store it left.  The application is one
caller, which proposes the blocks of its file.

`Method.run_cases` says what a call writes: a proposal with its data, what a commit
writes, or nothing.
-/

namespace MalakethTurbo

open Wire (Bytes)
open State (keepWrites commitEffects assembleValueFromParts)

/-- A call of a method that writes to the store, or the start of a round. -/
inductive Method where
  | startedRound (height : Height) (round : Round) (proposer : Address) : Method
  | proposeValue (height : Height) (round : Round) (data : Bytes) : Method
  | receivedProposalPart (peer : PeerId) (part : StreamMessage ProposalPart) : Method
  | commit (certificate : CommitCertificate) : Method
  deriving DecidableEq

/-- A call that returns, or one in which the process stops after a number of effects
and is started again. -/
inductive CallEvent where
  | returns (m : Method) : CallEvent
  | stops (m : Method) (performed : Nat) (serverStarts : Bool) : CallEvent

namespace CallEvent

def method : CallEvent → Method
  | returns m => m
  | stops m _ _ => m

/-- The call gets past its first `k` effects. -/
def Passes (k : Nat) : CallEvent → Prop
  | returns _ => True
  | stops _ n _ => k < n

/-- The process stops between calls only. -/
def Whole : CallEvent → Prop
  | returns _ => True
  | stops _ n _ => n = 0

end CallEvent

/-- A call that drops its result has the effects of the call. -/
theorem effects_dropResult {α : Type} (x : AppM α) (s : State) :
    (x >>= fun _ => pure () : AppM Unit) s =
      ⟨(x s).result.map fun _ => (), (x s).state, (x s).effects⟩ := by
  rcases hrun : x s with ⟨e | a, s', es⟩
  · rw [Action.bind_of_error hrun]
    rfl
  · rw [Action.bind_of_ok hrun]
    simp [Action.after, Except.map]

section Calls

variable [Crypto] [Prost]

/-- The method that is called. -/
def Method.run : Method → AppM Unit
  | startedRound height round proposer =>
      Action.change fun s => { s with
        currentHeight := height
        currentRound := round
        currentProposer := some proposer }
  | proposeValue height round data => do
      let _ ← State.proposeValue height round data
      return ()
  | receivedProposalPart peer part => do
      let _ ← State.receivedProposalPart peer part
      return ()
  | commit certificate => State.commit certificate

namespace CallEvent

/-- The effects of the call that have happened. -/
def performed (s : State) : CallEvent → List Effect
  | returns m => (m.run s).effects
  | stops m n _ => (m.run s).effects.take n

/-- The store that a call leaves. -/
def storeAfter (s : State) (e : CallEvent) : Db :=
  StoreWrite.applyAll s.store (writes (e.performed s))

end CallEvent

/-- The calls of a node with a configuration. -/
def calls (config : Config) : System State CallEvent where
  init s := ∃ serverStarts, s = State.new config Db.empty serverStarts
  step s e s' :=
    match e with
    | .returns m => (m.run s).result = .ok () ∧ s' = (m.run s).state
    | .stops _ _ serverStarts => s' = State.new config (e.storeAfter s) serverStarts

/-! ## What a call writes -/

omit [Prost] in
/-- A call that keeps a proposal and its block data. -/
inductive Method.Produces (s : State) : Method → ProposedValue → Bytes → Prop where
  | propose {data : Bytes} (hround : s.currentRound ≠ .nil) :
      Produces s (.proposeValue s.currentHeight s.currentRound data)
        (s.localProposal s.currentHeight s.currentRound (Value.new data)) data
  | receive {peer : PeerId} {part : StreamMessage ProposalPart} {parts : ProposalParts}
      {map : PartStreamsMap}
      (hinsert : s.streamsMap.insert peer part = (.ok (some parts, map) : Call AppError _))
      (haccept : s.Acceptable parts) (hround : parts.round ≠ .nil) :
      Produces s (.receivedProposalPart peer part) (assembleValueFromParts parts).1
        (assembleValueFromParts parts).2

variable {s s' : State} {m : Method} {p : ProposedValue} {data : Bytes} {config : Config}
  {e : CallEvent} {steps : List (State × CallEvent)}

omit [Prost] in
theorem Method.Produces.extensions_eq (h : m.Produces s p data) : p.value.extensions = data := by
  cases h <;> rfl

omit [Prost] in
theorem Method.Produces.round_ne_nil (h : m.Produces s p data) : p.round ≠ .nil := by
  cases h with
  | propose hround => exact hround
  | receive hinsert haccept hround => exact hround

/-- A proposal and its data are kept one after the other. -/
theorem Method.Produces.run_effects (h : m.Produces s p data) :
    (m.run s).effects = (keepWrites p p.height p.round data).map .write := by
  cases h with
  | propose hround =>
      obtain ⟨ws, rfl, hrun⟩ := State.proposeValue_run hround data
      rw [Method.run, Action.bind_of_ok hrun]
      exact List.append_nil _
  | receive hinsert haccept hround =>
      obtain ⟨ws, rfl, hrun⟩ := State.receivedProposalPart_run hinsert haccept hround
      rw [Method.run, Action.bind_of_ok hrun]
      exact List.append_nil _

/-- **What a call does.**  It keeps a proposal, or commits one, or it has no effect. -/
theorem Method.run_cases (s : State) (m : Method) :
    (∃ p data, m.Produces s p data) ∨
      (∃ c p, m = .commit c ∧ c.round ≠ .nil ∧
        s.store.getUndecidedProposal c.height c.round = .ok (some p) ∧
        (m.run s).effects = commitEffects s c p) ∨
      (m.run s).effects = [] := by
  by_cases hproduces : ∃ p data, m.Produces s p data
  · exact Or.inl hproduces
  refine Or.inr ?_
  push Not at hproduces
  cases m with
  | startedRound height round proposer => exact Or.inr rfl
  | proposeValue height round data =>
      have hnot : ¬ (height = s.currentHeight ∧ round = s.currentRound ∧ round ≠ .nil) := by
        rintro ⟨rfl, rfl, hround⟩
        exact hproduces _ _ (.propose hround)
      obtain ⟨e, hrun⟩ := State.proposeValue_of_not data hnot
      rw [Method.run, effects_dropResult, hrun]
      exact Or.inr rfl
  | receivedProposalPart peer part =>
      refine Or.inr ?_
      rw [Method.run, effects_dropResult]
      rcases State.receivedProposalPart_cases s peer part with
        ⟨e, -, hrun⟩ | ⟨o, map, -, hrun⟩ | ⟨parts, map, hinsert, haccept⟩
      · rw [hrun]
      · rw [hrun]
      · have hround : parts.round = .nil := by
          by_contra hround
          exact hproduces _ _ (.receive hinsert haccept hround)
        rw [State.receivedProposalPart_of_nil hinsert haccept hround]
  | commit c =>
      rcases State.commit_cases s c with ⟨heffects, -⟩ | ⟨p, hslot, hround, hcommit⟩
      · exact Or.inr heffects
      · refine Or.inl ⟨c, p, rfl, hround, hslot, ?_⟩
        rw [Method.run, hcommit, Action.after_effects, State.nextHeight_effects,
          List.append_nil]

/-- What a call has done is a first part of what it does. -/
theorem CallEvent.performed_isPrefix (s : State) (e : CallEvent) :
    e.performed s <+: (e.method.run s).effects := by
  cases e with
  | returns m => exact List.prefix_rfl
  | stops m n serverStarts => exact List.take_prefix _ _

/-- So are its transactions. -/
theorem CallEvent.writes_isPrefix (s : State) (e : CallEvent) :
    writes (e.performed s) <+: writes (e.method.run s).effects :=
  (e.performed_isPrefix s).filterMap _

/-! ## The store along a run -/

theorem Method.framed (m : Method) : Action.Keeps Framed m.run := by
  cases m with
  | startedRound height round proposer =>
      exact Framed.frame.change fun _ => ⟨rfl, rfl, rfl, rfl, rfl, rfl⟩
  | proposeValue height round data =>
      exact Action.Keeps.bind Framed.composes (Framed.frame.proposeValue height round data)
        fun _ => Action.Keeps.pure Framed.composes ()
  | receivedProposalPart peer part =>
      exact Action.Keeps.bind Framed.composes (Framed.receivedProposalPart peer part)
        fun _ => Action.Keeps.pure Framed.composes ()
  | commit c => exact Framed.frame.commit c

theorem store_of_call (h : (calls config).step s e s') : s'.store = e.storeAfter s := by
  cases e with
  | returns m =>
      obtain ⟨-, rfl⟩ := h
      exact (m.framed s).store
  | stops m n serverStarts =>
      obtain rfl := h
      rfl

/-- The store along a run of calls is well formed. -/
theorem Run.calls_wellFormed (h : Run (calls config) steps s) : s.store.WellFormed := by
  refine h.invariant (P := fun s => s.store.WellFormed) ?_ ?_
  · rintro s ⟨serverStarts, rfl⟩
    exact Db.WellFormed.empty
  · intro s e s' hs hstep
    rw [store_of_call hstep]
    exact (hs.refines_applyAll _).1

theorem Run.returns {m : Method} (h : Run (calls config) steps s)
    (hok : (m.run s).result = .ok ()) :
    Run (calls config) (steps ++ [(s, .returns m)]) (m.run s).state :=
  have hstep : (calls config).step s (.returns m) (m.run s).state := ⟨hok, rfl⟩
  h.next hstep

theorem Run.stops (h : Run (calls config) steps s) (m : Method) (n : Nat)
    (serverStarts : Bool) :
    Run (calls config) (steps ++ [(s, .stops m n serverStarts)])
      (State.new config (CallEvent.storeAfter s (.stops m n serverStarts)) serverStarts) :=
  have hstep : (calls config).step s (.stops m n serverStarts) _ := rfl
  h.next hstep

end Calls
end MalakethTurbo
