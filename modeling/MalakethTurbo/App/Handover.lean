import MalakethTurbo.App.Run

/-!
# Values handed to consensus

Consensus gets values from the application in three replies: the node's own value,
the value of a completed stream, and a decoded value of the synchronisation.

For the first two the application fills the undecided slot of the value as well.
It writes where nothing is and hands over what it has just built, so the slot
holds the value handed over exactly if it was free or held the same value before
(`handedValues_kept_iff`).  A slot that another proposal reached first, an equivocating
proposer, or a process that has died and comes back with other blocks makes the
two differ.

A value built by the application carries the hash of its own bytes.  A value that
is decoded carries what the sender wrote (`handedValues_faithful_iff`).
-/

namespace MalakethTurbo

open Wire (Bytes)
open State (keepWrites)

/-! ## Slots -/

section Slots

variable [Crypto] [Prost]

/-- A slot is free for data, or it holds the value of the data and the data. -/
def SlotAllows (db : Db) (height : Height) (round : Round) (data : Bytes) : Prop :=
  (∀ p, db.getUndecidedProposal height round = .ok (some p) → p.value = Value.new data) ∧
    ∀ b, db.undecidedBlockData.get? ⟨height, round⟩ = some b → b = data

/-- A slot reads back as a value and its data. -/
def SlotHolds (db : Db) (height : Height) (round : Round) (value : Value) : Prop :=
  (∃ p, db.getUndecidedProposal height round = .ok (some p) ∧ p.value = value) ∧
    db.getBlockData height round = some value.extensions

theorem slotAllows_empty (height : Height) (round : Round) (data : Bytes) :
    SlotAllows Db.empty height round data := by
  constructor
  · intro p hp
    exact absurd (Except.ok.inj hp) (by simp)
  · intro b hb
    exact absurd hb (by simp [Db.empty])

omit [Crypto] [Prost] in
/-- What a producer leaves in its slot. -/
theorem Ledger.applyAll_keepWrites (l : Ledger) {p : ProposedValue} (hround : p.round ≠ .nil)
    (data : Bytes) :
    l.applyAll (keepWrites p p.height p.round data) = { l with
      proposal := keepFirst l.proposal ⟨p.height, p.round⟩ p
      blockData := keepFirst l.blockData ⟨p.height, p.round⟩ data } := by
  simp only [keepWrites, Ledger.applyAll, List.foldl_cons, List.foldl_nil, Ledger.apply,
    if_neg hround]

omit [Crypto] [Prost] in
theorem Ledger.proposal_keepWrites (l : Ledger) {p : ProposedValue} (h : p.round ≠ .nil)
    (data : Bytes) :
    (l.applyAll (keepWrites p p.height p.round data)).proposal ⟨p.height, p.round⟩ =
      some ((l.proposal ⟨p.height, p.round⟩).getD p) := by
  rw [l.applyAll_keepWrites h]
  exact keepFirst_self _ _ _

omit [Crypto] [Prost] in
theorem Ledger.blockDataAt_keepWrites (l : Ledger) {p : ProposedValue} (h : p.round ≠ .nil)
    (data : Bytes) :
    (l.applyAll (keepWrites p p.height p.round data)).blockDataAt p.height p.round =
      some ((l.blockData ⟨p.height, p.round⟩).getD data) := by
  rw [l.applyAll_keepWrites h, blockDataAt]
  dsimp only
  rw [keepFirst_self, Option.some_or]

/-- **Insert-if-absent keeps what is handed over exactly where the slot allows it.** -/
theorem slotHolds_keepWrites_iff {db : Db} (hdb : db.WellFormed) {p : ProposedValue}
    {data : Bytes} (hvalue : p.value = Value.new data) (hround : p.round ≠ .nil) :
    SlotHolds (StoreWrite.applyAll db (keepWrites p p.height p.round data)) p.height p.round
      p.value ↔ SlotAllows db p.height p.round data := by
  obtain ⟨hwell, hledger⟩ := hdb.refines_applyAll (keepWrites p p.height p.round data)
  have hproposal := db.ledger.proposal_keepWrites hround data
  have hdata := db.ledger.blockDataAt_keepWrites hround data
  rw [← hledger] at hproposal hdata
  rw [SlotHolds, SlotAllows, hwell.getUndecidedProposal_eq, Db.getBlockData_eq,
    hdb.getUndecidedProposal_eq, hproposal, hdata, hvalue, Value.extensions_new]
  have hold : db.undecidedBlockData.get? ⟨p.height, p.round⟩ =
      db.ledger.blockData ⟨p.height, p.round⟩ := rfl
  rw [hold]
  refine and_congr ?_ ?_
  · cases db.ledger.proposal ⟨p.height, p.round⟩ with
    | none => simp [hvalue]
    | some q => simp
  · cases db.ledger.blockData ⟨p.height, p.round⟩ with
    | none => simp
    | some b => simp

end Slots

section Runs

variable [Crypto] [Prost] [Payload] {config : Config} {steps : List (State × Event)}
  {s : State} {e : Event}

/-! ## The slot of a value handed over -/

/-- What a producer hands over in a step is, after the step, what its slot holds. -/
def KeepsHanded (s : State) (e : Event) : Prop :=
  ∀ r ∈ replies (e.performed s), ∀ slot value, r.produced = some (slot, value) →
    SlotHolds (e.storeAfter s) slot.height slot.round value

/-- A step that gets as far as handing something over finds a slot that allows it.
The reply comes after the two transactions of the producer. -/
def MeetsFreeSlot (s : State) (e : Event) : Prop :=
  ∀ p data, HandsOver s e.msg p data → e.Passes 2 → SlotAllows s.store p.height p.round data

/-- A step that hands something over has made both writes and no other. -/
theorem performed_of_handsOver {p : ProposedValue} {data : Bytes}
    (h : HandsOver s e.msg p data) (hpasses : e.Passes 2) :
    ∃ reply, reply.produced = some (⟨p.height, p.round⟩, p.value) ∧
      replies (e.performed s) = [reply] ∧
      writes (e.performed s) = keepWrites p p.height p.round data := by
  obtain ⟨reply, msgs, hreply, heffects⟩ := h.handle_effects
  refine ⟨reply, hreply, ?_⟩
  cases e with
  | deliver msg =>
      have hperformed : (Event.deliver msg).performed s = _ := heffects
      rw [hperformed]
      simp
  | restart msg n serverStarts =>
      obtain ⟨k, rfl⟩ : ∃ k, n = k + 3 := ⟨n - 3, by have : 2 < n := hpasses; omega⟩
      have hperformed : (Event.restart msg (k + 3) serverStarts).performed s =
          (keepWrites p p.height p.round data).map .write ++
            .reply reply :: (msgs.take k).map .publish := by
        have heffects : (handle msg s).effects = _ := heffects
        show (handle msg s).effects.take (k + 3) = _
        rw [heffects, List.map_take]
        rfl
      rw [hperformed]
      simp [-List.map_take]

/-- A step that does not get as far sends no value of a producer. -/
theorem produced_eq_none (h : ∀ p data, HandsOver s e.msg p data → ¬ e.Passes 2) :
    ∀ r ∈ replies (e.performed s), r.produced = none := by
  rcases handle_cases s e.msg with ⟨p, data, hhands⟩ | ⟨c, hc⟩ | hquiet
  · obtain ⟨reply, msgs, -, heffects⟩ := hhands.handle_effects
    have hnot := h p data hhands
    cases e with
    | deliver msg => exact absurd trivial hnot
    | restart msg n serverStarts =>
        have hn : n ≤ 2 := not_lt.mp hnot
        have hperformed : replies ((Event.restart msg n serverStarts).performed s) = [] := by
          have heffects : (handle msg s).effects = _ := heffects
          show replies ((handle msg s).effects.take n) = []
          rw [heffects, List.take_append_of_le_length hn, ← List.map_take]
          exact replies_map_write _
        rw [hperformed]
        exact fun r hr => absurd hr List.not_mem_nil
  · intro r hr
    have hmem := Event.mem_replies hr
    rw [hc] at hmem
    obtain ⟨h, vs, rfl⟩ := (handle_decided c).2.2 r hmem
    rfl
  · exact fun r hr => hquiet.produced_eq (Event.mem_replies hr)

/-- One step. -/
theorem keepsHanded_step_iff (hs : (node config).Reachable s) (e : Event) :
    KeepsHanded s e ↔ MeetsFreeSlot s e := by
  constructor
  · intro hkeeps p data hhands hpasses
    obtain ⟨reply, hreply, hreplies, hwrites⟩ := performed_of_handsOver hhands hpasses
    have hholds := hkeeps reply (by rw [hreplies]; exact List.mem_singleton_self _) _ _ hreply
    rw [Event.storeAfter, hwrites] at hholds
    exact (slotHolds_keepWrites_iff hs.wellFormed hhands.value_eq hhands.round_ne_nil).mp hholds
  · intro hmeets r hr slot value hproduced
    by_cases hhands : ∃ p data, HandsOver s e.msg p data ∧ e.Passes 2
    · obtain ⟨p, data, hhands, hpasses⟩ := hhands
      obtain ⟨reply, hreply, hreplies, hwrites⟩ := performed_of_handsOver hhands hpasses
      rw [hreplies, List.mem_singleton] at hr
      rw [hr, hreply] at hproduced
      obtain ⟨rfl, rfl⟩ := Prod.mk.inj (Option.some.inj hproduced)
      rw [Event.storeAfter, hwrites]
      exact (slotHolds_keepWrites_iff hs.wellFormed hhands.value_eq hhands.round_ne_nil).mpr
        (hmeets p data hhands hpasses)
    · have hnone := produced_eq_none (s := s) (e := e)
        (fun p data h hp => hhands ⟨p, data, h, hp⟩) r hr
      rw [hnone] at hproduced
      exact absurd hproduced (by simp)

/-- **The value handed over is the value kept, exactly where the slot was free for
it.**  In every run of a node, restarts included, every hand-over of a producer
leaves its value and the data of the value in the slot if and only if every
hand-over finds a slot that is empty or holds the same value and the same data. -/
theorem handedValues_kept_iff (h : Run (node config) steps s) :
    (∀ x ∈ steps, KeepsHanded x.1 x.2) ↔ ∀ x ∈ steps, MeetsFreeSlot x.1 x.2 :=
  h.forall_congr fun _ e hs => keepsHanded_step_iff hs e

end Runs

section Demo

attribute [local instance] demoCrypto Prost.reference demoPayload

/-- A proposer that is asked for one value. -/
def proposerMsgs : List AppMsg :=
  [.startedRound ⟨1⟩ (.some 0) (demoAddress 1), .getValue ⟨1⟩ (.some 0)]

theorem handedValues_kept_proposer :
    ∃ steps s, Run (node (demoConfig 1 [5])) steps s ∧ (∀ x ∈ steps, KeepsHanded x.1 x.2) ∧
      s.store.getUndecidedProposal ⟨1⟩ (.some 0) =
        .ok (some (s.localProposal ⟨1⟩ (.some 0) (Value.new [5]))) := by
  have hstart : Run (node (demoConfig 1 [5])) [] (demoState 1 [5]) := .start ⟨true, rfl⟩
  have hrun := hstart.deliveries proposerMsgs (by decide +kernel)
  refine ⟨_, _, hrun, (handedValues_kept_iff hrun).mpr fun x hx p data _ _ => ?_,
    by decide +kernel⟩
  have hempty : x.1.store = Db.empty := by
    rcases List.mem_cons.mp hx with rfl | hx
    · rfl
    · rw [List.mem_singleton.mp hx]
      rfl
  rw [hempty]
  exact slotAllows_empty _ _ _

/-- A proposer that is asked in two rounds, dies, and is asked in the second round
again. -/
def firstLife : List AppMsg :=
  [.startedRound ⟨1⟩ (.some 0) (demoAddress 1), .getValue ⟨1⟩ (.some 0),
    .startedRound ⟨1⟩ (.some 1) (demoAddress 1), .getValue ⟨1⟩ (.some 1)]

def secondLife : List AppMsg :=
  [.startedRound ⟨1⟩ (.some 1) (demoAddress 1), .getValue ⟨1⟩ (.some 1)]

/-- The first block of the file is proposed again, for the slot that holds the
second. -/
theorem handedValues_not_kept_after_restart :
    ¬ ∀ (steps : List (State × Event)) (s : State),
      Run (node (demoConfig 1 [5, 6])) steps s → ∀ x ∈ steps, KeepsHanded x.1 x.2 := by
  intro hall
  have hstart : Run (node (demoConfig 1 [5, 6])) [] (demoState 1 [5, 6]) := .start ⟨true, rfl⟩
  have hfirst := hstart.deliveries firstLife (by decide +kernel)
  have hsecond := (hfirst.restart .restreamProposal 0 true).deliveries secondLife
    (by decide +kernel)
  have hkeeps := hall _ _ hsecond _ (List.mem_append_right _
    (List.mem_cons_of_mem _ List.mem_cons_self))
  obtain ⟨⟨p, hp, hvalue⟩, -⟩ := hkeeps
    (.localValue ⟨⟨1⟩, .some 1, Value.new [5]⟩) (by decide +kernel) _ _ rfl
  -- what the slot of the second round holds is the second block
  have hslot := hp.symm.trans (by decide +kernel :
    _ = .ok (some ((demoState 1 []).localProposal ⟨1⟩ (.some 1) (Value.new [6]))))
  rw [Option.some.inj (Except.ok.inj hslot)] at hvalue
  exact absurd hvalue (by decide +kernel)

end Demo

/-! ## Values and their bytes -/

/-- A value carries the hash of its bytes, as `Value::new` makes it. -/
def Value.Faithful [Crypto] (v : Value) : Prop := v.value = Crypto.hash v.extensions

instance [Crypto] (v : Value) : Decidable v.Faithful :=
  inferInstanceAs (Decidable (v.value = Crypto.hash v.extensions))

theorem Value.faithful_new [Crypto] (data : Bytes) : (Value.new data).Faithful := rfl

section Faithful

variable [Crypto] [Prost] [Payload] {config : Config} {steps : List (State × Event)}
  {s : State} {e : Event}

/-- Every value that a step hands to consensus is faithful. -/
def HandsFaithful (s : State) (e : Event) : Prop :=
  ∀ r ∈ replies (e.performed s), ∀ slot v, r.handed = some (slot, v) → v.Faithful

/-- The bytes of a synchronised value that a step answers are those of a faithful
value, if they are those of a value at all. -/
def SyncsFaithful (e : Event) : Prop :=
  ∀ height round proposer bytes, e.msg = .processSyncedValue height round proposer bytes →
    e.Passes 0 → ∀ v, Value.fromBytes bytes = .ok v → v.Faithful

/-- A reply of a producer comes from a hand-over. -/
theorem handsOver_of_produced {msg : AppMsg} {r : Reply} {slot : UndecidedValueKey}
    {value : Value} (hr : r ∈ replies (handle msg s).effects)
    (h : r.produced = some (slot, value)) :
    ∃ p data, HandsOver s msg p data ∧ value = p.value := by
  rcases handle_cases s msg with ⟨p, data, hhands⟩ | ⟨c, rfl⟩ | hquiet
  · obtain ⟨reply, msgs, hreply, heffects⟩ := hhands.handle_effects
    have hmem : r = reply := by
      rw [heffects] at hr
      simpa using hr
    rw [hmem, hreply] at h
    exact ⟨p, data, hhands, (Prod.mk.inj (Option.some.inj h)).2.symm⟩
  · obtain ⟨height, vs, rfl⟩ := (handle_decided c).2.2 r hr
    exact absurd h (by simp [Reply.produced])
  · rw [hquiet.produced_eq hr] at h
    exact absurd h (by simp)

/-- A synchronised value is handed over for the bytes it decodes from. -/
theorem synced_of_reply {msg : AppMsg} {p : ProposedValue}
    (hr : .syncedValue p ∈ replies (handle msg s).effects) :
    ∃ height round proposer bytes,
      msg = .processSyncedValue height round proposer bytes ∧
        Value.fromBytes bytes = .ok p.value := by
  cases msg with
  | processSyncedValue height round proposer bytes =>
      refine ⟨height, round, proposer, bytes, rfl, ?_⟩
      rw [handle, decodeValue] at hr
      cases hvalue : Value.fromBytes bytes with
      | error e =>
          rw [hvalue] at hr
          exact absurd hr List.not_mem_nil
      | ok v =>
          rw [hvalue] at hr
          have hp := Reply.syncedValue.inj (List.mem_singleton.mp hr)
          rw [hp]
  | getValue height round =>
      by_cases hhands : ∃ p data, HandsOver s (.getValue height round) p data
      · obtain ⟨q, data, hhands⟩ := hhands
        obtain ⟨s', msgs, -, -, -, -, heffects⟩ := hhands.handle_getValue
        rw [heffects] at hr
        exact absurd hr (by simp)
      · push Not at hhands
        rw [handle_getValue_of_not hhands] at hr
        exact absurd hr List.not_mem_nil
  | receivedProposalPart peer part =>
      by_cases hhands : ∃ p data, HandsOver s (.receivedProposalPart peer part) p data
      · obtain ⟨q, data, hhands⟩ := hhands
        rw [hhands.handle_receivedProposalPart] at hr
        exact absurd hr (by simp)
      · push Not at hhands
        rcases handle_receivedProposalPart_of_not hhands with heffects | heffects
        · rw [heffects] at hr
          exact absurd hr List.not_mem_nil
        · rw [heffects] at hr
          exact absurd hr (by simp)
  | decided c =>
      obtain ⟨h, vs, hstart⟩ := (handle_decided c).2.2 _ hr
      exact absurd hstart (by simp)
  | startedRound height round proposer => exact absurd hr List.not_mem_nil
  | restreamProposal => exact absurd hr List.not_mem_nil
  | peerJoined peer => exact absurd hr List.not_mem_nil
  | peerLeft peer => exact absurd hr List.not_mem_nil
  | _ => exact absurd (List.mem_singleton.mp hr) (by simp)

/-- One step. -/
theorem handsFaithful_step_iff (s : State) (e : Event) :
    HandsFaithful s e ↔ SyncsFaithful e := by
  constructor
  · intro hhands height round proposer bytes hmsg hpasses v hv
    have heffects : (handle e.msg s).effects =
        [.reply (.syncedValue ⟨height, round, .nil, proposer, v, .valid⟩)] := by
      rw [hmsg, handle, decodeValue, hv]
      rfl
    have hperformed : e.performed s = (handle e.msg s).effects := by
      cases e with
      | deliver msg => rfl
      | restart msg n serverStarts =>
          have heffects : (handle msg s).effects = _ := heffects
          have hn : 0 < n := hpasses
          refine List.take_of_length_le ?_
          rw [heffects]
          exact hn
    refine hhands (.syncedValue ⟨height, round, .nil, proposer, v, .valid⟩) ?_ _ v rfl
    rw [hperformed, heffects]
    exact List.mem_singleton_self _
  · intro hsyncs r hr slot v hv
    have hmem := Event.mem_replies hr
    by_cases hsynced : ∃ p, r = .syncedValue p
    · obtain ⟨p, rfl⟩ := hsynced
      obtain ⟨height, round, proposer, bytes, hmsg, hbytes⟩ := synced_of_reply hmem
      obtain ⟨effect, heffect, -⟩ := List.mem_filterMap.mp hr
      have hpasses := Event.passes_of_mem_performed heffect
      rw [← (Prod.mk.inj (Option.some.inj hv)).2]
      exact hsyncs height round proposer bytes hmsg hpasses p.value hbytes
    · have hproduced : r.produced = some (slot, v) := by
        cases r with
        | syncedValue p => exact absurd ⟨p, rfl⟩ hsynced
        | _ => exact hv
      obtain ⟨p, data, hhands, rfl⟩ := handsOver_of_produced hmem hproduced
      rw [hhands.value_eq]
      exact Value.faithful_new data

/-- **Every value handed to consensus carries the hash of its bytes, exactly if every
synchronised one does.**  Own values and reassembled ones are built by `Value::new`;
the two fields of a synchronised value are taken from the wire as they stand, and
nothing relates them but the peer that sent them. -/
theorem handedValues_faithful_iff (h : Run (node config) steps s) :
    (∀ x ∈ steps, HandsFaithful x.1 x.2) ↔ ∀ x ∈ steps, SyncsFaithful x.2 :=
  h.forall_congr fun s e _ => handsFaithful_step_iff s e

end Faithful

section FaithfulDemo

attribute [local instance] demoCrypto Prost.reference demoPayload

/-- A proposer that is asked for a value and then synchronises it. -/
def syncMsgs (value : Value) : List AppMsg :=
  [.getValue ⟨1⟩ (.some 0), .processSyncedValue ⟨1⟩ (.some 0) (demoAddress 1) value.toBytes]

theorem handedValues_faithful_proposer :
    ∃ steps s, Run (node (demoConfig 1 [5])) steps s ∧ steps.length = 2 ∧
      ∀ x ∈ steps, HandsFaithful x.1 x.2 := by
  have hstart : Run (node (demoConfig 1 [5])) [] (demoState 1 [5]) := .start ⟨true, rfl⟩
  have hrun := hstart.deliveries (syncMsgs (Value.new [5])) (by decide +kernel)
  refine ⟨_, _, hrun, rfl, (handedValues_faithful_iff hrun).mpr
    fun x hx height round proposer bytes hmsg _ v hv => ?_⟩
  rcases List.mem_cons.mp hx with rfl | hx
  · exact absurd hmsg (by simp [Event.msg])
  · rw [List.mem_singleton.mp hx] at hmsg
    obtain ⟨-, -, -, rfl⟩ := AppMsg.processSyncedValue.inj hmsg
    rw [Value.fromBytes_toBytes] at hv
    rw [← Except.ok.inj hv]
    exact Value.faithful_new [5]

/-- A peer sends the number of one value with the bytes of another. -/
theorem handedValues_not_faithful_of_sync :
    ¬ ∀ (steps : List (State × Event)) (s : State), Run (node (demoConfig 1 [5])) steps s →
      ∀ x ∈ steps, HandsFaithful x.1 x.2 := by
  intro hall
  have hstart : Run (node (demoConfig 1 [5])) [] (demoState 1 [5]) := .start ⟨true, rfl⟩
  have hrun := hstart.deliveries (syncMsgs ⟨(Value.new [5]).value, [6]⟩) (by decide +kernel)
  have hhands := hall _ _ hrun _ (List.mem_cons_of_mem _ List.mem_cons_self)
  have hfaithful := hhands
    (.syncedValue ⟨⟨1⟩, .some 0, .nil, demoAddress 1, ⟨(Value.new [5]).value, [6]⟩, .valid⟩)
    (by decide +kernel) _ _ rfl
  exact absurd hfaithful (by decide +kernel)

end FaithfulDemo
end MalakethTurbo
