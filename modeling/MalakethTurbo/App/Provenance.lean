import MalakethTurbo.App.Decisions
import MalakethTurbo.App.Agreement

/-!
# Where the contents of a store come from

A node may be sent anything, in any order, and it may die anywhere in its handlers.
Nevertheless nothing is in its store but of proposals that it has made itself or got in full
over a stream.  A decision is recorded only after a proposal for its slot has begun to be
stored, and with the value of that proposal (`stored_was_acquired`).  A node that dies between
the transactions of a proposal has part of it in its store and has handed it to nobody, so more
cannot be said of what is there.

What a node gets by synchronisation is never among this.  It is handed to consensus and not
kept, so a node that gets the value of a height in no other way has nothing of that height,
however often it is told of the decision.
-/

namespace MalakethTurbo

open Wire (Bytes)

section Provenance

variable [Crypto] [Prost] [Payload] {config : Config} {steps before : List (State × Event)}
  {s : State} {e : Event}

/-- Among the steps is one in which the node made a proposal with this data for the slot, or got
the last part of one that it accepted, and which went through the first of the transactions that
store it. -/
def Acquired (steps : List (State × Event)) (k : UndecidedValueKey) (data : Bytes) : Prop :=
  ∃ x ∈ steps, x.2.Passes 0 ∧
    ∃ p, HandsOver x.1 x.2.msg p data ∧ p.height = k.height ∧ p.round = k.round

/-- Among the steps is a decision, and before it a proposal with this data has been acquired for
the slot of its certificate. -/
def DecidedAfter (steps : List (State × Event)) (c : CommitCertificate) (data : Bytes) : Prop :=
  ∃ before x after, steps = before ++ x :: after ∧ x.2.msg = .decided c ∧ x.2.Passes 0 ∧
    Acquired before ⟨c.height, c.round⟩ data

/-- So for some certificate of a height. -/
def DecidedAt (steps : List (State × Event)) (height : Height) (data : Bytes) : Prop :=
  ∃ c, c.height = height ∧ DecidedAfter steps c data

/-- Where the contents of the tables come from. -/
structure Sourced (steps : List (State × Event)) (db : Db) : Prop where
  wellFormed : db.WellFormed
  drawn : db.ledger.DrawnFrom (Acquired steps) (DecidedAt steps)
  decided : ∀ height d, db.ledger.decided height = some d → d.certificate.height = height ∧
    ∃ data, DecidedAfter steps d.certificate data ∧ d.value = Value.new data

omit [Prost] in
theorem Acquired.mono {steps' : List (State × Event)} {k : UndecidedValueKey} {data : Bytes}
    (h : Acquired steps k data) : Acquired (steps ++ steps') k data := by
  obtain ⟨x, hx, hover⟩ := h
  exact ⟨x, List.mem_append_left _ hx, hover⟩

omit [Prost] in
theorem DecidedAfter.mono {steps' : List (State × Event)} {c : CommitCertificate} {data : Bytes}
    (h : DecidedAfter steps c data) : DecidedAfter (steps ++ steps') c data := by
  obtain ⟨before, x, after, rfl, hx⟩ := h
  exact ⟨before, x, after ++ steps', by simp, hx⟩

omit [Prost] in
theorem DecidedAt.mono {steps' : List (State × Event)} {height : Height} {data : Bytes}
    (h : DecidedAt steps height data) : DecidedAt (steps ++ steps') height data := by
  obtain ⟨c, hc, hafter⟩ := h
  exact ⟨c, hc, hafter.mono⟩

theorem Sourced.mono {steps' : List (State × Event)} {db : Db} (h : Sourced steps db) :
    Sourced (steps ++ steps') db where
  wellFormed := h.wellFormed
  drawn := h.drawn.mono (fun _ _ => Acquired.mono) fun _ _ => DecidedAt.mono
  decided height d hd := by
    obtain ⟨hheight, data, hafter, hvalue⟩ := h.decided height d hd
    exact ⟨hheight, data, hafter.mono, hvalue⟩

omit [Prost] in
theorem DecidedAfter.acquired {c : CommitCertificate} {data : Bytes}
    (h : DecidedAfter steps c data) : Acquired steps ⟨c.height, c.round⟩ data := by
  obtain ⟨before, x, after, rfl, -, -, hacquired⟩ := h
  exact hacquired.mono

/-- What the slot of a certificate holds has been acquired before the decision. -/
theorem Sourced.decidedAfter (h : Sourced steps s.store) {c : CommitCertificate}
    (hmsg : e.msg = .decided c) (hpasses : e.Passes 0) {p : ProposedValue}
    (hslot : s.store.getUndecidedProposal c.height c.round = .ok (some p)) :
    ∃ data, DecidedAfter (steps ++ [(s, e)]) c data ∧ p.value = Value.new data := by
  rw [h.wellFormed.getUndecidedProposal_eq] at hslot
  obtain ⟨data, hdata, hvalue⟩ := h.drawn.proposal _ p (Except.ok.inj hslot)
  exact ⟨data, ⟨steps, (s, e), [], rfl, hmsg, hpasses, hdata⟩, hvalue⟩

/-- Every transaction of a step writes what has been acquired. -/
theorem Sourced.drawn_of_mem_writes (h : Sourced steps s.store) (hpasses : e.Passes 0)
    {w : StoreWrite} (hw : w ∈ writes (handle e.msg s).effects) :
    w.DrawnFrom (Acquired (steps ++ [(s, e)])) (DecidedAt (steps ++ [(s, e)])) := by
  rcases handle_cases s e.msg with ⟨p, data, hover⟩ | ⟨c, hmsg⟩ | hquiet
  · have hacquired : Acquired (steps ++ [(s, e)]) ⟨p.height, p.round⟩ data :=
      ⟨(s, e), List.mem_append_right _ List.mem_cons_self, hpasses, p, hover, rfl, rfl⟩
    obtain ⟨reply, msgs, -, heffects⟩ := hover.handle_effects
    rw [heffects, writes_append, writes_map_write, writes_reply_cons, writes_map_publish,
      List.append_nil] at hw
    rcases List.mem_pair.mp hw with rfl | rfl
    · exact ⟨data, hacquired, hover.value_eq⟩
    · exact hacquired
  · rw [hmsg] at hw
    rcases (handle_decided (s := s) c).1 with ⟨p, hslot, -, hwrites⟩ | hnone
    · rw [hwrites, State.commitEffects, writes_write_cons] at hw
      rcases List.mem_cons.mp hw with rfl | hw
      · obtain ⟨data, hdecided, hvalue⟩ := h.decidedAfter hmsg hpasses hslot
        exact ⟨data, ⟨c, rfl, hdecided⟩, hvalue⟩
      · rcases State.mem_writes_settleEffects hw with ⟨data, hdata, rfl⟩ | rfl
        · rw [Db.getBlockData_eq] at hdata
          rcases h.drawn.blockDataAt hdata with hacquired | hold
          · exact ⟨c, rfl, steps, (s, e), [], rfl, hmsg, hpasses, hacquired⟩
          · exact hold.mono
        · trivial
    · rw [hnone] at hw
      exact absurd hw List.not_mem_nil
  · rw [hquiet.writes_eq] at hw
    exact absurd hw List.not_mem_nil

/-- **A step adds nothing but what has been acquired.** -/
theorem Sourced.storeAfter (h : Sourced steps s.store) (e : Event) :
    Sourced (steps ++ [(s, e)]) (e.storeAfter s) := by
  refine StoreWrite.applyAll_induction (P := Sourced (steps ++ [(s, e)])) h.mono ?_
  intro db hdb w hw
  have hmem := Event.mem_writes hw
  have hpasses : e.Passes 0 := by
    obtain ⟨effect, heffect, -⟩ := List.mem_filterMap.mp hw
    exact Event.passes_of_mem_performed heffect
  obtain ⟨hwell, hledger⟩ := hdb.wellFormed.refines w
  refine ⟨hwell, ?_, fun height d hd => ?_⟩
  · rw [hledger]
    exact hdb.drawn.apply (h.drawn_of_mem_writes hpasses hmem)
  · rw [hledger] at hd
    rcases Ledger.decided_of_apply hd with hold | ⟨rfl, hheight⟩
    · exact hdb.decided height d hold
    · obtain ⟨c, p, hmsg, hslot, rfl⟩ := decidedValue_mem_writes hmem
      exact ⟨hheight, h.decidedAfter hmsg hpasses hslot⟩

/-- What a run has in its store. -/
theorem Run.sourced (h : Run (node config) steps s) : Sourced steps s.store := by
  refine h.history_along (G := fun _ _ => True) (P := fun steps s => Sourced steps s.store)
    ?_ ?_ fun _ _ => trivial
  · rintro s ⟨serverStarts, rfl⟩
    refine ⟨Db.WellFormed.empty, Ledger.DrawnFrom.empty, fun height d hd => ?_⟩
    cases hd
  · intro steps s e s' hs _ hstep
    rw [store_of_step hstep]
    exact hs.storeAfter e

/-- **Nothing is stored that has not been acquired.**  In every run of a node, whatever it is
sent and wherever it dies, a proposal in a slot has the value of one that the node has made or
got in full for the slot, and has begun to store; block data is that of one for the height; and
a decision is of a certificate that the node has been told of after it had begun to store a
proposal for its slot, whose value it has.  A height for which no proposal has come that far has
no decision, whatever has been synchronised. -/
theorem stored_was_acquired (h : Run (node config) steps s) :
    (∀ height round p, s.store.getUndecidedProposal height round = .ok (some p) →
      ∃ data, Acquired steps ⟨height, round⟩ data ∧ p.value = Value.new data) ∧
    (∀ height round data, s.store.getBlockData height round = some data →
      ∃ round', Acquired steps ⟨height, round'⟩ data) ∧
    (∀ height d, s.store.getDecidedValue height = some d → d.certificate.height = height ∧
      ∃ data, DecidedAfter steps d.certificate data ∧ d.value = Value.new data) ∧
    ∀ height, (∀ round data, ¬ Acquired steps ⟨height, round⟩ data) →
      s.store.getDecidedValue height = none ∧
        ∀ round, s.store.getBlockData height round = none := by
  have hsourced := h.sourced
  have hdata : ∀ height round data, s.store.getBlockData height round = some data →
      ∃ round', Acquired steps ⟨height, round'⟩ data := by
    intro height round data hdata
    rw [Db.getBlockData_eq] at hdata
    rcases hsourced.drawn.blockDataAt hdata with hacquired | ⟨c, rfl, hafter⟩
    · exact ⟨round, hacquired⟩
    · exact ⟨c.round, hafter.acquired⟩
  have hdecided : ∀ height d, s.store.getDecidedValue height = some d →
      d.certificate.height = height ∧
        ∃ data, DecidedAfter steps d.certificate data ∧ d.value = Value.new data :=
    hsourced.decided
  refine ⟨fun height round p hp => ?_, hdata, hdecided, fun height hnone => ⟨?_, fun round => ?_⟩⟩
  · rw [hsourced.wellFormed.getUndecidedProposal_eq] at hp
    exact hsourced.drawn.proposal _ p (Except.ok.inj hp)
  · rw [Option.eq_none_iff_forall_not_mem]
    intro d hd
    obtain ⟨rfl, data, hafter, -⟩ := hdecided height d hd
    exact hnone _ data hafter.acquired
  · rw [Option.eq_none_iff_forall_not_mem]
    intro data hmem
    obtain ⟨round', hacquired⟩ := hdata height round data hmem
    exact hnone round' data hacquired

end Provenance

section Demo

attribute [local instance] demoCrypto Prost.reference demoPayload

/-- A node proposes a block, which is decided. -/
def proposedMsgs : List AppMsg := [.getValue ⟨1⟩ (.some 0), .decided (demoCertificate 5)]

/-- A node synchronises the block, which is decided. -/
def syncedMsgs : List AppMsg :=
  [.processSyncedValue ⟨1⟩ (.some 0) (demoAddress 1) (Value.new [5]).toBytes,
    .decided (demoCertificate 5)]

/-- The one node has the decision, after the proposal; the other has none. -/
theorem stored_was_acquired_demo :
    (∃ data, DecidedAfter (deliveries (demoState 1 [5]) proposedMsgs) (demoCertificate 5) data ∧
      Value.new [5] = Value.new data) ∧
    (handleAll (demoState 2 []) syncedMsgs).store.getDecidedValue ⟨1⟩ = none := by
  have hproposed : Run (node (demoConfig 1 [5])) (deliveries (demoState 1 [5]) proposedMsgs)
      (handleAll (demoState 1 [5]) proposedMsgs) :=
    Run.deliveries (.start ⟨true, rfl⟩) proposedMsgs (by decide +kernel)
  have hsynced : Run (node (demoConfig 2 [])) (deliveries (demoState 2 []) syncedMsgs)
      (handleAll (demoState 2 []) syncedMsgs) :=
    Run.deliveries (.start ⟨true, rfl⟩) syncedMsgs (by decide +kernel)
  refine ⟨((stored_was_acquired hproposed).2.2.1 ⟨1⟩ ⟨Value.new [5], demoCertificate 5⟩
    (by decide +kernel)).2, ((stored_was_acquired hsynced).2.2.2 ⟨1⟩ ?_).1⟩
  rintro round data ⟨x, hx, -, p, hover, -⟩
  rcases List.mem_pair.mp hx with rfl | rfl <;> nomatch hover

end Demo
end MalakethTurbo
