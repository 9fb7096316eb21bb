import MalakethTurbo.App.Calls
import MalakethTurbo.App.Handover

/-!
# Proposals and their data

A proposal and its block data are kept in two tables and written in two
transactions, each of which leaves alone what is already there.

While every call runs to its end the two tables fill in step, and pruning empties
them in step.  A process that stops between the two transactions leaves a proposal
without data, and the next proposal for the slot leaves its data beside it:
`undecided_filled_iff` is the condition under which this does not happen.

A commit replaces the decided value of its height but keeps the decided block data.
A height that is committed twice has the value of the second commit and the data of
the first: `decided_agrees_iff`.
-/

namespace MalakethTurbo

open Wire (Bytes)
open State (keepWrites commitEffects settleEffects)

/-! ## Data without its proposal -/

/-- Block data is kept beside the proposal it belongs to. -/
def Ledger.Filled (l : Ledger) : Prop :=
  ∀ k data, l.blockData k = some data → ∃ p, l.proposal k = some p ∧ p.value.extensions = data

namespace Ledger

variable {l : Ledger}

/-- Only the second transaction of a producer can part data from its proposal. -/
theorem Filled.apply (h : l.Filled) {w : StoreWrite}
    (hw : ∀ height round data, w ≠ .undecidedBlockData height round data) :
    (l.apply w).Filled := by
  intro k data hdata
  cases w with
  | undecidedProposal p =>
      rw [Ledger.apply] at hdata ⊢
      split_ifs at hdata ⊢ with hround
      · exact h k data hdata
      · obtain ⟨q, hq, hext⟩ := h k data hdata
        refine ⟨q, ?_, hext⟩
        show keepFirst l.proposal ⟨p.height, p.round⟩ p k = some q
        by_cases hk : k = ⟨p.height, p.round⟩
        · rw [hk, keepFirst_self, ← hk, hq]
          rfl
        · rw [keepFirst_of_ne _ _ hk, hq]
  | undecidedBlockData height round data' => exact absurd rfl (hw height round data')
  | decidedValue v =>
      rw [Ledger.apply] at hdata ⊢
      split_ifs at hdata ⊢ <;> exact h k data hdata
  | decidedBlockData height data' => exact h k data hdata
  | prune retain =>
      obtain ⟨hretain, hdata⟩ := Option.ite_none_left_eq_some.mp hdata
      obtain ⟨q, hq, hext⟩ := h k data hdata
      exact ⟨q, (if_neg hretain).trans hq, hext⟩

theorem Filled.applyAll (h : l.Filled) {ws : List StoreWrite}
    (hws : ∀ w ∈ ws, ∀ height round data, w ≠ .undecidedBlockData height round data) :
    (l.applyAll ws).Filled := by
  induction ws generalizing l with
  | nil => exact h
  | cons w ws ih =>
      exact ih (h.apply (hws w List.mem_cons_self)) fun v hv => hws v (List.mem_cons_of_mem _ hv)

/-- A producer keeps data beside its proposal exactly if the slot has data already, or
has no proposal of other data. -/
theorem filled_keepWrites_iff (h : l.Filled) {p : ProposedValue} (hround : p.round ≠ .nil) :
    (l.applyAll (keepWrites p p.height p.round p.value.extensions)).Filled ↔
      (l.blockData ⟨p.height, p.round⟩).isSome ∨
        ∀ q, l.proposal ⟨p.height, p.round⟩ = some q →
          q.value.extensions = p.value.extensions := by
  rw [applyAll_keepWrites l hround]
  constructor
  · intro hfilled
    cases hold : l.blockData ⟨p.height, p.round⟩ with
    | some data => exact Or.inl rfl
    | none =>
        refine Or.inr fun q hq => ?_
        obtain ⟨q', hq', hext⟩ := hfilled ⟨p.height, p.round⟩ p.value.extensions (by
          dsimp only
          rw [keepFirst_self, hold, Option.getD_none])
        dsimp only at hq'
        rw [keepFirst_self, hq, Option.getD_some] at hq'
        rw [Option.some.inj hq']
        exact hext
  · intro hslot k data hdata
    rcases keepFirst_eq_some hdata with hold | ⟨rfl, hnone, rfl⟩
    · obtain ⟨q, hq, hext⟩ := h k data hold
      refine ⟨q, ?_, hext⟩
      dsimp only
      by_cases hk : k = ⟨p.height, p.round⟩
      · rw [hk, keepFirst_self, ← hk, hq, Option.getD_some]
      · rw [keepFirst_of_ne _ _ hk, hq]
    · refine ⟨_, keepFirst_self _ _ _, ?_⟩
      cases hq : l.proposal ⟨p.height, p.round⟩ with
      | none => rfl
      | some q =>
          rcases hslot with hsome | hsame
          · rw [hnone] at hsome
            cases hsome
          · exact hsame q hq

end Ledger

section Undecided

variable [Crypto] [Prost] {config : Config} {steps : List (State × CallEvent)} {s : State}
  {e : CallEvent}

/-- Where the store has undecided block data, it has the proposal of the data. -/
def UndecidedFilled (db : Db) : Prop :=
  ∀ h r data, db.undecidedBlockData.get? ⟨h, r⟩ = some data →
    ∃ p, db.getUndecidedProposal h r = .ok (some p) ∧ p.value.extensions = data

omit [Crypto] in
theorem Db.WellFormed.undecidedFilled_iff {db : Db} (hdb : db.WellFormed) :
    UndecidedFilled db ↔ db.ledger.Filled := by
  constructor
  · intro h k data hdata
    obtain ⟨p, hp, hext⟩ := h k.height k.round data hdata
    rw [hdb.getUndecidedProposal_eq, Except.ok.injEq] at hp
    exact ⟨p, hp, hext⟩
  · intro h height round data hdata
    obtain ⟨p, hp, hext⟩ := h ⟨height, round⟩ data hdata
    exact ⟨p, by rw [hdb.getUndecidedProposal_eq, hp], hext⟩

/-- A producer that gets as far as its second transaction finds the data slot taken, or
the proposal slot free or taken by a proposal of the same data. -/
def FindsOwnSlot (s : State) (e : CallEvent) : Prop :=
  ∀ p data, e.method.Produces s p data → e.Passes 1 →
    (s.store.undecidedBlockData.get? ⟨p.height, p.round⟩).isSome ∨
      ∀ q, s.store.getUndecidedProposal p.height p.round = .ok (some q) →
        q.value.extensions = data

/-- A producer makes both transactions, or it does not write block data. -/
theorem performed_of_produces {p : ProposedValue} {data : Bytes}
    (h : e.method.Produces s p data) :
    (e.Passes 1 ∧ writes (e.performed s) = keepWrites p p.height p.round data) ∨
      ¬ e.Passes 1 ∧ ∀ w ∈ writes (e.performed s), w = .undecidedProposal p := by
  have heffects := h.run_effects
  cases e with
  | returns m =>
      refine Or.inl ⟨trivial, ?_⟩
      show writes (m.run s).effects = _
      rw [show (m.run s).effects = _ from heffects, writes_map_write]
  | stops m n serverStarts =>
      have hperformed : writes ((CallEvent.stops m n serverStarts).performed s) =
          (keepWrites p p.height p.round data).take n := by
        show writes ((m.run s).effects.take n) = _
        rw [show (m.run s).effects = _ from heffects, ← List.map_take, writes_map_write]
      rw [hperformed]
      by_cases hn : 1 < n
      · exact Or.inl ⟨hn, List.take_of_length_le hn⟩
      · refine Or.inr ⟨hn, fun w hw => ?_⟩
        have htake := (List.take_sublist_take_left (l := keepWrites p p.height p.round data)
          (not_lt.mp hn)).subset hw
        exact List.mem_singleton.mp htake

/-- A call that produces nothing does not write undecided block data. -/
theorem ne_undecidedBlockData_of_performed (h : ∀ p data, ¬ e.method.Produces s p data) :
    ∀ w ∈ writes (e.performed s), ∀ height round data,
      w ≠ .undecidedBlockData height round data := by
  intro w hw height round data heq
  have hmem : w ∈ writes (e.method.run s).effects := (e.writes_isPrefix s).subset hw
  rcases e.method.run_cases s with ⟨p, data', hproduces⟩ | ⟨c, p, -, -, -, heffects⟩ | heffects
  · exact h p data' hproduces
  · rw [heffects, commitEffects, writes_write_cons, heq] at hmem
    rcases List.mem_cons.mp hmem with hdecided | hsettle
    · cases hdecided
    · rcases State.mem_writes_settleEffects hsettle with ⟨data', -, hdata⟩ | hprune
      · cases hdata
      · cases hprune
  · rw [heffects] at hmem
    exact absurd hmem List.not_mem_nil

/-- One step. -/
theorem undecidedFilled_step_iff (hdb : s.store.WellFormed) (hs : UndecidedFilled s.store) :
    UndecidedFilled (e.storeAfter s) ↔ FindsOwnSlot s e := by
  obtain ⟨hwell, hledger⟩ := hdb.refines_applyAll (writes (e.performed s))
  have hfilled := hdb.undecidedFilled_iff.mp hs
  rw [CallEvent.storeAfter, hwell.undecidedFilled_iff, hledger]
  by_cases hproduces : ∃ p data, e.method.Produces s p data
  · obtain ⟨p, data, hp⟩ := hproduces
    obtain rfl := hp.extensions_eq
    have hsame : ∀ q data, e.method.Produces s q data →
        (keepWrites q q.height q.round data).map Effect.write =
          (keepWrites p p.height p.round p.value.extensions).map Effect.write := by
      intro q data hq
      rw [← hq.run_effects, hp.run_effects]
    rcases performed_of_produces hp with ⟨hpasses, hwrites⟩ | ⟨hpasses, hwrites⟩
    · rw [hwrites, Ledger.filled_keepWrites_iff hfilled hp.round_ne_nil]
      constructor
      · intro hslot q data hq _
        have hlist := hsame q data hq
        simp only [keepWrites, List.map_cons, List.map_nil, List.cons.injEq, Effect.write.injEq,
          StoreWrite.undecidedProposal.injEq, StoreWrite.undecidedBlockData.injEq] at hlist
        obtain ⟨rfl, ⟨-, -, rfl⟩, -⟩ := hlist
        refine hslot.imp id fun h q' hq' => ?_
        rw [hdb.getUndecidedProposal_eq, Except.ok.injEq] at hq'
        exact h q' hq'
      · intro hfinds
        refine (hfinds p _ hp hpasses).imp id fun h q hq => ?_
        exact h q (by rw [hdb.getUndecidedProposal_eq, hq])
    · refine iff_of_true ?_ fun q data _ hq => absurd hq hpasses
      refine hfilled.applyAll fun w hw height round data heq => ?_
      rw [hwrites w hw] at heq
      cases heq
  · push Not at hproduces
    refine iff_of_true ?_ fun q data hq _ => absurd hq (hproduces q data)
    exact hfilled.applyAll (ne_undecidedBlockData_of_performed hproduces)

/-- **Block data keeps its proposal exactly while no producer completes the slot of
another.**  In a run of calls that may stop between any two transactions, every store
reached has the proposal of all its undecided block data if and only if every producer
that gets as far as its block data finds its own slot. -/
theorem undecided_filled_iff (h : Run (calls config) steps s) :
    (∀ x ∈ steps, UndecidedFilled (x.2.storeAfter x.1)) ↔
      ∀ x ∈ steps, FindsOwnSlot x.1 x.2 := by
  refine h.forall_congr_along (G := fun _ _ => True)
    (I := fun s => s.store.WellFormed ∧ UndecidedFilled s.store)
    (P := fun s e => UndecidedFilled (e.storeAfter s)) (fun _ _ => trivial) ?_ ?_ ?_
  · rintro s ⟨serverStarts, rfl⟩
    exact ⟨Db.WellFormed.empty, fun h r data hdata =>
      absurd hdata (by simp [State.new, Db.empty])⟩
  · rintro s e s' ⟨hdb, -⟩ - hfilled hstep
    rw [store_of_call hstep]
    exact ⟨(hdb.refines_applyAll _).1, hfilled⟩
  · rintro s e ⟨hdb, hs⟩ -
    exact undecidedFilled_step_iff hdb hs

end Undecided

section UndecidedDemo

attribute [local instance] demoCrypto Prost.reference demoPayload

/-- The process stops after the first transaction of a proposal. -/
def halfProposal (data : Bytes) : CallEvent := .stops (.proposeValue ⟨1⟩ (.some 0) data) 1 true

/-- A node that has stopped in the middle of a proposal and is started again. -/
def restartedNode (data : Bytes) : State :=
  State.new (demoConfig 1 []) ((halfProposal data).storeAfter (demoState 1 [])) true

theorem restartedNode_run (data : Bytes) :
    Run (calls (demoConfig 1 [])) ([] ++ [(demoState 1 [], halfProposal data)])
      (restartedNode data) :=
  Run.stops (.start ⟨true, rfl⟩) _ 1 true

/-- The node proposes the same data again, which completes the slot. -/
theorem undecided_filled_demo :
    ∃ steps s, Run (calls (demoConfig 1 [])) steps s ∧
      (∀ x ∈ steps, UndecidedFilled (x.2.storeAfter x.1)) ∧
      s.store.undecidedBlockData.get? ⟨⟨1⟩, .some 0⟩ = some [5] := by
  have hrun := (restartedNode_run [5]).returns (m := .proposeValue ⟨1⟩ (.some 0) [5])
    (by decide +kernel)
  refine ⟨_, _, hrun, (undecided_filled_iff hrun).mpr fun x hx p data hp hpasses => ?_,
    by decide +kernel⟩
  rcases List.mem_append.mp hx with hx | hx
  · obtain rfl := List.mem_singleton.mp hx
    exact absurd hpasses (lt_irrefl 1)
  · obtain rfl := List.mem_singleton.mp hx
    refine Or.inr fun q hq => ?_
    have hslot := hq.symm.trans (by
      cases hp
      decide +kernel :
      _ = .ok (some ((demoState 1 []).localProposal ⟨1⟩ (.some 0) (Value.new [5]))))
    rw [Option.some.inj (Except.ok.inj hslot)]
    cases hp
    rfl

/-- The node proposes other data, and the slot has the proposal of the first data with
the second. -/
theorem undecided_not_filled_after_stop :
    ¬ ∀ (steps : List (State × CallEvent)) (s : State),
      Run (calls (demoConfig 1 [])) steps s → UndecidedFilled s.store := by
  intro hall
  have hrun := (restartedNode_run [5]).returns (m := .proposeValue ⟨1⟩ (.some 0) [6])
    (by decide +kernel)
  obtain ⟨p, hp, hext⟩ := hall _ _ hrun ⟨1⟩ (.some 0) [6] (by decide +kernel)
  have hslot := hp.symm.trans (by decide +kernel :
    _ = .ok (some ((demoState 1 []).localProposal ⟨1⟩ (.some 0) (Value.new [5]))))
  rw [Option.some.inj (Except.ok.inj hslot)] at hext
  exact absurd hext (by decide +kernel)

end UndecidedDemo

/-! ## Data of another decision -/

/-- The undecided tables are in step, and decided data has its decision. -/
structure Ledger.Settled (l : Ledger) : Prop where
  undecided : ∀ k, (l.proposal k).map (fun p => p.value.extensions) = l.blockData k
  decided : ∀ h, (l.decidedData h).isSome → (l.decided h).isSome

/-- Decided data is the data of the decision. -/
def Ledger.Agrees (l : Ledger) : Prop :=
  ∀ h v data, l.decided h = some v → l.decidedData h = some data → data = v.value.extensions

namespace Ledger

variable {l : Ledger}

theorem Settled.empty : Settled empty :=
  ⟨fun _ => rfl, fun _ h => absurd h (by simp [Ledger.empty])⟩

/-- A producer that makes both transactions keeps the tables in step. -/
theorem Settled.keepWrites (h : l.Settled) {p : ProposedValue} (hround : p.round ≠ .nil) :
    (l.applyAll (State.keepWrites p p.height p.round p.value.extensions)).Settled := by
  rw [applyAll_keepWrites l hround]
  refine ⟨fun k => ?_, h.decided⟩
  dsimp only
  by_cases hk : k = ⟨p.height, p.round⟩
  · rw [hk, keepFirst_self, keepFirst_self, ← h.undecided]
    cases l.proposal ⟨p.height, p.round⟩ with
    | none => rfl
    | some q => rfl
  · rw [keepFirst_of_ne _ _ hk, keepFirst_of_ne _ _ hk, h.undecided]

/-- The transactions of a commit of a value with its data. -/
def commitWrites (v : DecidedValue) (data : Bytes) (retain : Height) : List StoreWrite :=
  [.decidedValue v, .decidedBlockData v.certificate.height data, .prune retain]

section Commit

variable {v : DecidedValue} {data : Bytes} {retain : Height}

theorem decided_commitWrites (hround : v.certificate.round ≠ .nil) (k : Height) :
    (l.applyAll (commitWrites v data retain)).decided k =
      if k < retain then none
      else Function.update l.decided v.certificate.height (some v) k := by
  simp only [commitWrites, Ledger.applyAll, List.foldl_cons, List.foldl_nil, Ledger.apply,
    if_neg hround]

theorem decidedData_commitWrites (hround : v.certificate.round ≠ .nil) (k : Height) :
    (l.applyAll (commitWrites v data retain)).decidedData k =
      if k < retain ∧ (Function.update l.decided v.certificate.height (some v) k).isSome
      then none else keepFirst l.decidedData v.certificate.height data k := by
  simp only [commitWrites, Ledger.applyAll, List.foldl_cons, List.foldl_nil, Ledger.apply,
    if_neg hround]

/-- A commit keeps the tables in step: it prunes both undecided tables below one height,
and decided data together with its decision. -/
theorem Settled.commitWrites (h : l.Settled) (hround : v.certificate.round ≠ .nil) :
    (l.applyAll (commitWrites v data retain)).Settled := by
  constructor
  · intro k
    simp only [Ledger.commitWrites, Ledger.applyAll, List.foldl_cons, List.foldl_nil,
      Ledger.apply, if_neg hround]
    by_cases hk : k.height < retain
    · rw [if_pos hk, if_pos hk]
      rfl
    · rw [if_neg hk, if_neg hk, h.undecided]
  · intro k hdata
    rw [decidedData_commitWrites hround] at hdata
    rw [decided_commitWrites hround]
    have hdecided : (Function.update l.decided v.certificate.height (some v) k).isSome := by
      by_cases hk : k = v.certificate.height
      · rw [hk, Function.update_self]
        rfl
      · rw [Function.update_of_ne hk]
        refine h.decided k ?_
        split_ifs at hdata
        · cases hdata
        · rw [keepFirst_of_ne _ _ hk] at hdata
          exact hdata
    by_cases hlt : k < retain
    · rw [if_pos ⟨hlt, hdecided⟩] at hdata
      cases hdata
    · rw [if_neg hlt]
      exact hdecided

/-- **A commit leaves its own data exactly if its height has no other.** -/
theorem agrees_commitWrites_iff (h : l.Agrees) (hround : v.certificate.round ≠ .nil)
    (hretain : retain ≤ v.certificate.height) :
    (l.applyAll (commitWrites v v.value.extensions retain)).Agrees ↔
      ∀ data, l.decidedData v.certificate.height = some data → data = v.value.extensions := by
  constructor
  · intro hagrees data hdata
    refine hagrees v.certificate.height v data ?_ ?_
    · rw [decided_commitWrites hround, if_neg (not_lt.mpr hretain), Function.update_self]
    · rw [decidedData_commitWrites hround, if_neg fun hlt => not_lt.mpr hretain hlt.1,
        keepFirst_self, hdata, Option.getD_some]
  · intro hsame k v' data hdecided hdata
    rw [decided_commitWrites hround] at hdecided
    rw [decidedData_commitWrites hround] at hdata
    obtain ⟨-, hdecided⟩ := Option.ite_none_left_eq_some.mp hdecided
    obtain ⟨-, hdata⟩ := Option.ite_none_left_eq_some.mp hdata
    by_cases hk : k = v.certificate.height
    · rw [hk, Function.update_self] at hdecided
      rw [hk, keepFirst_self] at hdata
      obtain rfl := Option.some.inj hdecided
      cases hold : l.decidedData v.certificate.height with
      | none =>
          rw [hold] at hdata
          exact (Option.some.inj hdata).symm
      | some old =>
          rw [hold] at hdata
          rw [← Option.some.inj hdata]
          exact hsame old hold
    · rw [Function.update_of_ne hk] at hdecided
      rw [keepFirst_of_ne _ _ hk] at hdata
      exact h k v' data hdecided hdata

end Commit
end Ledger

section Decided

variable [Crypto] [Prost] {config : Config} {steps : List (State × CallEvent)} {s : State}
  {e : CallEvent}

/-- Where the store has a decided value and decided block data, they belong together. -/
def DecidedAgrees (db : Db) : Prop :=
  ∀ h v data, db.getDecidedValue h = some v → db.decidedBlockData.get? h = some data →
    data = v.value.extensions

/-- A commit that finds the proposal of its certificate finds no decided block data at
its height, or the data of the proposal. -/
def FindsOwnData (s : State) (e : CallEvent) : Prop :=
  ∀ c p data, e = .returns (.commit c) →
    s.store.getUndecidedProposal c.height c.round = .ok (some p) →
    s.store.decidedBlockData.get? c.height = some data → data = p.value.extensions

omit [Crypto] in
/-- What a commit writes when its slot has the data of its proposal. -/
theorem writes_commitEffects {c : CommitCertificate} {p : ProposedValue}
    (hs : s.store.ledger.Settled)
    (hslot : s.store.ledger.proposal ⟨c.height, c.round⟩ = some p) :
    writes (commitEffects s c p) = Ledger.commitWrites ⟨p.value, c⟩ p.value.extensions
      (c.height.saturatingSub State.MAX_HISTORY_LENGTH) := by
  have hdata : s.store.getBlockData c.height c.round = some p.value.extensions := by
    rw [Db.getBlockData_eq, Ledger.blockDataAt, ← hs.undecided, hslot]
    rfl
  simp only [commitEffects, settleEffects, State.blockDataEffects, hdata]
  split_ifs <;> rfl

/-- A call keeps the tables in step, and keeps the data of every decision exactly if it
finds its own. -/
def KeepsData (s : State) (e : CallEvent) : Prop :=
  (e.storeAfter s).ledger.Settled ∧
    (DecidedAgrees s.store → (DecidedAgrees (e.storeAfter s) ↔ FindsOwnData s e))

theorem keepsData_of_quiet (hs : s.store.ledger.Settled) (hwrites : writes (e.performed s) = [])
    (hfinds : FindsOwnData s e) : KeepsData s e := by
  rw [KeepsData, CallEvent.storeAfter, hwrites]
  exact ⟨hs, fun hagrees => iff_of_true hagrees hfinds⟩

/-- A producer does not touch the decisions. -/
theorem keepsData_of_produces (hdb : s.store.WellFormed) (hs : s.store.ledger.Settled)
    {m : Method} {p : ProposedValue} {data : Bytes} (hp : m.Produces s p data) :
    KeepsData s (.returns m) := by
  obtain rfl := hp.extensions_eq
  have hstore : ((CallEvent.returns m).storeAfter s).ledger = s.store.ledger.applyAll
      (keepWrites p p.height p.round p.value.extensions) := by
    have hperformed : (CallEvent.returns m).performed s = (m.run s).effects := rfl
    rw [CallEvent.storeAfter, (hdb.refines_applyAll _).2, hperformed, hp.run_effects,
      writes_map_write]
  refine ⟨hstore ▸ hs.keepWrites hp.round_ne_nil, fun hagrees => iff_of_true ?_ ?_⟩
  · intro h v data hv hdata
    rw [Ledger.applyAll_keepWrites _ hp.round_ne_nil] at hstore
    refine hagrees h v data ?_ ?_
    · exact (congrFun (congrArg Ledger.decided hstore) h).symm.trans hv
    · exact (congrFun (congrArg Ledger.decidedData hstore) h).symm.trans hdata
  · intro c q data he
    cases he
    cases hp

/-- A commit leaves its own data exactly if it finds no other. -/
theorem keepsData_of_commit (hdb : s.store.WellFormed) (hs : s.store.ledger.Settled)
    {c : CommitCertificate} {p : ProposedValue} (hround : c.round ≠ .nil)
    (hslot : s.store.ledger.proposal ⟨c.height, c.round⟩ = some p)
    (heffects : ((Method.commit c).run s).effects = commitEffects s c p) :
    KeepsData s (.returns (.commit c)) := by
  have hstore : ((CallEvent.returns (.commit c)).storeAfter s).ledger =
      s.store.ledger.applyAll (Ledger.commitWrites ⟨p.value, c⟩ p.value.extensions
        (c.height.saturatingSub State.MAX_HISTORY_LENGTH)) := by
    rw [← writes_commitEffects hs hslot, ← heffects]
    exact (hdb.refines_applyAll _).2
  refine ⟨hstore ▸ hs.commitWrites hround, fun hagrees => ?_⟩
  have hiff := Ledger.agrees_commitWrites_iff (v := ⟨p.value, c⟩)
    (show s.store.ledger.Agrees from hagrees) hround
    (Height.saturatingSub_le c.height State.MAX_HISTORY_LENGTH)
  rw [← hstore] at hiff
  refine Iff.trans hiff ?_
  constructor
  · intro hsame c' q data he hq hdata
    cases he
    rw [hdb.getUndecidedProposal_eq, Except.ok.injEq, hslot] at hq
    rw [← Option.some.inj hq]
    exact hsame data hdata
  · intro hfinds data hdata
    exact hfinds c p data rfl (by rw [hdb.getUndecidedProposal_eq, hslot]) hdata

/-- A call without an effect is no commit that finds its proposal. -/
theorem findsOwnData_of_effects_nil (hdb : s.store.WellFormed) {m : Method}
    (heffects : (m.run s).effects = []) : FindsOwnData s (.returns m) := by
  rintro c p data he hslot -
  cases he
  rw [Method.run, State.commit_of_slot hslot (hdb.round_ne_nil hslot),
    Action.after_effects] at heffects
  exact absurd heffects (by simp [commitEffects])

/-- **A whole call keeps the data of the decisions exactly if it finds its own.** -/
theorem decidedAgrees_step (hdb : s.store.WellFormed) (hwhole : e.Whole)
    (hs : s.store.ledger.Settled) : KeepsData s e := by
  cases e with
  | stops m n serverStarts =>
      obtain rfl : n = 0 := hwhole
      exact keepsData_of_quiet hs rfl fun c p data he => by cases he
  | returns m =>
      rcases m.run_cases s with ⟨p, data, hp⟩ | ⟨c, p, rfl, hround, hslot, heffects⟩ | heffects
      · exact keepsData_of_produces hdb hs hp
      · rw [hdb.getUndecidedProposal_eq, Except.ok.injEq] at hslot
        exact keepsData_of_commit hdb hs hround hslot heffects
      · have hperformed : (CallEvent.returns m).performed s = (m.run s).effects := rfl
        exact keepsData_of_quiet hs (by rw [hperformed, heffects]; rfl)
          (findsOwnData_of_effects_nil hdb heffects)

/-- **Decided block data belongs to the decided value exactly while no height is decided
again on other data.**  In a run of calls that run to their end, with restarts between
them, every store reached has the data of each of its decisions if and only if every
commit that finds its proposal finds no decided block data at its height, or the data of
the proposal. -/
theorem decided_agrees_iff (h : Run (calls config) steps s) (hwhole : ∀ x ∈ steps, x.2.Whole) :
    (∀ x ∈ steps, DecidedAgrees (x.2.storeAfter x.1)) ↔
      ∀ x ∈ steps, FindsOwnData x.1 x.2 := by
  refine h.forall_congr_along (G := fun _ e => e.Whole)
    (I := fun s => (s.store.WellFormed ∧ s.store.ledger.Settled) ∧ DecidedAgrees s.store)
    (P := fun s e => DecidedAgrees (e.storeAfter s)) hwhole ?_ ?_ ?_
  · rintro s ⟨serverStarts, rfl⟩
    exact ⟨⟨Db.WellFormed.empty, Ledger.Settled.empty⟩, fun h v data hv =>
      absurd hv (by simp [State.new, Db.empty, Db.getDecidedValue])⟩
  · rintro s e s' ⟨⟨hdb, hs⟩, -⟩ hw hagrees hstep
    rw [store_of_call hstep]
    exact ⟨⟨(hdb.refines_applyAll _).1, (decidedAgrees_step hdb hw hs).1⟩, hagrees⟩
  · rintro s e ⟨⟨hdb, hs⟩, hagrees⟩ hw
    exact (decidedAgrees_step hdb hw hs).2 hagrees

end Decided

section DecidedDemo

attribute [local instance] demoCrypto Prost.reference demoPayload

/-- A node that has proposed a block and committed it. -/
def committedNode : State :=
  ((Method.commit (demoCertificate 5)).run
    ((Method.proposeValue ⟨1⟩ (.some 0) [5]).run (demoState 1 [])).state).state

/-- The calls that lead there. -/
def commitCalls : List (State × CallEvent) :=
  [(demoState 1 [], .returns (.proposeValue ⟨1⟩ (.some 0) [5])),
    (((Method.proposeValue ⟨1⟩ (.some 0) [5]).run (demoState 1 [])).state,
      .returns (.commit (demoCertificate 5)))]

theorem commitCalls_run : Run (calls (demoConfig 1 [])) commitCalls committedNode := by
  have hstart : Run (calls (demoConfig 1 [])) [] (demoState 1 []) := .start ⟨true, rfl⟩
  have hpropose := hstart.returns (m := .proposeValue ⟨1⟩ (.some 0) [5]) (by decide +kernel)
  exact hpropose.returns (m := .commit (demoCertificate 5)) (by decide +kernel)

theorem decided_agrees_demo :
    ∃ steps s, Run (calls (demoConfig 1 [])) steps s ∧
      (∀ x ∈ steps, DecidedAgrees (x.2.storeAfter x.1)) ∧
      s.store.decidedBlockData.get? ⟨1⟩ = some [5] := by
  refine ⟨_, _, commitCalls_run, (decided_agrees_iff commitCalls_run ?_).mpr ?_,
    by decide +kernel⟩
  · intro x hx
    rcases List.mem_pair.mp hx with rfl | rfl <;> trivial
  · intro x hx c p data he _ hdata
    rcases List.mem_pair.mp hx with rfl | rfl
    · cases he
    · cases he
      have hnone : ((Method.proposeValue ⟨1⟩ (.some 0) [5]).run
          (demoState 1 [])).state.store.decidedBlockData.get? (demoCertificate 5).height =
            none := by
        decide +kernel
      exact absurd (hnone.symm.trans hdata) (by simp)

/-- After a restart the node is at the height it has decided on, and decides on it again
in the next round: the value of the second decision stands beside the data of the
first. -/
theorem decided_not_agrees_after_restart :
    ¬ ∀ (steps : List (State × CallEvent)) (s : State),
      Run (calls (demoConfig 1 [])) steps s → (∀ x ∈ steps, x.2.Whole) →
        DecidedAgrees s.store := by
  intro hall
  have hrestart := commitCalls_run.stops (.commit (demoCertificate 5)) 0 true
  have hround := hrestart.returns (m := .startedRound ⟨1⟩ (.some 1) (demoAddress 1))
    (by decide +kernel)
  have hpropose := hround.returns (m := .proposeValue ⟨1⟩ (.some 1) [6]) (by decide +kernel)
  have hcommit := hpropose.returns
    (m := .commit { demoCertificate 6 with round := .some 1 }) (by decide +kernel)
  have hdata := hall _ _ hcommit (by
      intro x hx
      simp only [commitCalls, List.mem_append, List.mem_cons, List.not_mem_nil, or_false] at hx
      rcases hx with ((((rfl | rfl) | rfl) | rfl) | rfl) | rfl
      all_goals trivial)
    ⟨1⟩ ⟨Value.new [6], { demoCertificate 6 with round := .some 1 }⟩ [5]
    (by decide +kernel) (by decide +kernel)
  exact absurd hdata (by decide +kernel)

end DecidedDemo
end MalakethTurbo
