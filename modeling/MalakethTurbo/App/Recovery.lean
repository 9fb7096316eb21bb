import MalakethTurbo.App.Run
import MalakethTurbo.Logic.Interruption
import MalakethTurbo.Logic.Refinement

/-!
# What a node has on its disk

The tables of the store, with their encoded keys and entries, simulate a ledger: a step of
the node is the transactions that it has got through, whether the process then lives on or
has died in between (`node_simulates`).  Whatever has happened, every entry is found and
decodes, and what is read is what the ledger says (`store_refines_ledger`).

A commit is three transactions.  A node that dies between them and is told of the decision
again when it is back does them again; the store ends up as if it had never died
(`commit_recovers`).
-/

namespace MalakethTurbo

open Wire (Bytes)
open MalakethTurbo.State (MAX_HISTORY_LENGTH)

/-! ## The ledger as a system -/

/-- A ledger that transactions act on. -/
def ledgerSystem : System Ledger StoreWrite where
  init l := l = Ledger.empty
  step l w l' := l' = l.apply w

theorem path_applyAll (l : Ledger) (ws : List StoreWrite) :
    Path ledgerSystem l ws (l.applyAll ws) := by
  induction ws generalizing l with
  | nil => exact .nil l
  | cons w ws ih => exact .cons rfl (ih (l.apply w))

theorem Path.eq_applyAll {l l' : Ledger} {ws : List StoreWrite}
    (h : Path ledgerSystem l ws l') : l' = l.applyAll ws := by
  induction h with
  | nil => rfl
  | cons hstep _ ih =>
      rw [ih, hstep]
      rfl

section Store

variable [Crypto] [Prost] [Payload] {config : Config} {steps : List (State × Event)} {s : State}

/-- The tables represent a ledger. -/
def Represents (s : State) (l : Ledger) : Prop := s.store.WellFormed ∧ s.store.ledger = l

/-- **The store of a node simulates a ledger**, step by step and crash by crash. -/
theorem node_simulates : Simulates (node config) ledgerSystem (fun _ _ => True)
    (fun s e => writes (e.performed s)) Represents where
  init := by
    rintro s ⟨serverStarts, rfl⟩
    exact ⟨Ledger.empty, rfl, Db.WellFormed.empty, rfl⟩
  step := by
    rintro s e s' l ⟨hdb, rfl⟩ - hstep
    refine ⟨_, path_applyAll _ _, ?_⟩
    rw [Represents, store_of_step hstep]
    exact hdb.refines_applyAll _

/-- What is read of the tables, when they represent a ledger. -/
structure Reads (db : Db) (l : Ledger) : Prop where
  proposal : ∀ height round, db.getUndecidedProposal height round = .ok (l.proposal ⟨height, round⟩)
  blockData : ∀ height round, db.getBlockData height round = l.blockDataAt height round
  decided : ∀ height, db.getDecidedValue height = l.decided height
  least : ∀ height, db.minDecidedValueHeight = some height →
    (l.decided height).isSome ∧ ∀ h, (l.decided h).isSome → height ≤ h
  none : db.minDecidedValueHeight = none → ∀ h, l.decided h = none

omit [Crypto] [Payload] in
theorem reads_of_wellFormed {db : Db} (hdb : db.WellFormed) : Reads db db.ledger where
  proposal height round := hdb.getUndecidedProposal_eq height round
  blockData height round := Db.getBlockData_eq height round
  decided _ := rfl
  least height hleast := by
    obtain ⟨e, hfirst, rfl⟩ := Option.map_eq_some_iff.mp hleast
    have hentry : (db.decidedValues.get? e.1).isSome := by
      rw [db.decidedValues.get?_eq_some_iff.mpr (List.mem_of_mem_head? hfirst)]
      rfl
    obtain ⟨e', hfirst', -, hle⟩ := db.decidedValues.exists_first? hentry
    obtain rfl : e = e' := Option.some.inj (hfirst.symm.trans hfirst')
    exact ⟨(hdb.decided_isSome_iff e.1).mpr hentry,
      fun h hh => hle h ((hdb.decided_isSome_iff h).mp hh)⟩
  none hnone h := by
    by_contra hsome
    have hentry := (hdb.decided_isSome_iff h).mp (Option.isSome_iff_ne_none.mpr hsome)
    obtain ⟨e, hfirst, -⟩ := db.decidedValues.exists_first? hentry
    rw [Db.minDecidedValueHeight, hfirst] at hnone
    exact absurd hnone (by simp)

/-- **The store is a ledger.**  In every run of a node, however often it dies and wherever in
its handlers, the store is what the transactions that have been committed make of an empty
ledger, in their order: every entry is found under its key and decodes, no read fails, and
what is read is what the ledger says. -/
theorem store_refines_ledger (h : Run (node config) steps s) :
    Reads s.store (Ledger.empty.applyAll (steps.flatMap fun x => writes (x.2.performed x.1))) := by
  obtain ⟨l₀, l, rfl, hpath, hdb, hledger⟩ :=
    h.simulated node_simulates fun _ _ => trivial
  rw [← hpath.eq_applyAll, ← hledger]
  exact reads_of_wellFormed hdb

end Store

/-! ## The transactions of a commit -/

namespace Ledger

variable {l : Ledger} {w : StoreWrite}

theorem keepFirst_idem {κ ν : Type} [DecidableEq κ] (f : κ → Option ν) (k : κ) (v : ν) :
    keepFirst (keepFirst f k v) k v = keepFirst f k v := by
  rw [keepFirst, keepFirst_self, keepFirst, Function.update_idem]
  rfl

/-- Every transaction can be repeated. -/
theorem apply_idem (l : Ledger) (w : StoreWrite) : (l.apply w).apply w = l.apply w := by
  cases w with
  | undecidedProposal p =>
      by_cases hround : p.round = .nil
      · simp only [apply, if_pos hround]
      · simp only [apply, if_neg hround, keepFirst_idem]
  | undecidedBlockData h r data => simp only [apply, keepFirst_idem]
  | decidedValue v =>
      by_cases hround : v.certificate.round = .nil
      · simp only [apply, if_pos hround]
      · simp only [apply, if_neg hround, Function.update_idem]
  | decidedBlockData h data => simp only [apply, keepFirst_idem]
  | prune retain =>
      refine Ledger.ext (funext fun k => ?_) (funext fun k => ?_) (funext fun k => ?_)
        (funext fun k => ?_)
      · by_cases hk : k.height < retain <;> simp [apply, hk]
      · by_cases hk : k.height < retain <;> simp [apply, hk]
      · by_cases hk : k < retain <;> simp [apply, hk]
      · by_cases hk : k < retain <;> simp [apply, hk]

/-- A decision and its block data are in different tables. -/
theorem decidedValue_comm (l : Ledger) (v : DecidedValue) (h : Height) (data : Bytes) :
    (l.apply (.decidedValue v)).apply (.decidedBlockData h data) =
      (l.apply (.decidedBlockData h data)).apply (.decidedValue v) := by
  by_cases hround : v.certificate.round = .nil
  · simp only [apply, if_pos hround]
  · simp only [apply, if_neg hround]

/-- Pruning below a decision does not touch it. -/
theorem prune_decidedValue_comm (l : Ledger) {v : DecidedValue} {retain : Height}
    (hkept : ¬ v.certificate.height < retain) :
    (l.apply (.decidedValue v)).apply (.prune retain) =
      (l.apply (.prune retain)).apply (.decidedValue v) := by
  by_cases hround : v.certificate.round = .nil
  · simp only [apply, if_pos hround]
  · simp only [apply, if_neg hround]
    refine Ledger.ext rfl rfl (funext fun k => ?_) (funext fun k => ?_)
    · by_cases hk : k = v.certificate.height
      · simp [hk, hkept]
      · simp [Function.update_of_ne hk]
    · by_cases hk : k = v.certificate.height
      · simp [hk, hkept]
      · simp [Function.update_of_ne hk]

/-- Nor its block data. -/
theorem prune_decidedBlockData_comm (l : Ledger) {h retain : Height} (data : Bytes)
    (hkept : ¬ h < retain) :
    (l.apply (.decidedBlockData h data)).apply (.prune retain) =
      (l.apply (.prune retain)).apply (.decidedBlockData h data) := by
  refine Ledger.ext rfl rfl rfl (funext fun k => ?_)
  by_cases hk : k = h
  · simp [apply, hk, hkept, keepFirst]
  · simp [apply, keepFirst_of_ne _ _ hk]

/-- The transactions of a commit: the decision, the block data if there is any, and a pruning
below. -/
inductive Commits (v : DecidedValue) (data : Option Bytes) (retain : Height) :
    StoreWrite → Prop where
  | decidedValue : Commits v data retain (.decidedValue v)
  | decidedBlockData {d : Bytes} (h : data = some d) :
      Commits v data retain (.decidedBlockData v.certificate.height d)
  | prune : Commits v data retain (.prune retain)

/-- **The transactions of a commit** can be repeated and exchanged. -/
theorem repeatable_of_commits {v : DecidedValue} {data : Option Bytes} {retain : Height}
    (hkept : ¬ v.certificate.height < retain) {ws : List StoreWrite}
    (hws : ∀ w ∈ ws, Commits v data retain w) : Repeatable Ledger.apply ws where
  idem w _ l := apply_idem l w
  comm w hw w' hw' l := by
    cases hws w hw with
    | decidedValue =>
        cases hws w' hw' with
        | decidedValue => rfl
        | decidedBlockData _ => exact decidedValue_comm l v _ _
        | prune => exact prune_decidedValue_comm l hkept
    | decidedBlockData hdata =>
        cases hws w' hw' with
        | decidedValue => exact (decidedValue_comm l v _ _).symm
        | decidedBlockData hdata' => rw [Option.some.inj (hdata.symm.trans hdata')]
        | prune => exact prune_decidedBlockData_comm l _ hkept
    | prune =>
        cases hws w' hw' with
        | decidedValue => exact (prune_decidedValue_comm l hkept).symm
        | decidedBlockData _ => exact (prune_decidedBlockData_comm l _ hkept).symm
        | prune => rfl

/-- They leave the slot that is committed, and its block data, alone. -/
theorem apply_of_commits {v : DecidedValue} {data : Option Bytes} {retain : Height}
    (hkept : ¬ v.certificate.height < retain) (hw : Commits v data retain w) {round : Round}
    (hdata : l.blockDataAt v.certificate.height round = data) :
    (l.apply w).proposal ⟨v.certificate.height, round⟩ =
        l.proposal ⟨v.certificate.height, round⟩ ∧
      (l.apply w).blockDataAt v.certificate.height round = data := by
  cases hw with
  | decidedValue =>
      rw [apply]
      split_ifs <;> exact ⟨rfl, hdata⟩
  | decidedBlockData h =>
      refine ⟨rfl, ?_⟩
      subst h
      show (l.blockData _).or (keepFirst l.decidedData _ _ _) = _
      rw [keepFirst_self]
      rw [blockDataAt] at hdata
      cases hslot : l.blockData ⟨v.certificate.height, round⟩ with
      | some d' =>
          rw [hslot] at hdata
          exact hdata
      | none =>
          rw [hslot, Option.none_or] at hdata
          rw [hdata]
          rfl
  | prune =>
      refine ⟨if_neg hkept, ?_⟩
      rw [← hdata]
      simp [apply, blockDataAt, hkept]

theorem applyAll_of_commits {v : DecidedValue} {data : Option Bytes} {retain : Height}
    (hkept : ¬ v.certificate.height < retain) {ws : List StoreWrite}
    (hws : ∀ w ∈ ws, Commits v data retain w) (round : Round)
    (hdata : l.blockDataAt v.certificate.height round = data) :
    (l.applyAll ws).proposal ⟨v.certificate.height, round⟩ =
        l.proposal ⟨v.certificate.height, round⟩ ∧
      (l.applyAll ws).blockDataAt v.certificate.height round = data := by
  induction ws generalizing l with
  | nil => exact ⟨rfl, hdata⟩
  | cons w ws ih =>
      obtain ⟨hproposal, hnext⟩ := apply_of_commits hkept (hws w List.mem_cons_self) hdata
      obtain ⟨hrest, hend⟩ := ih (fun w hw => hws w (List.mem_cons_of_mem _ hw)) hnext
      exact ⟨hrest.trans hproposal, hend⟩

/-! ### The transactions of a decision -/

variable {c : CommitCertificate}

/-- The transactions of a decision, read off the ledger. -/
def decisionWrites (l : Ledger) (c : CommitCertificate) : List StoreWrite :=
  match l.proposal ⟨c.height, c.round⟩ with
  | none => []
  | some p =>
      .decidedValue ⟨p.value, c⟩ ::
        (((l.blockDataAt c.height c.round).map fun data =>
          StoreWrite.decidedBlockData c.height data).toList ++
          [.prune (c.height.saturatingSub MAX_HISTORY_LENGTH)])

/-- All of them are transactions of one commit. -/
theorem commits_decisionWrites {p : ProposedValue}
    (hslot : l.proposal ⟨c.height, c.round⟩ = some p) :
    ∀ w ∈ l.decisionWrites c, Commits ⟨p.value, c⟩ (l.blockDataAt c.height c.round)
      (c.height.saturatingSub MAX_HISTORY_LENGTH) w := by
  intro w hw
  rw [decisionWrites, hslot] at hw
  rcases List.mem_cons.mp hw with rfl | hw
  · exact .decidedValue
  rcases List.mem_append.mp hw with hdata | hprune
  · obtain ⟨data, hentry, rfl⟩ := Option.map_eq_some_iff.mp (Option.mem_toList.mp hdata)
    exact .decidedBlockData hentry
  · rw [List.mem_singleton.mp hprune]
    exact .prune

/-- **A decision that has been carried out in part** is the same decision, and comes to the
same. -/
theorem decisionWrites_applyAll {ws : List StoreWrite}
    (hsub : ws ⊆ l.decisionWrites c) :
    (l.applyAll ws).decisionWrites c = l.decisionWrites c ∧
      (l.applyAll ws).applyAll (l.decisionWrites c) = l.applyAll (l.decisionWrites c) := by
  cases hslot : l.proposal ⟨c.height, c.round⟩ with
  | none =>
      have hnone : l.decisionWrites c = [] := by rw [decisionWrites, hslot]
      rw [hnone] at hsub
      rw [List.subset_nil.mp hsub]
      exact ⟨rfl, rfl⟩
  | some p =>
      have hkept : ¬ c.height < c.height.saturatingSub MAX_HISTORY_LENGTH :=
        not_lt.mpr (Height.saturatingSub_le _ _)
      have hcommits := commits_decisionWrites hslot
      obtain ⟨hproposal, hdata⟩ := applyAll_of_commits (v := ⟨p.value, c⟩) hkept
        (fun w hw => hcommits w (hsub hw)) c.round rfl
      refine ⟨?_, (repeatable_of_commits (v := ⟨p.value, c⟩) hkept hcommits).foldl_foldl hsub l⟩
      rw [decisionWrites, decisionWrites, hproposal, hdata]

end Ledger

/-! ## A commit that is interrupted -/

section Recovery

variable [Crypto] [Prost] [Payload] {config : Config} {steps : List (State × Event)}
  {s t : State} {c : CommitCertificate}

/-- **What a decision writes** depends on the ledger alone. -/
theorem writes_handle_decided (hdb : s.store.WellFormed) :
    writes (handle (.decided c) s).effects = s.store.ledger.decisionWrites c := by
  obtain ⟨tail, htail, heffects⟩ := handle_decided_effects (s := s) c
  have hquiet : writes tail = [] := by
    rcases htail with rfl | ⟨h, vs, rfl⟩ <;> rfl
  have hread := hdb.getUndecidedProposal_eq c.height c.round
  rw [heffects, writes_append, hquiet, List.append_nil, Ledger.decisionWrites]
  cases hslot : s.store.ledger.proposal ⟨c.height, c.round⟩ with
  | none =>
      rw [hslot] at hread
      rw [State.commit_of_empty hread]
      rfl
  | some p =>
      rw [hslot] at hread
      rw [State.commit_of_slot hread (hdb.proposal_key hslot).2.2, Action.after_effects,
        State.nextHeight_effects, List.append_nil, State.commitEffects, writes_write_cons,
        State.settleEffects, writes_append, State.blockDataEffects, Db.getBlockData_eq]
      cases s.store.ledger.blockDataAt c.height c.round with
      | none => rfl
      | some data =>
          dsimp only
          split_ifs <;> rfl

/-- The store that a decision leaves. -/
theorem ledger_handle_decided (hdb : s.store.WellFormed) :
    (handle (.decided c) s).state.store.WellFormed ∧
      (handle (.decided c) s).state.store.ledger =
        s.store.ledger.applyAll (s.store.ledger.decisionWrites c) := by
  rw [(Framed.handle (.decided c) s).store, writes_handle_decided hdb]
  exact hdb.refines_applyAll _

/-- The node dies after some effects of a message, and is back on the store it has left. -/
def State.dies (config : Config) (msg : AppMsg) (s : State) (x : Nat × Bool) : State :=
  State.new config (Event.storeAfter s (.restart msg x.1 x.2)) x.2

/-- However often a node dies over a decision, it has the same decision to make, and it comes
to the same. -/
theorem ledger_of_dies (hdb : s.store.WellFormed) (attempts : List (Nat × Bool)) :
    (attempts.foldl (State.dies config (.decided c)) s).store.WellFormed ∧
      (handle (.decided c) (attempts.foldl (State.dies config (.decided c)) s)).state.store.ledger =
        (handle (.decided c) s).state.store.ledger := by
  induction attempts generalizing s with
  | nil => exact ⟨hdb, rfl⟩
  | cons x attempts ih =>
      rw [List.foldl_cons]
      obtain ⟨hwell, hledger⟩ := hdb.refines_applyAll
        (writes (Event.performed s (.restart (.decided c) x.1 x.2)))
      have hdies : (s.dies config (.decided c) x).store.WellFormed := hwell
      have hsub : writes (Event.performed s (.restart (.decided c) x.1 x.2)) ⊆
          s.store.ledger.decisionWrites c :=
        fun w hw => writes_handle_decided hdb ▸ Event.mem_writes hw
      obtain ⟨hwrites, happly⟩ := Ledger.decisionWrites_applyAll hsub
      have hsame : (handle (.decided c) (s.dies config (.decided c) x)).state.store.ledger =
          (handle (.decided c) s).state.store.ledger := by
        rw [(ledger_handle_decided hdies).2, (ledger_handle_decided hdb).2]
        show (Db.ledger (StoreWrite.applyAll s.store _)).applyAll
          ((Db.ledger (StoreWrite.applyAll s.store _)).decisionWrites c) = _
        rw [hledger, hwrites, happly]
      obtain ⟨hend, hrest⟩ := ih hdies
      exact ⟨hend, hrest.trans hsame⟩

/-- **A commit survives any number of crashes.**  A node handles a decision, dies at any point
of it, is started again and told of the decision again, and so on until it gets through.  Its
store is then as if it had got through the first time. -/
theorem commit_recovers (hs : (node config).Reachable s) (attempts : List (Nat × Bool)) :
    Reads (handle (.decided c) (attempts.foldl (State.dies config (.decided c)) s)).state.store
      (handle (.decided c) s).state.store.ledger := by
  obtain ⟨hdb, hledger⟩ := ledger_of_dies hs.wellFormed attempts
  rw [← hledger]
  exact reads_of_wellFormed (ledger_handle_decided hdb).1

end Recovery

section Demo

attribute [local instance] demoCrypto Prost.reference demoPayload

/-- A node that has proposed a block. -/
def proposedState : State := handleAll (demoState 1 [5]) [.getValue ⟨1⟩ (.some 0)]

theorem proposedState_run :
    Run (node (demoConfig 1 [5])) ([] ++ deliveries (demoState 1 [5]) [.getValue ⟨1⟩ (.some 0)])
      proposedState :=
  Run.deliveries (.start ⟨true, rfl⟩) [.getValue ⟨1⟩ (.some 0)] (by decide +kernel)

/-- It dies between the decision and the block data. -/
theorem store_refines_ledger_demo :
    ∃ steps s, Run (node (demoConfig 1 [5])) steps s ∧
      Reads s.store
        (Ledger.empty.applyAll (steps.flatMap fun x => writes (x.2.performed x.1))) ∧
      s.store.getDecidedValue ⟨1⟩ = some ⟨Value.new [5], demoCertificate 5⟩ := by
  have hrun := proposedState_run.restart (.decided (demoCertificate 5)) 1 true
  exact ⟨_, _, hrun, store_refines_ledger hrun, by decide +kernel⟩

/-- It dies at the decision twice, once after the decision and once before the pruning. -/
theorem commit_recovers_demo :
    Reads (handle (.decided (demoCertificate 5)) ([(1, true), (2, false)].foldl
        (State.dies (demoConfig 1 [5]) (.decided (demoCertificate 5))) proposedState)).state.store
      (handle (.decided (demoCertificate 5)) proposedState).state.store.ledger :=
  commit_recovers ⟨_, proposedState_run⟩ [(1, true), (2, false)]

end Demo
end MalakethTurbo
