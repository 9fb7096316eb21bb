import MalakethTurbo.App.Notes

/-!
# The history a node serves

A node offers its peers the decisions from its earliest height on.  As long as consensus
keeps to its side (`Orderly`), the node commits one height after the other, so the heights
it has committed are consecutive, and what it still has of them after pruning is the last
part of them (`Served`).  The earliest height is then the lower end of that part, and no
height above it is missing (`history_served`).
-/

namespace MalakethTurbo

open MalakethTurbo.State (MAX_HISTORY_LENGTH)

section History

variable [Crypto] [Prost] [Payload] {config : Config} {steps : List (State × Event)}
  {s s' : State} {e : Event}

/-! ## What a run commits -/

/-- Consensus keeps to its side of one life of a node: it starts rounds of the height it
has been told to start, and it decides on that height, for a slot that holds a proposal. -/
def Orderly (s : State) : Event → Prop
  | .deliver (.startedRound height _ _) => height = s.currentHeight
  | .deliver (.decided c) =>
      c.height = s.currentHeight ∧ c.round ≠ .nil ∧
        ∃ p, s.store.getUndecidedProposal c.height c.round = .ok (some p)
  | .deliver _ => True
  | .restart .. => False

omit [Crypto] [Payload] in
/-- A slot holds a proposal if looking it up says so. -/
theorem isSome_getUndecidedProposal_iff {db : Db} {height : Height} {round : Round} :
    (db.getUndecidedProposal height round).toOption.join.isSome ↔
      ∃ p, db.getUndecidedProposal height round = .ok (some p) := by
  rcases db.getUndecidedProposal height round with e | (_ | p) <;> simp [Except.toOption]

instance (s : State) : DecidablePred (Orderly s)
  | .deliver (.startedRound height _ _) => inferInstanceAs (Decidable (height = s.currentHeight))
  | .deliver (.decided c) =>
      decidable_of_iff (c.height = s.currentHeight ∧ c.round ≠ .nil ∧
          (s.store.getUndecidedProposal c.height c.round).toOption.join.isSome)
        (and_congr_right fun _ => and_congr_right fun _ => isSome_getUndecidedProposal_iff)
  | .deliver .consensusReady | .deliver (.getValue ..) | .deliver (.receivedProposalPart ..)
  | .deliver (.getValidatorSet _) | .deliver (.processSyncedValue ..)
  | .deliver (.getDecidedValue _) | .deliver .getHistoryMinHeight | .deliver .restreamProposal
  | .deliver .extendVote | .deliver .verifyVoteExtension | .deliver (.peerJoined _)
  | .deliver (.peerLeft _) => .isTrue trivial
  | .restart .. => .isFalse id

/-- The certificate of a decision that is handled to its end. -/
def Event.certificate? : Event → Option CommitCertificate
  | .deliver (.decided c) => some c
  | _ => none

/-- The certificates a run has committed, in order. -/
def committed (steps : List (State × Event)) : List CommitCertificate :=
  steps.flatMap fun x => x.2.certificate?.toList

omit [Crypto] [Prost] [Payload] in
theorem committed_concat (steps : List (State × Event)) (s : State) (e : Event) :
    committed (steps ++ [(s, e)]) = committed steps ++ e.certificate?.toList := by
  rw [committed, committed, List.flatMap_append, List.flatMap_singleton]

/-! ## One step -/

omit [Crypto] [Payload] in
/-- The decisions after a commit: its own on top of those before, above the bound of its
pruning. -/
theorem decided_commitEffects (hdb : s.store.WellFormed) {c : CommitCertificate}
    {p : ProposedValue} (hround : c.round ≠ .nil) (h : Height) :
    (StoreWrite.applyAll s.store (writes (s.commitEffects c p))).ledger.decided h =
      if h < c.height.saturatingSub MAX_HISTORY_LENGTH then none
      else Function.update s.store.ledger.decided c.height (some ⟨p.value, c⟩) h := by
  -- the block data is another table
  have hdata : ∀ l : Ledger,
      (l.applyAll (writes (s.blockDataEffects c))).decided = l.decided := by
    intro l
    rw [State.blockDataEffects]
    cases s.store.getBlockData c.height c.round with
    | none => rfl
    | some data =>
        dsimp only
        split_ifs <;> rfl
  rw [(hdb.refines_applyAll _).2, State.commitEffects, State.settleEffects, writes_write_cons,
    writes_append, Ledger.applyAll, List.foldl_cons, List.foldl_append]
  simp only [writes_write_cons, writes_nil, List.foldl_cons, List.foldl_nil]
  show (if h < _ then none else (Ledger.applyAll _ (writes (s.blockDataEffects c))).decided h) = _
  rw [hdata, Ledger.apply, if_neg hround]

omit [Crypto] [Payload] in
/-- A commit records the decision. -/
theorem getDecidedValue_afterCommit (hdb : s.store.WellFormed) {c : CommitCertificate}
    {p : ProposedValue} (hround : c.round ≠ .nil) :
    (s.afterCommit c p).store.getDecidedValue c.height = some ⟨p.value, c⟩ := by
  rw [← Db.ledger_decided, State.store_afterCommit, decided_commitEffects hdb hround,
    if_neg (not_lt.mpr (Height.saturatingSub_le _ _)), Function.update_self]

/-- A message that is no decision leaves the decisions alone. -/
theorem decided_handle (hdb : s.store.WellFormed) {msg : AppMsg}
    (hmsg : ∀ c, msg ≠ .decided c) :
    (handle msg s).state.store.ledger.decided = s.store.ledger.decided := by
  rw [(Framed.handle msg s).store, (hdb.refines_applyAll _).2]
  rcases handle_cases s msg with ⟨p, data, hhands⟩ | ⟨c, rfl⟩ | hquiet
  · obtain ⟨reply, msgs, -, heffects⟩ := hhands.handle_effects
    rw [heffects, writes_append, writes_map_write, writes_reply_cons, writes_map_publish,
      List.append_nil]
    simp only [State.keepWrites, Ledger.applyAll, List.foldl_cons, List.foldl_nil,
      Ledger.apply, if_neg hhands.round_ne_nil]
  · exact absurd rfl (hmsg c)
  · rw [hquiet.writes_eq]
    rfl

/-! ## The window of served heights -/

/-- A node that began at a height has committed the heights since, one after the other,
and has the decisions of the last of them. -/
structure Served (start : Height) (certificates : List CommitCertificate) (s : State) :
    Prop where
  wellFormed : s.store.WellFormed
  heights : ∀ i c, certificates[i]? = some c → c.height.asU64.toNat = start.asU64.toNat + i
  current : s.currentHeight.asU64.toNat = start.asU64.toNat + certificates.length
  decided : ∀ h, (s.store.ledger.decided h).isSome ↔
    start ≤ h ∧ h < s.currentHeight ∧
      s.currentHeight.asU64.toNat ≤ h.asU64.toNat + MAX_HISTORY_LENGTH.toNat + 1
  certificate : ∀ h v, s.store.ledger.decided h = some v → v.certificate ∈ certificates

namespace Served

variable {start : Height} {certificates : List CommitCertificate}

omit [Crypto] [Payload] in
/-- A state in the same place with the same decisions serves the same heights. -/
theorem of_eq (h : Served start certificates s) (hdb : s'.store.WellFormed)
    (hheight : s'.currentHeight = s.currentHeight)
    (hdecided : s'.store.ledger.decided = s.store.ledger.decided) :
    Served start certificates s' where
  wellFormed := hdb
  heights := h.heights
  current := by rw [hheight, h.current]
  decided := by rw [hheight, hdecided]; exact h.decided
  certificate := by rw [hdecided]; exact h.certificate

omit [Crypto] [Payload] in
/-- After a commit the heights with a decision are its own and those before that are not
below the bound of its pruning. -/
theorem isSome_decided_afterCommit (hdb : s.store.WellFormed) {c : CommitCertificate}
    {p : ProposedValue} (hround : c.round ≠ .nil) (k : Height) :
    ((s.afterCommit c p).store.ledger.decided k).isSome ↔
      ¬ k < c.height.saturatingSub MAX_HISTORY_LENGTH ∧
        (k = c.height ∨ (s.store.ledger.decided k).isSome) := by
  rw [State.store_afterCommit, decided_commitEffects hdb hround, Function.update_apply]
  by_cases hlow : k < c.height.saturatingSub MAX_HISTORY_LENGTH
  · simp [hlow]
  · by_cases hk : k = c.height
    · rw [if_neg hlow, if_pos hk]
      simp [hk, Height.saturatingSub_le]
    · rw [if_neg hlow, if_neg hk]
      simp [hlow, hk]

omit [Crypto] [Payload] in
/-- A commit of the current height serves one height more, and drops the one that has
become too old. -/
theorem commit (h : Served start certificates s) {c : CommitCertificate} {p : ProposedValue}
    (hheight : c.height = s.currentHeight) (hround : c.round ≠ .nil)
    (hlt : s.currentHeight.asU64.toNat + 1 < 2 ^ 64) :
    Served start (certificates ++ [c]) (s.afterCommit c p) := by
  have hnext : (s.currentHeight.asU64 + 1).toNat = s.currentHeight.asU64.toNat + 1 := by
    rw [UInt64.toNat_add]
    exact Nat.mod_eq_of_lt hlt
  have hcurrent := h.current
  have hdecided := decided_commitEffects h.wellFormed (p := p) hround
  rw [← State.store_afterCommit] at hdecided
  refine ⟨(h.wellFormed.refines_applyAll _).1, fun i c' hc' => ?_, ?_, fun k => ?_,
    fun k v hv => ?_⟩
  · rw [List.getElem?_append] at hc'
    split_ifs at hc' with hi
    · exact h.heights i c' hc'
    · obtain ⟨hzero, rfl⟩ := List.getElem?_eq_some_iff.mp hc'
      rw [List.length_singleton] at hzero
      rw [List.getElem_singleton, hheight, hcurrent]
      omega
  · rw [State.currentHeight_afterCommit, List.length_append, List.length_singleton, hnext]
    omega
  · have hkeys : k = c.height ↔ k.asU64.toNat = c.height.asU64.toNat :=
      Height.toNat_asU64_injective.eq_iff.symm
    rw [isSome_decided_afterCommit h.wellFormed hround, h.decided k, hkeys,
      State.currentHeight_afterCommit]
    simp only [Height.lt_iff, Height.le_iff, Height.toNat_saturatingSub, hheight, hnext]
    omega
  · rw [hdecided] at hv
    obtain ⟨-, hv⟩ := Option.ite_none_left_eq_some.mp hv
    by_cases hk : k = c.height
    · rw [hk, Function.update_self] at hv
      rw [← Option.some.inj hv]
      exact List.mem_append_right _ List.mem_cons_self
    · rw [Function.update_of_ne hk] at hv
      exact List.mem_append_left _ (h.certificate k v hv)

/-- **A step of an orderly run** commits at most the height the node is in. -/
theorem step (h : Served start certificates s) (horderly : Orderly s e)
    (hstep : (node config).step s e s') :
    Served start (certificates ++ e.certificate?.toList) s' := by
  cases e with
  | restart msg n serverStarts => exact horderly.elim
  | deliver msg =>
      obtain ⟨hok, rfl⟩ := hstep
      have hdb : (handle msg s).state.store.WellFormed := by
        rw [(Framed.handle msg s).store]
        exact (h.wellFormed.refines_applyAll _).1
      have hother (hdecided : ∀ c, msg ≠ .decided c)
          (hheight : (handle msg s).state.currentHeight = s.currentHeight) :
          Served start (certificates ++ (Event.deliver msg).certificate?.toList)
            (handle msg s).state := by
        have hcert : (Event.deliver msg).certificate? = none := by
          cases msg with
          | decided c => exact absurd rfl (hdecided c)
          | _ => rfl
        rw [hcert, Option.toList_none, List.append_nil]
        exact h.of_eq hdb hheight (decided_handle h.wellFormed hdecided)
      rcases msg.notes_cases with ⟨height, round, proposer, rfl⟩ | ⟨height, round, rfl⟩ |
        ⟨c, rfl⟩ | hkeeps
      · exact hother (by simp) horderly
      · obtain ⟨data, r, -, -, -, -, -, hstate⟩ := handle_getValue_of_ok hok
        exact hother (by simp) (by rw [hstate]; rfl)
      · obtain ⟨hheight, hround, p, hslot⟩ := horderly
        obtain ⟨hlt, hstate⟩ := handle_decided_of_proposal hslot hround hok
        rw [hstate]
        exact h.commit hheight hround hlt
      · refine hother ?_ (SameNotes.handle hkeeps s).currentHeight
        rintro c rfl
        exact hkeeps.elim

omit [Crypto] [Payload] in
/-- Two certificates for one height are one. -/
theorem certificate_ext (h : Served start certificates s) {c c' : CommitCertificate}
    (hc : c ∈ certificates) (hc' : c' ∈ certificates) (hheight : c.height = c'.height) :
    c = c' := by
  obtain ⟨i, hi⟩ := List.getElem?_of_mem hc
  obtain ⟨j, hj⟩ := List.getElem?_of_mem hc'
  have hat := h.heights i c hi
  have hat' := h.heights j c' hj
  rw [hheight, hat'] at hat
  obtain rfl : i = j := by omega
  exact Option.some.inj (hi.symm.trans hj)

omit [Crypto] [Payload] in
/-- The last certificate is that of the height before the current one. -/
theorem current_of_last (h : Served start certificates s) {last : CommitCertificate}
    (hlast : certificates.getLast? = some last) :
    s.currentHeight.asU64.toNat = last.height.asU64.toNat + 1 := by
  rw [List.getLast?_eq_getElem?] at hlast
  have hpos : certificates.length - 1 < certificates.length :=
    (List.getElem?_eq_some_iff.mp hlast).1
  rw [h.current, h.heights _ last hlast]
  omega

omit [Crypto] [Payload] in
/-- A height that has been committed lately has its decision. -/
theorem decided_of_recent (h : Served start certificates s) {c : CommitCertificate}
    (hc : c ∈ certificates) (hrecent : s.currentHeight.asU64.toNat ≤
      c.height.asU64.toNat + MAX_HISTORY_LENGTH.toNat + 1) :
    (s.getDecidedValue c.height).isSome := by
  obtain ⟨i, hi⟩ := List.getElem?_of_mem hc
  have hat := h.heights i c hi
  have hcurrent := h.current
  have hlt : i < certificates.length := (List.getElem?_eq_some_iff.mp hi).1
  refine (h.decided c.height).mpr ⟨?_, ?_, hrecent⟩
  · rw [Height.le_iff]
    omega
  · rw [Height.lt_iff]
    omega

omit [Crypto] [Payload] in
/-- **The earliest height is the lower end** of the heights that have a decision. -/
theorem decided_iff_earliest (h : Served start certificates s) {last : CommitCertificate}
    (hlast : certificates.getLast? = some last) :
    s.getEarliestHeight ≤ last.height ∧
      ∀ k, (s.getDecidedValue k).isSome ↔ s.getEarliestHeight ≤ k ∧ k ≤ last.height := by
  have hcurrent := h.current_of_last hlast
  have hmem : (s.store.ledger.decided last.height).isSome :=
    h.decided_of_recent (List.mem_of_getLast? hlast) (by omega)
  have hkeys := h.wellFormed.decided_isSome_iff
  obtain ⟨e, hfirst, hsome, hleast⟩ :=
    s.store.decidedValues.exists_first? ((hkeys last.height).mp hmem)
  have hearliest : s.getEarliestHeight = e.1 := by
    rw [State.getEarliestHeight, Db.minDecidedValueHeight, hfirst]
    rfl
  simp only [← hkeys] at hsome hleast
  rw [hearliest]
  refine ⟨hleast _ hmem, fun k => ?_⟩
  have hbelow : k < s.currentHeight ↔ k ≤ last.height := by
    rw [Height.lt_iff, Height.le_iff]
    omega
  rw [← hbelow]
  constructor
  · intro hdecided
    exact ⟨hleast k hdecided, ((h.decided k).mp hdecided).2.1⟩
  · rintro ⟨hle, hlt⟩
    -- what is above a height that is kept is above the bound of the pruning too
    obtain ⟨hstart, -, hbound⟩ := (h.decided e.1).mp hsome
    refine (h.decided k).mpr ⟨le_trans hstart hle, hlt, ?_⟩
    rw [Height.le_iff] at hle
    omega

end Served

/-- **What an orderly run serves.** -/
theorem Run.served (h : Run (node config) steps s) (horderly : ∀ x ∈ steps, Orderly x.1 x.2) :
    Served (config.startHeight.getD default) (committed steps) s := by
  refine h.history_along (P := fun steps s =>
    Served (config.startHeight.getD default) (committed steps) s) ?_ ?_ horderly
  · rintro s ⟨serverStarts, rfl⟩
    refine ⟨Db.WellFormed.empty, ?_, rfl, ?_, ?_⟩
    · intro i c hc
      exact absurd hc (by simp [committed])
    · intro h
      have hnone : (State.new config Db.empty serverStarts).store.ledger.decided h = none := rfl
      rw [hnone]
      refine iff_of_false (by simp) ?_
      rintro ⟨hle, hlt, -⟩
      exact absurd hle (not_le.mpr hlt)
    · intro h v hv
      exact absurd hv (by simp [State.new, Ledger.empty])
  · intro steps s e s' hserved hgood hstep
    rw [committed_concat]
    exact hserved.step hgood hstep

/-- **Served history has no holes.**  After the first commit of an orderly run the heights
with a decision are those from the earliest height to the last committed one.  The last
heights that were committed are among them, and each has the certificate it was committed
with. -/
theorem history_served (h : Run (node config) steps s)
    (horderly : ∀ x ∈ steps, Orderly x.1 x.2) {last : CommitCertificate}
    (hlast : (committed steps).getLast? = some last) :
    s.getEarliestHeight ≤ last.height ∧
      (∀ k, (s.getDecidedValue k).isSome ↔ s.getEarliestHeight ≤ k ∧ k ≤ last.height) ∧
      (∀ c ∈ committed steps,
        last.height.asU64.toNat ≤ c.height.asU64.toNat + MAX_HISTORY_LENGTH.toNat →
        (s.getDecidedValue c.height).isSome) ∧
      ∀ k v, s.getDecidedValue k = some v →
        v.certificate.height = k ∧ v.certificate ∈ committed steps ∧
          ∀ c ∈ committed steps, c.height = k → c = v.certificate := by
  have hserved := h.served horderly
  obtain ⟨hnonempty, hinterval⟩ := hserved.decided_iff_earliest hlast
  have hcurrent := hserved.current_of_last hlast
  refine ⟨hnonempty, hinterval, fun c hc hrecent => ?_, fun k v hv => ?_⟩
  · exact hserved.decided_of_recent hc (by omega)
  · have hmem := hserved.certificate k v hv
    have hheight := hserved.wellFormed.decided_height hv
    exact ⟨hheight, hmem, fun c hc hck =>
      hserved.certificate_ext hc hmem (hck.trans hheight.symm)⟩

end History

section HistoryDemo

attribute [local instance] demoCrypto Prost.reference demoPayload

theorem history_served_demo :
    (handleAll (demoState 1 [5, 6]) settledMsgs).getEarliestHeight ≤ ⟨2⟩ ∧
      ∀ k, ((handleAll (demoState 1 [5, 6]) settledMsgs).getDecidedValue k).isSome ↔
        (handleAll (demoState 1 [5, 6]) settledMsgs).getEarliestHeight ≤ k ∧ k ≤ ⟨2⟩ := by
  have hstart : Run (node (demoConfig 1 [5, 6])) [] (demoState 1 [5, 6]) := .start ⟨true, rfl⟩
  have hrun := hstart.deliveries settledMsgs (by decide +kernel)
  have horderly : ∀ x ∈ [] ++ deliveries (demoState 1 [5, 6]) settledMsgs, Orderly x.1 x.2 := by
    decide +kernel
  have hlast : (committed ([] ++ deliveries (demoState 1 [5, 6]) settledMsgs)).getLast? =
      some (demoCertificateAt ⟨2⟩ 6) := by decide +kernel
  have hserved := history_served hrun horderly hlast
  exact ⟨hserved.1, hserved.2.1⟩

end HistoryDemo
end MalakethTurbo
