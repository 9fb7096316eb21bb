import MalakethTurbo.App.Handover
import MalakethTurbo.Types.Signing
import Mathlib.Algebra.BigOperators.Group.List.Basic

/-!
# Decisions

A decision arrives as a certificate.  The commit takes the height and the round of
the certificate, looks into the undecided slot they name, and stores what it finds
there together with the certificate.  Two things follow.

What is stored is the decided value exactly if the slot holds it
(`decisions_paired_iff`).  Nothing in the commit compares the value with the
certificate, and the slot holds what reached it first, so a validator that gets its
own proposal into the slot before the decided one changes what is recorded.

A decision is recorded exactly if the slot is occupied at all
(`decision_recorded_iff`).  Where it is empty, because the value came through the
synchronisation, which stores nothing, or was decided in a later round than it was
proposed in, the decision is acknowledged and forgotten.
-/

namespace MalakethTurbo

open Wire (Bytes)
open State (commitEffects settleEffects)

/-! ## Certificates -/

/-- The voting power behind a certificate: that of the validators whose commit
signatures verify. -/
def certifiedPower [Crypto] (vs : ValidatorSet) (c : CommitCertificate) : Nat :=
  (c.aggregatedSignature.signatures.map fun sig =>
    match vs.getByAddress sig.address with
    | none => 0
    | some v =>
        match verifyCommitSignature c sig v with
        | .ok (.ok power) => power.toNat
        | _ => 0).sum

/-- More than two thirds of the voting power have signed the certificate, and nobody
is counted twice. -/
def Genuine [Crypto] (vs : ValidatorSet) (c : CommitCertificate) : Prop :=
  (c.aggregatedSignature.signatures.map CommitSignature.address).Nodup ∧
    2 * (vs.validators.map fun v => v.votingPower.toNat).sum < 3 * certifiedPower vs c

instance [Crypto] (vs : ValidatorSet) (c : CommitCertificate) : Decidable (Genuine vs c) :=
  inferInstanceAs (Decidable (_ ∧ _))

/-! ## What a commit leaves in the store -/

/-- A transaction that leaves the decision at a height alone. -/
def StoreWrite.SparesDecision (h : Height) : StoreWrite → Prop
  | .decidedValue v => v.certificate.height ≠ h
  | .prune retain => ¬ h < retain
  | _ => True

theorem Ledger.decided_apply_of_spares {h : Height} {w : StoreWrite} (hw : w.SparesDecision h)
    (l : Ledger) : (l.apply w).decided h = l.decided h := by
  cases w with
  | decidedValue v =>
      rw [apply]
      split_ifs
      · rfl
      · exact Function.update_of_ne (Ne.symm hw) _ _
  | prune retain => exact if_neg hw
  | undecidedProposal p =>
      rw [apply]
      split_ifs <;> rfl
  | undecidedBlockData h' r data => rfl
  | decidedBlockData h' data => rfl

theorem Ledger.decided_applyAll_of_spares {h : Height} {ws : List StoreWrite}
    (hws : ∀ w ∈ ws, w.SparesDecision h) (l : Ledger) :
    (l.applyAll ws).decided h = l.decided h := by
  induction ws generalizing l with
  | nil => rfl
  | cons w ws ih =>
      have hrest := ih (fun w hw => hws w (List.mem_cons_of_mem _ hw)) (l.apply w)
      exact hrest.trans (decided_apply_of_spares (hws w List.mem_cons_self) l)

/-- What a commit writes after the decision spares the decision. -/
theorem sparesDecision_of_mem {s : State} {c : CommitCertificate} {w : StoreWrite}
    (h : w ∈ writes (settleEffects s c)) : w.SparesDecision c.height := by
  rcases State.mem_writes_settleEffects h with ⟨data, -, rfl⟩ | rfl
  · trivial
  · exact not_lt.mpr (Height.saturatingSub_le _ _)

section Decisions

variable [Crypto] [Prost] [Payload] {config : Config} {steps : List (State × Event)}
  {s : State} {e : Event}

/-- A decision is written by a commit, for the proposal in the slot of its
certificate. -/
theorem decidedValue_mem_writes {msg : AppMsg} {d : DecidedValue}
    (h : .decidedValue d ∈ writes (handle msg s).effects) :
    ∃ c p, msg = .decided c ∧
      s.store.getUndecidedProposal c.height c.round = .ok (some p) ∧ d = ⟨p.value, c⟩ := by
  rcases handle_cases s msg with ⟨p, data, hhands⟩ | ⟨c, rfl⟩ | hquiet
  · obtain ⟨reply, msgs, -, heffects⟩ := hhands.handle_effects
    rw [heffects] at h
    simp [State.keepWrites] at h
  · rcases (handle_decided (s := s) c).1 with ⟨p, hslot, -, hwrites⟩ | hwrites
    · rw [hwrites, commitEffects, writes_write_cons] at h
      rcases List.mem_cons.mp h with hd | hd
      · exact ⟨c, p, rfl, hslot, StoreWrite.decidedValue.inj hd⟩
      · rcases State.mem_writes_settleEffects hd with ⟨data, -, hd⟩ | hd
        · exact absurd hd (by simp)
        · exact absurd hd (by simp)
    · rw [hwrites] at h
      exact absurd h List.not_mem_nil
  · rw [hquiet.writes_eq] at h
    exact absurd h List.not_mem_nil

/-- A step that gets past the first effect of a decision, for a slot that holds a
proposal, records the proposal. -/
theorem decided_storeAfter (hdb : s.store.WellFormed) {c : CommitCertificate}
    {p : ProposedValue} (hmsg : e.msg = .decided c) (hpasses : e.Passes 0)
    (hslot : s.store.getUndecidedProposal c.height c.round = .ok (some p))
    (hround : c.round ≠ .nil) :
    (e.storeAfter s).getDecidedValue c.height = some ⟨p.value, c⟩ := by
  obtain ⟨tail, htail, heffects⟩ := handle_decided_of_slot hslot hround
  have htailWrites : writes tail = [] := by
    rcases htail with rfl | ⟨h, vs, rfl⟩ <;> rfl
  rw [← hmsg] at heffects
  -- the first write is the decision, and no other write of the step touches it
  obtain ⟨rest, hperformed, hrest⟩ := Event.performed_of_passes heffects hpasses
  have hspares : ∀ w ∈ writes rest, w.SparesDecision c.height := by
    intro w hw
    have hmem : w ∈ writes (settleEffects s c ++ tail) := (hrest.filterMap _).subset hw
    rw [writes_append, htailWrites, List.append_nil] at hmem
    exact sparesDecision_of_mem hmem
  have hledger := (hdb.refines_applyAll (writes (e.performed s))).2
  have hdecided : (e.storeAfter s).ledger.decided c.height = some ⟨p.value, c⟩ := by
    rw [Event.storeAfter, hledger, hperformed, writes_write_cons]
    refine (Ledger.decided_applyAll_of_spares hspares _).trans ?_
    simp only [Ledger.apply, if_neg hround]
    exact Function.update_self _ _ _
  exact hdecided

/-! ## Is the value stored the one decided? -/

/-- Every decided value has the identifier that its certificate decides. -/
def Paired (db : Db) : Prop :=
  ∀ h v, db.getDecidedValue h = some v → v.value.id = v.certificate.valueId

/-- A step that gets as far as storing a decision finds the decided value in the slot
of the certificate, if it finds anything. -/
def FindsDecided (s : State) (e : Event) : Prop :=
  ∀ c p, e.msg = .decided c → e.Passes 0 →
    s.store.getUndecidedProposal c.height c.round = .ok (some p) → p.value.id = c.valueId

/-- A step that finds what is decided keeps the store paired. -/
theorem Paired.storeAfter (hdb : s.store.WellFormed) (hpaired : Paired s.store)
    (hfinds : FindsDecided s e) : Paired (e.storeAfter s) := by
  refine (StoreWrite.applyAll_induction (P := fun db => db.WellFormed ∧ Paired db)
    ⟨hdb, hpaired⟩ ?_).2
  rintro db ⟨hwell, hprev⟩ w hw
  obtain ⟨hwell', hledger⟩ := hwell.refines w
  refine ⟨hwell', fun h v hv => ?_⟩
  rw [← Db.ledger_decided, hledger] at hv
  rcases Ledger.decided_of_apply hv with hold | ⟨rfl, -⟩
  · exact hprev h v hold
  · obtain ⟨effect, heffect, -⟩ := List.mem_filterMap.mp hw
    obtain ⟨c, p, hmsg, hslot, rfl⟩ := decidedValue_mem_writes (Event.mem_writes hw)
    exact hfinds c p hmsg (Event.passes_of_mem_performed heffect) hslot

/-- A step that leaves the store paired has found what was decided. -/
theorem findsDecided_of_paired (hdb : s.store.WellFormed) (hpaired : Paired (e.storeAfter s)) :
    FindsDecided s e := by
  intro c p hmsg hpasses hslot
  exact hpaired _ _ (decided_storeAfter hdb hmsg hpasses hslot (hdb.round_ne_nil hslot))

/-- **A certificate is stored with the value it decides exactly if the slot it names
holds that value.**  In a run of a node, restarts included, every store reached pairs
each certificate with a value of its identifier if and only if every decision that is
stored found the decided value in its slot.  The slot holds the first proposal that
reached it, whoever made it. -/
theorem decisions_paired_iff (h : Run (node config) steps s) :
    (∀ x ∈ steps, Paired (x.2.storeAfter x.1)) ↔ ∀ x ∈ steps, FindsDecided x.1 x.2 := by
  refine h.forall_congr_along (G := fun _ _ => True)
    (I := fun s => s.store.WellFormed ∧ Paired s.store)
    (P := fun s e => Paired (e.storeAfter s)) (fun _ _ => trivial) ?_ ?_ ?_
  · rintro s ⟨serverStarts, rfl⟩
    exact ⟨Db.WellFormed.empty,
      fun h v hv => absurd hv (by simp [State.new, Db.empty, Db.getDecidedValue])⟩
  · rintro s e s' ⟨hdb, -⟩ - hpaired hstep
    rw [store_of_step hstep]
    exact ⟨(hdb.refines_applyAll _).1, hpaired⟩
  · rintro s e ⟨hdb, hpaired⟩ -
    exact ⟨findsDecided_of_paired hdb, hpaired.storeAfter hdb⟩

end Decisions

section PairedDemo

attribute [local instance] demoCrypto Prost.reference demoPayload

theorem decisions_paired_demo :
    ∃ steps s, Run (node (demoConfig 2 [])) steps s ∧
      (∀ x ∈ steps, Paired (x.2.storeAfter x.1)) ∧
      s.store.getDecidedValue ⟨1⟩ = some ⟨Value.new [5], demoCertificate 5⟩ := by
  have hstart : Run (node (demoConfig 2 [])) [] (demoState 2 []) := .start ⟨true, rfl⟩
  have hrun := hstart.deliveries (demoArrivals 1 5 ++ [.decided (demoCertificate 5)])
    (by decide +kernel)
  refine ⟨_, _, hrun, (decisions_paired_iff hrun).mpr fun x hx c p hmsg _ hslot => ?_,
    by decide +kernel⟩
  rw [List.nil_append, deliveries_append] at hx
  rcases List.mem_append.mp hx with hx | hx
  · obtain ⟨msg, hmem, hevent⟩ := mem_deliveries hx
    rw [hevent] at hmsg
    exact absurd hmsg (demoArrivals_not_decided hmem c)
  · obtain rfl := List.mem_singleton.mp hx
    obtain rfl := AppMsg.decided.inj hmsg
    have hproposal := hslot.symm.trans (by decide +kernel :
      _ = .ok (some ((demoState 1 []).localProposal ⟨1⟩ (.some 0) (Value.new [5]))))
    rw [Option.some.inj (Except.ok.inj hproposal)]
    rfl

/-- The fourth validator is not the proposer, signs a proposal of its own and gets it
through first.  The others decide on the proposal of the first validator, and their
genuine certificate is stored with the value of the fourth. -/
theorem decisions_not_paired_of_forerunner :
    ¬ ∀ (steps : List (State × Event)) (s : State), Run (node (demoConfig 2 [])) steps s →
      (∀ x ∈ steps, ∀ c, x.2.msg = .decided c → Genuine demoGenesis.validatorSet c) →
      Paired s.store := by
  intro hall
  have hstart : Run (node (demoConfig 2 [])) [] (demoState 2 []) := .start ⟨true, rfl⟩
  have hrun := hstart.deliveries
    (demoArrivals 4 9 ++ demoArrivals 1 5 ++ [.decided (demoCertificate 5)]) (by decide +kernel)
  have hpaired := hall _ _ hrun fun x hx c hmsg => by
    obtain ⟨msg, hmem, hevent⟩ := mem_deliveries hx
    rw [hevent] at hmsg
    obtain rfl : msg = .decided c := hmsg
    rcases List.mem_append.mp hmem with hmem | hmem
    · rcases List.mem_append.mp hmem with hmem | hmem
      · exact absurd rfl (demoArrivals_not_decided hmem c)
      · exact absurd rfl (demoArrivals_not_decided hmem c)
    · rw [AppMsg.decided.inj (List.mem_singleton.mp hmem)]
      decide +kernel
  have hstored := hpaired ⟨1⟩ ⟨Value.new [9], demoCertificate 5⟩ (by decide +kernel)
  exact absurd hstored (by decide +kernel)

end PairedDemo

section Recorded

variable [Crypto] [Prost] [Payload] {config : Config} {steps : List (State × Event)}
  {s : State}

/-! ## Is the decision recorded? -/

/-- A decision is recorded: the store has it with its certificate, the node is at the
next height, and consensus is told to start there. -/
def Recorded (s : State) (c : CommitCertificate) : Prop :=
  (∃ v, (handle (.decided c) s).state.store.getDecidedValue c.height = some v ∧
      v.certificate = c) ∧
    ∃ next : Height, next.asU64.toNat = c.height.asU64.toNat + 1 ∧
      (handle (.decided c) s).state.currentHeight = next ∧
      (handle (.decided c) s).result = .ok () ∧
      replies (handle (.decided c) s).effects = [.startHeight next s.genesis.validatorSet]

/-- **A decision at the current height is recorded exactly if its slot is occupied**
and the height is not the last one.  It does not matter that consensus got the value
from the application: only what the store holds under the height and the round of the
certificate does. -/
theorem decision_recorded_iff (h : Run (node config) steps s) {c : CommitCertificate}
    (hheight : c.height = s.currentHeight) :
    Recorded s c ↔
      (∃ p, s.store.getUndecidedProposal c.height c.round = .ok (some p)) ∧
        c.height.asU64.toNat + 1 < 2 ^ 64 := by
  have hdb : s.store.WellFormed := System.Reachable.wellFormed ⟨steps, h⟩
  constructor
  · rintro ⟨-, next, hnext, hcurrent, -, -⟩
    rw [handle_decided_state] at hcurrent
    -- the node has moved on, so the commit has gone through to its last line
    have hmoved : (State.commit c s).state.currentHeight ≠ s.currentHeight := by
      intro hsame
      rw [hcurrent] at hsame
      rw [hsame, hheight] at hnext
      omega
    rcases State.commit_cases s c with ⟨-, hstate⟩ | ⟨p, hslot, -, hcommit⟩
    · rw [hstate] at hmoved
      exact absurd rfl hmoved
    · refine ⟨⟨p, hslot⟩, ?_⟩
      rw [hheight]
      by_contra hlast
      have hstay := State.nextHeight_of_not_lt
        (s := s.afterWrites (writes (commitEffects s c p))) hlast
      rw [hcommit, hstay] at hmoved
      exact hmoved rfl
  · rintro ⟨⟨p, hslot⟩, hlt⟩
    have hround := hdb.round_ne_nil hslot
    rw [hheight] at hlt
    obtain ⟨hresult, hcurrent, heffects⟩ := handle_decided_run hslot hround hlt
    have hstore : (handle (.decided c) s).state.store =
        Event.storeAfter s (.deliver (.decided c)) := (Framed.handle (.decided c) s).store
    refine ⟨⟨⟨p.value, c⟩, ?_, rfl⟩, ⟨s.currentHeight.asU64 + 1⟩, ?_, hcurrent, hresult, ?_⟩
    · rw [hstore]
      exact decided_storeAfter hdb rfl trivial hslot hround
    · rw [hheight, UInt64.toNat_add]
      exact Nat.mod_eq_of_lt hlt
    · rw [heffects, replies_append, (State.commitEffects_silent s c p).1]
      rfl

/-- The application has handed a value with the identifier to consensus at the
height. -/
def HandedAt (steps : List (State × Event)) (h : Height) (id : ValueId) : Prop :=
  ∃ x ∈ steps, ∃ r ∈ replies (x.2.performed x.1), ∃ slot v,
    r.handed = some (slot, v) ∧ slot.height = h ∧ v.id = id

end Recorded

section RecordedDemo

attribute [local instance] demoCrypto Prost.reference demoPayload

theorem decision_recorded_demo :
    Recorded (handleAll (demoState 2 []) (demoArrivals 1 5)) (demoCertificate 5) := by
  have hstart : Run (node (demoConfig 2 [])) [] (demoState 2 []) := .start ⟨true, rfl⟩
  have hrun := hstart.deliveries (demoArrivals 1 5) (by decide +kernel)
  exact (decision_recorded_iff hrun (c := demoCertificate 5) (by decide +kernel)).mpr
    ⟨⟨(demoState 1 []).localProposal ⟨1⟩ (.some 0) (Value.new [5]), by decide +kernel⟩,
      by decide +kernel⟩

/-- The second validator gets the value of the first through the synchronisation only.
The decision on it is acknowledged and nothing is recorded. -/
theorem decision_not_recorded_after_sync :
    ¬ ∀ (steps : List (State × Event)) (s : State) (c : CommitCertificate),
      Run (node (demoConfig 2 [])) steps s → c.height = s.currentHeight →
      Genuine demoGenesis.validatorSet c → HandedAt steps c.height c.valueId →
      Recorded s c := by
  intro hall
  have hstart : Run (node (demoConfig 2 [])) [] (demoState 2 []) := .start ⟨true, rfl⟩
  have hrun := hstart.deliveries
    [.processSyncedValue ⟨1⟩ (.some 0) (demoAddress 1) (Value.new [5]).toBytes]
    (by decide +kernel)
  have hhanded : HandedAt (deliveries (demoState 2 [])
      [.processSyncedValue ⟨1⟩ (.some 0) (demoAddress 1) (Value.new [5]).toBytes])
      (demoCertificate 5).height (demoCertificate 5).valueId :=
    ⟨_, List.mem_cons_self,
      .syncedValue ⟨⟨1⟩, .some 0, .nil, demoAddress 1, Value.new [5], .valid⟩,
      by decide +kernel, _, _, rfl, rfl, rfl⟩
  obtain ⟨-, next, hnext, hcurrent, -⟩ := hall _ _ (demoCertificate 5) hrun (by decide +kernel)
    (by decide +kernel) hhanded
  -- the node stays where it is
  have hstay := hcurrent.symm.trans (by decide +kernel : _ = (⟨1⟩ : Height))
  rw [hstay] at hnext
  exact absurd hnext (by decide +kernel)

end RecordedDemo
end MalakethTurbo
