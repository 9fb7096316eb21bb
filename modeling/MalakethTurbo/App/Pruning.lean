import MalakethTurbo.App.Calls
import MalakethTurbo.App.History
import MalakethTurbo.App.Keys

/-!
# What pruning leaves

Pruning below a height empties five tables, and only two of them by their own keys: the
certificates and the decided block data go with the keys of the decided values.  That this
leaves nothing behind rests on an invariant of the store (`DataDecided`): a height has
block data only if it has a decision.  A commit writes the decision first, so the
invariant survives a process that stops in between.

The undecided tables are pruned by the range below `(retain, Nil)`.  The keys are compared
as the bytes in which they are stored, a missing round as `-1`, so the range is that of the
heights below `retain` (`UndecidedValueKey.compare_nil_iff`).

A commit prunes after it has stored its own height, and the bound it prunes below is kept
itself.  So the tables of an orderly run grow to one height more than the length of the
history (`history_bounded_iff`).
-/

namespace MalakethTurbo

open Wire (Bytes)
open State (commitEffects keepWrites MAX_HISTORY_LENGTH)

/-! ## Pruning a store -/

/-- A height has block data only if it has a decision. -/
def DataDecided (db : Db) : Prop :=
  ∀ h, (db.decidedBlockData.get? h).isSome → (db.decidedValues.get? h).isSome

/-- A store and what pruning makes of it: each table is what it was at the heights from the
bound on and empty below, and the heights that had a decision below it are listed in order. -/
structure PrunedExactly (db : Db) (retain : Height) (pruned : List Height) (db' : Db) : Prop where
  undecidedProposals : ∀ k, db'.undecidedProposals.get? k =
    if k.height < retain then none else db.undecidedProposals.get? k
  undecidedBlockData : ∀ k, db'.undecidedBlockData.get? k =
    if k.height < retain then none else db.undecidedBlockData.get? k
  decidedValues : ∀ h, db'.decidedValues.get? h =
    if h < retain then none else db.decidedValues.get? h
  certificates : ∀ h, db'.certificates.get? h =
    if h < retain then none else db.certificates.get? h
  decidedBlockData : ∀ h, db'.decidedBlockData.get? h =
    if h < retain then none else db.decidedBlockData.get? h
  pruned_increasing : pruned.Pairwise (· < ·)
  mem_pruned : ∀ h, h ∈ pruned ↔ h < retain ∧ (db.decidedValues.get? h).isSome

/-- **Pruning is exact** on a store whose certificates and block data have decisions. -/
theorem Db.WellFormed.prunedExactly {db : Db} (hdb : db.WellFormed) (hdata : DataDecided db)
    (retain : Height) : PrunedExactly db retain (db.prune retain).1 (db.prune retain).2 where
  undecidedProposals k := by
    rw [Db.prune, OrderedMap.get?_removeBelow]
    exact if_congr UndecidedValueKey.lt_nil_iff rfl rfl
  undecidedBlockData k := by
    rw [Db.prune, OrderedMap.get?_removeBelow]
    exact if_congr UndecidedValueKey.lt_nil_iff rfl rfl
  decidedValues := db.decidedValues.get?_removeAll_rangeTo db.decidedValues retain fun _ => id
  certificates := db.certificates.get?_removeAll_rangeTo db.decidedValues retain hdb.certificate
  decidedBlockData := db.decidedBlockData.get?_removeAll_rangeTo db.decidedValues retain hdata
  pruned_increasing := db.decidedValues.keys_increasing.filter _
  mem_pruned := db.decidedValues.mem_rangeTo_iff retain

/-! ## What the calls keep -/

namespace DataDecided

variable {db : Db} {w : StoreWrite}

theorem empty : DataDecided Db.empty := fun _ h => absurd h (by simp [Db.empty])

/-- Block data that is written for a height with a decision is the only danger. -/
theorem apply (h : DataDecided db)
    (hw : ∀ height data, w = .decidedBlockData height data →
      (db.decidedValues.get? height).isSome) : DataDecided (StoreWrite.apply db w) := by
  intro k
  cases w with
  | undecidedProposal p =>
      rw [StoreWrite.apply, StoreWrite.run, Db.insertUndecidedProposal]
      rcases encodeProposedValue p with (e | _) | b <;> exact h k
  | undecidedBlockData height round data => exact h k
  | decidedValue v =>
      rw [StoreWrite.apply, StoreWrite.run, Db.insertDecidedValue]
      rcases Db.encodeCertificateBytes v.certificate with (e | _) | b
      · exact h k
      · exact h k
      · intro hk
        show ((db.decidedValues.insert _ _).get? k).isSome
        rw [OrderedMap.get?_insert]
        split_ifs
        · rfl
        · exact h k hk
  | decidedBlockData height data =>
      intro hk
      show (db.decidedValues.get? k).isSome
      have hget := db.decidedBlockData.get?_insertIfAbsent height k data
      simp only [StoreWrite.apply, StoreWrite.run, Db.insertDecidedBlockData] at hk
      rw [hget] at hk
      split_ifs at hk with hkey
      · rw [hkey]
        exact hw height data rfl
      · exact h k hk
  | prune retain =>
      intro hk
      simp only [StoreWrite.apply, StoreWrite.run, Db.prune, OrderedMap.get?_removeAll] at hk ⊢
      split_ifs at hk ⊢
      · exact hk
      · exact h k hk

/-- Transactions that write no block data of a decision are no danger. -/
theorem applyAll {ws : List StoreWrite} (h : DataDecided db)
    (hws : ∀ w ∈ ws, ∀ height data, w ≠ .decidedBlockData height data) :
    DataDecided (StoreWrite.applyAll db ws) :=
  StoreWrite.applyAll_induction h fun _ hdb w hw =>
    hdb.apply fun height data heq => absurd heq (hws w hw height data)

end DataDecided

/-- A decision stays unless it is pruned. -/
theorem isSome_decidedValues_apply {db : Db} {w : StoreWrite} {height : Height}
    (h : (db.decidedValues.get? height).isSome)
    (hw : ∀ retain, w = .prune retain → ¬ height < retain) :
    ((StoreWrite.apply db w).decidedValues.get? height).isSome := by
  cases w with
  | undecidedProposal p =>
      rw [StoreWrite.apply, StoreWrite.run, Db.insertUndecidedProposal]
      rcases encodeProposedValue p with (e | _) | b <;> exact h
  | undecidedBlockData height' round data => exact h
  | decidedValue v =>
      rw [StoreWrite.apply, StoreWrite.run, Db.insertDecidedValue]
      rcases Db.encodeCertificateBytes v.certificate with (e | _) | b
      · exact h
      · exact h
      · show ((db.decidedValues.insert _ _).get? height).isSome
        rw [OrderedMap.get?_insert]
        split_ifs
        · rfl
        · exact h
  | decidedBlockData height' data => exact h
  | prune retain =>
      have hkept : height ∉ db.decidedValues.rangeTo retain := fun hmem =>
        hw retain rfl ((db.decidedValues.mem_rangeTo_iff retain height).mp hmem).1
      simp only [StoreWrite.apply, StoreWrite.run, Db.prune, OrderedMap.get?_removeAll]
      rw [if_neg hkept]
      exact h

theorem isSome_decidedValues_of_decidedValue (db : Db) {v : DecidedValue}
    (hround : v.certificate.round ≠ .nil) :
    ((StoreWrite.apply db (.decidedValue v)).decidedValues.get? v.certificate.height).isSome := by
  obtain ⟨b, hb⟩ := exists_encodeCertificateBytes hround
  rw [StoreWrite.apply, StoreWrite.run, Db.insertDecidedValue, hb]
  show ((db.decidedValues.insert _ _).get? v.certificate.height).isSome
  rw [OrderedMap.get?_insert, if_pos rfl]
  rfl

section Reachable

variable [Crypto] [Prost] {config : Config} {s : State} {steps : List (State × CallEvent)}

omit [Crypto] [Prost] in
/-- **A commit that stops anywhere** has written block data only after the decision, which
its own pruning spares. -/
theorem DataDecided.commit (h : DataDecided s.store) {c : CommitCertificate} {p : ProposedValue}
    (hround : c.round ≠ .nil) {ws : List StoreWrite}
    (hws : ws <+: writes (s.commitEffects c p)) :
    DataDecided (StoreWrite.applyAll s.store ws) := by
  rw [commitEffects, writes_write_cons] at hws
  rcases List.prefix_cons_iff.mp hws with rfl | ⟨rest, rfl, hrest⟩
  · exact h
  · have hfirst : DataDecided (StoreWrite.apply s.store (.decidedValue ⟨p.value, c⟩)) :=
      h.apply fun height data heq => absurd heq (by simp)
    have hdecided := isSome_decidedValues_of_decidedValue s.store (v := ⟨p.value, c⟩) hround
    -- from here on the height of the certificate keeps its decision
    have hkept (db : Db) (hdb : DataDecided db ∧ (db.decidedValues.get? c.height).isSome)
        (w : StoreWrite) (hw : w ∈ rest) : DataDecided (StoreWrite.apply db w) ∧
          ((StoreWrite.apply db w).decidedValues.get? c.height).isSome := by
      rcases State.mem_writes_settleEffects (hrest.subset hw) with ⟨data, -, rfl⟩ | rfl
      · refine ⟨hdb.1.apply fun height data' heq => ?_,
          isSome_decidedValues_apply hdb.2 fun retain heq => absurd heq (by simp)⟩
        rw [← (StoreWrite.decidedBlockData.inj heq).1]
        exact hdb.2
      · refine ⟨hdb.1.apply fun height data' heq => absurd heq (by simp),
          isSome_decidedValues_apply hdb.2 fun retain heq => ?_⟩
        rw [← StoreWrite.prune.inj heq]
        exact not_lt.mpr (Height.saturatingSub_le _ _)
    exact (StoreWrite.applyAll_induction (P := fun db => DataDecided db ∧
      (db.decidedValues.get? c.height).isSome) ⟨hfirst, hdecided⟩ hkept).1

/-- In every store that the calls reach, block data has a decision. -/
theorem dataDecided_of_calls (h : Run (calls config) steps s) : DataDecided s.store := by
  refine h.invariant (P := fun s => DataDecided s.store) ?_ ?_
  · rintro s ⟨serverStarts, rfl⟩
    exact DataDecided.empty
  · intro s e s' hs hstep
    rw [store_of_call hstep, CallEvent.storeAfter]
    have hpart := e.writes_isPrefix s
    rcases e.method.run_cases s with ⟨p, data, hproduces⟩ | ⟨c, p, -, hround, -, heffects⟩ |
      heffects
    · refine hs.applyAll fun w hw height data' heq => ?_
      have hmem := hpart.subset hw
      rw [hproduces.run_effects, writes_map_write, keepWrites, heq] at hmem
      simp at hmem
    · rw [heffects] at hpart
      exact hs.commit hround hpart
    · rw [heffects, writes_nil, List.prefix_nil] at hpart
      rw [hpart]
      exact hs

/-- **Pruning is exact on all five tables.**  Whatever has been called and wherever the process
has stopped, pruning below a height leaves in each table what was there at the heights from
it on, under every round, and nothing below, and it returns the heights below that had a
decision in increasing order. -/
theorem prune_exact (h : Run (calls config) steps s) (retain : Height) :
    PrunedExactly s.store retain (s.store.prune retain).1 (s.store.prune retain).2 ∧
      ∀ key : UndecidedValueKey,
        UndecidedValueKey.compare key.asBytes (UndecidedValueKey.asBytes ⟨retain, .nil⟩) = .lt ↔
          key.height < retain :=
  ⟨h.calls_wellFormed.prunedExactly (dataDecided_of_calls h) retain,
    fun key => key.compare_nil_iff retain⟩

end Reachable

section Demo

attribute [local instance] demoCrypto Prost.reference demoPayload

/-- A node that has stopped in a commit, right after the decision. -/
theorem prune_exact_demo :
    ∃ steps s, Run (calls (demoConfig 1 [])) steps s ∧ (s.store.prune ⟨2⟩).1 = [⟨1⟩] ∧
      PrunedExactly s.store ⟨2⟩ (s.store.prune ⟨2⟩).1 (s.store.prune ⟨2⟩).2 := by
  have hstart : Run (calls (demoConfig 1 [])) [] (demoState 1 []) := .start ⟨true, rfl⟩
  have hpropose := hstart.returns (m := .proposeValue ⟨1⟩ (.some 0) [5]) (by decide +kernel)
  have hstopped := hpropose.stops (.commit (demoCertificate 5)) 1 true
  exact ⟨_, _, hstopped, by decide +kernel, (prune_exact hstopped ⟨2⟩).1⟩

end Demo

/-! ## How many heights are kept -/

section Kept

variable [Crypto] [Prost] [Payload] {config : Config} {s s' : State} {e : Event}
  {steps : List (State × Event)}

/-- A step of a node keeps block data to heights with a decision. -/
theorem DataDecided.step (h : DataDecided s.store) (hstep : (node config).step s e s') :
    DataDecided s'.store := by
  rw [store_of_step hstep, Event.storeAfter]
  have hpart : writes (e.performed s) <+: writes (handle e.msg s).effects :=
    (e.performed_isPrefix s).filterMap _
  rcases handle_cases s e.msg with ⟨p, data, hhands⟩ | ⟨c, hmsg⟩ | hquiet
  · refine h.applyAll fun w hw height data' heq => ?_
    obtain ⟨reply, msgs, -, heffects⟩ := hhands.handle_effects
    have hmem := hpart.subset hw
    rw [heffects, writes_append, writes_map_write, writes_reply_cons, writes_map_publish,
      List.append_nil, keepWrites, heq] at hmem
    simp at hmem
  · rw [hmsg] at hpart
    rcases (handle_decided c).1 with ⟨p, -, hround, hwrites⟩ | hnone
    · rw [hwrites] at hpart
      exact h.commit hround hpart
    · rw [hnone, List.prefix_nil] at hpart
      rw [hpart]
      exact h
  · rw [hquiet.writes_eq, List.prefix_nil] at hpart
    rw [hpart]
    exact h

theorem dataDecided_of_run (h : Run (node config) steps s) : DataDecided s.store := by
  refine h.invariant (P := fun s => DataDecided s.store) ?_ fun s e s' hs hstep => hs.step hstep
  rintro s ⟨serverStarts, rfl⟩
  exact DataDecided.empty

omit [Crypto] [Payload] in
/-- **The heights with a decision** are the last ones that were committed, up to one more than
the length of the history. -/
theorem Served.length_decidedValues {start : Height} {certificates : List CommitCertificate}
    (h : Served start certificates s) :
    s.store.decidedValues.keys.length =
      min certificates.length (MAX_HISTORY_LENGTH.toNat + 1) := by
  have hcurrent := h.current
  have hlt := s.currentHeight.asU64.toNat_lt
  have hmem (k : Height) : k ∈ s.store.decidedValues.keys ↔
      start.asU64.toNat ≤ k.asU64.toNat ∧ k.asU64.toNat < s.currentHeight.asU64.toNat ∧
        s.currentHeight.asU64.toNat ≤ k.asU64.toNat + MAX_HISTORY_LENGTH.toNat + 1 := by
    rw [OrderedMap.mem_keys_iff, ← h.wellFormed.decided_isSome_iff, h.decided, Height.le_iff,
      Height.lt_iff]
  have hnodup : (s.store.decidedValues.keys.map fun k => k.asU64.toNat).Nodup :=
    (List.Pairwise.imp (fun hlt => hlt.ne) s.store.decidedValues.keys_increasing).map _
      fun k k' hne heq => hne (Height.toNat_asU64_injective heq)
  have hperm : (s.store.decidedValues.keys.map fun k => k.asU64.toNat).Perm
      (List.range' (max start.asU64.toNat
        (s.currentHeight.asU64.toNat - (MAX_HISTORY_LENGTH.toNat + 1)))
        (min certificates.length (MAX_HISTORY_LENGTH.toNat + 1))) := by
    refine (List.perm_ext_iff_of_nodup hnodup List.nodup_range').mpr fun n => ?_
    rw [List.mem_map, List.mem_range'_1]
    constructor
    · rintro ⟨k, hk, rfl⟩
      obtain ⟨hstart, hbelow, hrecent⟩ := (hmem k).mp hk
      omega
    · rintro ⟨hlow, hhigh⟩
      have hsmall : n < 2 ^ 64 := by omega
      have hword : (UInt64.ofNat n).toNat = n := UInt64.toNat_ofNat_of_lt' hsmall
      refine ⟨⟨UInt64.ofNat n⟩, (hmem _).mpr ?_, hword⟩
      rw [show (Height.mk (UInt64.ofNat n)).asU64.toNat = n from hword]
      omega
  rw [← List.length_map (f := fun k : Height => k.asU64.toNat), hperm.length_eq,
    List.length_range']

/-- **The history is one block too long.**  After every step of an orderly run, the three
tables of decisions have at most `MAX_HISTORY_LENGTH` heights if and only if the run has
committed at most that many. -/
theorem history_bounded_iff (h : Run (node config) steps s)
    (horderly : ∀ x ∈ steps, Orderly x.1 x.2) :
    (s.store.decidedValues.keys.length ≤ MAX_HISTORY_LENGTH.toNat ∧
        s.store.certificates.keys.length ≤ MAX_HISTORY_LENGTH.toNat ∧
        s.store.decidedBlockData.keys.length ≤ MAX_HISTORY_LENGTH.toNat) ↔
      (committed steps).length ≤ MAX_HISTORY_LENGTH.toNat := by
  have hserved := h.served horderly
  have hlength := hserved.length_decidedValues
  have hcertificates := OrderedMap.length_keys_le hserved.wellFormed.certificate
  have hdata := OrderedMap.length_keys_le (dataDecided_of_run h)
  omega

end Kept

section Demo

attribute [local instance] demoCrypto Prost.reference demoPayload

/-- The certificate for an empty block. -/
def emptyCertificate (height : Height) : CommitCertificate :=
  ⟨height, .some 0, (Value.new []).id, ⟨[]⟩⟩

/-- A node without blocks proposes and commits empty ones, height by height. -/
def emptyBlocks (n : Nat) : List AppMsg :=
  (List.range n).flatMap fun i =>
    [.getValue ⟨UInt64.ofNat (i + 1)⟩ (.some 0),
      .decided (emptyCertificate ⟨UInt64.ofNat (i + 1)⟩)]

theorem history_bounded_demo :
    (handleAll (demoState 1 []) (emptyBlocks 2)).store.decidedValues.keys.length ≤
        MAX_HISTORY_LENGTH.toNat ∧
      (handleAll (demoState 1 []) (emptyBlocks 2)).store.certificates.keys.length ≤
        MAX_HISTORY_LENGTH.toNat ∧
      (handleAll (demoState 1 []) (emptyBlocks 2)).store.decidedBlockData.keys.length ≤
        MAX_HISTORY_LENGTH.toNat := by
  have hstart : Run (node (demoConfig 1 [])) [] (demoState 1 []) := .start ⟨true, rfl⟩
  have hrun := hstart.deliveries (emptyBlocks 2) (by decide +kernel)
  exact (history_bounded_iff hrun (by decide +kernel)).mpr (by decide +kernel)

/-- The commit that follows the first twenty-five leaves twenty-six heights. -/
theorem history_exceeds_bound :
    ¬ ∀ (config : Config) (steps : List (State × Event)) (s : State),
      Run (node config) steps s → (∀ x ∈ steps, Orderly x.1 x.2) →
      s.store.decidedValues.keys.length ≤ MAX_HISTORY_LENGTH.toNat := by
  intro hall
  have hstart : Run (node (demoConfig 1 [])) [] (demoState 1 []) := .start ⟨true, rfl⟩
  have hrun := hstart.deliveries (emptyBlocks 26) (by decide +kernel)
  have horderly : ∀ x ∈ [] ++ deliveries (demoState 1 []) (emptyBlocks 26), Orderly x.1 x.2 := by
    decide +kernel
  have hlength := (hrun.served horderly).length_decidedValues
  have hcommits : (committed ([] ++ deliveries (demoState 1 []) (emptyBlocks 26))).length = 26 := by
    decide +kernel
  have hbound := hall _ _ _ hrun horderly
  rw [hlength, hcommits] at hbound
  exact absurd hbound (by decide)

end Demo

end MalakethTurbo
