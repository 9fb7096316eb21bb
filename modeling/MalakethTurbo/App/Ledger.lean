import MalakethTurbo.App.Store
import Mathlib.Logic.Function.Basic

/-!
# What the store is for

`Ledger` is the store without its encoding: for every slot the proposal and the
block data kept there, for every height the decision and the decided block data.
The undecided slots keep what came first, a decision replaces the one before it,
and pruning forgets the heights below a bound.

The tables of `Db` represent a ledger as long as they hold what the encoders
wrote, each entry under its own key (`Db.WellFormed`).  Every transaction keeps
the tables well formed and acts on the ledger as `Ledger.apply` says, and so does a
list of them (`Db.WellFormed.refines`, `Db.WellFormed.refines_applyAll`), so
everything about runs of the store is proved of ledgers.
-/

namespace MalakethTurbo

open Wire (Bytes encodeToVec)

/-! ## Ledgers -/

/-- The contents of the store. -/
@[ext] structure Ledger where
  proposal : UndecidedValueKey → Option ProposedValue
  blockData : UndecidedValueKey → Option Bytes
  decided : Height → Option DecidedValue
  decidedData : Height → Option Bytes

/-- Sets a key that has no value yet. -/
def keepFirst {κ ν : Type} [DecidableEq κ] (f : κ → Option ν) (k : κ) (v : ν) :
    κ → Option ν :=
  Function.update f k (some ((f k).getD v))

theorem keepFirst_self {κ ν : Type} [DecidableEq κ] (f : κ → Option ν) (k : κ) (v : ν) :
    keepFirst f k v k = some ((f k).getD v) :=
  Function.update_self k _ f

theorem keepFirst_of_ne {κ ν : Type} [DecidableEq κ] (f : κ → Option ν) {k k' : κ} (v : ν)
    (h : k' ≠ k) : keepFirst f k v k' = f k' :=
  Function.update_of_ne h _ f

/-- A key has its old value, or it had none and has the new one. -/
theorem keepFirst_eq_some {κ ν : Type} [DecidableEq κ] {f : κ → Option ν} {k k' : κ} {v w : ν}
    (h : keepFirst f k v k' = some w) : f k' = some w ∨ k' = k ∧ f k = none ∧ w = v := by
  by_cases hk : k' = k
  · rw [hk, keepFirst_self] at h
    cases hf : f k with
    | none =>
        rw [hf] at h
        exact Or.inr ⟨hk, rfl, (Option.some.inj h).symm⟩
    | some u =>
        rw [hf] at h
        exact Or.inl (by rw [hk, hf]; exact h)
  · rw [keepFirst_of_ne f v hk] at h
    exact Or.inl h

namespace Ledger

/-- The ledger of an empty store. -/
def empty : Ledger := ⟨fun _ => none, fun _ => none, fun _ => none, fun _ => none⟩

/-- What a transaction does.  A proposal or a certificate without a round cannot be
encoded and changes nothing. -/
def apply (l : Ledger) : StoreWrite → Ledger
  | .undecidedProposal p =>
      if p.round = .nil then l
      else { l with proposal := keepFirst l.proposal ⟨p.height, p.round⟩ p }
  | .undecidedBlockData h r data => { l with blockData := keepFirst l.blockData ⟨h, r⟩ data }
  | .decidedValue v =>
      if v.certificate.round = .nil then l
      else { l with decided := Function.update l.decided v.certificate.height (some v) }
  | .decidedBlockData h data => { l with decidedData := keepFirst l.decidedData h data }
  | .prune h =>
      { proposal := fun k => if k.height < h then none else l.proposal k
        blockData := fun k => if k.height < h then none else l.blockData k
        decided := fun k => if k < h then none else l.decided k
        decidedData := fun k => if k < h ∧ (l.decided k).isSome then none else l.decidedData k }

/-- What a list of transactions does. -/
def applyAll (l : Ledger) (ws : List StoreWrite) : Ledger := ws.foldl apply l

/-- The block data of a slot, undecided first. -/
def blockDataAt (l : Ledger) (h : Height) (r : Round) : Option Bytes :=
  (l.blockData ⟨h, r⟩).or (l.decidedData h)

/-! ### Where an entry comes from -/

section Origin

variable {l : Ledger} {w : StoreWrite}

/-- A proposal in the ledger was there before, or it has just been written. -/
theorem proposal_of_apply {k : UndecidedValueKey} {p : ProposedValue}
    (hp : (l.apply w).proposal k = some p) :
    l.proposal k = some p ∨ w = .undecidedProposal p ∧ k = ⟨p.height, p.round⟩ := by
  cases w with
  | undecidedProposal q =>
      rw [apply] at hp
      split_ifs at hp
      · exact Or.inl hp
      · rcases keepFirst_eq_some hp with hold | ⟨hk, -, rfl⟩
        · exact Or.inl hold
        · exact Or.inr ⟨rfl, hk⟩
  | prune retain => exact Or.inl (Option.ite_none_left_eq_some.mp hp).2
  | decidedValue v =>
      rw [apply] at hp
      split_ifs at hp <;> exact Or.inl hp
  | undecidedBlockData h r data => exact Or.inl hp
  | decidedBlockData h data => exact Or.inl hp

theorem blockData_of_apply {k : UndecidedValueKey} {data : Bytes}
    (hdata : (l.apply w).blockData k = some data) :
    l.blockData k = some data ∨ w = .undecidedBlockData k.height k.round data := by
  cases w with
  | undecidedBlockData h r data' =>
      rcases keepFirst_eq_some hdata with hold | ⟨hk, -, rfl⟩
      · exact Or.inl hold
      · exact Or.inr (by rw [hk])
  | prune retain => exact Or.inl (Option.ite_none_left_eq_some.mp hdata).2
  | undecidedProposal p =>
      rw [apply] at hdata
      split_ifs at hdata <;> exact Or.inl hdata
  | decidedValue v =>
      rw [apply] at hdata
      split_ifs at hdata <;> exact Or.inl hdata
  | decidedBlockData h data' => exact Or.inl hdata

theorem decided_of_apply {h : Height} {v : DecidedValue}
    (hv : (l.apply w).decided h = some v) :
    l.decided h = some v ∨ w = .decidedValue v ∧ v.certificate.height = h := by
  cases w with
  | decidedValue v' =>
      rw [apply] at hv
      split_ifs at hv with hround
      · exact Or.inl hv
      · by_cases heq : h = v'.certificate.height
        · rw [heq] at hv ⊢
          simp only [Function.update_self, Option.some.injEq] at hv
          exact Or.inr (by rw [hv]; exact ⟨rfl, rfl⟩)
        · simp only [Function.update_of_ne heq] at hv
          exact Or.inl hv
  | prune retain => exact Or.inl (Option.ite_none_left_eq_some.mp hv).2
  | undecidedProposal p =>
      rw [apply] at hv
      split_ifs at hv <;> exact Or.inl hv
  | undecidedBlockData h' r data => exact Or.inl hv
  | decidedBlockData h' data => exact Or.inl hv

theorem decidedData_of_apply {h : Height} {data : Bytes}
    (hdata : (l.apply w).decidedData h = some data) :
    l.decidedData h = some data ∨ w = .decidedBlockData h data := by
  cases w with
  | decidedBlockData h' data' =>
      rcases keepFirst_eq_some hdata with hold | ⟨hh, -, rfl⟩
      · exact Or.inl hold
      · exact Or.inr (by rw [hh])
  | prune retain => exact Or.inl (Option.ite_none_left_eq_some.mp hdata).2
  | undecidedProposal p =>
      rw [apply] at hdata
      split_ifs at hdata <;> exact Or.inl hdata
  | decidedValue v =>
      rw [apply] at hdata
      split_ifs at hdata <;> exact Or.inl hdata
  | undecidedBlockData h' r data' => exact Or.inl hdata

end Origin

end Ledger

/-! ## The tables -/

theorem encodeCertificateBytes_of_nil {c : CommitCertificate} (h : c.round = .nil) :
    Db.encodeCertificateBytes c = .error .panic := by
  rw [Db.encodeCertificateBytes, encodeCertificate, h]
  rfl

theorem exists_encodeCertificateBytes {c : CommitCertificate} (h : c.round ≠ .nil) :
    ∃ b, Db.encodeCertificateBytes c = .ok b := by
  cases hr : c.round with
  | nil => exact absurd hr h
  | some r =>
      rw [Db.encodeCertificateBytes, encodeCertificate, hr]
      exact ⟨_, rfl⟩

theorem decodeCertificateBytes_encode [Prost] {c : CommitCertificate} {b : Bytes}
    (h : Db.encodeCertificateBytes c = .ok b) : Db.decodeCertificateBytes b = .ok c := by
  obtain ⟨p, hp, hb⟩ := call_bind_eq_ok.mp h
  rw [Db.decodeCertificateBytes, ← Except.ok.inj hb, decodeProto_encodeToVec, call_ok_bind]
  exact decodeCertificate_encodeCertificate hp

/-- A transaction whose entry can be encoded commits. -/
theorem StoreWrite.run_of_writable {w : StoreWrite} (h : w.Writable) (db : Db) :
    w.run db = .ok (StoreWrite.apply db w) := by
  have hok : ∃ db', w.run db = .ok db' := by
    cases w with
    | undecidedProposal p =>
        obtain ⟨b, hb⟩ := exists_encodeProposedValue h
        rw [StoreWrite.run, Db.insertUndecidedProposal, hb]
        exact ⟨_, rfl⟩
    | decidedValue v =>
        obtain ⟨b, hb⟩ := exists_encodeCertificateBytes h
        rw [StoreWrite.run, Db.insertDecidedValue, hb]
        exact ⟨_, rfl⟩
    | undecidedBlockData h r data => exact ⟨_, rfl⟩
    | decidedBlockData h data => exact ⟨_, rfl⟩
    | prune h => exact ⟨_, rfl⟩
  obtain ⟨db', hdb'⟩ := hok
  rw [StoreWrite.apply_of_run hdb', hdb']

/-- One whose entry cannot be encoded panics in its encoder. -/
theorem StoreWrite.run_of_not_writable {w : StoreWrite} (h : ¬ w.Writable) (db : Db) :
    w.run db = .error .panic := by
  cases w with
  | undecidedProposal p =>
      rw [StoreWrite.run, Db.insertUndecidedProposal, encodeProposedValue_of_nil (not_not.mp h)]
      rfl
  | decidedValue v =>
      rw [StoreWrite.run, Db.insertDecidedValue, encodeCertificateBytes_of_nil (not_not.mp h)]
      rfl
  | undecidedBlockData h' r data => exact absurd trivial h
  | decidedBlockData h' data => exact absurd trivial h
  | prune h' => exact absurd trivial h

namespace Db

/-- The tables hold what the encoders wrote, each entry under its own key, and a
decided value has its certificate. -/
structure WellFormed (db : Db) : Prop where
  proposal : ∀ k b, db.undecidedProposals.get? k = some b →
    ∃ p, encodeProposedValue p = .ok b ∧ p.height = k.height ∧ p.round = k.round
  decided : ∀ h b, db.decidedValues.get? h = some b →
    ∃ v : DecidedValue, ∃ b', b = v.value.toBytes ∧ db.certificates.get? h = some b' ∧
      encodeCertificateBytes v.certificate = .ok b' ∧ v.certificate.height = h
  certificate : ∀ h, (db.certificates.get? h).isSome → (db.decidedValues.get? h).isSome

theorem WellFormed.empty : WellFormed empty where
  proposal _ _ h := absurd h (by simp [Db.empty])
  decided _ _ h := absurd h (by simp [Db.empty])
  certificate _ h := absurd h (by simp [Db.empty])

/-- The ledger that the tables represent. -/
def ledger [Prost] (db : Db) : Ledger where
  proposal k := (db.undecidedProposals.get? k).bind fun b => (decodeProposedValue b).toOption
  blockData := db.undecidedBlockData.get?
  decided := db.getDecidedValue
  decidedData := db.decidedBlockData.get?

/-- A decision does not touch the block data. -/
theorem getBlockData_apply_decidedValue (db : Db) (v : DecidedValue) (h : Height) (r : Round) :
    (StoreWrite.apply db (.decidedValue v)).getBlockData h r = db.getBlockData h r := by
  rw [StoreWrite.apply, StoreWrite.run, insertDecidedValue]
  rcases encodeCertificateBytes v.certificate with (e | _) | b <;> rfl

section Reading

variable [Prost] {db : Db}

@[simp] theorem ledger_empty : empty.ledger = Ledger.empty := rfl

theorem ledger_proposal (k : UndecidedValueKey) : db.ledger.proposal k =
    (db.undecidedProposals.get? k).bind fun b => (decodeProposedValue b).toOption := rfl

theorem ledger_blockDataAt (h : Height) (r : Round) : db.ledger.blockDataAt h r =
    (db.undecidedBlockData.get? ⟨h, r⟩).or (db.decidedBlockData.get? h) := rfl

theorem ledger_decided (h : Height) : db.ledger.decided h = db.getDecidedValue h := rfl

theorem getBlockData_eq (h : Height) (r : Round) :
    db.getBlockData h r = db.ledger.blockDataAt h r := by
  rw [getBlockData, ledger_blockDataAt]
  cases db.undecidedBlockData.get? ⟨h, r⟩ with
  | none => rfl
  | some data => rfl

theorem WellFormed.getUndecidedProposal_eq (hdb : db.WellFormed) (h : Height) (r : Round) :
    db.getUndecidedProposal h r = .ok (db.ledger.proposal ⟨h, r⟩) := by
  rw [getUndecidedProposal, ledger_proposal]
  cases hb : db.undecidedProposals.get? ⟨h, r⟩ with
  | none => rfl
  | some b =>
      obtain ⟨p, hp, -, -⟩ := hdb.proposal _ b hb
      simp [decodeProposedValue_encodeProposedValue hp, Except.toOption]

/-- A proposal is kept under its own height and round, which is not missing. -/
theorem WellFormed.proposal_key (hdb : db.WellFormed) {k : UndecidedValueKey}
    {p : ProposedValue} (h : db.ledger.proposal k = some p) :
    p.height = k.height ∧ p.round = k.round ∧ k.round ≠ .nil := by
  obtain ⟨b, hb, hp⟩ := Option.bind_eq_some_iff.mp h
  obtain ⟨q, hq, hheight, hround⟩ := hdb.proposal k b hb
  rw [decodeProposedValue_encodeProposedValue hq] at hp
  obtain rfl : q = p := Option.some.inj hp
  exact ⟨hheight, hround, hround ▸ round_ne_nil_of_encodeProposedValue hq⟩

theorem WellFormed.round_ne_nil (hdb : db.WellFormed) {h : Height} {r : Round}
    {p : ProposedValue} (hslot : db.getUndecidedProposal h r = .ok (some p)) : r ≠ .nil := by
  rw [hdb.getUndecidedProposal_eq, Except.ok.injEq] at hslot
  exact (hdb.proposal_key hslot).2.2

/-- A decided value reads back with its certificate. -/
theorem getDecidedValue_of_entries {h : Height} {v : DecidedValue} {b : Bytes}
    (hvalue : db.decidedValues.get? h = some v.value.toBytes)
    (hcert : db.certificates.get? h = some b)
    (hb : encodeCertificateBytes v.certificate = .ok b) : db.getDecidedValue h = some v := by
  rw [getDecidedValue, hvalue, hcert]
  simp only [Option.bind_some, Value.fromBytes_toBytes, decodeCertificateBytes_encode hb,
    Except.toOption]

theorem getDecidedValue_of_none {h : Height} (hvalue : db.decidedValues.get? h = none) :
    db.getDecidedValue h = none := by
  rw [getDecidedValue, hvalue]
  rfl

theorem WellFormed.decided_isSome_iff (hdb : db.WellFormed) (h : Height) :
    (db.ledger.decided h).isSome ↔ (db.decidedValues.get? h).isSome := by
  rw [ledger_decided]
  cases hb : db.decidedValues.get? h with
  | none => simp [getDecidedValue_of_none hb]
  | some b =>
      obtain ⟨v, b', rfl, hcert, hb', -⟩ := hdb.decided h b hb
      simp [getDecidedValue_of_entries hb hcert hb']

/-- A certificate is kept under its own height. -/
theorem WellFormed.decided_height (hdb : db.WellFormed) {h : Height} {v : DecidedValue}
    (hv : db.ledger.decided h = some v) : v.certificate.height = h := by
  obtain ⟨b, hb⟩ := Option.isSome_iff_exists.mp
    ((hdb.decided_isSome_iff h).mp (by rw [hv]; rfl))
  obtain ⟨w, b', rfl, hcert, hb', hheight⟩ := hdb.decided h b hb
  have hw : db.ledger.decided h = some w := getDecidedValue_of_entries hb hcert hb'
  rw [hv] at hw
  rw [Option.some.inj hw, hheight]

end Reading

/-! ## Transactions -/

section Refinement

variable [Prost] {db : Db}

/-- The tables after a transaction are well formed and represent the ledger after
it. -/
def Refines (db : Db) (w : StoreWrite) : Prop :=
  (StoreWrite.apply db w).WellFormed ∧ (StoreWrite.apply db w).ledger = db.ledger.apply w

theorem refines_undecidedProposal (hdb : db.WellFormed) (p : ProposedValue) :
    db.Refines (.undecidedProposal p) := by
  by_cases hround : p.round = .nil
  · have hrun : StoreWrite.apply db (.undecidedProposal p) = db := by
      rw [StoreWrite.apply, StoreWrite.run, insertUndecidedProposal,
        encodeProposedValue_of_nil hround]
      rfl
    refine ⟨by rw [hrun]; exact hdb, ?_⟩
    rw [hrun, Ledger.apply, if_pos hround]
  · obtain ⟨b, hb⟩ := exists_encodeProposedValue hround
    have hrun : StoreWrite.apply db (.undecidedProposal p) = { db with
        undecidedProposals :=
          if (db.undecidedProposals.get? ⟨p.height, p.round⟩).isNone then
            db.undecidedProposals.insert ⟨p.height, p.round⟩ b
          else db.undecidedProposals } := by
      rw [StoreWrite.apply, StoreWrite.run, insertUndecidedProposal, hb]
      rfl
    constructor
    · rw [hrun]
      refine ⟨?_, hdb.decided, hdb.certificate⟩
      intro k b' hk
      simp only [OrderedMap.get?_insertIfAbsent] at hk
      by_cases heq : k = ⟨p.height, p.round⟩
      · rw [if_pos heq] at hk
        cases hold : db.undecidedProposals.get? ⟨p.height, p.round⟩ with
        | none =>
            rw [hold, Option.getD_none] at hk
            exact ⟨p, by rw [hb, Option.some.inj hk], by rw [heq], by rw [heq]⟩
        | some b'' =>
            rw [hold, Option.getD_some] at hk
            exact hdb.proposal k b' (by rw [heq, hold, hk])
      · rw [if_neg heq] at hk
        exact hdb.proposal k b' hk
    · rw [hrun, Ledger.apply, if_neg hround]
      refine Ledger.ext (funext fun k => ?_) rfl rfl rfl
      show _ = keepFirst db.ledger.proposal ⟨p.height, p.round⟩ p k
      rw [ledger_proposal, OrderedMap.get?_insertIfAbsent]
      by_cases heq : k = ⟨p.height, p.round⟩
      · rw [if_pos heq, heq, keepFirst_self, ledger_proposal]
        cases hold : db.undecidedProposals.get? ⟨p.height, p.round⟩ with
        | none => simp [decodeProposedValue_encodeProposedValue hb, Except.toOption]
        | some b' =>
            obtain ⟨q, hq, -, -⟩ := hdb.proposal _ b' hold
            simp [decodeProposedValue_encodeProposedValue hq, Except.toOption]
      · rw [if_neg heq, keepFirst_of_ne _ _ heq, ledger_proposal]

theorem refines_undecidedBlockData (hdb : db.WellFormed) (h : Height) (r : Round)
    (data : Bytes) : db.Refines (.undecidedBlockData h r data) := by
  refine ⟨⟨hdb.proposal, hdb.decided, hdb.certificate⟩, ?_⟩
  refine Ledger.ext rfl (funext fun k => ?_) rfl rfl
  refine (OrderedMap.get?_insertIfAbsent db.undecidedBlockData ⟨h, r⟩ k data).trans ?_
  exact (Function.update_apply db.ledger.blockData ⟨h, r⟩ _ k).symm

theorem refines_decidedBlockData (hdb : db.WellFormed) (h : Height) (data : Bytes) :
    db.Refines (.decidedBlockData h data) := by
  refine ⟨⟨hdb.proposal, hdb.decided, hdb.certificate⟩, ?_⟩
  refine Ledger.ext rfl rfl rfl (funext fun k => ?_)
  refine (OrderedMap.get?_insertIfAbsent db.decidedBlockData h k data).trans ?_
  exact (Function.update_apply db.ledger.decidedData h _ k).symm

theorem refines_decidedValue (hdb : db.WellFormed) (v : DecidedValue) :
    db.Refines (.decidedValue v) := by
  by_cases hround : v.certificate.round = .nil
  · have hrun : StoreWrite.apply db (.decidedValue v) = db := by
      rw [StoreWrite.apply, StoreWrite.run, insertDecidedValue,
        encodeCertificateBytes_of_nil hround]
      rfl
    refine ⟨by rw [hrun]; exact hdb, ?_⟩
    rw [hrun, Ledger.apply, if_pos hround]
  · obtain ⟨b, hb⟩ := exists_encodeCertificateBytes hround
    have hrun : StoreWrite.apply db (.decidedValue v) = { db with
        decidedValues := db.decidedValues.insert v.certificate.height v.value.toBytes
        certificates := db.certificates.insert v.certificate.height b } := by
      rw [StoreWrite.apply, StoreWrite.run, insertDecidedValue, hb]
      rfl
    constructor
    · rw [hrun]
      refine ⟨hdb.proposal, ?_, ?_⟩
      · intro h b' hk
        rw [OrderedMap.get?_insert] at hk ⊢
        by_cases heq : h = v.certificate.height
        · rw [if_pos heq] at hk ⊢
          exact ⟨v, b, (Option.some.inj hk).symm, rfl, hb, heq.symm⟩
        · rw [if_neg heq] at hk ⊢
          exact hdb.decided h b' hk
      · intro h hk
        rw [OrderedMap.get?_insert] at hk ⊢
        by_cases heq : h = v.certificate.height
        · rw [if_pos heq]
          rfl
        · rw [if_neg heq] at hk ⊢
          exact hdb.certificate h hk
    · rw [hrun, Ledger.apply, if_neg hround]
      refine Ledger.ext rfl rfl (funext fun h => ?_) rfl
      show _ = Function.update db.ledger.decided v.certificate.height (some v) h
      by_cases heq : h = v.certificate.height
      · rw [heq, Function.update_self]
        exact getDecidedValue_of_entries (by rw [OrderedMap.get?_insert, if_pos rfl])
          (by rw [OrderedMap.get?_insert, if_pos rfl]) hb
      · rw [Function.update_of_ne heq, ledger_decided, ledger_decided, getDecidedValue,
          getDecidedValue, OrderedMap.get?_insert, OrderedMap.get?_insert, if_neg heq,
          if_neg heq]

theorem refines_prune (hdb : db.WellFormed) (h : Height) : db.Refines (.prune h) := by
  have hvalues : ∀ k, (StoreWrite.apply db (.prune h)).decidedValues.get? k =
      if k < h then none else db.decidedValues.get? k :=
    db.decidedValues.get?_removeAll_rangeTo db.decidedValues h fun _ => id
  have hcertificates : ∀ k, (StoreWrite.apply db (.prune h)).certificates.get? k =
      if k < h then none else db.certificates.get? k :=
    db.certificates.get?_removeAll_rangeTo db.decidedValues h hdb.certificate
  refine ⟨⟨?_, ?_, ?_⟩, ?_⟩
  · intro k b hk
    simp only [StoreWrite.apply, StoreWrite.run, prune, OrderedMap.get?_removeBelow] at hk
    split_ifs at hk
    exact hdb.proposal k b hk
  · intro k b hk
    rw [hvalues] at hk
    split_ifs at hk with hlt
    rw [hcertificates, if_neg hlt]
    exact hdb.decided k b hk
  · intro k hk
    rw [hcertificates] at hk
    rw [hvalues]
    split_ifs at hk ⊢ with hlt
    · exact absurd hk (by simp)
    · exact hdb.certificate k hk
  · refine Ledger.ext (funext fun k => ?_) (funext fun k => ?_) (funext fun k => ?_)
      (funext fun k => ?_)
    · simp only [StoreWrite.apply, StoreWrite.run, prune, ledger_proposal, Ledger.apply,
        OrderedMap.get?_removeBelow, UndecidedValueKey.lt_nil_iff]
      split_ifs <;> rfl
    · simp only [StoreWrite.apply, StoreWrite.run, prune, ledger, Ledger.apply,
        OrderedMap.get?_removeBelow, UndecidedValueKey.lt_nil_iff]
    · show getDecidedValue _ k = if k < h then none else db.getDecidedValue k
      rw [getDecidedValue, getDecidedValue, hvalues, hcertificates]
      by_cases hlt : k < h
      · rw [if_pos hlt, if_pos hlt, if_pos hlt]
        rfl
      · rw [if_neg hlt, if_neg hlt, if_neg hlt]
    · -- block data goes with the decided values, not by its own keys
      simp only [StoreWrite.apply, StoreWrite.run, prune, ledger, Ledger.apply,
        OrderedMap.get?_removeAll]
      refine if_congr ((db.decidedValues.mem_rangeTo_iff h k).trans
        (and_congr_right fun _ => ?_)) rfl rfl
      exact (hdb.decided_isSome_iff k).symm

/-- **The tables refine the ledger.**  Every transaction keeps the tables well
formed and acts on the ledger they represent as it should. -/
theorem WellFormed.refines (hdb : db.WellFormed) (w : StoreWrite) : db.Refines w := by
  cases w with
  | undecidedProposal p => exact refines_undecidedProposal hdb p
  | undecidedBlockData h r data => exact refines_undecidedBlockData hdb h r data
  | decidedValue v => exact refines_decidedValue hdb v
  | decidedBlockData h data => exact refines_decidedBlockData hdb h data
  | prune h => exact refines_prune hdb h

/-- A list of transactions keeps the tables well formed and acts on the ledger
transaction by transaction. -/
theorem WellFormed.refines_applyAll (hdb : db.WellFormed) (ws : List StoreWrite) :
    (StoreWrite.applyAll db ws).WellFormed ∧
      (StoreWrite.applyAll db ws).ledger = db.ledger.applyAll ws := by
  induction ws generalizing db with
  | nil => exact ⟨hdb, rfl⟩
  | cons w ws ih =>
      obtain ⟨hwell, hledger⟩ := hdb.refines w
      obtain ⟨hwells, hledgers⟩ := ih hwell
      refine ⟨hwells, ?_⟩
      rw [StoreWrite.applyAll_cons, hledgers, hledger]
      rfl

end Refinement
end Db
end MalakethTurbo
