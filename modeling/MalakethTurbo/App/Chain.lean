import MalakethTurbo.App.Agreement
import MalakethTurbo.App.History
import MalakethTurbo.App.Execution
import MalakethTurbo.App.Handover
import MalakethTurbo.Logic.TotalOrder

/-!
# One chain

What the nodes of a network decide, height after height, is one chain of blocks.  The
network is a total-order broadcast: a node that settles a block is delivered the next block of
the chain, or adds it.

A commit of the current height settles the block data of its slot (`Along.exists_settled`),
if the slot holds a proposal; if it holds none, the commit does nothing.  That there is such
data is kept by every handler (`Ledger.Complete`), and that two nodes settle the same data at a
height follows from where the data comes from, as the agreement of the stores does
(`Network.Coherent.settled_unique`).  So the network simulates the broadcast
(`chain_simulates`), and its logs are first parts of one order.
-/

namespace MalakethTurbo

open Wire (Bytes)

/-! ## What a message settles -/

/-- The decided block data written among the effects. -/
def settledBlocks (es : List Effect) : List (Height × Bytes) :=
  (writes es).filterMap fun
    | .decidedBlockData height data => some (height, data)
    | _ => none

@[simp] theorem settledBlocks_append (es es' : List Effect) :
    settledBlocks (es ++ es') = settledBlocks es ++ settledBlocks es' := by
  rw [settledBlocks, writes_append, List.filterMap_append]
  rfl

/-- The blocks that are executed are those that are not empty. -/
theorem decidedBlocks_eq_filter (es : List Effect) :
    decidedBlocks es = (settledBlocks es).filter fun e => e.2 ≠ [] := by
  rw [decidedBlocks, settledBlocks]
  induction writes es with
  | nil => rfl
  | cons w ws ih =>
      cases w with
      | decidedBlockData height data =>
          rw [List.filterMap_cons, List.filterMap_cons, List.filter_cons]
          by_cases hdata : data = [] <;> simp [hdata, ih]
      | _ => simpa using ih

/-- Every proposal has block data beside it. -/
def Ledger.Complete (l : Ledger) : Prop :=
  ∀ k p, l.proposal k = some p → ∃ data, l.blockData k = some data

namespace Ledger.Complete

variable {l : Ledger}

theorem empty : Ledger.empty.Complete := fun _ _ h => absurd h (by simp [Ledger.empty])

/-- Only a new proposal can be without data. -/
theorem apply (h : l.Complete) {w : StoreWrite} (hw : ∀ p, w ≠ .undecidedProposal p) :
    (l.apply w).Complete := by
  intro k p hp
  cases w with
  | undecidedProposal q => exact absurd rfl (hw q)
  | undecidedBlockData height round data =>
      obtain ⟨data', hdata⟩ := h k p hp
      by_cases hk : k = ⟨height, round⟩
      · exact ⟨_, by rw [hk]; exact keepFirst_self _ _ _⟩
      · exact ⟨data', (keepFirst_of_ne _ _ hk).trans hdata⟩
  | decidedValue v =>
      rw [Ledger.apply] at hp ⊢
      split_ifs at hp ⊢ <;> exact h k p hp
  | decidedBlockData height data => exact h k p hp
  | prune retain =>
      obtain ⟨hretain, hp⟩ := Option.ite_none_left_eq_some.mp hp
      obtain ⟨data, hdata⟩ := h k p hp
      exact ⟨data, (if_neg hretain).trans hdata⟩

theorem applyAll (h : l.Complete) {ws : List StoreWrite}
    (hws : ∀ w ∈ ws, ∀ p, w ≠ .undecidedProposal p) : (l.applyAll ws).Complete := by
  induction ws generalizing l with
  | nil => exact h
  | cons w ws ih =>
      exact ih (h.apply (hws w List.mem_cons_self)) fun v hv => hws v (List.mem_cons_of_mem _ hv)

/-- A producer keeps both. -/
theorem keepWrites (h : l.Complete) {p : ProposedValue} (hround : p.round ≠ .nil)
    (data : Bytes) : (l.applyAll (State.keepWrites p p.height p.round data)).Complete := by
  rw [Ledger.applyAll_keepWrites l hround]
  intro k q hq
  by_cases hk : k = ⟨p.height, p.round⟩
  · exact ⟨_, by rw [hk]; exact keepFirst_self _ _ _⟩
  · obtain ⟨data', hdata⟩ := h k q ((keepFirst_of_ne _ _ hk).symm.trans hq)
    exact ⟨data', (keepFirst_of_ne _ _ hk).trans hdata⟩

end Ledger.Complete

section Node

variable [Crypto] [Prost] [Payload] {s : State} {msg : AppMsg}

/-- **Every handler keeps the data beside the proposals.** -/
theorem complete_handle (hdb : s.store.WellFormed) (h : s.store.ledger.Complete) :
    (handle msg s).state.store.ledger.Complete := by
  rw [(Framed.handle msg s).store, (hdb.refines_applyAll _).2]
  rcases handle_cases s msg with ⟨p, data, hover⟩ | ⟨c, rfl⟩ | hquiet
  · obtain ⟨reply, msgs, -, heffects⟩ := hover.handle_effects
    rw [heffects, writes_append, writes_map_write, writes_reply_cons, writes_map_publish,
      List.append_nil]
    exact h.keepWrites hover.round_ne_nil data
  · refine h.applyAll fun w hw p => ?_
    rcases (handle_decided (s := s) c).1 with ⟨q, -, -, hwrites⟩ | hnone
    · rw [hwrites, State.commitEffects, writes_write_cons] at hw
      rcases List.mem_cons.mp hw with rfl | hw
      · simp
      · rcases State.mem_writes_settleEffects hw with ⟨data, -, rfl⟩ | rfl <;> simp
    · rw [hnone] at hw
      exact absurd hw List.not_mem_nil
  · rw [hquiet.writes_eq]
    exact h

/-- A message that is no decision settles nothing. -/
theorem settledBlocks_handle (hmsg : ∀ c, msg ≠ .decided c) :
    settledBlocks (handle msg s).effects = [] := by
  rcases handle_cases s msg with ⟨p, data, hover⟩ | ⟨c, rfl⟩ | hquiet
  · obtain ⟨reply, msgs, -, heffects⟩ := hover.handle_effects
    rw [heffects, settledBlocks, writes_append, writes_map_write, writes_reply_cons,
      writes_map_publish]
    rfl
  · exact absurd rfl (hmsg c)
  · rw [settledBlocks, hquiet.writes_eq]
    rfl

/-- **A decision settles the block data of its slot.** -/
theorem settledBlocks_decided {c : CommitCertificate} {p : ProposedValue} {data : Bytes}
    (hslot : s.store.getUndecidedProposal c.height c.round = .ok (some p))
    (hround : c.round ≠ .nil) (hdata : s.store.getBlockData c.height c.round = some data) :
    settledBlocks (handle (.decided c) s).effects = [(c.height, data)] := by
  obtain ⟨tail, htail, heffects⟩ := handle_decided_of_slot hslot hround
  have hreply : settledBlocks tail = [] := by
    rcases htail with rfl | ⟨h, vs, rfl⟩ <;> rfl
  have hsettle : settledBlocks (s.blockDataEffects c) = [(c.height, data)] := by
    rw [State.blockDataEffects, hdata]
    dsimp only
    split_ifs <;> rfl
  have hcommit : settledBlocks (s.commitEffects c p) = settledBlocks (s.settleEffects c) := rfl
  rw [heffects, settledBlocks_append, hreply, List.append_nil, hcommit, State.settleEffects,
    settledBlocks_append, hsettle]
  rfl

/-- A message is of a height, unless it tells of a round or a decision of another one. -/
def AppMsg.OfHeight (height : Height) : AppMsg → Prop
  | startedRound h _ _ => h = height
  | decided c => c.height = height
  | _ => True

instance (height : Height) : DecidablePred (AppMsg.OfHeight height)
  | .startedRound h _ _ => inferInstanceAs (Decidable (h = height))
  | .decided c => inferInstanceAs (Decidable (c.height = height))
  | .consensusReady | .getValue .. | .receivedProposalPart .. | .getValidatorSet _
  | .processSyncedValue .. | .getDecidedValue _ | .getHistoryMinHeight | .restreamProposal
  | .extendVote | .verifyVoteExtension | .peerJoined _ | .peerLeft _ => .isTrue trivial

/-- A message that is no decision, and starts at most a round of the current height, leaves
the node at its height. -/
theorem currentHeight_handle (hof : msg.OfHeight s.currentHeight)
    (hmsg : ∀ c, msg ≠ .decided c) :
    (handle msg s).state.currentHeight = s.currentHeight := by
  rcases msg.notes_cases with ⟨height, round, proposer, rfl⟩ | ⟨height, round, rfl⟩ |
    ⟨c, rfl⟩ | hkeeps
  · exact hof
  · exact currentHeight_handle_getValue height round
  · exact absurd rfl (hmsg c)
  · exact (SameNotes.handle hkeeps s).currentHeight

/-- **A decision that does not fail** finds no proposal and does nothing, or it commits the
proposal in its slot. -/
theorem decided_cases {c : CommitCertificate} (hok : (handle (.decided c) s).result = .ok ()) :
    (settledBlocks (handle (.decided c) s).effects = [] ∧ (handle (.decided c) s).state = s) ∨
      ∃ p, s.store.getUndecidedProposal c.height c.round = .ok (some p) ∧ c.round ≠ .nil ∧
        s.currentHeight.asU64.toNat + 1 < 2 ^ 64 ∧
        (handle (.decided c) s).state = s.afterCommit c p := by
  rcases State.commit_cases s c with ⟨hnone, hstate⟩ | ⟨p, hslot, hround, -⟩
  · refine Or.inl ⟨?_, (handle_decided_state c).trans hstate⟩
    obtain ⟨tail, htail, heffects⟩ := handle_decided_effects (s := s) c
    rw [heffects, hnone, List.nil_append]
    rcases htail with rfl | ⟨h, vs, rfl⟩ <;> rfl
  · exact Or.inr ⟨p, hslot, hround, handle_decided_of_proposal hslot hround hok⟩

end Node

/-! ## Coherent networks -/

section Network

variable [Crypto] [Prost] [Payload] {ι : Type} {n : Network ι}

/-- No slot is proposed for twice, the identifiers of the proposed values do not collide, each
certificate names the value proposed for its slot, and the certificates of a height name one
value. -/
structure Network.Coherent (n : Network ι) : Prop where
  once : OnePerSlot n.made
  injective : ∀ e ∈ n.made, ∀ e' ∈ n.made,
    (Value.new e.data).id = (Value.new e'.data).id → e.data = e'.data
  proposal : ∀ c ∈ n.certificates, ∀ e ∈ n.made, e.height = c.height → e.round = c.round →
    c.valueId = (Value.new e.data).id
  same : ∀ c ∈ n.certificates, ∀ c' ∈ n.certificates, c.height = c'.height →
    c.valueId = c'.valueId

omit [Prost] [Payload] in
/-- **At a height one block is settled.** -/
theorem Network.Coherent.settled_unique (h : n.Coherent) {height : Height} {data data' : Bytes}
    (hdata : SettledAt n.made n.certificates height data)
    (hdata' : SettledAt n.made n.certificates height data') : data = data' := by
  obtain ⟨c, hc, hheight, e, he, heheight, heround, rfl⟩ := hdata
  obtain ⟨c', hc', hheight', e', he', heheight', heround', rfl⟩ := hdata'
  refine h.injective e he e' he' ?_
  rw [← h.proposal c hc e he (heheight.trans hheight.symm) heround,
    ← h.proposal c' hc' e' he' (heheight'.trans hheight'.symm) heround']
  exact h.same c hc c' hc' (hheight.trans hheight'.symm)

omit [Prost] [Payload] in
/-- A network with less behind it is coherent too. -/
theorem Network.Coherent.anti {n' : Network ι} (h : n.Coherent) (hmade : n'.made <+: n.made)
    (hcertificates : n'.certificates <+: n.certificates) : n'.Coherent where
  once := h.once.sublist hmade.sublist
  injective e he e' he' := h.injective e (hmade.subset he) e' (hmade.subset he')
  proposal c hc e he := h.proposal c (hcertificates.subset hc) e (hmade.subset he)
  same c hc c' hc' := h.same c (hcertificates.subset hc) c' (hcertificates.subset hc')

variable [DecidableEq ι] {config : ι → Config} {steps : List (Network ι × (ι × AppMsg))}

/-- The logs of a network only grow. -/
theorem Run.logs_isPrefix (h : Run (network config) steps n) :
    ∀ x ∈ steps, (x.1.deliver x.2.1 x.2.2).made <+: n.made ∧
      (x.1.deliver x.2.1 x.2.2).certificates <+: n.certificates := by
  refine h.history_along (G := fun _ _ => True) (P := fun steps n => ∀ x ∈ steps,
    (x.1.deliver x.2.1 x.2.2).made <+: n.made ∧
      (x.1.deliver x.2.1 x.2.2).certificates <+: n.certificates) ?_ ?_ fun _ _ => trivial
  · exact fun _ _ x hx => absurd hx List.not_mem_nil
  · rintro steps n ⟨i, msg⟩ n' hprev - ⟨-, rfl⟩ x hx
    rcases List.mem_append.mp hx with hx | hx
    · obtain ⟨hmade, hcertificates⟩ := hprev x hx
      exact ⟨hmade.trans (List.prefix_append _ _), hcertificates.trans (List.prefix_append _ _)⟩
    · rw [List.mem_singleton.mp hx]
      exact ⟨List.prefix_rfl, List.prefix_rfl⟩

/-! ## The chain -/

/-- Consensus and its node keep to their sides: the node is told of rounds and decisions of the
height it is at only, and no decision fails.  One that finds no proposal in its slot does not
fail. -/
def InStep (n : Network ι) (l : ι × AppMsg) : Prop :=
  l.2.OfHeight (n.nodes l.1).currentHeight ∧
    ∀ c, l.2 = .decided c → (handle l.2 (n.nodes l.1)).result = .ok ()

instance (n : Network ι) : DecidablePred (InStep n) := fun l =>
  decidable_of_iff (l.2.OfHeight (n.nodes l.1).currentHeight ∧
      ((certifiedBy l.2).isEmpty ∨ (handle l.2 (n.nodes l.1)).result = .ok ()))
    (and_congr_right fun _ => by
      rcases l with ⟨i, msg⟩
      cases msg <;> simp [certifiedBy])

/-- What a step settles, and where. -/
def settles (n : Network ι) (l : ι × AppMsg) : List (ι × (Height × Bytes)) :=
  (settledBlocks (handle l.2 (n.nodes l.1)).effects).map (l.1, ·)

/-- The nodes of a network are along a chain that begins at a height. -/
structure Along (start : Height) (n : Network ι) (b : Broadcast ι (Height × Bytes)) : Prop where
  honest : n.Honest
  complete : ∀ i, (n.nodes i).store.ledger.Complete
  current : ∀ i, (n.nodes i).currentHeight.asU64.toNat =
    start.asU64.toNat + (b.delivered i).length
  numbered : ∀ k e, b.order[k]? = some e → e.1.asU64.toNat = start.asU64.toNat + k
  settled : ∀ e ∈ b.order, SettledAt n.made n.certificates e.1 e.2
  delivered : ∀ i, b.delivered i <+: b.order

variable {start : Height} {b : Broadcast ι (Height × Bytes)} {i : ι} {msg : AppMsg}

/-- A message that leaves its node at its height leaves the nodes where they are. -/
theorem Along.quiet (h : Along start n b) (hdeliverable : n.Deliverable msg)
    (hcoherent : (n.deliver i msg).Coherent)
    (hheight : (handle msg (n.nodes i)).state.currentHeight = (n.nodes i).currentHeight) :
    Along start (n.deliver i msg) b where
  honest := h.honest.deliver hdeliverable hcoherent.once
  complete j := by
    show (Function.update n.nodes i _ j).store.ledger.Complete
    by_cases hj : j = i
    · rw [hj, Function.update_self]
      exact complete_handle (h.honest.nodes i).wellFormed (h.complete i)
    · rw [Function.update_of_ne hj]
      exact h.complete j
  current j := by
    show (Function.update n.nodes i _ j).currentHeight.asU64.toNat = _
    by_cases hj : j = i
    · rw [hj, Function.update_self, hheight]
      exact h.current i
    · rw [Function.update_of_ne hj]
      exact h.current j
  numbered := h.numbered
  settled e he := (h.settled e he).mono (List.subset_append_left _ _) (List.subset_append_left _ _)
  delivered := h.delivered

/-- **A decision on a proposal** settles one block, of the height the node is at, and takes the
node one height on. -/
theorem Along.exists_settled (h : Along start n b) {c : CommitCertificate}
    (hheight : c.height = (n.nodes i).currentHeight) {p : ProposedValue}
    (hslot : (n.nodes i).store.getUndecidedProposal c.height c.round = .ok (some p))
    (hround : c.round ≠ .nil) (hlt : (n.nodes i).currentHeight.asU64.toNat + 1 < 2 ^ 64)
    (hstate : (handle (.decided c) (n.nodes i)).state = (n.nodes i).afterCommit c p) :
    ∃ data, settledBlocks (handle (.decided c) (n.nodes i)).effects = [(c.height, data)] ∧
      SettledAt (n.deliver i (.decided c)).made (n.deliver i (.decided c)).certificates
        c.height data ∧
      c.height.asU64.toNat = start.asU64.toNat + (b.delivered i).length ∧
      (handle (.decided c) (n.nodes i)).state.currentHeight.asU64.toNat =
        start.asU64.toNat + (b.delivered i).length + 1 := by
  have hnode := h.honest.nodes i
  have hproposal : (n.nodes i).store.ledger.proposal ⟨c.height, c.round⟩ = some p := by
    rw [hnode.wellFormed.getUndecidedProposal_eq] at hslot
    exact Except.ok.inj hslot
  obtain ⟨data, hblock⟩ := h.complete i _ p hproposal
  have hdata : (n.nodes i).store.getBlockData c.height c.round = some data := by
    rw [Db.getBlockData_eq, Ledger.blockDataAt, hblock]
    rfl
  refine ⟨data, settledBlocks_decided hslot hround hdata, ?_, ?_, ?_⟩
  · refine ⟨c, List.mem_append_right _ List.mem_cons_self, rfl, ?_⟩
    exact (hnode.drawn.blockData _ _ hblock).mono (List.subset_append_left _ _) _ _
  · rw [hheight]
    exact h.current i
  · rw [hstate, State.currentHeight_afterCommit, UInt64.toNat_add, ← h.current i]
    exact Nat.mod_eq_of_lt hlt

/-- The chain after a decision of a node. -/
def Broadcast.extend (b : Broadcast ι (Height × Bytes)) (i : ι) (e : Height × Bytes) :
    Broadcast ι (Height × Bytes) where
  order := if (b.delivered i).length < b.order.length then b.order else b.order ++ [e]
  delivered := Function.update b.delivered i (b.delivered i ++ [e])

/-- What a node settles is the block that the chain has there, if it has one. -/
theorem Along.extend_step (h : Along start n b) (hcoherent : (n.deliver i msg).Coherent)
    {e : Height × Bytes}
    (hsettled : SettledAt (n.deliver i msg).made (n.deliver i msg).certificates e.1 e.2)
    (hheight : e.1.asU64.toNat = start.asU64.toNat + (b.delivered i).length) :
    (totalOrder ι (Height × Bytes)).step b (i, e) (b.extend i e) := by
  refine ⟨rfl, ?_⟩
  by_cases hlt : (b.delivered i).length < b.order.length
  · refine Or.inl ⟨if_pos hlt, ?_⟩
    have hat := List.getElem?_eq_getElem hlt
    have hsame : (b.order[(b.delivered i).length]).1 = e.1 :=
      Height.toNat_asU64_injective ((h.numbered _ _ hat).trans hheight.symm)
    have hthere := (h.settled _ (List.getElem_mem hlt)).mono
      (List.subset_append_left n.made (madeBy (n.nodes i) msg))
      (List.subset_append_left n.certificates (certifiedBy msg))
    rw [hsame] at hthere
    rw [hat]
    exact congrArg some (Prod.ext hsame (hcoherent.settled_unique hthere hsettled))
  · refine Or.inr ⟨if_neg hlt, ?_⟩
    exact le_antisymm (not_lt.mp hlt) (h.delivered i).length_le

/-- **A decision is a step along the chain.** -/
theorem Along.decide (h : Along start n b) (hcoherent : (n.deliver i msg).Coherent)
    (hdeliverable : n.Deliverable msg) {e : Height × Bytes}
    (hsettled : SettledAt (n.deliver i msg).made (n.deliver i msg).certificates e.1 e.2)
    (hheight : e.1.asU64.toNat = start.asU64.toNat + (b.delivered i).length)
    (hnext : (handle msg (n.nodes i)).state.currentHeight.asU64.toNat =
      start.asU64.toNat + (b.delivered i).length + 1) :
    Along start (n.deliver i msg) (b.extend i e) := by
  have hstep := h.extend_step hcoherent hsettled hheight
  have hlength := (h.delivered i).length_le
  refine ⟨h.honest.deliver hdeliverable hcoherent.once, fun j => ?_, fun j => ?_,
    fun k e' he' => ?_, fun e' he' => ?_, fun j => (Broadcast.step_spec hstep h.delivered j).2⟩
  · show (Function.update n.nodes i _ j).store.ledger.Complete
    by_cases hj : j = i
    · rw [hj, Function.update_self]
      exact complete_handle (h.honest.nodes i).wellFormed (h.complete i)
    · rw [Function.update_of_ne hj]
      exact h.complete j
  · show (Function.update n.nodes i _ j).currentHeight.asU64.toNat =
      _ + (Function.update b.delivered i _ j).length
    by_cases hj : j = i
    · rw [hj, Function.update_self, Function.update_self, List.length_append,
        List.length_singleton, hnext]
      omega
    · rw [Function.update_of_ne hj, Function.update_of_ne hj]
      exact h.current j
  · rcases hstep.2 with ⟨hsame, -⟩ | ⟨hlonger, hend⟩
    · rw [hsame] at he'
      exact h.numbered k e' he'
    · rw [hlonger, List.getElem?_append] at he'
      split_ifs at he' with hk
      · exact h.numbered k e' he'
      · obtain ⟨hzero, rfl⟩ := List.getElem?_eq_some_iff.mp he'
        have hlast : k - b.order.length < 1 := hzero
        have hend : b.order.length = (b.delivered i).length := hend
        rw [List.getElem_singleton, hheight]
        omega
  · have hold : ∀ e' ∈ b.order, SettledAt (n.deliver i msg).made
        (n.deliver i msg).certificates e'.1 e'.2 := fun e' he' =>
      (h.settled e' he').mono (List.subset_append_left _ _) (List.subset_append_left _ _)
    rcases hstep.2 with ⟨hsame, -⟩ | ⟨hlonger, -⟩
    · rw [hsame] at he'
      exact hold e' he'
    · rw [hlonger] at he'
      rcases List.mem_append.mp he' with he' | he'
      · exact hold e' he'
      · rw [List.mem_singleton.mp he']
        exact hsettled

/-- **The network simulates a total-order broadcast** of its blocks. -/
theorem chain_simulates (hstart : ∀ i, (config i).startHeight.getD default = start) :
    Simulates (network config) (totalOrder ι (Height × Bytes))
      (fun n l => (n.deliver l.1 l.2).Coherent ∧ InStep n l) settles (Along start) where
  init := by
    rintro n ⟨serverStarts, rfl⟩
    refine ⟨⟨[], fun _ => []⟩, ⟨rfl, fun _ => rfl⟩, ?_, fun i => Ledger.Complete.empty,
      fun i => ?_, fun k e he => ?_, fun e he => absurd he List.not_mem_nil,
      fun i => List.prefix_rfl⟩
    · exact ⟨fun e he => absurd he List.not_mem_nil, fun m hm => absurd hm List.not_mem_nil,
        fun i => Honest.new (config i) (serverStarts i)⟩
    · rw [List.length_nil, Nat.add_zero, ← hstart i]
      rfl
    · exact absurd he (by simp)
  step := by
    rintro n ⟨i, msg⟩ n' b h ⟨hcoherent, hin⟩ ⟨hdeliverable, rfl⟩
    by_cases hmsg : ∃ c, msg = .decided c
    · obtain ⟨c, rfl⟩ := hmsg
      rcases decided_cases (hin.2 c rfl) with ⟨hnone, hstate⟩ | ⟨p, hslot, hround, hlt, hstate⟩
      · refine ⟨b, ?_, h.quiet hdeliverable hcoherent (congrArg State.currentHeight hstate)⟩
        rw [settles, hnone]
        exact .nil b
      · obtain ⟨data, hsettles, hsettled, hheight, hnext⟩ :=
          h.exists_settled hin.1 hslot hround hlt hstate
        refine ⟨b.extend i (c.height, data), ?_,
          h.decide hcoherent hdeliverable hsettled hheight hnext⟩
        rw [settles, hsettles]
        exact .single (h.extend_step hcoherent hsettled hheight)
    · push Not at hmsg
      refine ⟨b, ?_, h.quiet hdeliverable hcoherent (currentHeight_handle hin.1 hmsg)⟩
      rw [settles, settledBlocks_handle hmsg]
      exact .nil b

/-- The blocks a node has settled, in order. -/
def settledBy (i : ι) (steps : List (Network ι × (ι × AppMsg))) : List (Height × Bytes) :=
  steps.flatMap fun x =>
    if x.2.1 = i then settledBlocks (handle x.2.2 (x.1.nodes i)).effects else []

theorem settledBy_concat (steps : List (Network ι × (ι × AppMsg))) (x : Network ι × (ι × AppMsg)) :
    settledBy i (steps ++ [x]) = settledBy i steps ++
      if x.2.1 = i then settledBlocks (handle x.2.2 (x.1.nodes i)).effects else [] := by
  rw [settledBy, settledBy, List.flatMap_append, List.flatMap_singleton]

theorem shownTo_settles (i : ι) (steps : List (Network ι × (ι × AppMsg))) :
    shownTo i (steps.flatMap fun x => settles x.1 x.2) = settledBy i steps := by
  induction steps with
  | nil => rfl
  | cons x steps ih =>
      rw [List.flatMap_cons, shownTo_append, ih, settledBy, settledBy, List.flatMap_cons]
      refine congrArg (· ++ _) ?_
      rw [settles, shownTo_map]
      by_cases hi : x.2.1 = i
      · rw [if_pos hi, if_pos hi, hi]
      · rw [if_neg hi, if_neg hi]

/-- One order of blocks, from a height on, of which every node has settled a first part. -/
structure OneOrder (start : Height) (steps : List (Network ι × (ι × AppMsg))) (n : Network ι)
    (order : List (Height × Bytes)) : Prop where
  numbered : ∀ k e, order[k]? = some e → e.1.asU64.toNat = start.asU64.toNat + k
  proposed : ∀ e ∈ order, ∃ m ∈ n.made, m.height = e.1 ∧ m.data = e.2
  settled : ∀ i, settledBy i steps <+: order
  current : ∀ i, (n.nodes i).currentHeight.asU64.toNat =
    start.asU64.toNat + (settledBy i steps).length

omit [Crypto] [Prost] [Payload] [DecidableEq ι] in
/-- Blocks numbered from a height on come in the order of their heights. -/
theorem pairwise_of_numbered {order : List (Height × Bytes)}
    (h : ∀ k e, order[k]? = some e → e.1.asU64.toNat = start.asU64.toNat + k) :
    order.Pairwise fun e e' => e.1 < e'.1 := by
  refine List.pairwise_iff_getElem.mpr fun k k' hk hk' hlt => ?_
  rw [Height.lt_iff, h k _ (List.getElem?_eq_getElem hk), h k' _ (List.getElem?_eq_getElem hk')]
  omega

/-- The order in which the blocks were broadcast. -/
theorem Run.exists_oneOrder (hrun : Run (network config) steps n) (hcoherent : n.Coherent)
    (hstart : ∀ i, (config i).startHeight.getD default = start)
    (hin : ∀ x ∈ steps, InStep x.1 x.2) : ∃ order, OneOrder start steps n order := by
  have hlogs := hrun.logs_isPrefix
  obtain ⟨b₀, b, hb₀, hpath, halong⟩ := hrun.simulated (chain_simulates hstart) fun x hx =>
    ⟨hcoherent.anti (hlogs x hx).1 (hlogs x hx).2, hin x hx⟩
  have hdelivered : ∀ i, b.delivered i = settledBy i steps ∧ b.delivered i <+: b.order := by
    intro i
    rw [← shownTo_settles]
    exact hpath.delivered hb₀ i
  refine ⟨b.order, halong.numbered, fun e he => ?_, fun i => ?_, fun i => ?_⟩
  · obtain ⟨c, -, -, m, hm, hheight, -, hdata⟩ := halong.settled e he
    exact ⟨m, hm, hheight, hdata⟩
  · obtain ⟨heq, hfirst⟩ := hdelivered i
    exact heq ▸ hfirst
  · rw [← (hdelivered i).1]
    exact halong.current i

/-- **One chain.**  In a coherent run of nodes that begin at one height, in which a node is told
of rounds and decisions of the height it is at only and no decision fails, there is one order of
blocks, one for each height from the beginning on and each of them proposed for its height.
Every node has settled a first part of it, as long as the height it has come to says.  A
decision whose slot holds no proposal settles nothing, and its node stays where it is. -/
theorem decided_in_one_order (hrun : Run (network config) steps n) (hcoherent : n.Coherent)
    (hstart : ∀ i, (config i).startHeight.getD default = start)
    (hin : ∀ x ∈ steps, InStep x.1 x.2) :
    ∃ order : List (Height × Bytes),
      (∀ k e, order[k]? = some e → e.1.asU64.toNat = start.asU64.toNat + k ∧
        ∃ m ∈ n.made, m.height = e.1 ∧ m.data = e.2) ∧
      ∀ i, settledBy i steps <+: order ∧
        (n.nodes i).currentHeight.asU64.toNat =
          start.asU64.toNat + (settledBy i steps).length := by
  obtain ⟨order, h⟩ := hrun.exists_oneOrder hcoherent hstart hin
  refine ⟨order, fun k e he => ⟨h.numbered k e he, ?_⟩, fun i => ⟨h.settled i, h.current i⟩⟩
  exact h.proposed e (List.mem_of_getElem? he)

/-- The steps that deliver messages one after the other. -/
def Network.deliveries (n : Network ι) : List (ι × AppMsg) → List (Network ι × (ι × AppMsg))
  | [] => []
  | x :: msgs => (n, x) :: (n.deliver x.1 x.2).deliveries msgs

theorem Run.deliverInTurn (h : Run (network config) steps n) (msgs : List (ι × AppMsg))
    (hok : n.allDeliverable msgs = true) :
    Run (network config) (steps ++ n.deliveries msgs) (n.deliverAll msgs) := by
  induction msgs generalizing n steps with
  | nil =>
      rw [Network.deliveries, List.append_nil]
      exact h
  | cons x msgs ih =>
      obtain ⟨hfirst, hrest⟩ := Bool.and_eq_true_iff.mp hok
      have hstep : (network config).step n x (n.deliver x.1 x.2) :=
        ⟨of_decide_eq_true hfirst, rfl⟩
      rw [Network.deliveries, List.append_cons]
      exact ih (h.next hstep) hrest

end Network

section Demo

attribute [local instance] demoCrypto Prost.reference demoPayload

theorem demoNetwork_coherent : (demoNetwork.deliverAll demoDeliveries).Coherent :=
  ⟨by decide +kernel, by decide +kernel, by decide +kernel, by decide +kernel⟩

theorem decided_in_one_order_demo :
    ∃ order, ∀ i, settledBy i (demoNetwork.deliveries demoDeliveries) <+: order ∧
      ((demoNetwork.deliverAll demoDeliveries).nodes i).currentHeight.asU64.toNat =
        1 + (settledBy i (demoNetwork.deliveries demoDeliveries)).length := by
  have hstart : Run (network demoConfigs) [] demoNetwork := .start ⟨fun _ => true, rfl⟩
  have hrun := hstart.deliverInTurn demoDeliveries (by decide +kernel)
  have hstarts : ∀ i, (demoConfigs i).startHeight.getD default = ⟨1⟩ := by decide
  obtain ⟨order, -, hall⟩ := decided_in_one_order hrun demoNetwork_coherent hstarts
    (by decide +kernel)
  exact ⟨order, hall⟩

end Demo
end MalakethTurbo
