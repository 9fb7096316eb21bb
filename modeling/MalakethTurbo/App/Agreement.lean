import MalakethTurbo.App.Network

/-!
# Stores agree

Nodes that are handed honest proposals and certificates that fit them store the same
decisions.  What a ledger holds is drawn from the proposals that have been made: every
slot holds what was proposed for it, and every height holds, as its decision and as its
block data, what was proposed for the slot of some certificate of that height.  This is
kept by every transaction that a handler performs, so it holds of every node at every
moment; that the certificates of a height agree then makes the decisions agree.
-/

namespace MalakethTurbo

open Wire (Bytes)

/-! ## Where the contents of a ledger come from -/

section Drawn

variable [Crypto]

/-- A ledger holds data made for its slots and data settled for its heights. -/
structure Ledger.DrawnFrom (made : UndecidedValueKey → Bytes → Prop)
    (settled : Height → Bytes → Prop) (l : Ledger) : Prop where
  proposal : ∀ k p, l.proposal k = some p → ∃ data, made k data ∧ p.value = Value.new data
  blockData : ∀ k data, l.blockData k = some data → made k data
  decided : ∀ h v, l.decided h = some v → ∃ data, settled h data ∧ v.value = Value.new data
  decidedData : ∀ h data, l.decidedData h = some data → settled h data

/-- A transaction writes such data only. -/
def StoreWrite.DrawnFrom (made : UndecidedValueKey → Bytes → Prop)
    (settled : Height → Bytes → Prop) : StoreWrite → Prop
  | .undecidedProposal p => ∃ data, made ⟨p.height, p.round⟩ data ∧ p.value = Value.new data
  | .undecidedBlockData h r data => made ⟨h, r⟩ data
  | .decidedValue v => ∃ data, settled v.certificate.height data ∧ v.value = Value.new data
  | .decidedBlockData h data => settled h data
  | .prune _ => True

variable {made made' : UndecidedValueKey → Bytes → Prop} {settled settled' : Height → Bytes → Prop}
  {l : Ledger}

namespace Ledger.DrawnFrom

theorem empty : Ledger.DrawnFrom made settled Ledger.empty where
  proposal _ _ h := absurd h (by simp [Ledger.empty])
  blockData _ _ h := absurd h (by simp [Ledger.empty])
  decided _ _ h := absurd h (by simp [Ledger.empty])
  decidedData _ _ h := absurd h (by simp [Ledger.empty])

theorem mono (hmade : ∀ k data, made k data → made' k data)
    (hsettled : ∀ h data, settled h data → settled' h data)
    (hl : Ledger.DrawnFrom made settled l) : Ledger.DrawnFrom made' settled' l where
  proposal k p h := by
    obtain ⟨data, hdata, hp⟩ := hl.proposal k p h
    exact ⟨data, hmade k data hdata, hp⟩
  blockData k data h := hmade k data (hl.blockData k data h)
  decided h v hv := by
    obtain ⟨data, hdata, hvalue⟩ := hl.decided h v hv
    exact ⟨data, hsettled h data hdata, hvalue⟩
  decidedData h data hdata := hsettled h data (hl.decidedData h data hdata)

/-- **A transaction keeps a ledger drawn** from what it is drawn from itself. -/
theorem apply (hl : Ledger.DrawnFrom made settled l) {w : StoreWrite}
    (hw : w.DrawnFrom made settled) : Ledger.DrawnFrom made settled (l.apply w) where
  proposal k p h := by
    rcases Ledger.proposal_of_apply h with hold | ⟨rfl, rfl⟩
    · exact hl.proposal k p hold
    · exact hw
  blockData k data h := by
    rcases Ledger.blockData_of_apply h with hold | rfl
    · exact hl.blockData k data hold
    · exact hw
  decided h v hv := by
    rcases Ledger.decided_of_apply hv with hold | ⟨rfl, rfl⟩
    · exact hl.decided h v hold
    · exact hw
  decidedData h data hdata := by
    rcases Ledger.decidedData_of_apply hdata with hold | rfl
    · exact hl.decidedData h data hold
    · exact hw

theorem applyAll {ws : List StoreWrite} (hl : Ledger.DrawnFrom made settled l)
    (hws : ∀ w ∈ ws, w.DrawnFrom made settled) :
    Ledger.DrawnFrom made settled (l.applyAll ws) := by
  induction ws generalizing l with
  | nil => exact hl
  | cons w ws ih =>
      exact ih (hl.apply (hws w List.mem_cons_self)) fun w' hw' =>
        hws w' (List.mem_cons_of_mem _ hw')

/-- The block data of a slot is made for it or settled for its height. -/
theorem blockDataAt (hl : Ledger.DrawnFrom made settled l) {h : Height} {r : Round}
    {data : Bytes} (hdata : l.blockDataAt h r = some data) :
    made ⟨h, r⟩ data ∨ settled h data := by
  rcases Option.or_eq_some_iff.mp hdata with hdata | ⟨-, hdata⟩
  · exact Or.inl (hl.blockData _ _ hdata)
  · exact Or.inr (hl.decidedData _ _ hdata)

end Ledger.DrawnFrom

end Drawn

/-! ## One node -/

section Node

variable [Crypto] [Prost] [Payload]

/-- Data has been proposed for a slot. -/
def MadeFor (made : List Made) (k : UndecidedValueKey) (data : Bytes) : Prop :=
  ∃ e ∈ made, e.height = k.height ∧ e.round = k.round ∧ e.data = data

/-- Data has been proposed for the slot of a certificate of a height. -/
def SettledAt (made : List Made) (certificates : List CommitCertificate) (h : Height)
    (data : Bytes) : Prop :=
  ∃ c ∈ certificates, c.height = h ∧ MadeFor made ⟨h, c.round⟩ data

/-- What holds of every node at every moment. -/
structure Honest (made : List Made) (certificates : List CommitCertificate) (s : State) :
    Prop where
  wellFormed : s.store.WellFormed
  drawn : s.store.ledger.DrawnFrom (MadeFor made) (SettledAt made certificates)
  follows : ∀ key, Follows made key.streamId (s.streamsMap.entry key)

variable {made : List Made} {certificates : List CommitCertificate} {s : State} {msg : AppMsg}

omit [Crypto] [Prost] [Payload] in
theorem MadeFor.mono {made' : List Made} (hsub : made ⊆ made') (k : UndecidedValueKey)
    (data : Bytes) (h : MadeFor made k data) : MadeFor made' k data := by
  obtain ⟨e, he, hslot⟩ := h
  exact ⟨e, hsub he, hslot⟩

omit [Crypto] [Prost] [Payload] in
theorem SettledAt.mono {made' : List Made} {certificates' : List CommitCertificate}
    (hsub : made ⊆ made') (hcsub : certificates ⊆ certificates') (h : Height) (data : Bytes)
    (hs : SettledAt made certificates h data) : SettledAt made' certificates' h data := by
  obtain ⟨c, hc, hheight, hmade⟩ := hs
  exact ⟨c, hcsub hc, hheight, hmade.mono hsub _ _⟩

omit [Payload] in
theorem Honest.mono {made' : List Made} {certificates' : List CommitCertificate}
    (hsub : made ⊆ made') (hcsub : certificates ⊆ certificates')
    (h : Honest made certificates s) : Honest made' certificates' s where
  wellFormed := h.wellFormed
  drawn := h.drawn.mono (MadeFor.mono hsub) (SettledAt.mono hsub hcsub)
  follows key := (h.follows key).mono hsub

/-- A proposal that is handed over has been made. -/
theorem Honest.madeFor_of_handsOver (honce : OnePerSlot (made ++ madeBy s msg))
    (hstreamed : ∀ e ∈ made, e.Streamed) (h : Honest made certificates s)
    (hmsg : Published made msg) {p : ProposedValue} {data : Bytes}
    (hover : HandsOver s msg p data) :
    MadeFor (made ++ madeBy s msg) ⟨p.height, p.round⟩ data := by
  cases msg with
  | getValue height round =>
      obtain ⟨hheight, hround, hmade⟩ := madeBy_of_handsOver hover
      rw [hmade]
      exact ⟨_, List.mem_append_right _ List.mem_cons_self, hheight.symm, hround.symm, rfl⟩
  | receivedProposalPart peer part =>
      have honce' : OnePerSlot made := (List.pairwise_append.mp honce).1
      obtain ⟨e, he, hslot⟩ := made_of_handsOver honce' hstreamed h.follows hmsg hover
      exact ⟨e, List.mem_append_left _ he, hslot⟩
  | _ => nomatch hover

omit [Payload] in
/-- What a commit writes is settled by its certificate. -/
theorem Honest.drawn_of_commit (h : Honest made certificates s) {c : CommitCertificate}
    (hc : c ∈ certificates) {p : ProposedValue}
    (hslot : s.store.getUndecidedProposal c.height c.round = .ok (some p)) {w : StoreWrite}
    (hw : w ∈ writes (s.commitEffects c p)) :
    w.DrawnFrom (MadeFor made) (SettledAt made certificates) := by
  have hproposal : s.store.ledger.proposal ⟨c.height, c.round⟩ = some p := by
    rw [h.wellFormed.getUndecidedProposal_eq] at hslot
    exact Except.ok.inj hslot
  have hsettled : ∀ data, MadeFor made ⟨c.height, c.round⟩ data →
      SettledAt made certificates c.height data := fun data hdata => ⟨c, hc, rfl, hdata⟩
  rw [State.commitEffects, writes_write_cons] at hw
  rcases List.mem_cons.mp hw with rfl | hw
  · obtain ⟨data, hdata, hvalue⟩ := h.drawn.proposal _ p hproposal
    exact ⟨data, hsettled data hdata, hvalue⟩
  · rcases State.mem_writes_settleEffects hw with ⟨data, hdata, rfl⟩ | rfl
    · rw [Db.getBlockData_eq] at hdata
      rcases h.drawn.blockDataAt hdata with hmade | hold
      · exact hsettled data hmade
      · exact hold
    · trivial

/-- **Every transaction of an honest network** writes what has been made or settled. -/
theorem Honest.drawn_of_mem_writes (honce : OnePerSlot (made ++ madeBy s msg))
    (hstreamed : ∀ e ∈ made, e.Streamed) (h : Honest made certificates s)
    (hmsg : Published made msg) {w : StoreWrite} (hw : w ∈ writes (handle msg s).effects) :
    w.DrawnFrom (MadeFor (made ++ madeBy s msg))
      (SettledAt (made ++ madeBy s msg) (certificates ++ certifiedBy msg)) := by
  rcases handle_cases s msg with ⟨p, data, hover⟩ | ⟨c, rfl⟩ | hquiet
  · have hmade := h.madeFor_of_handsOver honce hstreamed hmsg hover
    obtain ⟨reply, msgs, -, heffects⟩ := hover.handle_effects
    rw [heffects, writes_append, writes_map_write, writes_reply_cons, writes_map_publish,
      List.append_nil] at hw
    rcases List.mem_pair.mp hw with rfl | rfl
    · exact ⟨data, hmade, hover.value_eq⟩
    · exact hmade
  · rcases (handle_decided (s := s) c).1 with ⟨p, hslot, -, hwrites⟩ | hnone
    · have hlater := h.mono (List.subset_append_left made (madeBy s (.decided c)))
        (List.subset_append_left certificates (certifiedBy (.decided c)))
      rw [hwrites] at hw
      exact hlater.drawn_of_commit (List.mem_append_right _ List.mem_cons_self) hslot hw
    · rw [hnone] at hw
      exact absurd hw List.not_mem_nil
  · rw [hquiet.writes_eq] at hw
    exact absurd hw List.not_mem_nil

/-- **A node of an honest network stays honest** with every message it handles. -/
theorem Honest.next (honce : OnePerSlot (made ++ madeBy s msg))
    (hstreamed : ∀ e ∈ made, e.Streamed) (h : Honest made certificates s)
    (hmsg : Published made msg) :
    Honest (made ++ madeBy s msg) (certificates ++ certifiedBy msg) (handle msg s).state := by
  have hlater := h.mono (List.subset_append_left made (madeBy s msg))
    (List.subset_append_left certificates (certifiedBy msg))
  obtain ⟨hwell, hledger⟩ := h.wellFormed.refines_applyAll (writes (handle msg s).effects)
  have hstore := (Framed.handle msg s).store
  refine ⟨by rw [hstore]; exact hwell, ?_, fun key => ?_⟩
  · rw [hstore, hledger]
    exact hlater.drawn.applyAll fun w hw => h.drawn_of_mem_writes honce hstreamed hmsg hw
  · have honce' : OnePerSlot made := (List.pairwise_append.mp honce).1
    exact (follows_handle honce' hstreamed h.follows hmsg key).mono
      (List.subset_append_left made (madeBy s msg))

omit [Payload] in
theorem Honest.new (config : Config) (serverStarts : Bool) :
    Honest [] [] (State.new config Db.empty serverStarts) where
  wellFormed := Db.WellFormed.empty
  drawn := Ledger.DrawnFrom.empty
  follows _ := Or.inl rfl

end Node

/-! ## All nodes -/

section Agreement

variable [Crypto] [Prost] [Payload] {ι : Type} [DecidableEq ι] {config : ι → Config}
  {steps : List (Network ι × (ι × AppMsg))} {n : Network ι}

/-- What holds of a network at every moment. -/
structure Network.Honest (n : Network ι) : Prop where
  streamed : ∀ e ∈ n.made, e.Streamed
  published : ∀ m ∈ n.inFlight, ∃ e ∈ n.made, m ∈ e.stream
  nodes : ∀ i, MalakethTurbo.Honest n.made n.certificates (n.nodes i)

/-- A message keeps a network honest as long as no slot is proposed for twice. -/
theorem Network.Honest.deliver {i : ι} {msg : AppMsg} (h : n.Honest)
    (hdeliverable : n.Deliverable msg) (honce : OnePerSlot (n.deliver i msg).made) :
    (n.deliver i msg).Honest := by
  have hmsg : Published n.made msg := by
    cases msg with
    | receivedProposalPart peer part => exact h.published part hdeliverable
    | _ => trivial
  refine ⟨fun e he => ?_, fun m hm => ?_, fun j => ?_⟩
  · rcases List.mem_append.mp he with he | he
    · exact h.streamed e he
    · rcases madeBy_cases (n.nodes i) msg with ⟨hnone, -⟩ | ⟨e', hmade, -, hstreamed, -⟩
      · rw [hnone] at he
        exact absurd he List.not_mem_nil
      · rw [hmade] at he
        rw [List.mem_singleton.mp he]
        exact hstreamed
  · rcases List.mem_append.mp hm with hm | hm
    · obtain ⟨e, he, hme⟩ := h.published m hm
      exact ⟨e, List.mem_append_left _ he, hme⟩
    · rcases madeBy_cases (n.nodes i) msg with ⟨-, hnone⟩ | ⟨e, hmade, hpublished, -⟩
      · rw [hnone] at hm
        exact absurd hm List.not_mem_nil
      · rw [hpublished] at hm
        refine ⟨e, List.mem_append_right _ ?_, hm⟩
        rw [hmade]
        exact List.mem_cons_self
  · show MalakethTurbo.Honest _ _ (Function.update n.nodes i _ j)
    by_cases hj : j = i
    · rw [hj, Function.update_self]
      exact (h.nodes i).next honce h.streamed hmsg
    · rw [Function.update_of_ne hj]
      exact (h.nodes j).mono (List.subset_append_left _ _) (List.subset_append_left _ _)

/-- **Honesty of a whole run.** -/
theorem Run.honest (h : Run (network config) steps n) (honce : OnePerSlot n.made) :
    n.Honest := by
  refine h.invariant (P := fun n => OnePerSlot n.made → n.Honest) ?_ ?_ honce
  · rintro n ⟨serverStarts, rfl⟩ -
    exact ⟨fun e he => absurd he List.not_mem_nil, fun m hm => absurd hm List.not_mem_nil,
      fun i => Honest.new (config i) (serverStarts i)⟩
  · rintro n ⟨i, msg⟩ n' hprev ⟨hdeliverable, rfl⟩ honce
    have honce' : OnePerSlot n.made := (List.pairwise_append.mp honce).1
    exact (hprev honce').deliver hdeliverable honce

/-- **Store agreement.**  In a run of any nodes, each started on an empty store, in which
no slot is proposed for twice, the identifiers of the proposed values do not collide, each
certificate names the value proposed for its slot and the certificates of a height name
one value, any two nodes that have recorded a decision at a height have recorded the same
value and the same block data, and both are the bytes that a proposer proposed. -/
theorem decided_stores_agree (hrun : Run (network config) steps n) (honce : OnePerSlot n.made)
    (hcollision : ∀ e ∈ n.made, ∀ e' ∈ n.made,
      (Value.new e.data).id = (Value.new e'.data).id → e.data = e'.data)
    (hproposal : ∀ c ∈ n.certificates, ∀ e ∈ n.made, e.height = c.height → e.round = c.round →
      c.valueId = (Value.new e.data).id)
    (hsame : ∀ c ∈ n.certificates, ∀ c' ∈ n.certificates, c.height = c'.height →
      c.valueId = c'.valueId)
    {i j : ι} {h : Height} {v v' : DecidedValue}
    (hi : (n.nodes i).store.getDecidedValue h = some v)
    (hj : (n.nodes j).store.getDecidedValue h = some v') :
    v.value = v'.value ∧
      (∀ b b', (n.nodes i).store.decidedBlockData.get? h = some b →
        (n.nodes j).store.decidedBlockData.get? h = some b' → b = b') ∧
      ∃ e ∈ n.made, e.height = h ∧ v.value = Value.new e.data ∧
        (∀ b, (n.nodes i).store.decidedBlockData.get? h = some b → b = e.data) ∧
        ∀ b, (n.nodes j).store.decidedBlockData.get? h = some b → b = e.data := by
  have hhonest := hrun.honest honce
  -- whatever is settled at the height is the data of one proposal
  have hunique : ∀ {data data' : Bytes}, SettledAt n.made n.certificates h data →
      SettledAt n.made n.certificates h data' → data = data' := by
    rintro data data' ⟨c, hc, hheight, e, he, heheight, heround, rfl⟩
      ⟨c', hc', hheight', e', he', heheight', heround', rfl⟩
    refine hcollision e he e' he' ?_
    rw [← hproposal c hc e he (heheight.trans hheight.symm) heround,
      ← hproposal c' hc' e' he' (heheight'.trans hheight'.symm) heround']
    exact hsame c hc c' hc' (hheight.trans hheight'.symm)
  obtain ⟨data, hdata, hvalue⟩ := (hhonest.nodes i).drawn.decided h v hi
  obtain ⟨data', hdata', hvalue'⟩ := (hhonest.nodes j).drawn.decided h v' hj
  obtain ⟨c, hc, hheight, e, he, heheight, heround, rfl⟩ := id hdata
  have hi' := fun b hb => hunique ((hhonest.nodes i).drawn.decidedData h b hb) hdata
  have hj' := fun b hb => hunique ((hhonest.nodes j).drawn.decidedData h b hb) hdata
  refine ⟨?_, fun b b' hb hb' => ?_, e, he, heheight, hvalue, hi', hj'⟩
  · rw [hvalue, hvalue', hunique hdata' hdata]
  · rw [hi' b hb, hj' b' hb']

/-! ## A run of two nodes -/

/-- The network after messages that are delivered one after the other. -/
def Network.deliverAll (n : Network ι) (msgs : List (ι × AppMsg)) : Network ι :=
  msgs.foldl (fun n x => n.deliver x.1 x.2) n

/-- Every message can be delivered when its turn comes. -/
def Network.allDeliverable (n : Network ι) : List (ι × AppMsg) → Bool
  | [] => true
  | x :: msgs => decide (n.Deliverable x.2) && (n.deliver x.1 x.2).allDeliverable msgs

theorem Run.deliverAll (h : Run (network config) steps n) (msgs : List (ι × AppMsg))
    (hok : n.allDeliverable msgs = true) :
    ∃ steps', Run (network config) steps' (n.deliverAll msgs) := by
  induction msgs generalizing n steps with
  | nil => exact ⟨steps, h⟩
  | cons x msgs ih =>
      obtain ⟨hfirst, hrest⟩ := Bool.and_eq_true_iff.mp hok
      have hstep : (network config).step n x (n.deliver x.1 x.2) :=
        ⟨of_decide_eq_true hfirst, rfl⟩
      exact ih (h.next hstep) hrest

end Agreement

section Demo

attribute [local instance] demoCrypto Prost.reference demoPayload

/-- The two nodes. -/
def demoFirst : Fin 2 := 0

def demoSecond : Fin 2 := 1

/-- A demo node with a block to propose, and one without. -/
def demoConfigs (i : Fin 2) : Config := if i = 0 then demoConfig 1 [7] else demoConfig 2 []

/-- The two nodes before anything has happened. -/
def demoNetwork : Network (Fin 2) where
  nodes i := State.new (demoConfigs i) Db.empty true
  inFlight := []
  made := []
  certificates := []

/-- The first node proposes, the second gets the stream last message first and every
message twice, and both are told of the decision. -/
def demoDeliveries : List (Fin 2 × AppMsg) :=
  (0, .getValue ⟨1⟩ (.some 0)) ::
    ((demoArrivals 1 7).reverse ++ demoArrivals 1 7).map (fun msg => (1, msg)) ++
    [(1, .decided (demoCertificate 7)), (0, .decided (demoCertificate 7))]

theorem decided_stores_agree_demo :
    ∃ v v', ((demoNetwork.deliverAll demoDeliveries).nodes 0).store.getDecidedValue ⟨1⟩ = some v ∧
      ((demoNetwork.deliverAll demoDeliveries).nodes 1).store.getDecidedValue ⟨1⟩ = some v' ∧
      v.value = v'.value := by
  have hstart : Run (network demoConfigs) [] demoNetwork := .start ⟨fun _ => true, rfl⟩
  obtain ⟨steps, hrun⟩ := hstart.deliverAll demoDeliveries (by decide +kernel)
  have hi : ((demoNetwork.deliverAll demoDeliveries).nodes 0).store.getDecidedValue ⟨1⟩ =
      some ⟨Value.new [7], demoCertificate 7⟩ := by decide +kernel
  have hj : ((demoNetwork.deliverAll demoDeliveries).nodes 1).store.getDecidedValue ⟨1⟩ =
      some ⟨Value.new [7], demoCertificate 7⟩ := by decide +kernel
  exact ⟨_, _, hi, hj, (decided_stores_agree hrun (by decide +kernel) (by decide +kernel)
    (by decide +kernel) (by decide +kernel) hi hj).1⟩

end Demo

end MalakethTurbo
