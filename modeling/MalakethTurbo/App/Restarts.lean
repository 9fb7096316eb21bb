import MalakethTurbo.App.Numbers

/-!
# A network whose nodes die

The nodes of a network, each of which may die anywhere in its handlers and is started again
on the store that it has left.  What a handler has published before it dies stays in flight;
what a node has noted down for itself, the streams that it follows among it, is lost.

By itself each node lives as `node` says (`Run.nodeRun`), and where nobody dies all of them run
as `network` says (`Run.restartingRun`).  A node that dies has got through a first part of what
its handler does, so what it has in its store is still drawn from the proposals and the
certificates (`Honest.live`), and so there is one chain that no node is off at any time: what is
recorded, executed and served at a height is one block, the one that has been proposed for it
(`one_chain_through_restarts`).
-/

namespace MalakethTurbo

open Wire (Bytes)

/-! ## The network -/

section Step

variable [Crypto] [Prost] [Payload]

namespace Event

/-- The state that a step leaves. -/
def stateAfter (config : Config) (s : State) (e : Event) : State :=
  match e with
  | deliver msg => (handle msg s).state
  | restart _ _ serverStarts => State.new config (e.storeAfter s) serverStarts

/-- The proposal that is made in a step.  A node that dies before anything is kept of it has
made none. -/
def made (s : State) : Event → List Made
  | deliver msg => madeBy s msg
  | restart msg n _ => if n = 0 then [] else madeBy s msg

variable {config : Config} {s : State} {e : Event}

theorem made_of_passes (h : e.Passes 0) : e.made s = madeBy s e.msg := by
  cases e with
  | deliver msg => rfl
  | restart msg n serverStarts => exact if_neg (Nat.pos_iff_ne_zero.mp h)

theorem made_cases (s : State) (e : Event) : e.made s = [] ∨ e.made s = madeBy s e.msg := by
  cases e with
  | deliver msg => exact Or.inr rfl
  | restart msg n serverStarts => exact ite_eq_or_eq _ _ _

/-- Whatever is looked for among the effects, a step shows it only if the handler does, and if
it gets past the first effect. -/
theorem mem_of_performed {β : Type} {f : Effect → Option β} {b : β}
    (h : b ∈ (e.performed s).filterMap f) :
    e.Passes 0 ∧ b ∈ (handle e.msg s).effects.filterMap f := by
  obtain ⟨effect, hmem, hb⟩ := List.mem_filterMap.mp h
  exact ⟨passes_of_mem_performed hmem,
    List.mem_filterMap.mpr ⟨effect, (performed_isPrefix s e).subset hmem, hb⟩⟩

end Event

variable {ι : Type} [DecidableEq ι]

/-- A node takes a step of its life. -/
def Network.live (config : ι → Config) (n : Network ι) (i : ι) (e : Event) : Network ι where
  nodes := Function.update n.nodes i (e.stateAfter (config i) (n.nodes i))
  inFlight := n.inFlight ++ published (e.performed (n.nodes i))
  made := n.made ++ e.made (n.nodes i)
  certificates := n.certificates ++ certifiedBy e.msg

/-- The network of nodes with the given configurations, which may die and start again. -/
def restartingNetwork (config : ι → Config) : System (Network ι) (ι × Event) where
  init n := (network config).init n
  step n l n' := n.Deliverable l.2.msg ∧
    (node (config l.1)).step (n.nodes l.1) l.2 (l.2.stateAfter (config l.1) (n.nodes l.1)) ∧
    n' = n.live config l.1 l.2

/-! ## The nodes one by one -/

variable {config : ι → Config} {steps : List (Network ι × (ι × Event))} {n : Network ι}

/-- The steps that a node takes, in a list of steps of all. -/
def lifeOf (i : ι) (steps : List (Network ι × (ι × Event))) : List (State × Event) :=
  steps.filterMap fun x => (if x.2.1 = i then some x.2.2 else none).map (x.1.nodes i, ·)

/-- **Each node lives as a node by itself does**, whatever the others do. -/
theorem Run.nodeRun (h : Run (restartingNetwork config) steps n) (i : ι) :
    Run (node (config i)) (lifeOf i steps) (n.nodes i) := by
  refine h.project (fun n => n.nodes i) (fun l => if l.1 = i then some l.2 else none) ?_ ?_
  · rintro n ⟨serverStarts, rfl⟩
    exact ⟨serverStarts i, rfl⟩
  · rintro n ⟨j, e⟩ n' ⟨-, hstep, rfl⟩
    by_cases hj : j = i
    · subst hj
      refine Or.inl ⟨e, if_pos rfl, ?_⟩
      show (node (config j)).step _ e (Function.update n.nodes j _ j)
      rw [Function.update_self]
      exact hstep
    · exact Or.inr ⟨if_neg hj, Function.update_of_ne (Ne.symm hj) _ _⟩

/-- **A network in which no handler fails and nobody dies** is one of these. -/
theorem Run.restartingRun {messages : List (Network ι × (ι × AppMsg))}
    (h : Run (network config) messages n)
    (hok : ∀ x ∈ messages, (handle x.2.2 (x.1.nodes x.2.1)).result = .ok ()) :
    Run (restartingNetwork config) (messages.map fun x => (x.1, x.2.1, .deliver x.2.2)) n := by
  refine h.history_along (G := fun n x => (handle x.2 (n.nodes x.1)).result = .ok ())
    (P := fun messages n => Run (restartingNetwork config)
      (messages.map fun x => (x.1, x.2.1, .deliver x.2.2)) n) (fun _ hinit => .start hinit) ?_ hok
  rintro messages n ⟨i, msg⟩ n' hprev hresult ⟨hdeliverable, rfl⟩
  rw [List.map_append]
  have hstep : (restartingNetwork config).step n (i, .deliver msg) (n.deliver i msg) :=
    ⟨hdeliverable, ⟨hresult, rfl⟩, rfl⟩
  exact hprev.next hstep

/-- The logs only grow. -/
theorem Run.logs_grow (h : Run (restartingNetwork config) steps n) {n' : Network ι}
    (hn' : n' ∈ states steps n) :
    n'.made <+: n.made ∧ n'.certificates <+: n.certificates := by
  refine h.history_along (G := fun _ _ => True) (P := fun steps n => ∀ n' ∈ states steps n,
    n'.made <+: n.made ∧ n'.certificates <+: n.certificates) ?_ ?_ (fun _ _ => trivial) n' hn'
  · intro n _ n' hn'
    rw [List.mem_singleton.mp hn']
    exact ⟨List.prefix_rfl, List.prefix_rfl⟩
  · rintro steps n ⟨i, e⟩ n₁ hprev - ⟨-, -, rfl⟩ n' hn'
    rw [states_concat] at hn'
    rcases List.mem_append.mp hn' with hn' | hn'
    · obtain ⟨hmade, hcertificates⟩ := hprev n' hn'
      exact ⟨hmade.trans (List.prefix_append _ _), hcertificates.trans (List.prefix_append _ _)⟩
    · rw [List.mem_singleton.mp hn']
      exact ⟨List.prefix_rfl, List.prefix_rfl⟩

end Step

/-! ## Where the contents of the stores come from -/

section Honesty

variable [Crypto] [Prost] [Payload]

/-- **A node of an honest network stays honest**, whether it handles a message or dies. -/
theorem Honest.live {made : List Made} {certificates : List CommitCertificate} {s : State}
    {e : Event} (config : Config) (honce : OnePerSlot (made ++ e.made s))
    (hstreamed : ∀ e ∈ made, e.Streamed) (h : Honest made certificates s)
    (hmsg : Published made e.msg) :
    Honest (made ++ e.made s) (certificates ++ certifiedBy e.msg) (e.stateAfter config s) := by
  cases e with
  | deliver msg => exact h.next honce hstreamed hmsg
  | restart msg n serverStarts =>
      have hdrawn : ∀ w ∈ writes (Event.performed s (.restart msg n serverStarts)),
          w.DrawnFrom (MadeFor (made ++ Event.made s (.restart msg n serverStarts)))
            (SettledAt (made ++ Event.made s (.restart msg n serverStarts))
              (certificates ++ certifiedBy msg)) := by
        intro w hw
        obtain ⟨hpasses, hhandled⟩ := Event.mem_of_performed hw
        rw [Event.made_of_passes hpasses] at honce ⊢
        exact h.drawn_of_mem_writes honce hstreamed hmsg hhandled
      have hlater := h.mono
        (List.subset_append_left made (Event.made s (.restart msg n serverStarts)))
        (List.subset_append_left certificates (certifiedBy msg))
      obtain ⟨hwell, hledger⟩ :=
        h.wellFormed.refines_applyAll (writes (Event.performed s (.restart msg n serverStarts)))
      refine ⟨hwell, ?_, fun key => Or.inl rfl⟩
      show Ledger.DrawnFrom _ _ (Db.ledger (StoreWrite.applyAll _ _))
      rw [hledger]
      exact hlater.drawn.applyAll hdrawn

variable {ι : Type} [DecidableEq ι] {config : ι → Config}
  {steps : List (Network ι × (ι × Event))} {n : Network ι} {i : ι} {e : Event}

/-- What a step publishes is of a proposal that it makes. -/
theorem exists_made_of_published {s : State} {m : StreamMessage ProposalPart}
    (hm : m ∈ published (e.performed s)) : ∃ e' ∈ e.made s, m ∈ e'.stream := by
  obtain ⟨hpasses, hhandled⟩ := Event.mem_of_performed hm
  rw [Event.made_of_passes hpasses]
  rcases madeBy_cases s e.msg with ⟨-, hnone⟩ | ⟨e', hmade, hpublished, -⟩
  · have hhandled : m ∈ published (handle e.msg s).effects := hhandled
    rw [hnone] at hhandled
    exact absurd hhandled List.not_mem_nil
  · rw [hmade]
    exact ⟨e', List.mem_cons_self, hpublished ▸ hhandled⟩

/-- **A step of a node keeps the network honest** as long as no slot is proposed for twice. -/
theorem Network.Honest.live (h : n.Honest) (hdeliverable : n.Deliverable e.msg)
    (honce : OnePerSlot (n.live config i e).made) : (n.live config i e).Honest := by
  have hmsg : Published n.made e.msg := by
    cases hmsg : e.msg with
    | receivedProposalPart peer part =>
        rw [hmsg] at hdeliverable
        exact h.published part hdeliverable
    | _ => trivial
  refine ⟨fun e' he' => ?_, fun m hm => ?_, fun j => ?_⟩
  · rcases List.mem_append.mp he' with he' | he'
    · exact h.streamed e' he'
    · rcases e.made_cases (n.nodes i) with hnone | hmade
      · rw [hnone] at he'
        exact absurd he' List.not_mem_nil
      · rw [hmade] at he'
        rcases madeBy_cases (n.nodes i) e.msg with ⟨hnone, -⟩ | ⟨e'', hone, -, hstreamed, -⟩
        · rw [hnone] at he'
          exact absurd he' List.not_mem_nil
        · rw [hone] at he'
          rw [List.mem_singleton.mp he']
          exact hstreamed
  · rcases List.mem_append.mp hm with hm | hm
    · obtain ⟨e', he', hme⟩ := h.published m hm
      exact ⟨e', List.mem_append_left _ he', hme⟩
    · obtain ⟨e', he', hme⟩ := exists_made_of_published hm
      exact ⟨e', List.mem_append_right _ he', hme⟩
  · show MalakethTurbo.Honest _ _ (Function.update n.nodes i _ j)
    by_cases hj : j = i
    · rw [hj, Function.update_self]
      exact (h.nodes i).live (config i) honce h.streamed hmsg
    · rw [Function.update_of_ne hj]
      exact (h.nodes j).mono (List.subset_append_left _ _) (List.subset_append_left _ _)

/-- Honesty of a whole run. -/
theorem Run.honestThrough (h : Run (restartingNetwork config) steps n)
    (honce : OnePerSlot n.made) : n.Honest := by
  refine h.invariant (P := fun n => OnePerSlot n.made → n.Honest) ?_ ?_ honce
  · rintro n ⟨serverStarts, rfl⟩ -
    exact ⟨fun e he => absurd he List.not_mem_nil, fun m hm => absurd hm List.not_mem_nil,
      fun i => Honest.new (config i) (serverStarts i)⟩
  · rintro n ⟨i, e⟩ n' hprev ⟨hdeliverable, -, rfl⟩ honce
    have honce' : OnePerSlot n.made := (List.pairwise_append.mp honce).1
    exact (hprev honce').live hdeliverable honce

end Honesty

/-! ## The chain -/

section Chain

variable [Crypto] [Prost] [Payload]

/-- A block has been proposed for a height. -/
def Network.Proposed {ι : Type} (n : Network ι) (height : Height) (data : Bytes) : Prop :=
  ∃ e ∈ n.made, e.height = height ∧ e.data = data

/-- What the nodes have decided is on a chain of what has been proposed. -/
structure Network.OnChain {ι : Type} (chain : Height → Bytes) (n : Network ι) : Prop where
  decided : ∀ i height v, (n.nodes i).store.getDecidedValue height = some v →
    v.value = Value.new (chain height) ∧ n.Proposed height (chain height)
  blockData : ∀ i height data, (n.nodes i).store.decidedBlockData.get? height = some data →
    data = chain height ∧ n.Proposed height (chain height)

/-- What a node of the network hands to its executor and to its peers is on a chain of what has
been proposed. -/
structure Network.HandsOnChain {ι : Type} (chain : Height → Bytes) (n : Network ι) (i : ι)
    (e : Event) : Prop where
  executed : ∀ b ∈ spawns (e.performed (n.nodes i)),
    b.2 = chain b.1 ∧ n.Proposed b.1 (chain b.1)
  served : ∀ raw, Reply.decidedValue (some raw) ∈ replies (e.performed (n.nodes i)) →
    raw.valueBytes = (Value.new (chain raw.certificate.height)).toBytes ∧
      n.Proposed raw.certificate.height (chain raw.certificate.height)

/-- A decided value is served as it is recorded. -/
theorem recorded_of_served {s : State} {msg : AppMsg} {raw : RawDecidedValue}
    (hr : .decidedValue (some raw) ∈ replies (handle msg s).effects) :
    ∃ height v, s.store.getDecidedValue height = some v ∧
      raw = ⟨v.certificate, v.value.toBytes⟩ := by
  by_cases hover : ∃ p data, HandsOver s msg p data
  · obtain ⟨p, data, hover⟩ := hover
    obtain ⟨reply, msgs, hproduced, heffects⟩ := hover.handle_effects
    rw [heffects, replies_append, replies_map_write, replies_reply_cons, replies_map_publish] at hr
    rw [← List.mem_singleton.mp hr] at hproduced
    exact absurd hproduced (by simp [Reply.produced])
  · push Not at hover
    cases msg with
    | getDecidedValue height =>
        have hraw := Reply.decidedValue.inj (List.mem_singleton.mp hr)
        obtain ⟨v, hv, hraw⟩ := Option.map_eq_some_iff.mp hraw.symm
        exact ⟨height, v, hv, hraw.symm⟩
    | getValue height round =>
        rw [handle_getValue_of_not hover] at hr
        exact absurd hr List.not_mem_nil
    | receivedProposalPart peer part =>
        rcases handle_receivedProposalPart_of_not hover with heffects | heffects
        · rw [heffects] at hr
          exact absurd hr List.not_mem_nil
        · rw [heffects] at hr
          exact absurd (List.mem_singleton.mp hr) (by simp)
    | decided c =>
        obtain ⟨h, vs, hstart⟩ := (handle_decided c).2.2 _ hr
        exact absurd hstart (by simp)
    | processSyncedValue height round proposer valueBytes =>
        rw [handle] at hr
        rcases hvalue : decodeValue valueBytes with e | value
        · rw [hvalue] at hr
          exact absurd hr List.not_mem_nil
        · rw [hvalue] at hr
          exact absurd (List.mem_singleton.mp hr) (by simp)
    | startedRound _ _ _ | restreamProposal | peerJoined _ | peerLeft _ =>
        exact absurd hr List.not_mem_nil
    | _ => exact absurd (List.mem_singleton.mp hr) (by simp)

variable {ι : Type} {n : Network ι}

omit [Prost] [Payload] in
/-- What is settled at the heights is one chain. -/
theorem Network.Coherent.exists_chain (h : n.Coherent) : ∃ chain : Height → Bytes,
    ∀ height data, SettledAt n.made n.certificates height data → data = chain height := by
  classical
  refine ⟨fun height => if hs : ∃ data, SettledAt n.made n.certificates height data then
    hs.choose else [], fun height data hdata => ?_⟩
  have hs : ∃ data, SettledAt n.made n.certificates height data := ⟨data, hdata⟩
  dsimp only
  rw [dif_pos hs]
  exact h.settled_unique hdata hs.choose_spec

variable [DecidableEq ι] {config : ι → Config} {steps : List (Network ι × (ι × Event))}

/-- **One chain, whoever dies.**  In a run of any nodes, each started on an empty store, of
which any may die at any effect of any handler and start again, as often as it may be, there is
one chain of blocks such that whatever any node has recorded at any time, as a decision or as
the block data of one, and whatever it hands to its executor or serves to a peer, is the block
of the chain at that height, and has been proposed for it: as long as no slot is proposed for
twice, the identifiers of the proposed values do not collide, each certificate names the value
proposed for its slot and the certificates of a height name one value. -/
theorem one_chain_through_restarts (hrun : Run (restartingNetwork config) steps n)
    (hcoherent : n.Coherent) :
    ∃ chain : Height → Bytes, (∀ n' ∈ states steps n, n'.OnChain chain) ∧
      ∀ x ∈ steps, x.1.HandsOnChain chain x.2.1 x.2.2 := by
  obtain ⟨chain, hchain⟩ := hcoherent.exists_chain
  -- at no time is anything in a store that the proposals and certificates do not account for
  have hhonest : ∀ n' ∈ states steps n, n'.Honest := by
    intro n' hn'
    obtain ⟨steps', -, hbefore⟩ := hrun.exists_of_mem_states hn'
    exact hbefore.honestThrough (hcoherent.once.sublist (hrun.logs_grow hn').1.sublist)
  have hsettled : ∀ n' ∈ states steps n, ∀ height data,
      SettledAt n'.made n'.certificates height data → data = chain height := by
    intro n' hn' height data hdata
    obtain ⟨hmade, hcertificates⟩ := hrun.logs_grow hn'
    exact hchain height data (hdata.mono hmade.subset hcertificates.subset)
  have hproposed : ∀ n' ∈ states steps n, ∀ height data,
      SettledAt n'.made n'.certificates height data → n'.Proposed height (chain height) := by
    intro n' hn' height data hdata
    have hblock := hsettled n' hn' height data hdata
    obtain ⟨c, -, -, e, he, heheight, -, hedata⟩ := hdata
    exact ⟨e, he, heheight, hedata.trans hblock⟩
  have honchain : ∀ n' ∈ states steps n, n'.OnChain chain := by
    intro n' hn'
    refine ⟨fun i height v hv => ?_, fun i height data hdata => ?_⟩
    · obtain ⟨data, hdata, hvalue⟩ := ((hhonest n' hn').nodes i).drawn.decided height v hv
      exact ⟨by rw [hvalue, hsettled n' hn' height data hdata], hproposed n' hn' height data hdata⟩
    · have hdecided := ((hhonest n' hn').nodes i).drawn.decidedData _ _ hdata
      exact ⟨hsettled n' hn' height data hdecided, hproposed n' hn' height data hdecided⟩
  refine ⟨chain, honchain, fun x hx => ?_⟩
  have hbefore : x.1 ∈ states steps n := List.mem_append_left _ (List.mem_map_of_mem hx)
  have hnode := (hhonest x.1 hbefore).nodes x.2.1
  refine ⟨fun b hb => ?_, fun raw hraw => ?_⟩
  · obtain ⟨c, hmsg, hheight, -, hdata⟩ := getBlockData_of_spawns (Event.mem_of_performed hb).2
    rw [Db.getBlockData_eq] at hdata
    rw [hheight]
    rcases hnode.drawn.blockDataAt hdata with hmade | hold
    · -- the certificate is among those delivered once the step has been taken
      obtain ⟨n', hn', -, -, hnext⟩ := hrun.exists_next hx
      have hblock : b.2 = chain c.height := by
        refine hsettled n' hn' c.height b.2 ⟨c, ?_, rfl, hmade.mono ?_ _ _⟩
        · rw [hnext, Network.live, hmsg]
          exact List.mem_append_right _ List.mem_cons_self
        · rw [hnext]
          exact List.subset_append_left _ _
      obtain ⟨e, he, heheight, -, hedata⟩ := hmade
      exact ⟨hblock, e, he, heheight, hedata.trans hblock⟩
    · exact ⟨hsettled x.1 hbefore c.height b.2 hold, hproposed x.1 hbefore c.height b.2 hold⟩
  · obtain ⟨height, v, hv, rfl⟩ := recorded_of_served (Event.mem_of_performed hraw).2
    obtain ⟨hvalue, hmade⟩ := (honchain x.1 hbefore).decided x.2.1 height v hv
    dsimp only
    rw [hnode.wellFormed.decided_height hv]
    exact ⟨by rw [hvalue], hmade⟩

/-! ## Lives one after the other -/

/-- A step can be taken: a message that is handled is handled to its end. -/
def Event.completes (s : State) : Event → Bool
  | deliver msg => (handle msg s).result.isOk
  | restart _ _ _ => true

theorem Event.node_step {c : Config} {s : State} {e : Event} (h : e.completes s = true) :
    (node c).step s e (e.stateAfter c s) := by
  cases e with
  | deliver msg =>
      refine ⟨?_, rfl⟩
      cases hresult : (handle msg s).result with
      | ok u => rfl
      | error stop =>
          rw [completes, hresult] at h
          exact absurd h Bool.false_ne_true
  | restart msg n serverStarts => rfl

namespace Network

/-- The network after steps that are taken one after the other. -/
def liveAll (config : ι → Config) (n : Network ι) (events : List (ι × Event)) : Network ι :=
  events.foldl (fun n x => n.live config x.1 x.2) n

/-- Every step can be taken when its turn comes. -/
def allLive (config : ι → Config) (n : Network ι) : List (ι × Event) → Bool
  | [] => true
  | x :: events => decide (n.Deliverable x.2.msg) && x.2.completes (n.nodes x.1) &&
      (n.live config x.1 x.2).allLive config events

end Network

theorem Run.liveAll (h : Run (restartingNetwork config) steps n) (events : List (ι × Event))
    (hok : n.allLive config events = true) :
    ∃ steps', Run (restartingNetwork config) steps' (n.liveAll config events) := by
  induction events generalizing n steps with
  | nil => exact ⟨steps, h⟩
  | cons x events ih =>
      obtain ⟨hfirst, hrest⟩ := Bool.and_eq_true_iff.mp hok
      obtain ⟨hdeliverable, hcompletes⟩ := Bool.and_eq_true_iff.mp hfirst
      have hstep : (restartingNetwork config).step n x (n.live config x.1 x.2) :=
        ⟨of_decide_eq_true hdeliverable, Event.node_step hcompletes, rfl⟩
      exact ih (h.next hstep) hrest

end Chain

section Demo

attribute [local instance] demoCrypto Prost.reference demoPayload

/-- The first node dies as soon as it has published its proposal.  The second gets a part, dies,
gets all of them, and dies over the decision once it has recorded it; both are told of the
decision again. -/
def demoLives : List (Fin 2 × Event) :=
  (demoFirst, .restart (.getValue ⟨1⟩ (.some 0)) 7 true) ::
    ((demoArrivals 1 7).take 1).map (fun msg => (demoSecond, .restart msg 1 true)) ++
    (demoArrivals 1 7).map (fun msg => (demoSecond, .deliver msg)) ++
    [(demoSecond, .restart (.decided (demoCertificate 7)) 1 true),
      (demoSecond, .deliver (.decided (demoCertificate 7))),
      (demoFirst, .deliver (.decided (demoCertificate 7)))]

theorem one_chain_through_restarts_demo :
    ∃ chain : Height → Bytes, chain ⟨1⟩ = [7] ∧
      (demoNetwork.liveAll demoConfigs demoLives).OnChain chain := by
  have hstart : Run (restartingNetwork demoConfigs) [] demoNetwork := .start ⟨fun _ => true, rfl⟩
  obtain ⟨steps, hrun⟩ := hstart.liveAll demoLives (by decide +kernel)
  obtain ⟨chain, hall, -⟩ := one_chain_through_restarts hrun
    ⟨by decide +kernel, by decide +kernel, by decide +kernel, by decide +kernel⟩
  have hlast := hall _ (List.mem_append_right _ List.mem_cons_self)
  have hdata : ((demoNetwork.liveAll demoConfigs demoLives).nodes
      demoSecond).store.decidedBlockData.get? ⟨1⟩ = some [7] := by decide +kernel
  exact ⟨chain, (hlast.blockData demoSecond ⟨1⟩ [7] hdata).1.symm, hlast⟩

end Demo

end MalakethTurbo
