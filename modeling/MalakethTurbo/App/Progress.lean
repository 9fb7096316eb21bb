import MalakethTurbo.App.RoundTrip
import MalakethTurbo.App.Chain

/-!
# Decisions on what has been delivered

A decision is recorded only if the slot of its certificate holds a proposal.  A node that
has got every message of a proposal's stream, while it was at no later height, has put the
proposal in its slot, in whatever order the messages came and whatever came in between
(`proposal_of_arrived`); so has the proposer itself.  Later steps leave it there until it is
pruned (`isSome_proposal_handle`).

So if consensus tells a node only of decisions for proposals that the node has obtained, each
of them is carried out (`decisions_succeed`): the node records the decision, settles the block
that was proposed, and moves on.
-/

namespace MalakethTurbo

open Wire (Bytes)
open MalakethTurbo.State (MAX_HISTORY_LENGTH)

/-! ## What stays in a slot -/

section Slot

variable [Crypto] [Prost] [Payload] {s receiver : State} {msg : AppMsg} {msgs : List AppMsg}
  {k : UndecidedValueKey}

theorem wellFormed_handle (hdb : s.store.WellFormed) : (handle msg s).state.store.WellFormed := by
  rw [(Framed.handle msg s).store]
  exact (hdb.refines_applyAll _).1

/-- What is handed over is in its slot. -/
theorem isSome_proposal_of_handsOver (hdb : s.store.WellFormed) {p : ProposedValue} {data : Bytes}
    (h : HandsOver s msg p data) :
    ((handle msg s).state.store.ledger.proposal ⟨p.height, p.round⟩).isSome := by
  obtain ⟨reply, msgs, -, heffects⟩ := h.handle_effects
  rw [(Framed.handle msg s).store, (hdb.refines_applyAll _).2, heffects, writes_append,
    writes_map_write, writes_reply_cons, writes_map_publish, List.append_nil,
    Ledger.applyAll_keepWrites _ h.round_ne_nil]
  show (keepFirst _ _ _ _).isSome
  rw [keepFirst_self]
  rfl

omit [Crypto] [Prost] [Payload] in
/-- A transaction empties a slot only if it prunes it. -/
theorem isSome_proposal_apply {l : Ledger} {w : StoreWrite} (h : (l.proposal k).isSome)
    (hw : ∀ retain, w = .prune retain → ¬ k.height < retain) :
    ((l.apply w).proposal k).isSome := by
  cases w with
  | undecidedProposal p =>
      rw [Ledger.apply]
      split_ifs
      · exact h
      · by_cases hk : k = ⟨p.height, p.round⟩
        · show (keepFirst l.proposal ⟨p.height, p.round⟩ p k).isSome
          rw [hk, keepFirst_self]
          rfl
        · exact (congrArg Option.isSome (keepFirst_of_ne _ _ hk)).trans h
  | decidedValue v =>
      rw [Ledger.apply]
      split_ifs <;> exact h
  | prune retain => exact (congrArg Option.isSome (if_neg (hw retain rfl))).trans h
  | undecidedBlockData height round data => exact h
  | decidedBlockData height data => exact h

omit [Crypto] [Prost] [Payload] in
theorem isSome_proposal_applyAll {l : Ledger} {ws : List StoreWrite}
    (h : (l.proposal k).isSome) (hws : ∀ retain, .prune retain ∈ ws → ¬ k.height < retain) :
    ((l.applyAll ws).proposal k).isSome := by
  induction ws generalizing l with
  | nil => exact h
  | cons w ws ih =>
      refine ih (isSome_proposal_apply h fun retain hw => ?_) fun retain hmem =>
        hws retain (List.mem_cons_of_mem _ hmem)
      exact hws retain (hw ▸ List.mem_cons_self)

/-- Only decisions prune, below a bound that their height says. -/
theorem prune_of_mem_writes {retain : Height}
    (h : .prune retain ∈ writes (handle msg s).effects) :
    ∃ c, msg = .decided c ∧ retain = c.height.saturatingSub MAX_HISTORY_LENGTH := by
  rcases handle_cases s msg with ⟨p, data, hover⟩ | ⟨c, rfl⟩ | hquiet
  · obtain ⟨reply, msgs, -, heffects⟩ := hover.handle_effects
    rw [heffects, writes_append, writes_map_write, writes_reply_cons, writes_map_publish,
      List.append_nil] at h
    rcases List.mem_pair.mp h with heq | heq <;> exact absurd heq (by simp)
  · refine ⟨c, rfl, ?_⟩
    rcases (handle_decided (s := s) c).1 with ⟨q, -, -, hwrites⟩ | hnone
    · rw [hwrites, State.commitEffects, writes_write_cons] at h
      rcases List.mem_cons.mp h with heq | h
      · exact absurd heq (by simp)
      · rcases State.mem_writes_settleEffects h with ⟨data, -, heq⟩ | heq
        · exact absurd heq (by simp)
        · exact StoreWrite.prune.inj heq
    · rw [hnone] at h
      exact absurd h List.not_mem_nil
  · rw [hquiet.writes_eq] at h
    exact absurd h List.not_mem_nil

/-- The decision a message tells of does not prune a height. -/
def Spares (height : Height) (msg : AppMsg) : Prop :=
  ∀ c, msg = .decided c → ¬ height < c.height.saturatingSub MAX_HISTORY_LENGTH

/-- **A proposal stays in its slot** until it is pruned. -/
theorem isSome_proposal_handle (hdb : s.store.WellFormed) (h : (s.store.ledger.proposal k).isSome)
    (hspares : Spares k.height msg) : ((handle msg s).state.store.ledger.proposal k).isSome := by
  rw [(Framed.handle msg s).store, (hdb.refines_applyAll _).2]
  refine isSome_proposal_applyAll h fun retain hmem => ?_
  obtain ⟨c, hc, rfl⟩ := prune_of_mem_writes hmem
  exact hspares c hc

/-! ## What has arrived -/

theorem handleAll_concat (s : State) (msgs : List AppMsg) (msg : AppMsg) :
    handleAll s (msgs ++ [msg]) = (handle msg (handleAll s msgs)).state :=
  List.foldl_concat ..

theorem wellFormed_handleAll (hdb : s.store.WellFormed) (msgs : List AppMsg) :
    (handleAll s msgs).store.WellFormed := by
  induction msgs using List.reverseRecOn with
  | nil => exact hdb
  | append_singleton msgs msg ih =>
      rw [handleAll_concat]
      exact wellFormed_handle ih

variable {peer : PeerId} {id : StreamId} {M : List (StreamMessage ProposalPart)}
  {first : ProposalInit} {m : StreamMessage ProposalPart} {parts : ProposalParts}

omit [Prost] in
/-- The message that completes an acceptable stream hands its proposal over. -/
theorem Followed.handsOver (hM : IsStream M first) (h : Followed peer id M first msgs s)
    (hm : m ∈ M) (hid : m.streamId = id) {description : String × Nat}
    (hpart : describePart m.content = .ok description) (hparts : handedOut M first = parts)
    (haccept : s.Acceptable parts) (hround : parts.round ≠ .nil)
    (hdone : CompletedBy peer M msgs m) :
    HandsOver s (.receivedProposalPart peer m) (State.assembleValueFromParts parts).1
      (State.assembleValueFromParts parts).2 := by
  subst hid
  obtain ⟨map', hinsert, -, -⟩ := PartStreamsMap.insert_of_tracked (ε := AppError) hM h.tracked hm
  rw [if_pos ((h.completes_iff hM hm).mpr hdone), hparts] at hinsert
  exact .receive hpart hinsert haccept hround

/-- **What has arrived in full is in its slot.** -/
theorem proposal_of_arrived (hM : IsStream M first) (hparts : handedOut M first = parts)
    (hround : parts.round ≠ .nil) (hdb : receiver.store.WellFormed)
    (hnew : receiver.streamsMap = .new) (hdrawn : Drawn peer id M msgs)
    (haccept : ∀ before msg after, msgs = before ++ msg :: after →
      (handleAll receiver before).Acceptable parts ∧ Spares parts.height msg)
    (hall : ∀ m ∈ M, .receivedProposalPart peer m ∈ msgs) :
    ((handleAll receiver msgs).store.ledger.proposal ⟨parts.height, parts.round⟩).isSome := by
  induction msgs using List.reverseRecOn with
  | nil =>
      obtain ⟨m, hm, -⟩ := hM.first_mem
      exact absurd (hall m hm) List.not_mem_nil
  | append_singleton msgs msg ih =>
      have hdrawn' : Drawn peer id M msgs := ⟨hdrawn.streamId, hdrawn.described, fun m hm =>
        hdrawn.mem m (List.mem_append_left _ hm)⟩
      obtain ⟨hok, hspares⟩ := haccept msgs msg [] rfl
      have hwell := wellFormed_handleAll hdb msgs
      rw [handleAll_concat]
      by_cases hbefore : ∀ m ∈ M, .receivedProposalPart peer m ∈ msgs
      · refine isSome_proposal_handle hwell (ih hdrawn' (fun before msg' after heq => ?_) hbefore)
          hspares
        exact haccept before msg' (after ++ [msg]) (by rw [heq]; simp)
      · push Not at hbefore
        obtain ⟨m, hm, hmissing⟩ := hbefore
        have hlast : ∀ m' ∈ M, .receivedProposalPart peer m' ∈ msgs ∨
            msg = .receivedProposalPart peer m' := fun m' hm' =>
          (List.mem_append.mp (hall m' hm')).imp_right fun h => (List.mem_singleton.mp h).symm
        obtain rfl := (hlast m hm).resolve_left hmissing
        obtain ⟨description, hpart⟩ := hdrawn.described m hm
        have hdone : CompletedBy peer M msgs m := by
          refine ⟨hmissing, fun m' hm' => ?_⟩
          rcases hlast m' hm' with harrived | heq
          · exact Or.inr harrived
          · exact Or.inl (AppMsg.receivedProposalPart.inj heq).2.symm
        exact isSome_proposal_of_handsOver hwell
          ((followed_handleAll hM hnew hdrawn').handsOver hM hm (hdrawn.streamId m hm) hpart
            hparts hok hround hdone)

end Slot

/-! ## Who has streamed a proposal -/

section Sender

variable [Crypto] [Prost] [Payload] {s : State} {msg : AppMsg} {e : Made}

/-- What a node publishes for a value, it streams in a state with its own key. -/
theorem published_getValue {data : Bytes}
    (hblock : (s.blockProposer.proposeBlock s.currentHeight.asU64).1 = .ok data)
    (hround : s.currentRound ≠ .nil) :
    ∃ s', s'.address = s.address ∧ s'.signingKey = s.signingKey ∧
      s'.currentHeight = s.currentHeight ∧ s'.currentRound = s.currentRound ∧
      (published (handle (.getValue s.currentHeight s.currentRound) s).effects = [] ∨
        (State.streamProposal ⟨s.currentHeight, s.currentRound, Value.new data⟩ data s').result =
          .ok (published (handle (.getValue s.currentHeight s.currentRound) s).effects)) := by
  have hmake := State.makeBlock_run s
  rw [hblock] at hmake
  obtain ⟨ws, rfl, hpropose⟩ := State.proposeValue_run
    (s := { s with
      blockProposer := (s.blockProposer.proposeBlock s.currentHeight.asU64).2 })
    hround data
  generalize hkept : State.afterWrites _ _ = s' at hpropose
  refine ⟨s', by rw [← hkept]; rfl, by rw [← hkept]; rfl, by rw [← hkept]; rfl,
    by rw [← hkept]; rfl, ?_⟩
  obtain ⟨nonce, hstate, hquiet⟩ := State.streamProposal_frame s'
    ⟨s.currentHeight, s.currentRound, Value.new data⟩ data
  -- the transactions and the reply come first, and publish nothing
  have hran : (handle (.getValue s.currentHeight s.currentRound) s).effects =
      (State.keepWrites (s.localProposal s.currentHeight s.currentRound (Value.new data))
        s.currentHeight s.currentRound data).map .write ++
        .reply (.localValue ⟨s.currentHeight, s.currentRound, Value.new data⟩) ::
          ((State.streamProposal ⟨s.currentHeight, s.currentRound, Value.new data⟩ data >>=
            fun msgs => Action.performAll (msgs.map Effect.publish)) s').effects := by
    rw [handle, Action.bind_of_ok hmake, Action.after_nil, Action.bind_of_ok hpropose,
      Action.after_effects, Action.perform_bind, Action.after_effects]
    rfl
  rw [hran, published_append, published_map_write, published_reply_cons, List.nil_append]
  rcases hstream : State.streamProposal ⟨s.currentHeight, s.currentRound, Value.new data⟩
    data s' with ⟨e | msgs, s'', es⟩
  · rw [hstream] at hquiet
    obtain rfl : es = [] := hquiet
    rw [Action.bind_of_error hstream]
    exact Or.inl rfl
  · rw [hstream] at hquiet
    obtain rfl : es = [] := hquiet
    have hall : ((State.streamProposal ⟨s.currentHeight, s.currentRound, Value.new data⟩ data >>=
        fun msgs => Action.performAll (msgs.map Effect.publish)) s').effects =
          msgs.map .publish := by
      rw [Action.bind_of_ok hstream]
      rfl
    rw [hall, published_map_publish]
    exact Or.inr rfl

/-- **A proposal is streamed with the key of its proposer.** -/
theorem streamedBy_of_madeBy (he : e ∈ madeBy s msg) (hne : e.stream ≠ []) :
    ∃ s', e.StreamedBy s' ∧ s'.address = s.address ∧ s'.signingKey = s.signingKey := by
  cases msg with
  | getValue height round =>
      by_cases hover : ∃ p data, HandsOver s (.getValue height round) p data
      · obtain ⟨p, data, hover⟩ := hover
        obtain ⟨-, -, hmade⟩ := madeBy_of_handsOver hover
        rw [hmade] at he
        obtain rfl := List.mem_singleton.mp he
        cases hover with
        | propose hblock hround =>
            obtain ⟨s', haddress, hkey, hheight, hround', hstream⟩ :=
              published_getValue hblock hround
            obtain ⟨hisStream, hparts, r, hr, hid⟩ :=
              State.isStream_of_ok (hstream.resolve_left hne)
            exact ⟨s', ⟨hisStream, hparts, hheight, r, by rw [← hr, hround'], hid⟩, haddress, hkey⟩
      · push Not at hover
        rw [madeBy_of_not hover] at he
        exact absurd he List.not_mem_nil
  | _ => exact absurd he List.not_mem_nil

end Sender

/-! ## The nodes of a network -/

section Network

variable [Crypto] [Prost] [Payload] {ι : Type} [DecidableEq ι] {config : ι → Config}
  {steps : List (Network ι × (ι × AppMsg))} {n : Network ι} {i : ι} {e : Made}

/-- The messages that a node has been handed. -/
def messagesTo (i : ι) (steps : List (Network ι × (ι × AppMsg))) : List AppMsg :=
  steps.filterMap fun x => if x.2.1 = i then some x.2.2 else none

omit [Crypto] [Prost] [Payload] in
theorem messagesTo_concat (steps : List (Network ι × (ι × AppMsg)))
    (x : Network ι × (ι × AppMsg)) :
    messagesTo i (steps ++ [x]) = messagesTo i steps ++ if x.2.1 = i then [x.2.2] else [] := by
  rw [messagesTo, List.filterMap_append, ← messagesTo]
  by_cases hi : x.2.1 = i <;> simp [hi]

omit [Crypto] [Prost] [Payload] in
theorem mem_messagesTo {msg : AppMsg} (h : msg ∈ messagesTo i steps) :
    ∃ x ∈ steps, x.2 = (i, msg) := by
  obtain ⟨x, hx, hmsg⟩ := List.mem_filterMap.mp h
  obtain ⟨hi, hmsg⟩ := Option.ite_none_right_eq_some.mp hmsg
  exact ⟨x, hx, Prod.ext hi (Option.some.inj hmsg)⟩

/-- A node of a network is where its messages have taken it, one after the other. -/
theorem Run.node_eq (h : Run (network config) steps n) (i : ι) :
    ∃ serverStarts, n.nodes i =
        handleAll (State.new (config i) Db.empty serverStarts) (messagesTo i steps) ∧
      ∀ before msg after, messagesTo i steps = before ++ msg :: after →
        ∃ x ∈ steps, x.2 = (i, msg) ∧ x.1.nodes i =
          handleAll (State.new (config i) Db.empty serverStarts) before := by
  refine h.history_along (G := fun _ _ => True) (P := fun steps n => ∃ serverStarts, n.nodes i =
        handleAll (State.new (config i) Db.empty serverStarts) (messagesTo i steps) ∧
      ∀ before msg after, messagesTo i steps = before ++ msg :: after →
        ∃ x ∈ steps, x.2 = (i, msg) ∧ x.1.nodes i =
          handleAll (State.new (config i) Db.empty serverStarts) before) ?_ ?_ fun _ _ => trivial
  · rintro n ⟨serverStarts, rfl⟩
    exact ⟨serverStarts i, rfl, fun before msg after heq => absurd heq (by simp [messagesTo])⟩
  · rintro steps n ⟨j, msg⟩ n' ⟨serverStarts, hnode, hbefore⟩ - ⟨-, rfl⟩
    refine ⟨serverStarts, ?_, fun before msg' after heq => ?_⟩
    · show Function.update n.nodes j _ i = _
      rw [messagesTo_concat]
      by_cases hj : j = i
      · subst hj
        rw [Function.update_self, if_pos rfl, handleAll_concat, hnode]
      · rw [Function.update_of_ne (Ne.symm hj), if_neg hj, List.append_nil, hnode]
    · have hold (hmid : ∃ rest, messagesTo i steps = before ++ msg' :: rest) :
          ∃ x ∈ steps ++ [(n, (j, msg))], x.2 = (i, msg') ∧ x.1.nodes i =
            handleAll (State.new (config i) Db.empty serverStarts) before := by
        obtain ⟨rest, hrest⟩ := hmid
        obtain ⟨x, hx, hfacts⟩ := hbefore before msg' rest hrest
        exact ⟨x, List.mem_append_left _ hx, hfacts⟩
      rw [messagesTo_concat] at heq
      by_cases hj : j = i
      · rw [if_pos hj] at heq
        rcases List.eq_nil_or_concat after with rfl | ⟨rest, last, rfl⟩
        · obtain ⟨hmessages, hlast⟩ := List.append_inj' heq rfl
          obtain rfl : msg = msg' := List.head_eq_of_cons_eq hlast
          refine ⟨(n, (j, msg)), List.mem_append_right _ List.mem_cons_self, by rw [hj], ?_⟩
          rw [← hmessages]
          exact hnode
        · rw [List.concat_eq_append, ← List.cons_append, ← List.append_assoc] at heq
          exact hold ⟨rest, (List.append_inj' heq rfl).1⟩
      · rw [if_neg hj, List.append_nil] at heq
        exact hold ⟨after, heq⟩

/-- **What every node keeps by itself**, the nodes of a network keep. -/
theorem Run.forall_nodes {P : ι → State → Prop} (h : Run (network config) steps n)
    (hnew : ∀ i serverStarts, P i (State.new (config i) Db.empty serverStarts))
    (hhandle : ∀ i s msg, P i s → P i (handle msg s).state) (i : ι) : P i (n.nodes i) := by
  refine h.invariant (P := fun n => P i (n.nodes i)) ?_ ?_
  · rintro n ⟨serverStarts, rfl⟩
    exact hnew i _
  · rintro n ⟨j, msg⟩ n' hprev ⟨-, rfl⟩
    show P i (Function.update n.nodes j _ i)
    by_cases hj : i = j
    · subst hj
      rw [Function.update_self]
      exact hhandle i _ msg hprev
    · rw [Function.update_of_ne hj]
      exact hprev

/-- What a node is configured with. -/
structure State.Of (config : Config) (s : State) : Prop where
  genesis : s.genesis = config.genesis
  signingKey : s.signingKey = config.signingKey
  address : s.address = Address.fromPublicKey (Crypto.publicKey config.signingKey)

theorem State.Of.handle {config : Config} {s : State} (h : s.Of config) (msg : AppMsg) :
    (MalakethTurbo.handle msg s).state.Of config where
  genesis := (Framed.handle msg s).genesis.trans h.genesis
  signingKey := (Framed.handle msg s).signingKey.trans h.signingKey
  address := (Framed.handle msg s).address.trans h.address

theorem Run.of (h : Run (network config) steps n) (i : ι) : (n.nodes i).Of (config i) :=
  h.forall_nodes (P := fun i s => s.Of (config i)) (fun _ _ => ⟨rfl, rfl, rfl⟩)
    (fun _ _ msg hs => hs.handle msg) i

theorem Run.complete (h : Run (network config) steps n) (i : ι) :
    (n.nodes i).store.WellFormed ∧ (n.nodes i).store.ledger.Complete :=
  h.forall_nodes (P := fun _ s => s.store.WellFormed ∧ s.store.ledger.Complete)
    (fun _ _ => ⟨Db.WellFormed.empty, Ledger.Complete.empty⟩)
    (fun _ _ _ hs => ⟨wellFormed_handle hs.1, complete_handle hs.1 hs.2⟩) i

/-- A part that has been delivered has been published. -/
theorem Run.allPublished (h : Run (network config) steps n) :
    ∀ x ∈ steps, ∀ peer part, x.2.2 = .receivedProposalPart peer part → part ∈ n.inFlight := by
  refine h.history_along (G := fun _ _ => True) (P := fun steps n => ∀ x ∈ steps,
    ∀ peer part, x.2.2 = .receivedProposalPart peer part → part ∈ n.inFlight) ?_ ?_
      fun _ _ => trivial
  · exact fun _ _ x hx => absurd hx List.not_mem_nil
  · rintro steps n ⟨j, msg⟩ n' hprev - ⟨hdeliverable, rfl⟩ x hx peer part hpart
    refine List.mem_append_left _ ?_
    rcases List.mem_append.mp hx with hx | hx
    · exact hprev x hx peer part hpart
    · obtain rfl := List.mem_singleton.mp hx
      have hmsg : msg = .receivedProposalPart peer part := hpart
      subst hmsg
      exact hdeliverable

/-- What holds of a proposal when a node makes it. -/
theorem Run.forall_made {P : Made → Prop} (h : Run (network config) steps n)
    (hmakes : ∀ steps n j msg, Run (network config) steps n → ∀ e ∈ madeBy (n.nodes j) msg, P e) :
    ∀ e ∈ n.made, P e := by
  induction h with
  | start hinit =>
      obtain ⟨serverStarts, rfl⟩ := hinit
      exact fun e he => absurd he List.not_mem_nil
  | @next steps n n' l hrun hstep ih =>
      obtain ⟨-, rfl⟩ := hstep
      exact fun e he => (List.mem_append.mp he).elim (ih e) (hmakes steps n l.1 l.2 hrun e)

theorem Run.round_ne_nil (h : Run (network config) steps n) : ∀ e ∈ n.made, e.round ≠ .nil := by
  refine h.forall_made fun steps n j msg _ e he => ?_
  rcases madeBy_cases (n.nodes j) msg with ⟨hnone, -⟩ | ⟨e', hmade, -, -, p, hover, -, hround⟩
  · rw [hnone] at he
    exact absurd he List.not_mem_nil
  · rw [hmade] at he
    rw [List.mem_singleton.mp he, ← hround]
    exact hover.round_ne_nil

/-- **Who has streamed what**: each proposal that is streamed, one of the nodes has streamed
with its own key. -/
theorem Run.sender (h : Run (network config) steps n) :
    ∀ e ∈ n.made, e.stream ≠ [] → ∃ j s, e.StreamedBy s ∧
      s.signingKey = (config j).signingKey ∧
      s.address = Address.fromPublicKey (Crypto.publicKey (config j).signingKey) := by
  refine h.forall_made fun steps n j msg hrun e he hne => ?_
  obtain ⟨s, hs, haddress, hkey⟩ := streamedBy_of_madeBy he hne
  have hof := hrun.of j
  exact ⟨j, s, hs, hkey.trans hof.signingKey, haddress.trans hof.address⟩

/-! ## What a node has obtained -/

/-- Every node knows every other one by its address, and the key of each verifies what it has
signed. -/
structure Acquainted (config : ι → Config) : Prop where
  known : ∀ i j, ∃ w, (config i).genesis.validatorSet.getByAddress
      (Address.fromPublicKey (Crypto.publicKey (config j).signingKey)) = some w ∧
    w.publicKey = Crypto.publicKey (config j).signingKey
  verifies : ∀ j (hash : FixedBytes 32), Crypto.verify (Crypto.publicKey (config j).signingKey)
    hash.val (Crypto.sign (config j).signingKey hash.val) = true

/-- A node has made a proposal, or it has got its whole stream from one peer. -/
def Obtained (i : ι) (steps : List (Network ι × (ι × AppMsg))) (e : Made) : Prop :=
  (∃ x ∈ steps, x.2.1 = i ∧ e ∈ madeBy (x.1.nodes i) x.2.2) ∨
    e.stream ≠ [] ∧ ∃ peer, ∀ m ∈ e.stream, .receivedProposalPart peer m ∈ messagesTo i steps

/-- A node has kept what it has made. -/
theorem Run.isSome_of_made (h : Run (network config) steps n)
    (hspares : ∀ x ∈ steps, x.2.1 = i → Spares e.height x.2.2)
    (hmade : ∃ x ∈ steps, x.2.1 = i ∧ e ∈ madeBy (x.1.nodes i) x.2.2) :
    ((n.nodes i).store.ledger.proposal ⟨e.height, e.round⟩).isSome := by
  induction h with
  | start _ =>
      obtain ⟨x, hx, -⟩ := hmade
      exact absurd hx List.not_mem_nil
  | @next steps n n' l hrun hstep ih =>
      obtain ⟨j, msg⟩ := l
      obtain ⟨-, rfl⟩ := hstep
      have hdb := (hrun.complete i).1
      have hprev := ih fun x hx => hspares x (List.mem_append_left _ hx)
      show ((Function.update n.nodes j _ i).store.ledger.proposal _).isSome
      obtain ⟨x, hx, hi, he⟩ := hmade
      rcases List.mem_append.mp hx with hbefore | hlast
      · have hkept := hprev ⟨x, hbefore, hi, he⟩
        by_cases hj : i = j
        · subst hj
          rw [Function.update_self]
          exact isSome_proposal_handle hdb hkept
            (hspares (n, (i, msg)) (List.mem_append_right _ List.mem_cons_self) rfl)
        · rw [Function.update_of_ne hj]
          exact hkept
      · obtain rfl := List.mem_singleton.mp hlast
        obtain rfl : j = i := hi
        rw [Function.update_self]
        rcases madeBy_cases (n.nodes j) msg with ⟨hnone, -⟩ | ⟨e', hmade, -, -, p, hover, hp⟩
        · rw [hnone] at he
          exact absurd he List.not_mem_nil
        · rw [hmade] at he
          obtain rfl := List.mem_singleton.mp he
          rw [← hp.1, ← hp.2]
          exact isSome_proposal_of_handsOver hdb hover

/-- The stream of a proposal, as a node of the network gets it. -/
theorem Run.drawn (h : Run (network config) steps n) (honce : OnePerSlot n.made) (he : e ∈ n.made)
    {s : State} (hs : e.StreamedBy s) (hround : e.round ≠ .nil) {peer : PeerId} :
    ∃ id, Drawn peer id e.stream (messagesTo i steps) := by
  obtain ⟨round, -, hid⟩ := hs.streamId
  refine ⟨_, hid, fun m hm => ?_, fun m hm hstream => ?_⟩
  · refine exists_describePart fun first hfirst => ?_
    rw [State.init_of_mem hs.parts hm hfirst]
    exact hround
  · -- a part under the identifier of the stream has been published for its slot
    obtain ⟨x, hx, hmsg⟩ := mem_messagesTo hm
    have hhonest := h.honest honce
    obtain ⟨e', he', hm'⟩ := hhonest.published m (h.allPublished x hx peer m (by rw [hmsg]))
    obtain ⟨s', hs'⟩ := (hhonest.streamed e' he').exists_of_mem hm'
    obtain ⟨m₀, hm₀, -⟩ := hs.stream.first_mem
    have hsame : e'.SameSlot e := hs'.sameSlot hs hm' hm₀ (hstream.trans (hid m₀ hm₀).symm)
    rw [← honce.eq_of_sameSlot he' he hsame]
    exact hm'

/-- A node has kept what it has got. -/
theorem Run.isSome_of_arrived (h : Run (network config) steps n) (honce : OnePerSlot n.made)
    (hknown : Acquainted config) (he : e ∈ n.made) (hne : e.stream ≠ [])
    (hlow : ∀ x ∈ steps, x.2.1 = i → (x.1.nodes i).currentHeight ≤ e.height ∧
      Spares e.height x.2.2)
    {peer : PeerId} (hall : ∀ m ∈ e.stream, .receivedProposalPart peer m ∈ messagesTo i steps) :
    ((n.nodes i).store.ledger.proposal ⟨e.height, e.round⟩).isSome := by
  obtain ⟨j, s, hs, hkey, haddress⟩ := h.sender e he hne
  obtain ⟨w, hw, hpublic⟩ := hknown.known i j
  have hround := h.round_ne_nil e he
  obtain ⟨id, hdrawn⟩ : ∃ id, Drawn peer id e.stream (messagesTo i steps) :=
    h.drawn honce he hs hround
  obtain ⟨serverStarts, hnode, hbefore⟩ := h.node_eq i
  rw [hnode]
  refine proposal_of_arrived hs.stream hs.parts hround Db.WellFormed.empty rfl hdrawn ?_ hall
  intro before msg after heq
  obtain ⟨x, hx, hmsg, hstate⟩ := hbefore before msg after heq
  obtain ⟨hheight, hspares⟩ := hlow x hx (by rw [hmsg])
  rw [← hstate]
  refine ⟨⟨not_lt.mpr hheight, ?_⟩, by rw [hmsg] at hspares; exact hspares⟩
  have hgenesis : (x.1.nodes i).genesis = (config i).genesis := by
    rw [hstate, genesis_handleAll]
    rfl
  refine State.verifyProposalSignature_madeParts (w := w) e.value e.data ?_ ?_
  · rw [hgenesis, haddress]
    exact hw
  · rw [hpublic, hkey]
    exact hknown.verifies j _

/-- **What a node has obtained, it has.** -/
theorem Run.isSome_of_obtained (h : Run (network config) steps n) (honce : OnePerSlot n.made)
    (hknown : Acquainted config) (he : e ∈ n.made) (hobtained : Obtained i steps e)
    (hlow : ∀ x ∈ steps, x.2.1 = i → (x.1.nodes i).currentHeight ≤ e.height ∧
      Spares e.height x.2.2) :
    ((n.nodes i).store.ledger.proposal ⟨e.height, e.round⟩).isSome := by
  rcases hobtained with hmade | ⟨hne, peer, hall⟩
  · exact h.isSome_of_made (fun x hx hi => (hlow x hx hi).2) hmade
  · exact h.isSome_of_arrived honce hknown he hne hlow hall

/-! ## Decisions that do not fail -/

/-- A step of a node that is in step does not take it back. -/
theorem InStep.currentHeight_le {l : ι × AppMsg} (h : InStep n l) (j : ι) :
    (n.nodes j).currentHeight ≤ ((n.deliver l.1 l.2).nodes j).currentHeight := by
  obtain ⟨i, msg⟩ := l
  show _ ≤ (Function.update n.nodes i _ j).currentHeight
  by_cases hj : j = i
  · subst hj
    rw [Function.update_self]
    by_cases hmsg : ∃ c, msg = .decided c
    · obtain ⟨c, rfl⟩ := hmsg
      rcases decided_cases (h.2 c rfl) with ⟨-, hstate⟩ | ⟨p, -, -, hlt, hstate⟩
      · rw [hstate]
      · rw [hstate, State.currentHeight_afterCommit, Height.le_iff, UInt64.toNat_add]
        exact (Nat.le_succ _).trans (Nat.mod_eq_of_lt hlt).ge
    · push Not at hmsg
      exact (currentHeight_handle h.1 hmsg).ge
  · rw [Function.update_of_ne hj]

/-- As long as all steps are in step, a node has been at no height above the one it is at. -/
theorem Run.currentHeight_le (h : Run (network config) steps n)
    (hin : ∀ x ∈ steps, InStep x.1 x.2) :
    ∀ x ∈ steps, ∀ j, (x.1.nodes j).currentHeight ≤ (n.nodes j).currentHeight := by
  refine h.history_along (G := fun n l => InStep n l) (P := fun steps n => ∀ x ∈ steps, ∀ j,
    (x.1.nodes j).currentHeight ≤ (n.nodes j).currentHeight) ?_ ?_ hin
  · exact fun _ _ x hx => absurd hx List.not_mem_nil
  · rintro steps n l n' hprev hl ⟨-, rfl⟩ x hx j
    rcases List.mem_append.mp hx with hx | hx
    · exact (hprev x hx j).trans (hl.currentHeight_le j)
    · rw [List.mem_singleton.mp hx]
      exact hl.currentHeight_le j

/-- A decision is carried out: it does not fail, it is recorded with its certificate and the
value of some data, the data is settled and nothing else, and the node goes on to the next
height. -/
structure CarriedOut (s : State) (c : CommitCertificate) (data : Bytes) : Prop where
  handled : (handle (.decided c) s).result = .ok ()
  recorded : (handle (.decided c) s).state.store.getDecidedValue c.height =
    some ⟨Value.new data, c⟩
  settled : settledBlocks (handle (.decided c) s).effects = [(c.height, data)]
  next : (handle (.decided c) s).state.currentHeight.asU64.toNat = c.height.asU64.toNat + 1

/-- A decision on the height a node is at is carried out with the data of its slot, as long as
there is a next height. -/
theorem carriedOut_of_slot {s : State} (hdb : s.store.WellFormed) {c : CommitCertificate}
    (hheight : c.height = s.currentHeight) (hlt : c.height.asU64.toNat + 1 < 2 ^ 64)
    (hround : c.round ≠ .nil) {p : ProposedValue} {data : Bytes}
    (hslot : s.store.getUndecidedProposal c.height c.round = .ok (some p))
    (hvalue : p.value = Value.new data)
    (hdata : s.store.getBlockData c.height c.round = some data) : CarriedOut s c data := by
  rw [hheight] at hlt
  have hok : (handle (.decided c) s).result = .ok () := by
    have hcommit := State.commit_of_slot hslot hround
    rw [State.nextHeight_of_lt
      (s := s.afterWrites (writes (s.commitEffects c p))) hlt] at hcommit
    rw [handle, Action.bind_of_ok hcommit]
    rfl
  have hstate := (handle_decided_of_proposal hslot hround hok).2
  refine ⟨hok, ?_, settledBlocks_decided hslot hround hdata, ?_⟩
  · rw [hstate, getDecidedValue_afterCommit hdb hround, hvalue]
  · rw [hstate, State.currentHeight_afterCommit, UInt64.toNat_add, hheight]
    exact Nat.mod_eq_of_lt hlt

/-- **A proposal that has been obtained is decided**: the decision is carried out with the data
that was proposed. -/
theorem Run.decides (h : Run (network config) steps n) (honce : OnePerSlot n.made)
    (hknown : Acquainted config) (hin : ∀ x ∈ steps, InStep x.1 x.2) {c : CommitCertificate}
    (hheight : c.height = (n.nodes i).currentHeight) (hlt : c.height.asU64.toNat + 1 < 2 ^ 64)
    (he : e ∈ n.made) (heheight : e.height = c.height) (heround : e.round = c.round)
    (hobtained : Obtained i steps e) : CarriedOut (n.nodes i) c e.data := by
  -- the node has been at no later height, so nothing has pruned the slot
  have hlow : ∀ x ∈ steps, x.2.1 = i → (x.1.nodes i).currentHeight ≤ e.height ∧
      Spares e.height x.2.2 := by
    intro x hx hi
    have hle : (x.1.nodes i).currentHeight ≤ e.height := by
      rw [heheight, hheight]
      exact h.currentHeight_le hin x hx i
    refine ⟨hle, fun c' hc' => not_lt.mpr ((Height.saturatingSub_le _ _).trans ?_)⟩
    have hof := (hin x hx).1
    rw [hc', hi] at hof
    have hof : c'.height = (x.1.nodes i).currentHeight := hof
    rw [hof]
    exact hle
  have hsome := h.isSome_of_obtained honce hknown he hobtained hlow
  rw [heheight, heround] at hsome
  obtain ⟨p, hp⟩ := Option.isSome_iff_exists.mp hsome
  obtain ⟨hdb, hcomplete⟩ := h.complete i
  obtain ⟨data, hdata⟩ := hcomplete _ p hp
  have hdrawn := ((h.honest honce).nodes i).drawn
  -- what has been made for the slot is the proposal
  have hsame : ∀ {data' : Bytes}, MadeFor n.made ⟨c.height, c.round⟩ data' → data' = e.data := by
    rintro data' ⟨e', he', heheight', heround', rfl⟩
    have hsame : e' = e := honce.eq_of_sameSlot he' he
      ⟨heheight'.trans heheight.symm, heround'.trans heround.symm⟩
    rw [hsame]
  obtain ⟨data', hmade, hvalue⟩ := hdrawn.proposal _ p hp
  rw [hsame hmade] at hvalue
  refine carriedOut_of_slot hdb hheight hlt (heround ▸ h.round_ne_nil e he) ?_ hvalue ?_
  · rw [hdb.getUndecidedProposal_eq, hp]
  · rw [Db.getBlockData_eq, Ledger.blockDataAt, hdata, hsame (hdrawn.blockData _ _ hdata)]
    rfl

/-- Consensus keeps to its side: it starts rounds of the height a node is at, and decides on
that height, if it is not the last one, for a proposal that the node has obtained. -/
def Informed (before : List (Network ι × (ι × AppMsg))) (n : Network ι) (l : ι × AppMsg) :
    Prop :=
  match l.2 with
  | .startedRound height _ _ => height = (n.nodes l.1).currentHeight
  | .decided c => c.height = (n.nodes l.1).currentHeight ∧ c.height.asU64.toNat + 1 < 2 ^ 64 ∧
      ∃ e ∈ n.made, e.height = c.height ∧ e.round = c.round ∧ Obtained l.1 before e
  | _ => True

/-- A step of a run that carries out, if it decides, what has been proposed. -/
def Settles (made : List Made) (x : Network ι × (ι × AppMsg)) : Prop :=
  InStep x.1 x.2 ∧ ∀ c, x.2.2 = .decided c →
    ∃ e ∈ made, e.height = c.height ∧ e.round = c.round ∧
      CarriedOut (x.1.nodes x.2.1) c e.data

/-- Step by step: what a decision is on has been kept, as the steps before it were in step. -/
theorem Run.allSettle (hrun : Run (network config) steps n) (honce : OnePerSlot n.made)
    (hknown : Acquainted config)
    (hinformed : ∀ k x, steps[k]? = some x → Informed (steps.take k) x.1 x.2) :
    ∀ x ∈ steps, Settles n.made x := by
  refine hrun.history_after
    (P := fun steps n => OnePerSlot n.made → ∀ x ∈ steps, Settles n.made x)
    (G := fun before n l => Run (network config) before n ∧ Informed before n l) ?_ ?_
    (fun k x hx => ⟨hrun.take hx, hinformed k x hx⟩) honce
  · exact fun _ _ _ x hx => absurd hx List.not_mem_nil
  · rintro steps n ⟨i, msg⟩ n' ih ⟨hrun, hlast⟩ ⟨-, rfl⟩ honce
    have honce' : OnePerSlot n.made := (List.pairwise_append.mp honce).1
    have hprev := ih honce'
    intro x hx
    rcases List.mem_append.mp hx with hx | hx
    · obtain ⟨hin, hsettled⟩ := hprev x hx
      refine ⟨hin, fun c hc => ?_⟩
      obtain ⟨e, he, hfacts⟩ := hsettled c hc
      exact ⟨e, List.mem_append_left _ he, hfacts⟩
    · obtain rfl := List.mem_singleton.mp hx
      cases msg with
      | decided c =>
          obtain ⟨hheight, hlt, e, he, heheight, heround, hobtained⟩ := hlast
          have hdecides := hrun.decides honce' hknown (fun x hx => (hprev x hx).1)
            hheight hlt he heheight heround hobtained
          refine ⟨⟨hheight, fun _ _ => hdecides.handled⟩, fun c' hc' => ?_⟩
          obtain rfl := AppMsg.decided.inj hc'
          exact ⟨e, List.mem_append_left _ he, heheight, heround, hdecides⟩
      | startedRound height round proposer =>
          exact ⟨⟨hlast, fun c hc => absurd hc (by simp)⟩, fun c hc => absurd hc (by simp)⟩
      | _ => exact ⟨⟨trivial, fun c hc => absurd hc (by simp)⟩, fun c hc => absurd hc (by simp)⟩

/-- **Decisions on what has been delivered do not fail.**  In a run of nodes that know each
other, in which no slot is proposed for twice, let consensus tell a node only of rounds of the
height it is at and of decisions on that height, if there is one above it, for a proposal that
the node has made itself or got in full from one peer, in any order and among any other
messages.  Then every node keeps in step: each decision is handled, is recorded with the value
of the proposal, settles the block of the proposal and nothing else, and takes the node to the
next height. -/
theorem decisions_succeed (hrun : Run (network config) steps n) (honce : OnePerSlot n.made)
    (hknown : Acquainted config)
    (hinformed : ∀ k x, steps[k]? = some x → Informed (steps.take k) x.1 x.2) :
    ∀ x ∈ steps, InStep x.1 x.2 ∧ ∀ c, x.2.2 = .decided c →
      ∃ e ∈ n.made, e.height = c.height ∧ e.round = c.round ∧
        CarriedOut (x.1.nodes x.2.1) c e.data :=
  hrun.allSettle honce hknown hinformed

/-! ## Runs to look at -/

deriving instance DecidableEq for Made

/-- The peers that a part has come from. -/
def peersOf (msgs : List AppMsg) : List PeerId :=
  msgs.filterMap fun
    | .receivedProposalPart peer _ => some peer
    | _ => none

omit [Prost] [Payload] [Crypto] in
theorem exists_peer_iff {stream : List (StreamMessage ProposalPart)} {msgs : List AppMsg} :
    (stream ≠ [] ∧ ∃ peer ∈ peersOf msgs, ∀ m ∈ stream, .receivedProposalPart peer m ∈ msgs) ↔
      stream ≠ [] ∧ ∃ peer, ∀ m ∈ stream, .receivedProposalPart peer m ∈ msgs := by
  refine and_congr_right fun hne => ⟨fun ⟨peer, _, hall⟩ => ⟨peer, hall⟩, fun ⟨peer, hall⟩ => ?_⟩
  obtain ⟨m, hm⟩ := List.exists_mem_of_ne_nil stream hne
  exact ⟨peer, List.mem_filterMap.mpr ⟨_, hall m hm, rfl⟩, hall⟩

instance (i : ι) (steps : List (Network ι × (ι × AppMsg))) (e : Made) :
    Decidable (Obtained i steps e) :=
  have : Decidable (e.stream ≠ [] ∧ ∃ peer, ∀ m ∈ e.stream,
      .receivedProposalPart peer m ∈ messagesTo i steps) := decidable_of_iff _ exists_peer_iff
  inferInstanceAs (Decidable (_ ∨ _))

instance (before : List (Network ι × (ι × AppMsg))) (n : Network ι) (l : ι × AppMsg) :
    Decidable (Informed before n l) := by
  unfold Informed
  split <;> infer_instance

end Network

section Demo

attribute [local instance] demoCrypto Prost.reference demoPayload

theorem demoConfigs_acquainted : Acquainted demoConfigs where
  known i j := by
    have hknown : ∀ i j : Fin 2, (demoConfigs i).genesis.validatorSet.getByAddress
        (Address.fromPublicKey (Crypto.publicKey (demoConfigs j).signingKey)) =
          some (Validator.new (demoConfigs j).signingKey 1) := by decide +kernel
    exact ⟨_, hknown i j, rfl⟩
  verifies _ hash := demoCrypto_accepts _ hash

theorem decisions_succeed_demo :
    (demoFirst, .decided (demoCertificate 7)) ∈ demoDeliveries ∧
      ∀ x ∈ demoNetwork.deliveries demoDeliveries, InStep x.1 x.2 ∧
        ∀ c, x.2.2 = .decided c → ∃ data, CarriedOut (x.1.nodes x.2.1) c data := by
  have hstart : Run (network demoConfigs) [] demoNetwork := .start ⟨fun _ => true, rfl⟩
  have hrun := hstart.deliverInTurn demoDeliveries (by decide +kernel)
  have hinformed : ∀ k < (demoNetwork.deliveries demoDeliveries).length,
      ∀ x ∈ (demoNetwork.deliveries demoDeliveries)[k]?,
        Informed ((demoNetwork.deliveries demoDeliveries).take k) x.1 x.2 := by decide +kernel
  refine ⟨by decide +kernel, fun x hx => ?_⟩
  obtain ⟨hin, hdecides⟩ := decisions_succeed hrun (by decide +kernel) demoConfigs_acquainted
    (fun k x hx => hinformed k (List.getElem?_eq_some_iff.mp hx).1 x hx) x hx
  refine ⟨hin, fun c hc => ?_⟩
  obtain ⟨e, -, -, -, hcarried⟩ := hdecides c hc
  exact ⟨e.data, hcarried⟩

end Demo
end MalakethTurbo
