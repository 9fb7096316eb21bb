import MalakethTurbo.App.Proposals
import Mathlib.Data.List.Pairwise

/-!
# A network of nodes

Any number of nodes, each started on an empty store and never restarted.  A step
hands one message to one node.  What is published stays in flight for good, so a part
can be delivered at any time, in any order, any number of times, to any node and under
any peer; all other messages are up to consensus.

Two logs are kept for the statements: the proposals that have been made, each with the
stream it was published in, and the certificates that have been delivered.  A node whose
handler fails keeps the state the failure left; that it may be handed further messages
is more than the program allows.

As long as no slot is proposed for twice, the identifier of a stream tells whose stream
it is, and every entry of every reassembler follows one published stream (`Follows`).
-/

namespace MalakethTurbo

open Wire (Bytes)

/-! ## The network -/

/-- A proposal that has been made, with the messages it was published in. -/
structure Made where
  height : Height
  round : Round
  data : Bytes
  stream : List (StreamMessage ProposalPart)

/-- The nodes, what is in flight, and what has happened. -/
structure Network (ι : Type) where
  nodes : ι → State
  inFlight : List (StreamMessage ProposalPart)
  made : List Made
  certificates : List CommitCertificate

section Network

variable [Crypto] [Prost] [Payload]

/-- The proposal a node makes while it handles a message: what it passes to
`State.proposeValue`, unless that fails. -/
def madeBy (s : State) : AppMsg → List Made
  | .getValue height round =>
      match State.makeBlock s with
      | ⟨.ok data, s', _⟩ =>
          match (State.proposeValue height round data s').result with
          | .ok _ =>
              [⟨height, round, data, published (handle (.getValue height round) s).effects⟩]
          | .error _ => []
      | ⟨.error _, _, _⟩ => []
  | _ => []

/-- The certificate that a message delivers. -/
def certifiedBy : AppMsg → List CommitCertificate
  | .decided certificate => [certificate]
  | _ => []

namespace Network

variable {ι : Type}

/-- A part can be delivered once it has been published. -/
def Deliverable (n : Network ι) : AppMsg → Prop
  | .receivedProposalPart _ part => part ∈ n.inFlight
  | _ => True

instance (n : Network ι) (msg : AppMsg) : Decidable (n.Deliverable msg) := by
  unfold Deliverable
  split <;> infer_instance

/-- A node handles a message. -/
def deliver [DecidableEq ι] (n : Network ι) (i : ι) (msg : AppMsg) : Network ι where
  nodes := Function.update n.nodes i (handle msg (n.nodes i)).state
  inFlight := n.inFlight ++ published (handle msg (n.nodes i)).effects
  made := n.made ++ madeBy (n.nodes i) msg
  certificates := n.certificates ++ certifiedBy msg

end Network

/-- The network of nodes with the given configurations. -/
def network {ι : Type} [DecidableEq ι] (config : ι → Config) : System (Network ι) (ι × AppMsg) where
  init n := ∃ serverStarts : ι → Bool,
    n = ⟨fun i => State.new (config i) Db.empty (serverStarts i), [], [], []⟩
  step n l n' := n.Deliverable l.2 ∧ n' = n.deliver l.1 l.2

/-! ## Proposals and their streams -/

namespace Made

/-- The value of a proposal, as its proposer replies with it. -/
def value (e : Made) : LocallyProposedValue := ⟨e.height, e.round, Value.new e.data⟩

/-- Two proposals for one slot. -/
def SameSlot (e e' : Made) : Prop := e.height = e'.height ∧ e.round = e'.round

instance (e e' : Made) : Decidable (e.SameSlot e') := inferInstanceAs (Decidable (_ ∧ _))

/-- A proposal has been streamed from a state of its proposer. -/
structure StreamedBy (e : Made) (s : State) : Prop where
  stream : IsStream e.stream (s.initOf e.value)
  parts : handedOut e.stream (s.initOf e.value) = s.madeParts e.value e.data
  height : s.currentHeight = e.height
  streamId : ∃ round, e.round = .some round ∧
    ∀ m ∈ e.stream, m.streamId = s.nextStreamId round

/-- A proposal has been streamed, unless its proposer failed before it could. -/
def Streamed (e : Made) : Prop := e.stream = [] ∨ ∃ s, e.StreamedBy s

omit [Prost] [Payload] in
theorem Streamed.exists_of_mem {e : Made} (h : e.Streamed) {m : StreamMessage ProposalPart}
    (hm : m ∈ e.stream) : ∃ s, e.StreamedBy s := by
  rcases h with hnil | hstreamed
  · rw [hnil] at hm
    exact absurd hm List.not_mem_nil
  · exact hstreamed

omit [Prost] [Payload] in
/-- **A stream identifier names a slot.** -/
theorem StreamedBy.sameSlot {e e' : Made} {s s' : State} (h : e.StreamedBy s)
    (h' : e'.StreamedBy s') {m m' : StreamMessage ProposalPart} (hm : m ∈ e.stream)
    (hm' : m' ∈ e'.stream) (heq : m.streamId = m'.streamId) : e.SameSlot e' := by
  obtain ⟨round, hround, hid⟩ := h.streamId
  obtain ⟨round', hround', hid'⟩ := h'.streamId
  rw [hid m hm, hid' m' hm'] at heq
  have hbytes := StreamId.mk.inj heq
  obtain ⟨hslot, -⟩ := List.append_inj hbytes (by simp)
  obtain ⟨hheights, hrounds⟩ := List.append_inj hslot (by simp)
  constructor
  · rw [← h.height, ← h'.height]
    exact congrArg Height.mk (u64Bytes_injective hheights)
  · rw [hround, hround', u32Bytes_injective hrounds]

end Made

variable {s : State} {msg : AppMsg}

/-- Only a request for a value makes a node publish. -/
theorem published_handle (h : ∀ height round, msg ≠ .getValue height round) :
    published (handle msg s).effects = [] := by
  rcases handle_cases s msg with ⟨p, data, hover⟩ | ⟨c, rfl⟩ | hquiet
  · cases msg with
    | getValue height round => exact absurd rfl (h height round)
    | receivedProposalPart peer part =>
        rw [hover.handle_receivedProposalPart, published_append, published_map_write]
        rfl
    | _ => nomatch hover
  · exact (handle_decided c).2.1
  · exact hquiet.published_eq

/-- A request that no value is handed over for makes no proposal. -/
theorem madeBy_of_not {height : Height} {round : Round}
    (h : ∀ p data, ¬ HandsOver s (.getValue height round) p data) :
    madeBy s (.getValue height round) = [] := by
  unfold madeBy
  rw [State.makeBlock_run]
  rcases hblock : (s.blockProposer.proposeBlock s.currentHeight.asU64).1 with e | data
  · rfl
  · dsimp only
    generalize hs : ({ s with
      blockProposer := (s.blockProposer.proposeBlock s.currentHeight.asU64).2 } : State) = s'
    rcases hv : (State.proposeValue height round data s').result with e | v
    · rfl
    · obtain ⟨hheight, hround, hne, -⟩ := State.proposeValue_of_ok hv
      rw [← hs] at hheight hround
      subst hheight hround
      exact absurd (.propose hblock hne) (h _ data)

/-- One that a value is handed over for makes one proposal, and publishes its stream. -/
theorem madeBy_of_handsOver {height : Height} {round : Round} {p : ProposedValue} {data : Bytes}
    (h : HandsOver s (.getValue height round) p data) :
    p.height = height ∧ p.round = round ∧
      madeBy s (.getValue height round) =
        [⟨height, round, data, published (handle (.getValue height round) s).effects⟩] := by
  cases h with
  | propose hblock hround =>
      refine ⟨rfl, rfl, ?_⟩
      obtain ⟨ws, -, hpropose⟩ := State.proposeValue_run
        (s := { s with
          blockProposer := (s.blockProposer.proposeBlock s.currentHeight.asU64).2 })
        hround data
      unfold madeBy
      rw [State.makeBlock_run, hblock]
      dsimp only
      rw [hpropose]

/-- **A proposal that is made is handed over, kept and streamed**, and nothing else is
published. -/
theorem madeBy_cases (s : State) (msg : AppMsg) :
    (madeBy s msg = [] ∧ published (handle msg s).effects = []) ∨
      ∃ e, madeBy s msg = [e] ∧ published (handle msg s).effects = e.stream ∧ e.Streamed ∧
        ∃ p, HandsOver s msg p e.data ∧ p.height = e.height ∧ p.round = e.round := by
  by_cases hget : ∃ height round, msg = .getValue height round
  · obtain ⟨height, round, rfl⟩ := hget
    by_cases hover : ∃ p data, HandsOver s (.getValue height round) p data
    · obtain ⟨p, data, hover⟩ := hover
      obtain ⟨hheight, hround, hmade⟩ := madeBy_of_handsOver hover
      refine Or.inr ⟨_, hmade, rfl, ?_, p, hover, hheight, hround⟩
      obtain ⟨s', msgs, hheight', hround', -, hmsgs, heffects⟩ := hover.handle_getValue
      have hpublished : published (handle (.getValue height round) s).effects = msgs := by
        rw [heffects, published_append, published_map_write, published_reply_cons,
          published_map_publish]
        rfl
      rw [hpublished]
      rcases hmsgs with rfl | hok
      · exact Or.inl rfl
      · rw [hheight, hround, hover.value_eq] at hok
        obtain ⟨hstream, hparts, r, hr, hid⟩ := State.isStream_of_ok hok
        exact Or.inr ⟨s', hstream, hparts, hheight', r, by rw [← hr, hround'], hid⟩
    · push Not at hover
      rw [madeBy_of_not hover, handle_getValue_of_not hover]
      exact Or.inl ⟨rfl, rfl⟩
  · push Not at hget
    refine Or.inl ⟨?_, published_handle hget⟩
    cases msg with
    | getValue height round => exact absurd rfl (hget height round)
    | _ => rfl

/-! ## What a node has of the streams -/

/-- No slot is proposed for twice. -/
def OnePerSlot (made : List Made) : Prop := made.Pairwise fun e e' => ¬ e.SameSlot e'

instance (made : List Made) : Decidable (OnePerSlot made) :=
  inferInstanceAs (Decidable (made.Pairwise fun e e' => ¬ e.SameSlot e'))

omit [Crypto] [Prost] [Payload] in
theorem OnePerSlot.eq_of_sameSlot {made : List Made} (h : OnePerSlot made) {e e' : Made}
    (he : e ∈ made) (he' : e' ∈ made) (hslot : e.SameSlot e') : e = e' := by
  by_contra hne
  have hsymm : Std.Symm fun e e' : Made => ¬ e.SameSlot e' :=
    ⟨fun e e' hnot hsame => hnot ⟨hsame.1.symm, hsame.2.symm⟩⟩
  exact h.forall he he' hne hslot

/-- What a node has of a stream: nothing yet, or some messages of one stream that has
been published. -/
def Follows (made : List Made) (id : StreamId) (st : StreamState) : Prop :=
  st = default ∨ ∃ e ∈ made, ∃ s, e.StreamedBy s ∧ (∀ m ∈ e.stream, m.streamId = id) ∧
    Tracked e.stream (s.initOf e.value) st

section Streams

variable {ε : Type} {made : List Made} {e : Made} {m : StreamMessage ProposalPart}
  {st : StreamState}

omit [Prost] [Payload] in
theorem Follows.mono {made' : List Made} (hsub : made ⊆ made') {id : StreamId}
    (h : Follows made id st) : Follows made' id st := by
  rcases h with hnew | ⟨e, he, s, hs, hid, htracked⟩
  · exact Or.inl hnew
  · exact Or.inr ⟨e, hsub he, s, hs, hid, htracked⟩

omit [Prost] [Payload] in
/-- A message that arrives belongs to the stream that is followed under its identifier. -/
theorem Follows.tracked (honce : OnePerSlot made) (h : Follows made m.streamId st)
    (he : e ∈ made) (hstreamed : e.Streamed) (hm : m ∈ e.stream) :
    ∃ s, e.StreamedBy s ∧ Tracked e.stream (s.initOf e.value) st := by
  obtain ⟨s, hs⟩ := hstreamed.exists_of_mem hm
  rcases h with rfl | ⟨e', he', s', hs', hid, htracked⟩
  · exact ⟨s, hs, Or.inl (receiving_default hs.stream)⟩
  · obtain ⟨m', hm', -⟩ := hs'.stream.first_mem
    have hsame : e' = e := honce.eq_of_sameSlot he' he (hs'.sameSlot hs hm' hm (hid m' hm'))
    subst hsame
    exact ⟨s', hs', htracked⟩

omit [Prost] [Payload] in
/-- What a reassembler hands out is a proposal that has been made, and it goes on following
published streams. -/
theorem insert_of_follows {map map' : PartStreamsMap} {peer : PeerId}
    {o : Option ProposalParts} (honce : OnePerSlot made)
    (h : ∀ key, Follows made key.streamId (map.entry key)) (he : e ∈ made)
    (hstreamed : e.Streamed) (hm : m ∈ e.stream)
    (hinsert : map.insert peer m = (.ok (o, map') : Call ε _)) :
    (∀ parts, o = some parts → ∃ s, e.StreamedBy s ∧ parts = s.madeParts e.value e.data) ∧
      ∀ key, Follows made key.streamId (map'.entry key) := by
  obtain ⟨s, hs, htracked⟩ := (h ⟨peer, m.streamId⟩).tracked honce he hstreamed hm
  obtain ⟨map₂, hinsert₂, htracked₂, -⟩ :=
    PartStreamsMap.insert_of_tracked (ε := ε) hs.stream htracked hm
  rw [hinsert] at hinsert₂
  obtain ⟨ho, hmap⟩ := Prod.mk.inj (Except.ok.inj hinsert₂)
  refine ⟨fun parts hparts => ⟨s, hs, ?_⟩, fun key => ?_⟩
  · rw [ho] at hparts
    split_ifs at hparts
    rw [← Option.some.inj hparts, hs.parts]
  · by_cases hkey : key = ⟨peer, m.streamId⟩
    · obtain ⟨round, -, hid⟩ := hs.streamId
      rw [hkey, hmap]
      exact Or.inr ⟨e, he, s, hs, fun m' hm' => by rw [hid m' hm', hid m hm], htracked₂⟩
    · rw [PartStreamsMap.entry_of_ne hinsert hkey]
      exact h key

/-- The messages a node is handed: a part must have been published. -/
def Published (made : List Made) : AppMsg → Prop
  | .receivedProposalPart _ part => ∃ e ∈ made, part ∈ e.stream
  | _ => True

/-- **The streams of a node.**  Whatever a node handles, it follows published streams. -/
theorem follows_handle (honce : OnePerSlot made) (hstreamed : ∀ e ∈ made, e.Streamed)
    (h : ∀ key, Follows made key.streamId (s.streamsMap.entry key))
    (hmsg : Published made msg) (key : StreamKey) :
    Follows made key.streamId ((handle msg s).state.streamsMap.entry key) := by
  rcases streamsMap_handle_cases s msg with hsame | ⟨peer, part, o, rfl, hinsert⟩
  · rw [hsame]
    exact h key
  · obtain ⟨e, he, hm⟩ := hmsg
    exact (insert_of_follows honce h he (hstreamed e he) hm hinsert).2 key

omit [Prost] in
/-- **A peer's proposal that a node keeps has been made.** -/
theorem made_of_handsOver (honce : OnePerSlot made) (hstreamed : ∀ e ∈ made, e.Streamed)
    (h : ∀ key, Follows made key.streamId (s.streamsMap.entry key)) {peer : PeerId}
    {part : StreamMessage ProposalPart} (hmsg : Published made (.receivedProposalPart peer part))
    {p : ProposedValue} {data : Bytes}
    (hover : HandsOver s (.receivedProposalPart peer part) p data) :
    ∃ e ∈ made, e.height = p.height ∧ e.round = p.round ∧ e.data = data := by
  obtain ⟨e, he, hm⟩ := hmsg
  cases hover with
  | receive hpart hinsert haccept hround =>
      obtain ⟨s', hs', rfl⟩ :=
        (insert_of_follows honce h he (hstreamed e he) hm hinsert).1 _ rfl
      rw [State.assembleValueFromParts_madeParts]
      exact ⟨e, he, rfl, rfl, rfl⟩

end Streams

end Network

end MalakethTurbo
