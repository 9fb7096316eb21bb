import MalakethTurbo.App.Network
import MalakethTurbo.Codec.RoundTrip
import MalakethTurbo.Logic.Refinement

/-!
# Proposals on the wire

The network of nodes hands over messages.  What travels between nodes is bytes: a part that is
published is encoded and sent, and a node that gets bytes handles what it decodes from them.
Bytes that do not decode are dropped before they reach the application.

A part that is published names its round, so it can be encoded, and its bytes are decoded as
itself (`roundTrips_of_published`).  The network with bytes in flight is therefore the network
with messages in flight, run by run and in both directions (`wires_run_network`), and what is
proved about runs of the one holds of the other.
-/

namespace MalakethTurbo

open Wire (Bytes)
open ProtobufCodec (streamMessage)

/-! ## The network with bytes in flight -/

/-- What reaches a node: a message of consensus, or bytes from a peer. -/
inductive Arrival where
  | consensus (msg : AppMsg) : Arrival
  | gossip (peer : PeerId) (bytes : Bytes) : Arrival

/-- The nodes, the bytes that have been sent, and what has happened. -/
structure Wires (ι : Type) where
  nodes : ι → State
  sent : List Bytes
  made : List Made
  certificates : List CommitCertificate

section Codec

variable [Prost]

/-- The bytes of the messages that can be encoded. -/
def encoded (msgs : List (StreamMessage ProposalPart)) : List Bytes :=
  msgs.filterMap fun m => (streamMessage.encode m).toOption

/-- The message that is decoded from bytes. -/
def decoded (bytes : Bytes) : Option (StreamMessage ProposalPart) :=
  (streamMessage.decode bytes).toOption

/-- The message that a node handles. -/
def Arrival.message : Arrival → Option AppMsg
  | consensus msg => some msg
  | gossip peer bytes => (decoded bytes).map (.receivedProposalPart peer)

/-- The delivery that an arrival comes to. -/
def told {ι : Type} (l : ι × Arrival) : Option (ι × AppMsg) := l.2.message.map (l.1, ·)

/-- The network in terms of messages: what can be decoded is in flight. -/
def Wires.toNetwork {ι : Type} (w : Wires ι) : Network ι where
  nodes := w.nodes
  inFlight := w.sent.filterMap decoded
  made := w.made
  certificates := w.certificates

/-- Messages that make the round trip are in flight as they have been sent. -/
theorem decoded_encoded {msgs : List (StreamMessage ProposalPart)}
    (h : ∀ m ∈ msgs, streamMessage.RoundTrips m) : (encoded msgs).filterMap decoded = msgs := by
  induction msgs with
  | nil => rfl
  | cons m msgs ih =>
      obtain ⟨b, hencode, hdecode⟩ := h m List.mem_cons_self
      have hsent : encoded (m :: msgs) = b :: encoded msgs := by
        rw [encoded, List.filterMap_cons_some (b := b) (by rw [hencode]; rfl)]
        rfl
      have hread : decoded b = some m := by
        rw [decoded, hdecode]
        rfl
      rw [hsent, List.filterMap_cons_some hread, ih fun m hm => h m (List.mem_cons_of_mem _ hm)]

end Codec

section Transport

variable [Crypto] [Prost] [Payload] {ι : Type} [DecidableEq ι] {config : ι → Config}

/-- A node handles a message, and sends what it publishes. -/
def Wires.handle (w : Wires ι) (i : ι) (msg : AppMsg) : Wires ι where
  nodes := Function.update w.nodes i (MalakethTurbo.handle msg (w.nodes i)).state
  sent := w.sent ++ encoded (published (MalakethTurbo.handle msg (w.nodes i)).effects)
  made := w.made ++ madeBy (w.nodes i) msg
  certificates := w.certificates ++ certifiedBy msg

/-- What a node does with what reaches it. -/
def Wires.arrive (w : Wires ι) (i : ι) (a : Arrival) : Wires ι :=
  match a.message with
  | some msg => w.handle i msg
  | none => w

/-- What can reach a node.  Parts come from peers only; their bytes have been sent, or they
are garbage. -/
def Wires.Reaches (w : Wires ι) : Arrival → Prop
  | .consensus msg => ∀ peer part, msg ≠ .receivedProposalPart peer part
  | .gossip _ bytes => bytes ∈ w.sent ∨ decoded bytes = none

/-- The network of nodes with the given configurations, over the wire. -/
def wires (config : ι → Config) : System (Wires ι) (ι × Arrival) where
  init w := ∃ serverStarts : ι → Bool,
    w = ⟨fun i => State.new (config i) Db.empty (serverStarts i), [], [], []⟩
  step w l w' := w.Reaches l.2 ∧ w' = w.arrive l.1 l.2

/-! ## The same network -/

omit [Prost] [Payload] in
/-- A part of a proposal that has been streamed names its round. -/
theorem Made.StreamedBy.expressible {e : Made} {s : State} (h : e.StreamedBy s)
    {m : StreamMessage ProposalPart} (hm : m ∈ e.stream) : m.Expressible := by
  intro part hpart
  obtain ⟨round, hround, -⟩ := h.streamId
  cases part with
  | init first =>
      obtain rfl := State.init_of_mem h.parts hm hpart
      show e.round ≠ .nil
      rw [hround]
      simp
  | data _ => trivial
  | fin _ => trivial

/-- **What is published can be sent**: it is encoded, and decoded as itself. -/
theorem roundTrips_of_published {s : State} {msg : AppMsg} {m : StreamMessage ProposalPart}
    (hm : m ∈ published (handle msg s).effects) : streamMessage.RoundTrips m := by
  rcases madeBy_cases s msg with ⟨-, hnone⟩ | ⟨e, -, hpublished, hstreamed, -⟩
  · rw [hnone] at hm
    exact absurd hm List.not_mem_nil
  · rw [hpublished] at hm
    obtain ⟨s', hs'⟩ := hstreamed.exists_of_mem hm
    exact (StreamMessage.restores (hs'.expressible hm)).roundTrips

/-- Handling a message is delivering it. -/
theorem Wires.toNetwork_handle (w : Wires ι) (i : ι) (msg : AppMsg) :
    (w.handle i msg).toNetwork = w.toNetwork.deliver i msg := by
  have hflight : (w.handle i msg).toNetwork.inFlight =
      (w.toNetwork.deliver i msg).inFlight := by
    show (w.sent ++ encoded _).filterMap decoded = _
    rw [List.filterMap_append, decoded_encoded fun m hm => roundTrips_of_published hm]
    rfl
  rw [Network.mk.injEq]
  exact ⟨rfl, hflight, rfl, rfl⟩

omit [Crypto] [Payload] [DecidableEq ι] in
/-- What reaches a node over the wire can be delivered to it. -/
theorem Wires.Reaches.deliverable {w : Wires ι} {a : Arrival} {msg : AppMsg} (h : w.Reaches a)
    (hmsg : a.message = some msg) : w.toNetwork.Deliverable msg := by
  cases a with
  | consensus msg' =>
      obtain rfl := Option.some.inj hmsg
      cases msg' with
      | receivedProposalPart peer part => exact absurd rfl (h peer part)
      | _ => trivial
  | gossip peer bytes =>
      obtain ⟨m, hm, rfl⟩ := Option.map_eq_some_iff.mp hmsg
      rcases h with hsent | hgarbage
      · exact List.mem_filterMap.mpr ⟨bytes, hsent, hm⟩
      · exact absurd (hm.symm.trans hgarbage) (by simp)

omit [Crypto] [Payload] [DecidableEq ι] in
/-- What can be delivered can reach the node over the wire. -/
theorem Wires.exists_reaches {w : Wires ι} {msg : AppMsg} (h : w.toNetwork.Deliverable msg) :
    ∃ a, w.Reaches a ∧ a.message = some msg := by
  cases msg with
  | receivedProposalPart peer part =>
      obtain ⟨bytes, hsent, hpart⟩ := List.mem_filterMap.mp h
      exact ⟨.gossip peer bytes, Or.inl hsent, by rw [Arrival.message, hpart]; rfl⟩
  | _ => exact ⟨.consensus _, fun _ _ => by simp, rfl⟩

/-- The steps of a run over the wire, in terms of messages: garbage is left out. -/
def toldAsMessages (steps : List (Wires ι × (ι × Arrival))) : List (Network ι × (ι × AppMsg)) :=
  steps.filterMap fun x => (told x.2).map (x.1.toNetwork, ·)

/-- **The wire makes no difference.**  A run with bytes in flight, told in messages, is a run
with messages in flight, state by state, whatever garbage the nodes get in between.  And every
run with messages in flight is such a run: nothing that is published is lost by its encoding,
and nothing is decoded as anything else. -/
theorem wires_run_network :
    (∀ {steps w}, Run (wires config) steps w →
      Run (network config) (toldAsMessages steps) w.toNetwork) ∧
      ∀ {steps n}, Run (network config) steps n →
        ∃ steps' w, Run (wires config) steps' w ∧ toldAsMessages steps' = steps ∧
          w.toNetwork = n := by
  constructor
  · intro steps w h
    refine h.project Wires.toNetwork told ?_ ?_
    · rintro w ⟨serverStarts, rfl⟩
      exact ⟨serverStarts, rfl⟩
    · rintro w ⟨i, a⟩ w' ⟨hreaches, rfl⟩
      cases hmsg : a.message with
      | none =>
          refine Or.inr ⟨by rw [told, hmsg]; rfl, ?_⟩
          rw [Wires.arrive, hmsg]
      | some msg =>
          refine Or.inl ⟨(i, msg), by rw [told, hmsg]; rfl, hreaches.deliverable hmsg, ?_⟩
          rw [Wires.arrive, hmsg]
          exact w.toNetwork_handle i msg
  · intro steps n h
    induction h with
    | start hinit =>
        obtain ⟨serverStarts, rfl⟩ := hinit
        exact ⟨[], _, .start ⟨serverStarts, rfl⟩, rfl, rfl⟩
    | @next steps n n' l _ hstep ih =>
        obtain ⟨steps', w, hrun, rfl, rfl⟩ := ih
        obtain ⟨i, msg⟩ := l
        obtain ⟨hdeliverable, rfl⟩ := hstep
        obtain ⟨a, hreaches, hmsg⟩ := w.exists_reaches hdeliverable
        have hnext : (wires config).step w (i, a) (w.handle i msg) :=
          ⟨hreaches, by rw [Wires.arrive, hmsg]⟩
        refine ⟨_, _, hrun.next hnext, ?_, w.toNetwork_handle i msg⟩
        rw [toldAsMessages, List.filterMap_append]
        congr 1
        simp [told, hmsg]

end Transport
end MalakethTurbo
