import MalakethTurbo.App.Run
import MalakethTurbo.Codec.RoundTrip

/-!
# Serving decided values

A node that is behind is sent decided values by its peers.  The value passes through four
encodings: the table it is read from, the bytes it is served as, the wire, and the table
of certificates beside it.  Whatever is in the tables of a node, what it serves arrives at
any other node as the very same value, and the certificate survives the wire
(`Faithful`).

Bytes that no node has served are another matter.  The receiver reads them before anything
vouches for them, and it unwraps what it reads: it answers exactly the bytes that parse as
the message of a value (`sync_served_and_processed_iff`).
-/

namespace MalakethTurbo

open Wire (Bytes)

section Serving

variable [Crypto] [Prost] [Payload] {s : State} {height : Height} {round : Round}
  {proposer : Address} {bytes : Bytes}

/-! ## The server -/

/-- What a node serves of a height. -/
def servedValue (s : State) (height : Height) : Option RawDecidedValue :=
  (s.getDecidedValue height).map fun decided => ⟨decided.certificate, decided.value.toBytes⟩

theorem handle_getDecidedValue (s : State) (height : Height) :
    handle (.getDecidedValue height) s =
      ⟨.ok (), s, [.reply (.decidedValue (servedValue s height))]⟩ := rfl

omit [Crypto] [Payload] in
/-- The certificate of a decided value names a round. -/
theorem Db.WellFormed.certificate_expressible {db : Db} (hdb : db.WellFormed) {v : DecidedValue}
    (hv : db.getDecidedValue height = some v) : v.certificate.Expressible := by
  obtain ⟨b, hb⟩ := Option.isSome_iff_exists.mp
    ((hdb.decided_isSome_iff height).mp (by rw [Db.ledger_decided, hv]; rfl))
  obtain ⟨w, b', rfl, hcert, hb', -⟩ := hdb.decided height b hb
  rw [Db.getDecidedValue_of_entries hb hcert hb'] at hv
  rw [← Option.some.inj hv]
  intro hnil
  rw [encodeCertificateBytes_of_nil hnil] at hb'
  exact absurd hb' (by simp)

/-! ## The receiver -/

/-- What a node makes of a value that it is sent. -/
def syncedProposal (height : Height) (round : Round) (proposer : Address) (value : Value) :
    ProposedValue where
  height := height
  round := round
  validRound := .nil
  proposer := proposer
  value := value
  validity := .valid

theorem handle_processSyncedValue_of_ok {v : Value} (hv : Value.fromBytes bytes = .ok v) :
    handle (.processSyncedValue height round proposer bytes) s =
      ⟨.ok (), s, [.reply (.syncedValue (syncedProposal height round proposer v))]⟩ := by
  rw [handle, decodeValue, hv, unwrapResult_ok, Action.lift_ok_bind]
  rfl

theorem handle_processSyncedValue_of_error {e : Stop ProtoError}
    (he : Value.fromBytes bytes = .error e) :
    handle (.processSyncedValue height round proposer bytes) s = ⟨.error .panic, s, []⟩ := by
  rw [handle, decodeValue, he]
  rfl

omit [Crypto] [Payload] in
/-- Every message of a value is read as one. -/
theorem Value.exists_fromBytes_iff :
    (∃ v, Value.fromBytes bytes = .ok v) ↔
      ∃ proto : Proto.Value, Prost.decode bytes = some proto := by
  unfold Value.fromBytes decodeProto
  cases hproto : (Prost.decode bytes : Option Proto.Value) with
  | none => simp
  | some proto => simp

/-- **Exactly the messages of values are answered**, and nothing else happens. -/
theorem handle_processSyncedValue_iff :
    (handle (.processSyncedValue height round proposer bytes) s).result = .ok () ↔
      ∃ proto : Proto.Value, Prost.decode bytes = some proto := by
  rw [← Value.exists_fromBytes_iff]
  rcases hv : Value.fromBytes bytes with e | v
  · rw [handle_processSyncedValue_of_error hv]
    exact iff_of_false (by simp) (by simp)
  · rw [handle_processSyncedValue_of_ok hv]
    exact iff_of_true rfl ⟨v, rfl⟩

/-! ## From node to node -/

/-- What is served of a decided value arrives: any node that is sent the bytes takes them for
the very same value, and the certificate and the bytes survive the wire. -/
structure Faithful (v : DecidedValue) (raw : RawDecidedValue) : Prop where
  certificate : raw.certificate = v.certificate
  received : ∀ (receiver : State) (height : Height) (round : Round) (proposer : Address),
    handle (.processSyncedValue height round proposer raw.valueBytes) receiver =
      ⟨.ok (), receiver, [.reply (.syncedValue (syncedProposal height round proposer v.value))]⟩
  wire : ProtobufCodec.syncedValue.RoundTrips raw

theorem faithful_served (hdb : s.store.WellFormed) {v : DecidedValue}
    (hv : s.getDecidedValue height = some v) :
    Faithful v ⟨v.certificate, v.value.toBytes⟩ where
  certificate := rfl
  received _ _ _ _ := handle_processSyncedValue_of_ok (Value.fromBytes_toBytes v.value)
  wire := (Sync.restores_syncedValue (hdb.certificate_expressible hv)).roundTrips

/-- **The service between two nodes.**  In every life of a node, each height in its table of
decided values is served, and what is served arrives at any other node as it was decided.  Of
arbitrary bytes, a node answers exactly those that parse as the message of a value; on all
others it stops. -/
theorem sync_served_and_processed_iff {config : Config} (h : (node config).Reachable s) :
    (∀ height, ∃ o, handle (.getDecidedValue height) s =
        ⟨.ok (), s, [.reply (.decidedValue o)]⟩ ∧
      (o.isSome ↔ (s.store.decidedValues.get? height).isSome) ∧
      ∀ raw, o = some raw → ∃ v, s.getDecidedValue height = some v ∧ Faithful v raw) ∧
    ∀ (receiver : State) (height : Height) (round : Round) (proposer : Address) (bytes : Bytes),
      (handle (.processSyncedValue height round proposer bytes) receiver).result = .ok () ↔
        ∃ proto : Proto.Value, Prost.decode bytes = some proto := by
  have hdb := h.wellFormed
  refine ⟨fun height => ⟨_, handle_getDecidedValue s height, ?_, fun raw hraw => ?_⟩,
    fun receiver height round proposer bytes => handle_processSyncedValue_iff⟩
  · rw [servedValue, Option.isSome_map]
    exact hdb.decided_isSome_iff height
  · obtain ⟨v, hv, rfl⟩ := Option.map_eq_some_iff.mp hraw
    exact ⟨v, hv, faithful_served hdb hv⟩

end Serving

section Demo

attribute [local instance] demoCrypto Prost.reference demoPayload

/-- A node that has got a block and the decision for it. -/
def demoServer : State :=
  handleAll (demoState 2 []) (demoArrivals 1 5 ++ [.decided (demoCertificate 5)])

theorem demoServer_reachable : (node (demoConfig 2 [])).Reachable demoServer := by
  have hstart : Run (node (demoConfig 2 [])) [] (demoState 2 []) := .start ⟨true, rfl⟩
  have hrun := hstart.deliveries (demoArrivals 1 5 ++ [.decided (demoCertificate 5)])
    (by decide +kernel)
  exact ⟨_, hrun⟩

theorem sync_served_and_processed_demo :
    ∃ raw v, servedValue demoServer ⟨1⟩ = some raw ∧
      demoServer.getDecidedValue ⟨1⟩ = some v ∧ Faithful v raw := by
  obtain ⟨o, ho, hsome, hfaithful⟩ :=
    (sync_served_and_processed_iff demoServer_reachable).1 ⟨1⟩
  obtain ⟨raw, rfl⟩ := Option.isSome_iff_exists.mp (hsome.mpr (by decide +kernel))
  obtain ⟨v, hv, hraw⟩ := hfaithful raw rfl
  refine ⟨raw, v, ?_, hv, hraw⟩
  rw [handle_getDecidedValue] at ho
  simpa using congrArg Outcome.effects ho

/-- Bytes that break off within a varint stop a node. -/
theorem malformed_value_stops :
    ¬ ∀ (receiver : State) (height : Height) (round : Round) (proposer : Address)
      (bytes : Bytes),
      (handle (.processSyncedValue height round proposer bytes) receiver).result ≠
        .error .panic := by
  intro hall
  exact hall (demoState 2 []) ⟨1⟩ (.some 0) (demoAddress 1) [255] (by decide +kernel)

end Demo

end MalakethTurbo
