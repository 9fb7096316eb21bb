import MalakethTurbo.App.Binding
import MalakethTurbo.Codec.Messages

/-!
# Parts from anyone

A node handles every part that the codec has read, from whatever peer and under whatever
number.  Each step on the way is looked at: the log writes the part again, which needs a
round, and the codec only reads parts with one; the reassembler counts; the signature is
checked and the value put together without a step that could fail.

The one step that can is the count.  An end marker says how many messages there are by its
own number plus one, and a peer may choose the number `2 ^ 64 - 1`.  A message under a
number that has been seen is dropped before it is looked at, so the node stops exactly at
an end marker that is the first message of its stream with this number
(`parts_handled_iff`).
-/

namespace MalakethTurbo

open Wire (Bytes)

/-! ## What the codec reads -/

section Decoded

variable [Prost] {m : StreamMessage ProposalPart}

/-- A message that the codec has read. -/
def Decoded (m : StreamMessage ProposalPart) : Prop :=
  ∃ bytes, ProtobufCodec.streamMessage.decode bytes = .ok m

omit [Prost] in
/-- The beginning of a stream that has been read names a round. -/
theorem ProposalPart.round_of_fromProto {p : Proto.ProposalPart} {i : ProposalInit}
    (h : ProposalPart.fromProto p = .ok (.init i)) : i.round ≠ .nil := by
  unfold ProposalPart.fromProto at h
  obtain ⟨part, -, h⟩ := call_bind_eq_ok.mp h
  cases part with
  | init j =>
      obtain ⟨address, -, h⟩ := call_bind_eq_ok.mp h
      obtain ⟨proposer, -, h⟩ := call_bind_eq_ok.mp h
      rw [← ProposalPart.init.inj (Except.ok.inj h)]
      simp [Round.new]
  | data d => exact absurd (Except.ok.inj h) (by simp)
  | fin f =>
      obtain ⟨signature, -, h⟩ := call_bind_eq_ok.mp h
      obtain ⟨decoded, -, h⟩ := call_bind_eq_ok.mp h
      exact absurd (Except.ok.inj h) (by simp)

theorem Decoded.round_ne_nil (h : Decoded m) {i : ProposalInit}
    (hi : m.content = .data (.init i)) : i.round ≠ .nil := by
  obtain ⟨bytes, hbytes⟩ := h
  obtain ⟨proto, -, hproto⟩ := call_bind_eq_ok.mp hbytes
  obtain ⟨content, -, hproto⟩ := call_bind_eq_ok.mp hproto
  obtain ⟨content', hcontent, hm⟩ := call_bind_eq_ok.mp hproto
  obtain rfl : content' = .data (.init i) := by
    rw [← hi, ← Except.ok.inj hm]
  cases content with
  | fin last => exact absurd (Except.ok.inj hcontent) (by simp)
  | data bytes =>
      obtain ⟨part, hpart, hdata⟩ := call_bind_eq_ok.mp hcontent
      obtain rfl := StreamContent.data.inj (Except.ok.inj hdata)
      obtain ⟨p, -, hp⟩ := call_bind_eq_ok.mp hpart
      exact ProposalPart.round_of_fromProto hp

/-- The log describes what the codec has read. -/
theorem Decoded.described (h : Decoded m) :
    ∃ description, describePart m.content = .ok description :=
  exists_describePart fun _ hi => h.round_ne_nil hi

end Decoded

/-! ## What the reassembler does with it -/

namespace StreamState

variable {st : StreamState} {m : StreamMessage ProposalPart} {ε : Type}

/-- The number of the end marker is the only one that is added to. -/
theorem exists_insert_iff :
    (∃ r, st.insert m = (.ok r : Call ε _)) ↔
      ¬ (m.isFin = true ∧ m.sequence.toNat + 1 = 2 ^ 64) := by
  have hlt := m.sequence.toNat_lt
  unfold StreamState.insert recordFin
  by_cases hfin : m.isFin = true
  · rw [if_pos hfin, checkedAdd]
    by_cases hlast : m.sequence.toNat + 1 < 2 ^ 64
    · rw [if_pos hlast]
      exact iff_of_true ⟨_, rfl⟩ (by omega)
    · rw [if_neg hlast]
      refine iff_of_false ?_ (not_not_intro ⟨hfin, by omega⟩)
      rintro ⟨r, hr⟩
      exact absurd hr (by simp)
  · rw [if_neg hfin]
    exact iff_of_true ⟨_, rfl⟩ fun h => hfin h.1

end StreamState

namespace PartStreamsMap

variable {map map' : PartStreamsMap} {peer : PeerId} {m : StreamMessage ProposalPart}
  {o : Option ProposalParts} {ε : Type}

/-- **When the reassembler takes a message.** -/
theorem exists_insert_iff :
    (∃ o map', map.insert peer m = (.ok (o, map') : Call ε _)) ↔
      ¬ (m.isFin = true ∧ m.sequence.toNat + 1 = 2 ^ 64 ∧
        m.sequence ∉ (map.entry ⟨peer, m.streamId⟩).seenSequences) := by
  by_cases hseen : m.sequence ∈ (map.entry ⟨peer, m.streamId⟩).seenSequences
  · exact iff_of_true ⟨_, _, insert_of_seen hseen⟩ fun h => h.2.2 hseen
  · have hiff : (∃ r, ((map.entry ⟨peer, m.streamId⟩).see m).insert m = (.ok r : Call ε _)) ↔ _ :=
      StreamState.exists_insert_iff
    rw [insert_of_new hseen]
    constructor
    · rintro ⟨o, map', h⟩ ⟨hfin, hlast, -⟩
      obtain ⟨r, hr, -⟩ := call_bind_eq_ok.mp h
      exact hiff.mp ⟨r, hr⟩ ⟨hfin, hlast⟩
    · intro h
      obtain ⟨r, hr⟩ := hiff.mpr fun hover => h ⟨hover.1, hover.2, hseen⟩
      rw [hr]
      exact ⟨_, _, rfl⟩

/-- A message that is taken has been seen, and no other. -/
theorem mem_seen_insert (h : map.insert peer m = (.ok (o, map') : Call ε _)) (key : StreamKey)
    (q : UInt64) :
    q ∈ (map'.entry key).seenSequences ↔
      (key = ⟨peer, m.streamId⟩ ∧ q = m.sequence) ∨ q ∈ (map.entry key).seenSequences := by
  rcases insert_cases h with ⟨hseen, -, hentry⟩ | ⟨st', -, hinsert, hentry⟩
  · rw [hentry]
    refine (or_iff_right_of_imp ?_).symm
    rintro ⟨rfl, rfl⟩
    exact hseen
  · rw [hentry]
    split_ifs with hkey
    · obtain ⟨st₁, hrecorded, hcases⟩ := StreamState.insert_new hinsert
      have hseen : st'.seenSequences = st₁.seenSequences := by
        rcases hcases with ⟨-, rfl⟩ | ⟨i, -, -, -, -, rfl⟩ <;> rfl
      rw [hseen, hrecorded.seen, List.mem_cons, hkey]
      simp
    · simp [hkey]

/-- Every beginning that the reassembler waits with names a round. -/
def Named (map : PartStreamsMap) : Prop :=
  ∀ key i, (map.entry key).initInfo = some i → i.round ≠ .nil

theorem Named.new : Named new := by
  intro key i hi
  exact absurd hi (by simp [PartStreamsMap.new, entry, show
    (default : StreamState).initInfo = none from rfl])

/-- **What is handed out names a round** if everything that arrives does. -/
theorem Named.insert (hmap : map.Named)
    (hm : ∀ i, m.content = .data (.init i) → i.round ≠ .nil)
    (h : map.insert peer m = (.ok (o, map') : Call ε _)) :
    map'.Named ∧ ∀ parts, o = some parts → parts.round ≠ .nil := by
  rcases insert_cases h with ⟨-, rfl, hentry⟩ | ⟨st', -, hinsert, hentry⟩
  · refine ⟨fun key i hi => ?_, fun parts hparts => absurd hparts (by simp)⟩
    rw [hentry] at hi
    exact hmap key i hi
  · obtain ⟨st₁, hrecorded, hcases⟩ := StreamState.insert_new hinsert
    have hnamed : ∀ i, st₁.initInfo = some i → i.round ≠ .nil := by
      intro i hi
      rw [hrecorded.initInfo] at hi
      split_ifs at hi
      · exact hm i (content_of_asInit hi)
      · exact hmap _ i hi
    have hother : (∀ i, st'.initInfo = some i → i.round ≠ .nil) → map'.Named := by
      intro hst' key i hi
      rw [hentry] at hi
      split_ifs at hi
      · exact hst' i hi
      · exact hmap key i hi
    rcases hcases with ⟨rfl, rfl⟩ | ⟨i, hi, -, -, rfl, rfl⟩
    · exact ⟨hother hnamed, fun parts hparts => absurd hparts (by simp)⟩
    · refine ⟨hother fun i hi => absurd hi (by simp), fun parts hparts => ?_⟩
      rw [← Option.some.inj hparts]
      exact hnamed i hi

end PartStreamsMap

/-! ## What is computed on the way -/

/-- The sum of `usize` in `assemble_value_from_parts`. -/
def totalSize (parts : List ProposalPart) : Call AppError Nat :=
  checkedSum ((parts.filterMap ProposalPart.asData).map fun data => data.bytes.length)

/-- `&data[..n]`. -/
def sliceTo (n : Nat) (data : Bytes) : Call AppError Bytes :=
  if n ≤ data.length then .ok (data.take n) else .error .panic

/-- What `received_proposal_part` logs of the data: its first 32 bytes and its size. -/
def loggedData (data : Bytes) : Call AppError (Option (Bytes × Nat)) :=
  if 32 ≤ data.length then do
    let head ← sliceTo 32 data
    return some (head, data.length)
  else return none

/-- `assemble_value_from_parts` with the capacity that it computes first, and the log after
it. -/
def assembleLogged [Crypto] (parts : ProposalParts) :
    Call AppError (Nat × (ProposedValue × Bytes) × Option (Bytes × Nat)) := do
  let capacity ← totalSize parts.parts
  let (value, data) := State.assembleValueFromParts parts
  let logged ← loggedData data
  return (capacity, (value, data), logged)

theorem exists_loggedData (data : Bytes) : ∃ logged, loggedData data = .ok logged := by
  unfold loggedData
  split_ifs with hlen
  · rw [sliceTo, if_pos hlen]
    exact ⟨_, rfl⟩
  · exact ⟨none, rfl⟩

/-- The capacity is the size of the data, and the slice is within it. -/
theorem assembleLogged_eq [Crypto] {parts : ProposalParts}
    (h : (State.assembleValueFromParts parts).2.length < 2 ^ 64) :
    ∃ logged, assembleLogged parts =
      .ok ((State.assembleValueFromParts parts).2.length, State.assembleValueFromParts parts,
        logged) := by
  obtain ⟨logged, hlogged⟩ := exists_loggedData (State.assembleValueFromParts parts).2
  have hsum : totalSize parts.parts = .ok (State.assembleValueFromParts parts).2.length := by
    have hlength : (State.assembleValueFromParts parts).2.length =
        ((parts.parts.filterMap ProposalPart.asData).map fun data => data.bytes.length).sum :=
      List.length_flatMap
    rw [hlength] at h ⊢
    rw [totalSize, checkedSum_eq, if_pos h]
  refine ⟨logged, ?_⟩
  unfold assembleLogged
  rw [hsum, call_ok_bind]
  dsimp only
  rw [hlogged, call_ok_bind]
  rfl

/-! ## One part -/

section Arrivals

variable [Crypto] [Prost] [Payload] {s : State} {peer : PeerId}
  {m : StreamMessage ProposalPart}

/-- An end marker whose number cannot be counted on from. -/
def Overflows (s : State) (peer : PeerId) (m : StreamMessage ProposalPart) : Prop :=
  m.isFin = true ∧ m.sequence.toNat + 1 = 2 ^ 64 ∧
    m.sequence ∉ (s.streamsMap.entry ⟨peer, m.streamId⟩).seenSequences

/-- A part whose handler fails has been refused by the reassembler. -/
theorem handle_part_ok_iff (hm : Decoded m) (hmap : s.streamsMap.Named) :
    (handle (.receivedProposalPart peer m) s).result = .ok () ↔
      ∃ o map', s.streamsMap.insert peer m = (.ok (o, map') : Call AppError _) := by
  obtain ⟨description, hpart⟩ := hm.described
  rw [handle, hpart, Action.lift_ok_bind]
  rcases State.receivedProposalPart_cases s peer m with
    ⟨e, hinsert, hrun⟩ | ⟨o, map', hinsert, hrun⟩ | ⟨parts, map', hinsert, haccept⟩
  · rw [Action.bind_of_error hrun, hinsert]
    exact iff_of_false (by simp) (by simp)
  · rw [Action.bind_of_ok hrun]
    exact iff_of_true rfl ⟨o, map', hinsert⟩
  · have hround := (hmap.insert (fun _ hi => hm.round_ne_nil hi) hinsert).2 parts rfl
    obtain ⟨ws, -, hrun⟩ := State.receivedProposalPart_run hinsert haccept hround
    rw [Action.bind_of_ok hrun]
    exact iff_of_true rfl ⟨some parts, map', hinsert⟩

theorem streamsMap_handle_part (hm : Decoded m) {o : Option ProposalParts}
    {map' : PartStreamsMap}
    (hinsert : s.streamsMap.insert peer m = (.ok (o, map') : Call AppError _)) :
    (handle (.receivedProposalPart peer m) s).state.streamsMap = map' := by
  obtain ⟨description, hpart⟩ := hm.described
  rw [state_handle_receivedProposalPart hpart, streamsMap_receivedProposalPart, hinsert]

theorem handle_part_ok_iff_not_overflows (hm : Decoded m) (hmap : s.streamsMap.Named) :
    (handle (.receivedProposalPart peer m) s).result = .ok () ↔ ¬ Overflows s peer m :=
  (handle_part_ok_iff hm hmap).trans PartStreamsMap.exists_insert_iff

/-! ## All parts -/

/-- The messages that hand the parts over. -/
def arrivals (parts : List (PeerId × StreamMessage ProposalPart)) : List AppMsg :=
  parts.map fun x => .receivedProposalPart x.1 x.2

/-- **Which part stops a node.**  An end marker that cannot be counted on from and is the
first message of its stream with its number, among those that the node has seen and those
before it. -/
def Stops (s : State) (before : List (PeerId × StreamMessage ProposalPart))
    (x : PeerId × StreamMessage ProposalPart) : Prop :=
  Overflows s x.1 x.2 ∧
    ∀ y ∈ before, y.1 = x.1 → y.2.streamId = x.2.streamId → y.2.sequence ≠ x.2.sequence

omit [Crypto] [Prost] [Payload] in
theorem stops_nil {x : PeerId × StreamMessage ProposalPart} :
    Stops s [] x ↔ Overflows s x.1 x.2 := by
  simp [Stops]

omit [Crypto] [Prost] [Payload] in
/-- What a part that has been handled leaves: its number has been seen in its stream. -/
theorem stops_cons {s' : State} {y x : PeerId × StreamMessage ProposalPart}
    {before : List (PeerId × StreamMessage ProposalPart)} {o : Option ProposalParts}
    (h : s.streamsMap.insert y.1 y.2 = (.ok (o, s'.streamsMap) : Call AppError _)) :
    Stops s (y :: before) x ↔ Stops s' before x := by
  have hseen := PartStreamsMap.mem_seen_insert h ⟨x.1, x.2.streamId⟩ x.2.sequence
  rw [StreamKey.mk.injEq] at hseen
  unfold Stops Overflows
  rw [hseen, List.forall_mem_cons]
  constructor
  · rintro ⟨⟨hfin, hlast, hnew⟩, hy, hbefore⟩
    refine ⟨⟨hfin, hlast, ?_⟩, hbefore⟩
    rintro (⟨⟨hpeer, hid⟩, hnumber⟩ | hold)
    · exact hy hpeer.symm hid.symm hnumber.symm
    · exact hnew hold
  · rintro ⟨⟨hfin, hlast, hnew⟩, hbefore⟩
    refine ⟨⟨hfin, hlast, fun hold => hnew (Or.inr hold)⟩, ?_, hbefore⟩
    intro hpeer hid hnumber
    exact hnew (Or.inl ⟨⟨hpeer.symm, hid.symm⟩, hnumber.symm⟩)

/-- A list of parts is handled exactly if no part stops the node. -/
theorem allHandled_arrivals_iff {parts : List (PeerId × StreamMessage ProposalPart)}
    (hmap : s.streamsMap.Named) (hparts : ∀ x ∈ parts, Decoded x.2) :
    allHandled s (arrivals parts) = true ↔
      ∀ before x after, parts = before ++ x :: after → ¬ Stops s before x := by
  induction parts generalizing s with
  | nil => simp [arrivals, allHandled]
  | cons y parts ih =>
      obtain ⟨hy, hrest⟩ := List.forall_mem_cons.mp hparts
      have hstep : (handle (.receivedProposalPart y.1 y.2) s).result = .ok () ↔
          ¬ Overflows s y.1 y.2 := handle_part_ok_iff_not_overflows hy hmap
      rw [forall_split_cons, stops_nil]
      have hnext (hok : (handle (.receivedProposalPart y.1 y.2) s).result = .ok ()) :
          allHandled (handle (.receivedProposalPart y.1 y.2) s).state (arrivals parts) = true ↔
            ∀ before x after, parts = before ++ x :: after → ¬ Stops s (y :: before) x := by
        obtain ⟨o, map', hinsert⟩ := (handle_part_ok_iff hy hmap).mp hok
        rw [← streamsMap_handle_part hy hinsert] at hinsert
        rw [ih (hmap.insert (fun _ hi => hy.round_ne_nil hi) hinsert).1 hrest]
        refine forall_congr' fun before => forall_congr' fun x => forall_congr' fun after =>
          imp_congr_right fun _ => not_congr (stops_cons hinsert).symm
      constructor
      · intro hall
        obtain ⟨hok, htail⟩ := allHandled_cons hall
        exact ⟨hstep.mp hok, (hnext hok).mp htail⟩
      · rintro ⟨hfirst, hlater⟩
        have hok := hstep.mpr hfirst
        have htail := (hnext hok).mpr hlater
        rw [arrivals, List.map_cons, allHandled, hok]
        exact htail

/-- A step that hands over a part hands over one that the codec has read. -/
def Event.ReadsParts (e : Event) : Prop :=
  ∀ peer part, e.msg = .receivedProposalPart peer part → Decoded part

/-- In every life of a node, the reassembler waits with beginnings that name a round. -/
theorem named_of_run {config : Config} {steps : List (State × Event)}
    (h : Run (node config) steps s) (hsteps : ∀ x ∈ steps, x.2.ReadsParts) :
    s.streamsMap.Named := by
  refine h.invariant_along (P := fun s => s.streamsMap.Named)
    (G := fun _ e => e.ReadsParts) ?_ ?_ hsteps
  · rintro s ⟨serverStarts, rfl⟩
    exact PartStreamsMap.Named.new
  · intro s e s' hprev hread hstep
    cases e with
    | restart msg n serverStarts =>
        obtain rfl := hstep
        exact PartStreamsMap.Named.new
    | deliver msg =>
        obtain ⟨-, rfl⟩ := hstep
        rcases streamsMap_handle_cases s msg with hsame | ⟨peer, part, o, rfl, hinsert⟩
        · rw [hsame]
          exact hprev
        · have hpart : Decoded part := hread peer part rfl
          exact (hprev.insert (fun _ hi => hpart.round_ne_nil hi) hinsert).1

/-- **A node handles whatever parts it is sent, but for one.**  In every life of a node that
has been handed parts of the codec, and for every list of such parts, each of them is handled
to its end if and only if none is an end marker with number `2 ^ 64 - 1` that is the first
message of its stream with this number.  Nothing else on the way can fail: a complete
proposal of any size that a process can hold is put together and logged. -/
theorem parts_handled_iff {config : Config} {steps : List (State × Event)}
    (h : Run (node config) steps s) (hsteps : ∀ x ∈ steps, x.2.ReadsParts)
    {parts : List (PeerId × StreamMessage ProposalPart)} (hparts : ∀ x ∈ parts, Decoded x.2) :
    (allHandled s (arrivals parts) = true ↔
      ∀ before x after, parts = before ++ x :: after → ¬ Stops s before x) ∧
    ∀ complete : ProposalParts, (State.assembleValueFromParts complete).2.length < 2 ^ 64 →
      ∃ logged, assembleLogged complete =
        .ok ((State.assembleValueFromParts complete).2.length,
          State.assembleValueFromParts complete, logged) :=
  ⟨allHandled_arrivals_iff (named_of_run h hsteps) hparts, fun _ => assembleLogged_eq⟩

end Arrivals

section Demo

attribute [local instance] demoCrypto Prost.reference demoPayload

/-- The end of a stream under the largest number. -/
def lastEnd : PeerId × StreamMessage ProposalPart :=
  (⟨[1]⟩, ⟨⟨[]⟩, 18446744073709551615, .fin⟩)

/-- Some data under the same number. -/
def lastData : PeerId × StreamMessage ProposalPart :=
  (⟨[1]⟩, ⟨⟨[]⟩, 18446744073709551615, .data (.data ⟨[9]⟩)⟩)

theorem decoded_lastEnd : Decoded lastEnd.2 :=
  ⟨(ProtobufCodec.streamMessage.encode lastEnd.2).toOption.getD [], by decide +kernel⟩

theorem decoded_lastData : Decoded lastData.2 :=
  ⟨(ProtobufCodec.streamMessage.encode lastData.2).toOption.getD [], by decide +kernel⟩

/-- After data under the largest number, the end marker is dropped. -/
theorem parts_handled_demo :
    allHandled (demoState 2 []) (arrivals [lastData, lastEnd]) = true ∧
      ∀ before x after, [lastData, lastEnd] = before ++ x :: after →
        ¬ Stops (demoState 2 []) before x := by
  have hstart : Run (node (demoConfig 2 [])) [] (demoState 2 []) := .start ⟨true, rfl⟩
  have hparts : ∀ x ∈ [lastData, lastEnd], Decoded x.2 := by
    rintro x hx
    rcases List.mem_pair.mp hx with rfl | rfl
    · exact decoded_lastData
    · exact decoded_lastEnd
  have hall : allHandled (demoState 2 []) (arrivals [lastData, lastEnd]) = true := by
    decide +kernel
  have hiff := (parts_handled_iff hstart (fun x hx => absurd hx List.not_mem_nil) hparts).1
  exact ⟨hall, hiff.mp hall⟩

/-- One end marker stops a node. -/
theorem end_marker_stops :
    ¬ ∀ (config : Config) (steps : List (State × Event)) (s : State)
      (parts : List (PeerId × StreamMessage ProposalPart)), Run (node config) steps s →
      (∀ x ∈ steps, x.2.ReadsParts) → (∀ x ∈ parts, Decoded x.2) →
      allHandled s (arrivals parts) = true := by
  intro hall
  have hstart : Run (node (demoConfig 2 [])) [] (demoState 2 []) := .start ⟨true, rfl⟩
  have hparts : ∀ x ∈ [lastEnd], Decoded x.2 := by
    rintro x hx
    rw [List.mem_singleton.mp hx]
    exact decoded_lastEnd
  have hok := hall _ _ _ [lastEnd] hstart (fun x hx => absurd hx List.not_mem_nil) hparts
  exact absurd hok (by decide +kernel)

end Demo

end MalakethTurbo
