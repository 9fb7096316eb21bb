import MalakethTurbo.App.Streaming
import MalakethTurbo.Data.ListEntry

/-!
# A stream comes together

What the reassembler does with the messages of one well-formed stream, in whatever
order and however often they arrive: nothing is handed out until the last missing
message is there, then the parts are handed out in the order of the stream, and
nothing after that.

The invariant is `Receiving`.  While a message is missing, the heap is the stream
with the missing messages left out, and what is known of the first and the last
message is what has been seen of them.  Completeness is decided by counting, and
counting is right because the heap is a part of the stream and the end marker says
how long the stream is.  Once complete, a state is `Received` for good.
-/

namespace MalakethTurbo

variable {ε : Type}

/-! ## Well-formed streams -/

/-- The messages of one proposal: numbered from zero without a gap, the first with
the data of the proposal, the last and no other the end marker, and not so many that
their number overflows. -/
structure IsStream (msgs : List (StreamMessage ProposalPart)) (first : ProposalInit) :
    Prop where
  increasing : msgs.Pairwise fun a b => a.sequence.toNat < b.sequence.toNat
  first_mem : ∃ m ∈ msgs, m.sequence = 0
  first_eq : ∀ m ∈ msgs, m.sequence = 0 → m.content = .data (.init first)
  fin_mem : ∃ m ∈ msgs, m.isFin
  fin_sequence : ∀ m ∈ msgs, m.isFin → m.sequence.toNat + 1 = msgs.length
  length_lt : msgs.length < 2 ^ 64

namespace IsStream

variable {msgs : List (StreamMessage ProposalPart)} {first : ProposalInit}

theorem eq_of_sequence (h : IsStream msgs first) {m m' : StreamMessage ProposalPart}
    (hm : m ∈ msgs) (hm' : m' ∈ msgs) (heq : m.sequence = m'.sequence) : m = m' := by
  have hnodup : (msgs.map StreamMessage.sequence).Nodup := by
    rw [List.nodup_iff_pairwise_ne, List.pairwise_map]
    refine h.increasing.imp ?_
    intro a b hlt hsame
    rw [hsame] at hlt
    exact absurd hlt (lt_irrefl _)
  exact List.inj_on_of_nodup_map hnodup hm hm' heq

/-- The order of the heap is strict on a stream. -/
theorem pairwise_before (h : IsStream msgs first) :
    msgs.Pairwise fun a b => a.before b ∧ ¬ b.before a :=
  h.increasing.imp fun hlt => ⟨Nat.le_of_lt hlt, Nat.not_le_of_lt hlt⟩

end IsStream

/-! ## The messages that have been seen -/

/-- The part of a stream whose sequences have been seen. -/
def seenPart (msgs : List (StreamMessage ProposalPart)) (seen : List UInt64) :
    List (StreamMessage ProposalPart) :=
  msgs.filter fun m => decide (m.sequence ∈ seen)

/-- Every message of a stream has been seen. -/
def AllSeen (msgs : List (StreamMessage ProposalPart)) (seen : List UInt64) : Prop :=
  ∀ m ∈ msgs, m.sequence ∈ seen

section Seen

variable {msgs : List (StreamMessage ProposalPart)} {first : ProposalInit}
  {seen : List UInt64} {m : StreamMessage ProposalPart}

/-- A new message goes to its place in the part that has been seen. -/
theorem orderedInsert_seenPart (h : IsStream msgs first) (hm : m ∈ msgs)
    (hnew : m.sequence ∉ seen) :
    (seenPart msgs seen).orderedInsert StreamMessage.before m =
      seenPart msgs (m.sequence :: seen) := by
  rw [seenPart, orderedInsert_filter _ h.pairwise_before _ hm (by simp [hnew])]
  refine List.filter_congr ?_
  intro m' hm'
  have hiff : m' = m ↔ m'.sequence = m.sequence :=
    ⟨fun heq => by rw [heq], h.eq_of_sequence hm' hm⟩
  simp [hiff, Bool.or_comm]

theorem seenPart_of_allSeen (h : AllSeen msgs seen) : seenPart msgs seen = msgs :=
  List.filter_eq_self.mpr fun m hm => decide_eq_true (h m hm)

/-- Counting tells whether messages are missing. -/
theorem length_seenPart_eq_iff :
    (seenPart msgs seen).length = msgs.length ↔ AllSeen msgs seen := by
  rw [seenPart, List.length_filter_eq_length_iff]
  simp [AllSeen]

end Seen

/-! ## One stream -/

/-- What is known of the beginning and of the end of a stream is what has been seen of
them. -/
structure KnowsEnds (msgs : List (StreamMessage ProposalPart)) (first : ProposalInit)
    (st : StreamState) : Prop where
  initInfo : st.initInfo = if 0 ∈ st.seenSequences then some first else none
  finReceived : st.finReceived = true ↔ ∃ m ∈ msgs, m.isFin ∧ m.sequence ∈ st.seenSequences
  totalMessages : st.finReceived = true → st.totalMessages = msgs.length

/-- The state of a stream with messages missing. -/
structure Receiving (msgs : List (StreamMessage ProposalPart)) (first : ProposalInit)
    (st : StreamState) : Prop where
  ends : KnowsEnds msgs first st
  buffer : st.buffer.msgs = seenPart msgs st.seenSequences
  missing : ¬ AllSeen msgs st.seenSequences

/-- The state of a stream that has been handed out. -/
structure Received (msgs : List (StreamMessage ProposalPart)) (st : StreamState) : Prop where
  initInfo : st.initInfo = none
  all : AllSeen msgs st.seenSequences

/-- The state with a message marked as seen. -/
def StreamState.see (st : StreamState) (m : StreamMessage ProposalPart) : StreamState :=
  { st with seenSequences := m.sequence :: st.seenSequences }

/-- What a complete stream is handed out as. -/
def handedOut (msgs : List (StreamMessage ProposalPart)) (first : ProposalInit) :
    ProposalParts :=
  ⟨first.height, first.round, first.proposer, msgs.filterMap fun m => m.content.asData⟩

section Step

variable {msgs : List (StreamMessage ProposalPart)} {first : ProposalInit}
  {st : StreamState} {m : StreamMessage ProposalPart}

theorem receiving_default (h : IsStream msgs first) : Receiving msgs first default := by
  have hseen : (default : StreamState).seenSequences = [] := rfl
  refine ⟨⟨rfl, ?_, fun hfin => absurd hfin (by decide)⟩, ?_, ?_⟩
  · rw [hseen]
    simp [show (default : StreamState).finReceived = false from rfl]
  · rw [hseen, seenPart, List.filter_eq_nil_iff.mpr fun m _ => by simp]
    rfl
  · obtain ⟨m, hm, -⟩ := h.first_mem
    exact fun hall => absurd (hall m hm) List.not_mem_nil

/-- The first message of a stream is known by its number. -/
theorem IsStream.initInfo_recordFirst (hM : IsStream msgs first) (hm : m ∈ msgs)
    (st : StreamState) :
    (st.recordFirst m).initInfo = if m.sequence = 0 then some first else st.initInfo := by
  unfold StreamState.recordFirst StreamMessage.isFirst
  by_cases hzero : m.sequence = 0
  · rw [if_pos (decide_eq_true hzero), if_pos hzero, hM.first_eq m hm hzero]
    rfl
  · rw [if_neg (by simp [hzero]), if_neg hzero]

theorem recordFirst_frame (st : StreamState) (m : StreamMessage ProposalPart) :
    ∃ info, st.recordFirst m = { st with initInfo := info } := by
  unfold StreamState.recordFirst
  split_ifs
  · exact ⟨_, rfl⟩
  · exact ⟨st.initInfo, rfl⟩

/-- The end of a stream says how long the stream is. -/
theorem IsStream.recordFin (hM : IsStream msgs first) (hm : m ∈ msgs) (st : StreamState) :
    ((st.recordFin m : Call ε StreamState)) =
      .ok (if m.isFin then { st with finReceived := true, totalMessages := msgs.length }
        else st) := by
  unfold StreamState.recordFin
  by_cases hfin : m.isFin = true
  · have hlen := hM.fin_sequence m hm hfin
    have hlt := hM.length_lt
    rw [if_pos hfin, if_pos hfin, checkedAdd, hlen, if_pos hlt]
    rfl
  · rw [if_neg hfin, if_neg hfin]
    rfl

/-- A new message keeps what is known of the beginning and of the end true. -/
theorem KnowsEnds.next (hM : IsStream msgs first) (h : KnowsEnds msgs first st)
    (hm : m ∈ msgs) :
    ∃ st' : StreamState,
      ((st.see m).recordFirst m).recordFin m = (.ok st' : Call ε StreamState) ∧
      st'.seenSequences = m.sequence :: st.seenSequences ∧ st'.buffer = st.buffer ∧
      KnowsEnds msgs first st' := by
  have hinit := hM.initInfo_recordFirst hm (st.see m)
  obtain ⟨info, hframe⟩ := recordFirst_frame (st.see m) m
  rw [hframe] at hinit ⊢
  rw [hM.recordFin hm]
  have hinfo : info = if 0 ∈ m.sequence :: st.seenSequences then some first else none := by
    rw [show info = _ from hinit, show (st.see m).initInfo = st.initInfo from rfl, h.initInfo]
    by_cases hzero : m.sequence = 0
    · rw [if_pos hzero, if_pos (by simp [hzero])]
    · simp [Ne.symm hzero, hzero]
  refine ⟨_, rfl, ?_⟩
  by_cases hfin : m.isFin = true
  · rw [if_pos hfin]
    refine ⟨rfl, rfl, hinfo, ?_, fun _ => rfl⟩
    exact iff_of_true rfl ⟨m, hm, hfin, List.mem_cons_self⟩
  · rw [if_neg hfin]
    refine ⟨rfl, rfl, hinfo, ?_, h.totalMessages⟩
    rw [show ({ st.see m with initInfo := info } : StreamState).finReceived = st.finReceived
      from rfl, h.finReceived]
    constructor
    · rintro ⟨m', hm', hfin', hseen⟩
      exact ⟨m', hm', hfin', List.mem_cons_of_mem _ hseen⟩
    · rintro ⟨m', hm', hfin', hseen⟩
      refine ⟨m', hm', hfin', ?_⟩
      rcases List.mem_cons.mp hseen with heq | hseen
      · rw [hM.eq_of_sequence hm' hm heq] at hfin'
        exact absurd hfin' hfin
      · exact hseen

/-- A stream is handed out with its last missing message. -/
theorem complete_of_allSeen (hM : IsStream msgs first) (h : KnowsEnds msgs first st)
    (hbuffer : st.buffer.msgs = seenPart msgs st.seenSequences)
    (hall : AllSeen msgs st.seenSequences) :
    (st.complete).1 = some (handedOut msgs first) ∧ Received msgs st.complete.2 ∧
      st.complete.2.seenSequences = st.seenSequences := by
  obtain ⟨m₀, hm₀, hzero⟩ := hM.first_mem
  obtain ⟨mf, hmf, hfin⟩ := hM.fin_mem
  have hinfo : st.initInfo = some first := by
    rw [h.initInfo, if_pos (hzero ▸ hall m₀ hm₀)]
  have hfinished : st.finReceived = true := h.finReceived.mpr ⟨mf, hmf, hfin, hall mf hmf⟩
  have hmsgs : st.buffer.msgs = msgs := hbuffer.trans (seenPart_of_allSeen hall)
  have hdone : st.isDone = true := by
    unfold StreamState.isDone MinHeap.len
    rw [hinfo, hfinished, h.totalMessages hfinished, hmsgs]
    simp
  unfold StreamState.complete
  rw [if_pos hdone, hinfo]
  refine ⟨?_, ⟨rfl, hall⟩, rfl⟩
  show some (ProposalParts.mk _ _ _ st.buffer.drain) = _
  rw [MinHeap.drain, hmsgs]
  rfl

/-- As long as a message is missing, nothing is handed out: either the end of the
stream is unknown or the heap is shorter than the stream. -/
theorem complete_of_missing (h : Receiving msgs first st) :
    st.complete = (none, st) := by
  have hdone : ¬ st.isDone = true := by
    intro hdone
    unfold StreamState.isDone at hdone
    simp only [Bool.and_eq_true, decide_eq_true_eq] at hdone
    obtain ⟨⟨-, hfin⟩, hlen⟩ := hdone
    rw [h.ends.totalMessages hfin, MinHeap.len, h.buffer] at hlen
    exact h.missing (length_seenPart_eq_iff.mp hlen)
  unfold StreamState.complete
  rw [if_neg hdone]

/-- The state of a stream at some time between its first message and the end of the
world. -/
def Tracked (msgs : List (StreamMessage ProposalPart)) (first : ProposalInit)
    (st : StreamState) : Prop :=
  Receiving msgs first st ∨ Received msgs st

instance (msgs : List (StreamMessage ProposalPart)) (seen : List UInt64) :
    Decidable (AllSeen msgs seen) :=
  inferInstanceAs (Decidable (∀ m ∈ msgs, m.sequence ∈ seen))

/-- **A new message of a stream.**  The stream is handed out if no message is missing
any more. -/
theorem Receiving.insert (hM : IsStream msgs first) (h : Receiving msgs first st)
    (hm : m ∈ msgs) (hnew : m.sequence ∉ st.seenSequences) :
    ∃ st' : StreamState,
      (st.see m).insert m =
        (.ok (if AllSeen msgs (m.sequence :: st.seenSequences) then some (handedOut msgs first)
          else none, st') : Call ε _) ∧
      st'.seenSequences = m.sequence :: st.seenSequences ∧ Tracked msgs first st' := by
  obtain ⟨st₁, hrun, hseen, hbuffer, hknows⟩ := h.ends.next (ε := ε) hM hm
  have hheap : (st₁.buffer.push m).msgs = seenPart msgs st₁.seenSequences := by
    rw [hseen, hbuffer]
    show st.buffer.msgs.orderedInsert StreamMessage.before m = _
    rw [h.buffer]
    exact orderedInsert_seenPart hM hm hnew
  have hpushed : KnowsEnds msgs first { st₁ with buffer := st₁.buffer.push m } :=
    ⟨hknows.initInfo, hknows.finReceived, hknows.totalMessages⟩
  unfold StreamState.insert
  rw [hrun, call_ok_bind, call_pure, ← hseen]
  by_cases hall : AllSeen msgs st₁.seenSequences
  · obtain ⟨hout, hreceived, hkept⟩ := complete_of_allSeen hM hpushed hheap hall
    rw [if_pos hall, ← hout]
    exact ⟨_, rfl, hkept, Or.inr hreceived⟩
  · have hmissing : Receiving msgs first { st₁ with buffer := st₁.buffer.push m } :=
      ⟨hpushed, hheap, hall⟩
    rw [if_neg hall, complete_of_missing hmissing]
    exact ⟨_, rfl, rfl, Or.inl hmissing⟩

end Step

/-! ## Any message -/

namespace StreamState

variable {st st' : StreamState} {m : StreamMessage ProposalPart} {o : Option ProposalParts}
  {ε : Type}

/-- What a stream knows after a message has been recorded. -/
structure Recorded (st : StreamState) (m : StreamMessage ProposalPart) (st' : StreamState) :
    Prop where
  buffer : st'.buffer = st.buffer
  seen : st'.seenSequences = m.sequence :: st.seenSequences
  initInfo : st'.initInfo =
    if m.isFirst then m.content.asData.bind ProposalPart.asInit else st.initInfo
  finReceived : st'.finReceived = (m.isFin || st.finReceived)
  totalMessages : st'.totalMessages =
    if m.isFin then m.sequence.toNat + 1 else st.totalMessages

/-- The beginning is taken note of first. -/
theorem recorded_recordFirst (st : StreamState) (m : StreamMessage ProposalPart) :
    ((st.see m).recordFirst m).buffer = st.buffer ∧
      ((st.see m).recordFirst m).seenSequences = m.sequence :: st.seenSequences ∧
      ((st.see m).recordFirst m).initInfo =
        (if m.isFirst then m.content.asData.bind ProposalPart.asInit else st.initInfo) ∧
      ((st.see m).recordFirst m).finReceived = st.finReceived ∧
      ((st.see m).recordFirst m).totalMessages = st.totalMessages := by
  unfold recordFirst
  split_ifs <;> exact ⟨rfl, rfl, rfl, rfl, rfl⟩

theorem recorded_of_ok
    (h : ((st.see m).recordFirst m).recordFin m = (.ok st' : Call ε _)) : Recorded st m st' := by
  obtain ⟨hbuffer, hseen, hinfo, hfinReceived, htotalMessages⟩ := recorded_recordFirst st m
  unfold recordFin at h
  by_cases hfin : m.isFin = true
  · rw [if_pos hfin] at h
    obtain ⟨total, htotal, hst⟩ := call_bind_eq_ok.mp h
    rw [checkedAdd] at htotal
    split_ifs at htotal
    obtain rfl := Except.ok.inj hst
    refine ⟨hbuffer, hseen, hinfo, by rw [hfin, Bool.true_or], ?_⟩
    rw [if_pos hfin]
    exact (Except.ok.inj htotal).symm
  · rw [if_neg hfin] at h
    obtain rfl := Except.ok.inj h
    refine ⟨hbuffer, hseen, hinfo, ?_, ?_⟩
    · rw [hfinReceived, Bool.eq_false_iff.mpr hfin, Bool.false_or]
    · rw [htotalMessages, if_neg hfin]

/-- A stream is delivered when its beginning and its end are there and the count is
right. -/
theorem complete_cases (st : StreamState) :
    (st.complete = (none, st) ∧ st.isDone = false) ∨
      ∃ i, st.initInfo = some i ∧ st.finReceived = true ∧
        st.buffer.len = st.totalMessages ∧
        st.complete = (some ⟨i.height, i.round, i.proposer, st.buffer.drain⟩,
          { st with initInfo := none, buffer := MinHeap.empty }) := by
  unfold complete
  by_cases hdone : st.isDone = true
  · rw [if_pos hdone]
    unfold isDone at hdone
    simp only [Bool.and_eq_true, decide_eq_true_eq] at hdone
    obtain ⟨⟨-, hfin⟩, hcount⟩ := hdone
    cases hinfo : st.initInfo with
    | none =>
        refine Or.inl ⟨rfl, ?_⟩
        rw [isDone, hinfo]
        rfl
    | some i => exact Or.inr ⟨i, rfl, hfin, hcount, rfl⟩
  · rw [if_neg hdone]
    exact Or.inl ⟨rfl, Bool.eq_false_iff.mpr hdone⟩

theorem complete_not_isDone (st : StreamState) : st.complete.2.isDone = false := by
  rcases complete_cases st with ⟨hnone, hdone⟩ | ⟨i, -, -, -, hsome⟩
  · rw [hnone]
    exact hdone
  · rw [hsome]
    rfl

/-- **A message that is new to its stream** is recorded and pushed; either that is all, or
the stream is delivered. -/
theorem insert_new (h : (st.see m).insert m = (.ok (o, st') : Call ε _)) :
    ∃ st₁, Recorded st m st₁ ∧
      ((o = none ∧ st' = { st₁ with buffer := st₁.buffer.push m }) ∨
        ∃ i, st₁.initInfo = some i ∧ st₁.finReceived = true ∧
          (st₁.buffer.push m).len = st₁.totalMessages ∧
          o = some ⟨i.height, i.round, i.proposer, (st₁.buffer.push m).drain⟩ ∧
          st' = { st₁ with initInfo := none, buffer := MinHeap.empty }) := by
  unfold StreamState.insert at h
  obtain ⟨st₁, hrecord, hcomplete⟩ := call_bind_eq_ok.mp h
  have hresult := Except.ok.inj hcomplete
  refine ⟨st₁, recorded_of_ok hrecord, ?_⟩
  rcases complete_cases { st₁ with buffer := st₁.buffer.push m } with
    ⟨hnone, -⟩ | ⟨i, hinfo, hfin, hcount, hsome⟩
  · obtain ⟨rfl, rfl⟩ := Prod.mk.inj (hnone.symm.trans hresult)
    exact Or.inl ⟨rfl, rfl⟩
  · obtain ⟨rfl, rfl⟩ := Prod.mk.inj (hsome.symm.trans hresult)
    exact Or.inr ⟨i, hinfo, hfin, hcount, rfl, rfl⟩

end StreamState

/-! ## All streams -/

namespace PartStreamsMap

variable {map : PartStreamsMap} {peer : PeerId} {m : StreamMessage ProposalPart}
  {msgs : List (StreamMessage ProposalPart)} {first : ProposalInit}

theorem entry_insert (map : PartStreamsMap) (key key' : StreamKey) (st : StreamState) :
    entry ⟨map.streams.insert key st⟩ key' = if key' = key then st else map.entry key' := by
  unfold entry
  rw [OrderedMap.get?_insert]
  split_ifs <;> rfl

theorem insert_of_seen (h : m.sequence ∈ (map.entry ⟨peer, m.streamId⟩).seenSequences) :
    map.insert peer m =
      (.ok (none, ⟨map.streams.insert ⟨peer, m.streamId⟩ (map.entry ⟨peer, m.streamId⟩)⟩) :
        Call ε _) := by
  unfold PartStreamsMap.insert
  rw [if_pos h]
  rfl

theorem insert_of_new (h : m.sequence ∉ (map.entry ⟨peer, m.streamId⟩).seenSequences) :
    map.insert peer m =
      (((map.entry ⟨peer, m.streamId⟩).see m).insert m >>= fun r =>
        .ok (r.1, map.store ⟨peer, m.streamId⟩ r.2) : Call ε _) := by
  unfold PartStreamsMap.insert
  rw [if_neg h]
  rfl

/-- A message that is recorded is stored under its key, and nothing is taken out: the
beginning of a complete stream has just been taken, so the stream does not count as done. -/
theorem insert_run {o : Option ProposalParts} {map' : PartStreamsMap}
    (h : map.insert peer m = (.ok (o, map') : Call ε _)) :
    (m.sequence ∈ (map.entry ⟨peer, m.streamId⟩).seenSequences ∧ o = none ∧
        map' = ⟨map.streams.insert ⟨peer, m.streamId⟩ (map.entry ⟨peer, m.streamId⟩)⟩) ∨
      ∃ st', m.sequence ∉ (map.entry ⟨peer, m.streamId⟩).seenSequences ∧
        ((map.entry ⟨peer, m.streamId⟩).see m).insert m = (.ok (o, st') : Call ε _) ∧
        map' = ⟨map.streams.insert ⟨peer, m.streamId⟩ st'⟩ := by
  by_cases hseen : m.sequence ∈ (map.entry ⟨peer, m.streamId⟩).seenSequences
  · rw [insert_of_seen hseen] at h
    obtain ⟨rfl, rfl⟩ := Prod.mk.inj (Except.ok.inj h)
    exact Or.inl ⟨hseen, rfl, rfl⟩
  · rw [insert_of_new hseen, call_bind_eq_ok] at h
    obtain ⟨⟨o', st'⟩, hinsert, hstore⟩ := h
    obtain ⟨rfl, rfl⟩ := Prod.mk.inj (Except.ok.inj hstore)
    have hdone : st'.isDone = false := by
      unfold StreamState.insert at hinsert
      rw [call_bind_eq_ok] at hinsert
      obtain ⟨st₁, -, hcomplete⟩ := hinsert
      have hst : _ = st' := congrArg Prod.snd (Except.ok.inj hcomplete)
      rw [← hst]
      exact StreamState.complete_not_isDone _
    refine Or.inr ⟨st', hseen, hinsert, ?_⟩
    dsimp only
    unfold store
    rw [if_neg (by rw [hdone]; exact Bool.false_ne_true)]

/-- How a message changes the streams: its own stream, and nothing else. -/
theorem insert_cases {o : Option ProposalParts} {map' : PartStreamsMap}
    (h : map.insert peer m = (.ok (o, map') : Call ε _)) :
    (m.sequence ∈ (map.entry ⟨peer, m.streamId⟩).seenSequences ∧ o = none ∧
        ∀ key, map'.entry key = map.entry key) ∨
      ∃ st', m.sequence ∉ (map.entry ⟨peer, m.streamId⟩).seenSequences ∧
        ((map.entry ⟨peer, m.streamId⟩).see m).insert m = (.ok (o, st') : Call ε _) ∧
        ∀ key, map'.entry key = if key = ⟨peer, m.streamId⟩ then st' else map.entry key := by
  rcases insert_run h with ⟨hseen, ho, rfl⟩ | ⟨st', hnew, hinsert, rfl⟩
  · refine Or.inl ⟨hseen, ho, fun key => ?_⟩
    rw [entry_insert]
    split_ifs with hkey
    · rw [hkey]
    · rfl
  · exact Or.inr ⟨st', hnew, hinsert, fun key => entry_insert map _ _ _⟩

/-- **The key of a message is in the map afterwards**, and no other key comes or goes. -/
theorem isSome_streams_insert {o : Option ProposalParts} {map' : PartStreamsMap}
    (h : map.insert peer m = (.ok (o, map') : Call ε _)) (key : StreamKey) :
    (map'.streams.get? key).isSome ↔
      key = ⟨peer, m.streamId⟩ ∨ (map.streams.get? key).isSome := by
  have hkey (st : StreamState) :
      ((map.streams.insert ⟨peer, m.streamId⟩ st).get? key).isSome ↔
        key = ⟨peer, m.streamId⟩ ∨ (map.streams.get? key).isSome := by
    rw [OrderedMap.get?_insert]
    split_ifs with heq
    · exact iff_of_true rfl (Or.inl heq)
    · exact (or_iff_right heq).symm
  rcases insert_run h with ⟨-, -, rfl⟩ | ⟨st', -, -, rfl⟩
  · exact hkey _
  · exact hkey st'

/-- Every other stream is left alone. -/
theorem entry_of_ne {o : Option ProposalParts} {map' : PartStreamsMap} {key : StreamKey}
    (h : map.insert peer m = (.ok (o, map') : Call ε _)) (hne : key ≠ ⟨peer, m.streamId⟩) :
    map'.entry key = map.entry key := by
  rcases insert_cases h with ⟨-, -, hentry⟩ | ⟨st', -, -, hentry⟩
  · exact hentry key
  · rw [hentry, if_neg hne]

/-- The arrival of a message that completes its stream. -/
def Completes (msgs : List (StreamMessage ProposalPart)) (st : StreamState)
    (m : StreamMessage ProposalPart) : Prop :=
  m.sequence ∉ st.seenSequences ∧ AllSeen msgs (m.sequence :: st.seenSequences)

instance (msgs : List (StreamMessage ProposalPart)) (st : StreamState)
    (m : StreamMessage ProposalPart) : Decidable (Completes msgs st m) :=
  inferInstanceAs (Decidable (_ ∧ _))

/-- **A message of a stream that is being received.**  It is never an error, the stream
is handed out exactly when the message completes it, and the stream goes on being
received. -/
theorem insert_of_tracked (hM : IsStream msgs first)
    (h : Tracked msgs first (map.entry ⟨peer, m.streamId⟩)) (hm : m ∈ msgs) :
    ∃ map' : PartStreamsMap,
      map.insert peer m =
        (.ok (if Completes msgs (map.entry ⟨peer, m.streamId⟩) m then
          some (handedOut msgs first) else none, map') : Call ε _) ∧
      Tracked msgs first (map'.entry ⟨peer, m.streamId⟩) ∧
      ∀ n, n ∈ (map'.entry ⟨peer, m.streamId⟩).seenSequences ↔
        n = m.sequence ∨ n ∈ (map.entry ⟨peer, m.streamId⟩).seenSequences := by
  by_cases hseen : m.sequence ∈ (map.entry ⟨peer, m.streamId⟩).seenSequences
  · have hnot : ¬ Completes msgs (map.entry ⟨peer, m.streamId⟩) m := fun hc => hc.1 hseen
    rw [if_neg hnot]
    refine ⟨_, insert_of_seen hseen, ?_, fun n => ?_⟩
    · rw [entry_insert, if_pos rfl]
      exact h
    · rw [entry_insert, if_pos rfl]
      exact ⟨Or.inr, fun hn => hn.elim (fun heq => heq ▸ hseen) id⟩
  · obtain hreceiving | hreceived := h
    · obtain ⟨st', hinsert, hkept, htracked⟩ := hreceiving.insert (ε := ε) hM hm hseen
      have hrun := insert_of_new (ε := ε) hseen
      rw [hinsert, call_ok_bind] at hrun
      have hiff : Completes msgs (map.entry ⟨peer, m.streamId⟩) m ↔
          AllSeen msgs (m.sequence :: (map.entry ⟨peer, m.streamId⟩).seenSequences) :=
        and_iff_right hseen
      rw [if_congr hiff rfl rfl]
      obtain ⟨hseen', -⟩ | ⟨st'', -, hinsert', hentry⟩ := insert_cases hrun
      · exact absurd hseen' hseen
      · rw [hinsert] at hinsert'
        obtain ⟨-, rfl⟩ := Prod.mk.inj (Except.ok.inj hinsert')
        refine ⟨_, hrun, ?_, fun n => ?_⟩
        · rw [hentry, if_pos rfl]
          exact htracked
        · rw [hentry, if_pos rfl, hkept, List.mem_cons]
    · exact absurd (hreceived.all m hm) hseen

end PartStreamsMap
end MalakethTurbo
