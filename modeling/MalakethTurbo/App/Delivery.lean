import MalakethTurbo.App.Binding

/-!
# What the reassembler delivers

The reassembler takes messages of any peer under any number.  The messages of a stream
that it accepts, each number once, are what its heap holds until the stream is delivered
(`StreamState.Collects`).

A stream is delivered at most once: the number of its first message stays among those
seen, so the beginning that was taken out with the delivery never comes back
(`delivered_at_most_once`).  Its entry stays in the map, because the call that takes the
beginning out asks afterwards whether the beginning is there (`delivered_never_released`).
It is delivered when as many messages are there as the last end marker announces.  As the
numbers are distinct, these are the messages of the stream without a gap exactly if none of
them is numbered beyond the marker (`delivered_complete_iff`).
-/

namespace MalakethTurbo

/-! ## At most once -/

namespace StreamState

variable {st st' : StreamState} {m : StreamMessage ProposalPart} {o : Option ProposalParts}
  {ε : Type}

/-- A stream whose beginning has been seen and is not there (any more). -/
structure Spent (st : StreamState) : Prop where
  initInfo : st.initInfo = none
  first : 0 ∈ st.seenSequences

/-- Nothing more comes of it. -/
theorem Spent.insert (h : st.Spent) (hnew : m.sequence ∉ st.seenSequences)
    (hinsert : (st.see m).insert m = (.ok (o, st') : Call ε _)) : o = none ∧ st'.Spent := by
  obtain ⟨st₁, hrecorded, hcases⟩ := insert_new hinsert
  have hfirst : m.isFirst = false := by
    refine decide_eq_false fun hzero => hnew ?_
    rw [hzero]
    exact h.first
  have hinfo : st₁.initInfo = none := by
    rw [hrecorded.initInfo, hfirst, if_neg (by simp), h.initInfo]
  have hseen : 0 ∈ st₁.seenSequences := by
    rw [hrecorded.seen]
    exact List.mem_cons_of_mem _ h.first
  rcases hcases with ⟨rfl, rfl⟩ | ⟨i, hi, -⟩
  · exact ⟨rfl, hinfo, hseen⟩
  · rw [hinfo] at hi
    exact absurd hi (by simp)

/-- A stream that has been delivered is spent. -/
theorem spent_of_delivered (h : st.Begun) {parts : ProposalParts}
    (hinsert : (st.see m).insert m = (.ok (some parts, st') : Call ε _)) : st'.Spent := by
  obtain ⟨st₁, hrecorded, ⟨hnone, -⟩ | ⟨i, hinfo, -, -, -, rfl⟩⟩ := insert_new hinsert
  · exact absurd hnone (by simp)
  · refine ⟨rfl, ?_⟩
    show 0 ∈ st₁.seenSequences
    rw [hrecorded.initInfo] at hinfo
    rw [hrecorded.seen]
    split_ifs at hinfo with hfirst
    · rw [← show m.sequence = 0 from of_decide_eq_true hfirst]
      exact List.mem_cons_self
    · obtain ⟨m', hm', hzero, -⟩ := h.begins i hinfo
      rw [← hzero]
      exact List.mem_cons_of_mem _ (h.seen m' hm')

end StreamState

section Calls

variable {steps : List (PartStreamsMap × (PeerId × StreamMessage ProposalPart))}
  {map : PartStreamsMap}

/-- A call of `insert` hands a proposal out. -/
def HandsOut (x : PartStreamsMap × (PeerId × StreamMessage ProposalPart)) : Prop :=
  ∃ parts map', x.1.insert x.2.1 x.2.2 = (.ok (some parts, map') : Call AppError _)

/-- The stream that a call is about. -/
def keyOf (x : PartStreamsMap × (PeerId × StreamMessage ProposalPart)) : StreamKey :=
  ⟨x.2.1, x.2.2.streamId⟩

/-- A stream that has been handed out is spent. -/
theorem spent_of_handsOut (h : Run reassembler steps map) :
    ∀ x ∈ steps, HandsOut x → (map.entry (keyOf x)).Spent := by
  induction h with
  | start _ => exact fun x hx => absurd hx List.not_mem_nil
  | @next steps map map' l hrun hstep ih =>
      obtain ⟨o, hinsert⟩ := hstep
      rw [List.forall_mem_append, List.forall_mem_singleton]
      rcases PartStreamsMap.insert_cases hinsert with ⟨-, rfl, hentry⟩ |
        ⟨st', hnew, hst', hentry⟩
      · refine ⟨fun x hx hout => ?_, ?_⟩
        · rw [hentry]
          exact ih x hx hout
        · rintro ⟨parts, map'', hsome⟩
          exact absurd (hinsert.symm.trans hsome) (by simp)
      · refine ⟨fun x hx hout => ?_, ?_⟩
        · have hspent := ih x hx hout
          rw [hentry]
          split_ifs with hkey
          · rw [hkey] at hspent
            exact (hspent.insert hnew hst').2
          · exact hspent
        · rintro ⟨parts, map'', hsome⟩
          obtain ⟨rfl, -⟩ := Prod.mk.inj (Except.ok.inj (hinsert.symm.trans hsome))
          have hkey : keyOf (map, l) = ⟨l.1, l.2.streamId⟩ := rfl
          rw [hentry, if_pos hkey]
          exact StreamState.spent_of_delivered (begun_of_reachable ⟨_, hrun⟩ _) hst'

/-- **A stream is delivered at most once.**  Whatever is inserted in whatever order, no two
calls for one peer and one stream identifier return a proposal. -/
theorem delivered_at_most_once (h : Run reassembler steps map) :
    steps.Pairwise fun x y => HandsOut x → HandsOut y → keyOf x ≠ keyOf y := by
  induction h with
  | start _ => exact List.Pairwise.nil
  | @next steps map map' l hrun hstep ih =>
      rw [List.pairwise_append]
      refine ⟨ih, List.pairwise_singleton _ _, fun x hx y hy hxout hyout hkey => ?_⟩
      obtain rfl := List.mem_singleton.mp hy
      obtain ⟨parts, map'', hinsert⟩ := hyout
      have hspent := spent_of_handsOut hrun x hx hxout
      rw [hkey] at hspent
      rcases PartStreamsMap.insert_cases hinsert with ⟨-, hnone, -⟩ | ⟨st', hnew, hst', -⟩
      · exact absurd hnone (by simp)
      · exact absurd (hspent.insert hnew hst').1 (by simp)

end Calls

/-- A stream of three messages, the middle one under any number. -/
def shortStream (q : UInt64) : List (StreamMessage ProposalPart) :=
  [⟨⟨[]⟩, 0, .data (.init ⟨⟨1⟩, .some 0, ⟨FixedBytes.ofBytes 20 [1]⟩⟩)⟩,
    ⟨⟨[]⟩, q, .data (.data ⟨[9]⟩)⟩, ⟨⟨[]⟩, 2, .fin⟩]

/-- The proposal it is taken for. -/
def shortParts : ProposalParts where
  height := ⟨1⟩
  round := .some 0
  proposer := ⟨FixedBytes.ofBytes 20 [1]⟩
  parts := [.init ⟨⟨1⟩, .some 0, ⟨FixedBytes.ofBytes 20 [1]⟩⟩, .data ⟨[9]⟩]

/-- The whole stream, and all of it once more. -/
def shortTwice : List (PartStreamsMap × (PeerId × StreamMessage ProposalPart)) :=
  PartStreamsMap.new.calls ⟨[1]⟩ (shortStream 1 ++ shortStream 1)

theorem delivered_at_most_once_demo :
    shortTwice.map (fun x => x.1.handedOutBy x.2.1 x.2.2) =
        [none, none, some shortParts, none, none, none] ∧
      shortTwice.Pairwise fun x y => HandsOut x → HandsOut y → keyOf x ≠ keyOf y := by
  have hstart : Run reassembler [] PartStreamsMap.new := .start rfl
  have hrun := hstart.calls ⟨[1]⟩ (shortStream 1 ++ shortStream 1)
  exact ⟨by decide +kernel, delivered_at_most_once hrun⟩

/-! ## Never released -/

section Released

variable {steps : List (PartStreamsMap × (PeerId × StreamMessage ProposalPart))}
  {map : PartStreamsMap}

/-- A stream that a message has come for is in the map for good. -/
theorem isSome_streams_of_mem (h : Run reassembler steps map) :
    ∀ x ∈ steps, (map.streams.get? (keyOf x)).isSome := by
  induction h with
  | start _ => exact fun x hx => absurd hx List.not_mem_nil
  | @next steps map map' l hrun hstep ih =>
      obtain ⟨o, hinsert⟩ := hstep
      have hiff := PartStreamsMap.isSome_streams_insert hinsert
      rw [List.forall_mem_append, List.forall_mem_singleton]
      exact ⟨fun x hx => (hiff _).mpr (Or.inr (ih x hx)), (hiff _).mpr (Or.inl rfl)⟩

/-- **What has been delivered is never released.**  The entry of a stream that has been
handed out is in the map when the call returns and after every later call, spent: nothing
more comes of it, and nothing takes it out. -/
theorem delivered_never_released (h : Run reassembler steps map) :
    ∀ x ∈ steps, HandsOut x →
      ∃ st, map.streams.get? (keyOf x) = some st ∧ st.Spent := by
  intro x hx hout
  obtain ⟨st, hst⟩ := Option.isSome_iff_exists.mp (isSome_streams_of_mem h x hx)
  have hspent := spent_of_handsOut h x hx hout
  rw [PartStreamsMap.entry, hst] at hspent
  exact ⟨st, hst, hspent⟩

end Released

theorem delivered_never_released_demo :
    shortTwice.map (fun x => x.1.handedOutBy x.2.1 x.2.2) =
        [none, none, some shortParts, none, none, none] ∧
      ∀ x ∈ shortTwice, HandsOut x →
        ∃ st, (PartStreamsMap.new.afterAll ⟨[1]⟩ (shortStream 1 ++ shortStream 1)).streams.get?
          (keyOf x) = some st ∧ st.Spent := by
  have hstart : Run reassembler [] PartStreamsMap.new := .start rfl
  have hrun := hstart.calls ⟨[1]⟩ (shortStream 1 ++ shortStream 1)
  exact ⟨by decide +kernel, delivered_never_released hrun⟩

/-- The last message of the short stream delivers it, and the stream stays. -/
theorem delivered_stays :
    ¬ ∀ (steps : List (PartStreamsMap × (PeerId × StreamMessage ProposalPart)))
      (map map' : PartStreamsMap) (peer : PeerId) (m : StreamMessage ProposalPart)
      (parts : ProposalParts), Run reassembler steps map →
      map.insert peer m = (.ok (some parts, map') : Call AppError _) →
      map'.streams.get? ⟨peer, m.streamId⟩ = none := by
  intro hall
  have hstart : Run reassembler [] PartStreamsMap.new := .start rfl
  have hrun := hstart.calls ⟨[1]⟩ ((shortStream 1).take 2)
  have hout : (PartStreamsMap.new.afterAll ⟨[1]⟩ ((shortStream 1).take 2)).handedOutBy ⟨[1]⟩
      ⟨⟨[]⟩, 2, .fin⟩ = some shortParts := by
    decide +kernel
  obtain ⟨map', hinsert⟩ := PartStreamsMap.insert_of_handedOutBy hout
  have hnone := hall _ _ map' _ _ _ hrun hinsert
  have hsome := (PartStreamsMap.isSome_streams_insert hinsert ⟨⟨[1]⟩, ⟨[]⟩⟩).mpr (Or.inl rfl)
  rw [hnone] at hsome
  exact absurd hsome (by simp)

/-! ## What has been accepted -/

/-- The last end marker among messages. -/
def lastFin (msgs : List (StreamMessage ProposalPart)) : Option (StreamMessage ProposalPart) :=
  (msgs.filter StreamMessage.isFin).getLast?

theorem lastFin_concat (msgs : List (StreamMessage ProposalPart))
    (m : StreamMessage ProposalPart) :
    lastFin (msgs ++ [m]) = if m.isFin then some m else lastFin msgs := by
  rw [lastFin, List.filter_append]
  by_cases hfin : m.isFin = true
  · rw [List.filter_cons_of_pos hfin, if_pos hfin, List.filter_nil, List.getLast?_concat]
  · rw [List.filter_cons_of_neg hfin, if_neg hfin, List.filter_nil, List.append_nil]
    rfl

/-- The number of a message. -/
def StreamMessage.number (m : StreamMessage ProposalPart) : Nat := m.sequence.toNat

/-- A stream holds the messages that it has accepted, until it is spent. -/
structure StreamState.Collects (accepted : List (StreamMessage ProposalPart))
    (st : StreamState) : Prop where
  seen : ∀ q, q ∈ st.seenSequences ↔ q ∈ accepted.map StreamMessage.sequence
  distinct : (accepted.map StreamMessage.sequence).Nodup
  begins : ∀ i, st.initInfo = some i →
    ∃ m ∈ accepted, m.sequence = 0 ∧ m.content = .data (.init i)
  ends : st.finReceived = true →
    ∃ f, lastFin accepted = some f ∧ st.totalMessages = f.number + 1
  buffer : st.Spent ∨ st.buffer.msgs.Perm accepted

/-- What the reassembler makes sure of before it delivers. -/
structure Counted (accepted : List (StreamMessage ProposalPart)) (parts : ProposalParts) :
    Prop where
  distinct : (accepted.map StreamMessage.sequence).Nodup
  first : ∃ m ∈ accepted, m.sequence = 0 ∧
    m.content = .data (.init ⟨parts.height, parts.round, parts.proposer⟩)
  last : ∃ f, lastFin accepted = some f ∧ accepted.length = f.number + 1
  ordered : ∃ msgs : List (StreamMessage ProposalPart), msgs.Perm accepted ∧
    msgs.Pairwise StreamMessage.before ∧
    parts.parts = msgs.filterMap fun m => m.content.asData

namespace StreamState.Collects

variable {accepted : List (StreamMessage ProposalPart)} {st st' : StreamState}
  {m : StreamMessage ProposalPart} {o : Option ProposalParts} {ε : Type}

theorem default : Collects [] default := by
  refine ⟨fun q => Iff.rfl, List.nodup_nil, fun i hi => ?_, fun hfin => ?_, Or.inr List.Perm.nil⟩
  · exact absurd hi (by simp [show (Inhabited.default : StreamState).initInfo = none from rfl])
  · have hnone : (Inhabited.default : StreamState).finReceived = false := rfl
    exact absurd hfin (by simp [hnone])

section Accept

variable {st₁ : StreamState}

theorem seen_concat (h : st.Collects accepted) (hrecorded : Recorded st m st₁) (q : UInt64) :
    q ∈ st₁.seenSequences ↔ q ∈ (accepted ++ [m]).map StreamMessage.sequence := by
  rw [hrecorded.seen, List.mem_cons, h.seen, List.map_append, List.mem_append, or_comm]
  exact or_congr Iff.rfl List.mem_singleton.symm

theorem distinct_concat (h : st.Collects accepted) (hnew : m.sequence ∉ st.seenSequences) :
    ((accepted ++ [m]).map StreamMessage.sequence).Nodup := by
  rw [List.map_append, List.nodup_append]
  refine ⟨h.distinct, List.nodup_singleton _, fun q hq q' hq' heq => ?_⟩
  rw [List.mem_singleton.mp hq'] at heq
  exact hnew ((h.seen _).mpr (heq ▸ hq))

theorem begins_concat (h : st.Collects accepted) (hrecorded : Recorded st m st₁)
    {i : ProposalInit} (hi : st₁.initInfo = some i) :
    ∃ m' ∈ accepted ++ [m], m'.sequence = 0 ∧ m'.content = .data (.init i) := by
  rw [hrecorded.initInfo] at hi
  split_ifs at hi with hfirst
  · exact ⟨m, List.mem_append_right _ List.mem_cons_self, of_decide_eq_true hfirst,
      content_of_asInit hi⟩
  · obtain ⟨m', hm', hzero, hcontent⟩ := h.begins i hi
    exact ⟨m', List.mem_append_left _ hm', hzero, hcontent⟩

theorem ends_concat (h : st.Collects accepted) (hrecorded : Recorded st m st₁)
    (hfin : st₁.finReceived = true) :
    ∃ f, lastFin (accepted ++ [m]) = some f ∧ st₁.totalMessages = f.number + 1 := by
  rw [lastFin_concat, hrecorded.totalMessages]
  rw [hrecorded.finReceived] at hfin
  by_cases hlast : m.isFin = true
  · rw [if_pos hlast, if_pos hlast]
    exact ⟨m, rfl, rfl⟩
  · rw [if_neg hlast, if_neg hlast]
    exact h.ends (by simpa [hlast] using hfin)

/-- The heap of a stream that is not spent gets every accepted message. -/
theorem buffer_push (h : st.Collects accepted) (hrecorded : Recorded st m st₁)
    (hspent : ¬ st.Spent) : (st₁.buffer.push m).msgs.Perm (accepted ++ [m]) := by
  have hperm := List.perm_orderedInsert StreamMessage.before m st₁.buffer.msgs
  rw [hrecorded.buffer] at hperm ⊢
  exact hperm.trans (((h.buffer.resolve_left hspent).cons m).trans
    (List.perm_append_singleton m accepted).symm)

end Accept

/-- **A new message is accepted**, and what is delivered has been counted. -/
theorem insert (h : st.Collects accepted) (hnew : m.sequence ∉ st.seenSequences)
    (hinsert : (st.see m).insert m = (.ok (o, st') : Call ε _)) :
    st'.Collects (accepted ++ [m]) ∧ ∀ parts, o = some parts → Counted (accepted ++ [m]) parts := by
  obtain ⟨st₁, hrecorded, hcases⟩ := insert_new hinsert
  have hseen := h.seen_concat hrecorded
  have hdistinct := h.distinct_concat hnew
  have hends := h.ends_concat hrecorded
  by_cases hspent : st.Spent
  · obtain ⟨rfl, hspent'⟩ := hspent.insert hnew hinsert
    rcases hcases with ⟨-, rfl⟩ | ⟨i, -, -, -, hsome, -⟩
    · exact ⟨⟨hseen, hdistinct, fun i => h.begins_concat hrecorded, hends,
        Or.inl hspent'⟩, fun parts hparts => absurd hparts (by simp)⟩
    · exact absurd hsome (by simp)
  · have hperm := h.buffer_push hrecorded hspent
    rcases hcases with ⟨rfl, rfl⟩ | ⟨i, hinfo, hfin, hcount, rfl, rfl⟩
    · exact ⟨⟨hseen, hdistinct, fun i => h.begins_concat hrecorded, hends,
        Or.inr hperm⟩, fun parts hparts => absurd hparts (by simp)⟩
    · have hfirst := h.begins_concat hrecorded hinfo
      have hzero : 0 ∈ st₁.seenSequences := by
        obtain ⟨m', hm', hzero, -⟩ := hfirst
        exact (hseen 0).mpr (hzero ▸ List.mem_map_of_mem hm')
      refine ⟨⟨hseen, hdistinct, fun j hj => absurd hj (by simp), hends,
        Or.inl ⟨rfl, hzero⟩⟩, fun parts hparts => ?_⟩
      obtain rfl := Option.some.inj hparts
      obtain ⟨f, hf, htotal⟩ := hends hfin
      refine ⟨hdistinct, hfirst, ⟨f, hf, ?_⟩, _, hperm, (st₁.buffer.push m).ordered, rfl⟩
      rw [← hperm.length_eq, ← htotal, ← hcount]
      rfl

end StreamState.Collects

section Accepted

variable {steps : List (PartStreamsMap × (PeerId × StreamMessage ProposalPart))}
  {map map' : PartStreamsMap}

/-- The messages of a stream whose number had not been seen, in the order of their arrival. -/
def acceptedOf (key : StreamKey)
    (steps : List (PartStreamsMap × (PeerId × StreamMessage ProposalPart))) :
    List (StreamMessage ProposalPart) :=
  steps.filterMap fun x =>
    if keyOf x = key ∧ x.2.2.sequence ∉ (x.1.entry key).seenSequences then some x.2.2 else none

theorem acceptedOf_concat (key : StreamKey)
    (x : PartStreamsMap × (PeerId × StreamMessage ProposalPart)) :
    acceptedOf key (steps ++ [x]) = acceptedOf key steps ++
      if keyOf x = key ∧ x.2.2.sequence ∉ (x.1.entry key).seenSequences then [x.2.2] else [] := by
  rw [acceptedOf, List.filterMap_append, acceptedOf]
  congr 1
  split_ifs with h
  · exact List.filterMap_cons_some (if_pos h)
  · exact List.filterMap_cons_none (if_neg h)

/-- What a stream holds is what it has accepted, whatever has arrived. -/
theorem collects_of_run (h : Run reassembler steps map) (key : StreamKey) :
    (map.entry key).Collects (acceptedOf key steps) := by
  refine h.history_along (P := fun steps map => ∀ key,
    (map.entry key).Collects (acceptedOf key steps)) (G := fun _ _ => True) ?_ ?_
    (fun _ _ => trivial) key
  · rintro map rfl key
    exact .default
  · rintro steps map ⟨peer, m⟩ map' hprev - ⟨o, hstep⟩ key
    rw [acceptedOf_concat]
    rcases PartStreamsMap.insert_cases hstep with ⟨hseen, -, hentry⟩ | ⟨st', hnew, hst', hentry⟩
    · have hold : ¬ (keyOf (map, (peer, m)) = key ∧
          m.sequence ∉ (map.entry key).seenSequences) := by
        rintro ⟨rfl, hnew⟩
        exact hnew hseen
      rw [if_neg hold, List.append_nil, hentry]
      exact hprev key
    · by_cases hkey : key = ⟨peer, m.streamId⟩
      · rw [hentry, if_pos hkey, hkey, if_pos ⟨rfl, hnew⟩]
        exact ((hprev _).insert hnew hst').1
      · rw [hentry, if_neg hkey, if_neg fun h => hkey h.1.symm, List.append_nil]
        exact hprev key

/-- Whatever arrives, what is handed out has been counted. -/
theorem counted_of_handedOut (h : Run reassembler steps map) {peer : PeerId}
    {m : StreamMessage ProposalPart} {parts : ProposalParts}
    (hinsert : map.insert peer m = (.ok (some parts, map') : Call AppError _)) :
    Counted (acceptedOf ⟨peer, m.streamId⟩ (steps ++ [(map, (peer, m))])) parts := by
  rcases PartStreamsMap.insert_cases hinsert with ⟨-, hnone, -⟩ | ⟨st', hnew, hst', -⟩
  · exact absurd hnone (by simp)
  · rw [acceptedOf_concat, if_pos ⟨rfl, hnew⟩]
    exact ((collects_of_run h _).insert hnew hst').2 parts rfl

end Accepted

/-! ## What is complete -/

/-- The accepted messages of a stream are those from its beginning to an end marker, none
missing, and the parts are theirs. -/
structure Delivers (accepted : List (StreamMessage ProposalPart)) (parts : ProposalParts)
    (n : Nat) : Prop where
  first : ∃ m ∈ accepted, m.sequence = 0 ∧
    m.content = .data (.init ⟨parts.height, parts.round, parts.proposer⟩)
  last : ∃ m ∈ accepted, m.number = n ∧ m.isFin = true
  ordered : ∃ msgs : List (StreamMessage ProposalPart), msgs.Perm accepted ∧
    msgs.map StreamMessage.number = List.range (n + 1) ∧
    parts.parts = msgs.filterMap fun m => m.content.asData

theorem mem_of_lastFin {msgs : List (StreamMessage ProposalPart)}
    {f : StreamMessage ProposalPart} (h : lastFin msgs = some f) : f ∈ msgs ∧ f.isFin = true :=
  List.mem_filter.mp (List.mem_of_getLast? h)

/-- In order and each number once. -/
theorem pairwise_number {msgs : List (StreamMessage ProposalPart)}
    (hordered : msgs.Pairwise StreamMessage.before)
    (hdistinct : (msgs.map StreamMessage.sequence).Nodup) :
    (msgs.map StreamMessage.number).Pairwise (· < ·) := by
  rw [List.pairwise_map]
  refine hordered.imp₂ (fun a b hle hne => ?_) (List.pairwise_map.mp hdistinct)
  exact Nat.lt_of_le_of_ne hle fun heq => hne (UInt64.toNat_inj.mp heq)

namespace Counted

variable {accepted : List (StreamMessage ProposalPart)} {parts : ProposalParts}

/-- **What the count is worth.** -/
theorem delivers_iff (h : Counted accepted parts) :
    (∃ n, Delivers accepted parts n) ↔
      ∀ f, lastFin accepted = some f → ∀ m ∈ accepted, m.number ≤ f.number := by
  obtain ⟨f, hf, hcount⟩ := h.last
  constructor
  · rintro ⟨n, -, -, msgs, hperm, hnumbers, -⟩ f' hf' m hm
    obtain rfl : f = f' := Option.some.inj (hf.symm.trans hf')
    have hlen : accepted.length = n + 1 := by
      rw [← hperm.length_eq, ← List.length_map (f := StreamMessage.number), hnumbers,
        List.length_range]
    have hmem : m.number ∈ List.range (n + 1) := by
      rw [← hnumbers]
      exact List.mem_map_of_mem (hperm.mem_iff.mpr hm)
    rw [List.mem_range] at hmem
    omega
  · intro hall
    obtain ⟨msgs, hperm, hordered, hparts⟩ := h.ordered
    have hdistinct : (msgs.map StreamMessage.sequence).Nodup :=
      (hperm.map StreamMessage.sequence).nodup_iff.mpr h.distinct
    have hlen : (msgs.map StreamMessage.number).length = f.number + 1 := by
      rw [List.length_map, hperm.length_eq, hcount]
    have hrange : msgs.map StreamMessage.number = List.range (f.number + 1) := by
      rw [← hlen]
      refine (eq_range_iff (pairwise_number hordered hdistinct)).mpr fun k hk => ?_
      obtain ⟨m, hm, rfl⟩ := List.mem_map.mp hk
      have hle := hall f hf m (hperm.mem_iff.mp hm)
      omega
    obtain ⟨hmem, hfin⟩ := mem_of_lastFin hf
    exact ⟨f.number, h.first, ⟨f, hmem, rfl, hfin⟩, msgs, hperm, hrange, hparts⟩

end Counted

/-- **A stream that is handed out is complete exactly if nothing lies beyond its end.**
Whatever has been inserted, the parts that a call returns are those of the messages from
the first number to an end marker, none missing, if and only if no message that the stream
has accepted has a number above that of the last end marker it has accepted. -/
theorem delivered_complete_iff
    {steps : List (PartStreamsMap × (PeerId × StreamMessage ProposalPart))}
    {map map' : PartStreamsMap} (h : Run reassembler steps map) {peer : PeerId}
    {m : StreamMessage ProposalPart} {parts : ProposalParts}
    (hinsert : map.insert peer m = (.ok (some parts, map') : Call AppError _)) :
    (∃ n, Delivers (acceptedOf ⟨peer, m.streamId⟩ (steps ++ [(map, (peer, m))])) parts n) ↔
      ∀ f, lastFin (acceptedOf ⟨peer, m.streamId⟩ (steps ++ [(map, (peer, m))])) = some f →
        ∀ m' ∈ acceptedOf ⟨peer, m.streamId⟩ (steps ++ [(map, (peer, m))]),
          m'.number ≤ f.number :=
  (counted_of_handedOut h hinsert).delivers_iff

/-- All calls for the short stream but the last one. -/
def shortCalls (q : UInt64) : List (PartStreamsMap × (PeerId × StreamMessage ProposalPart)) :=
  PartStreamsMap.new.calls ⟨[1]⟩ ((shortStream q).take 2)

/-- The reassembler after them. -/
def shortMap (q : UInt64) : PartStreamsMap :=
  PartStreamsMap.new.afterAll ⟨[1]⟩ ((shortStream q).take 2)

theorem run_shortCalls (q : UInt64) : Run reassembler (shortCalls q) (shortMap q) := by
  have hstart : Run reassembler [] PartStreamsMap.new := .start rfl
  exact hstart.calls ⟨[1]⟩ ((shortStream q).take 2)

theorem delivered_complete_demo :
    ∃ n, Delivers (acceptedOf ⟨⟨[1]⟩, ⟨[]⟩⟩
      (shortCalls 1 ++ [(shortMap 1, (⟨[1]⟩, ⟨⟨[]⟩, 2, .fin⟩))])) shortParts n := by
  have hout : (shortMap 1).handedOutBy ⟨[1]⟩ ⟨⟨[]⟩, 2, .fin⟩ = some shortParts := by
    decide +kernel
  have hlast : lastFin (acceptedOf ⟨⟨[1]⟩, ⟨[]⟩⟩
      (shortCalls 1 ++ [(shortMap 1, (⟨[1]⟩, ⟨⟨[]⟩, 2, .fin⟩))])) = some ⟨⟨[]⟩, 2, .fin⟩ := by
    decide +kernel
  obtain ⟨map', hinsert⟩ := PartStreamsMap.insert_of_handedOutBy hout
  refine (delivered_complete_iff (run_shortCalls 1) hinsert).mpr fun f hf => ?_
  rw [← Option.some.inj (hlast.symm.trans hf)]
  decide +kernel

/-- **A message beyond the end fills a gap.**  The first message, one with number `7` and an
end marker with number `2` are three messages, so they are handed out, although the message
with number `1` has never arrived. -/
theorem delivered_with_gap :
    ¬ ∀ (steps : List (PartStreamsMap × (PeerId × StreamMessage ProposalPart)))
      (map map' : PartStreamsMap) (peer : PeerId) (m : StreamMessage ProposalPart)
      (parts : ProposalParts), Run reassembler steps map →
      map.insert peer m = (.ok (some parts, map') : Call AppError _) →
      ∃ n, Delivers (acceptedOf ⟨peer, m.streamId⟩ (steps ++ [(map, (peer, m))])) parts n := by
  intro hall
  have hout : (shortMap 7).handedOutBy ⟨[1]⟩ ⟨⟨[]⟩, 2, .fin⟩ = some shortParts := by
    decide +kernel
  have hnumbers : (acceptedOf ⟨⟨[1]⟩, ⟨[]⟩⟩
      (shortCalls 7 ++ [(shortMap 7, (⟨[1]⟩, ⟨⟨[]⟩, 2, .fin⟩))])).map StreamMessage.number =
        [0, 7, 2] := by
    decide +kernel
  obtain ⟨map', hinsert⟩ := PartStreamsMap.insert_of_handedOutBy hout
  obtain ⟨n, -, -, msgs, hperm, hrange, -⟩ := hall _ _ map' _ _ _ (run_shortCalls 7) hinsert
  have hsame : (List.range (n + 1)).Perm [0, 7, 2] := by
    rw [← hrange, ← hnumbers]
    exact hperm.map StreamMessage.number
  have hlen : n + 1 = 3 := by
    rw [← List.length_range (n := n + 1), hsame.length_eq]
    rfl
  have hlarge : 7 ∈ List.range (n + 1) := hsame.mem_iff.mpr (by decide)
  rw [List.mem_range] at hlarge
  omega

end MalakethTurbo
