import MalakethTurbo.App.Handover
import MalakethTurbo.App.Network
import MalakethTurbo.App.Notes

/-!
# The identifiers of streams

A node names the streams of its proposals by the height and the round it is in and by a
nonce that it counts up from zero.  The nonce is a note of the process, so every life of
the node counts from zero again.

A run over several lives is tallied: which call of `stream_proposal` it makes in which
life, and as which call of that life.  The nonce is the number of calls in the present
life (`Numbered`), so the identifiers of one life are all different, and those of two
lives agree exactly for calls in one height and one round with as many calls before them
(`streamIds_eq_iff`).
-/

namespace MalakethTurbo

open Wire (Bytes)

section StreamIds

variable [Crypto] [Prost] [Payload]

/-! ## Calls and lives -/

/-- The reply with a value that the node proposes. -/
def Effect.isLocalValue : Effect → Bool
  | .reply (.localValue _) => true
  | _ => false

/-- The identifier that `stream_proposal` takes in a step.  The call follows the reply with
the value, and nothing before it changes what the identifier is made of. -/
def Event.streamId? (s : State) (e : Event) : Option StreamId :=
  if (e.performed s).any Effect.isLocalValue then (State.streamId s).result.toOption else none

/-- The lives of a node on one key.  Every life has a configuration of its own. -/
def lives (key : PrivateKey) : System State (Config × Event) where
  init s := ∃ config, config.signingKey = key ∧ (node config).init s
  step s l s' := l.1.signingKey = key ∧ (node l.1).step s l.2 s'

/-- A call of `stream_proposal`: in which life of the node and as which call of that life,
where the node was, and the identifier. -/
structure StreamCall where
  life : Nat
  place : Nat
  height : Height
  round : Round
  streamId : StreamId

/-- The lives that have ended, the calls of the present one, and all calls so far. -/
structure Tally where
  life : Nat
  place : Nat
  calls : List StreamCall

/-- The call that a step makes. -/
def Tally.call (t : Tally) (s : State) (e : Event) : List StreamCall :=
  (e.streamId? s).toList.map fun id => ⟨t.life, t.place, s.currentHeight, s.currentRound, id⟩

/-- Counts a step. -/
def Tally.count (t : Tally) (x : State × (Config × Event)) : Tally :=
  match x.2.2 with
  | .deliver _ =>
      ⟨t.life, t.place + (t.call x.1 x.2.2).length, t.calls ++ t.call x.1 x.2.2⟩
  | .restart .. => ⟨t.life + 1, 0, t.calls ++ t.call x.1 x.2.2⟩

def tally (steps : List (State × (Config × Event))) : Tally :=
  steps.foldl Tally.count ⟨0, 0, []⟩

/-- The calls of `stream_proposal` in a run, in order. -/
def streamCalls (steps : List (State × (Config × Event))) : List StreamCall :=
  (tally steps).calls

variable {s s' : State} {e : Event} {msg : AppMsg}

/-! ## What a step calls -/

/-- Only a request for a value is answered with one. -/
theorem getValue_of_localValue {v : LocallyProposedValue}
    (h : .localValue v ∈ replies (handle msg s).effects) :
    ∃ height round p data, msg = .getValue height round ∧ HandsOver s msg p data := by
  obtain ⟨p, data, hhands, -⟩ := handsOver_of_produced h rfl
  cases msg with
  | getValue height round => exact ⟨height, round, p, data, rfl, hhands⟩
  | receivedProposalPart peer part =>
      rw [hhands.handle_receivedProposalPart] at h
      exact absurd h (by simp)
  | _ => nomatch hhands

theorem HandsOver.localValue_mem {height : Height} {round : Round} {p : ProposedValue}
    {data : Bytes} (h : HandsOver s (.getValue height round) p data) :
    .reply (.localValue ⟨p.height, p.round, p.value⟩) ∈
      (Event.deliver (.getValue height round)).performed s := by
  obtain ⟨s', msgs, -, -, -, -, heffects⟩ := h.handle_getValue
  have hperformed : (Event.deliver (.getValue height round)).performed s = _ := heffects
  rw [hperformed]
  exact List.mem_append_right _ List.mem_cons_self

theorem localValue_mem (h : (e.performed s).any Effect.isLocalValue = true) :
    ∃ v, .localValue v ∈ replies (e.performed s) := by
  obtain ⟨effect, hmem, hlocal⟩ := List.any_eq_true.mp h
  match effect, hlocal with
  | .reply (.localValue v), _ => exact ⟨v, List.mem_filterMap.mpr ⟨_, hmem, rfl⟩⟩

/-- A step that is no request for a value makes no call. -/
theorem streamId?_of_not (h : ∀ height round, e.msg ≠ .getValue height round) :
    e.streamId? s = none := by
  rw [Event.streamId?, if_neg]
  intro hlocal
  obtain ⟨v, hv⟩ := localValue_mem hlocal
  obtain ⟨height, round, -, -, hmsg, -⟩ := getValue_of_localValue (Event.mem_replies hv)
  exact h height round hmsg

/-- An identifier is made of the height, the round and the nonce. -/
theorem streamId?_eq_some {id : StreamId} (h : e.streamId? s = some id) :
    ∃ round, s.currentRound = .some round ∧ id = s.nextStreamId round := by
  rw [Event.streamId?] at h
  split_ifs at h
  rcases State.streamId_cases s with ⟨error, hid⟩ | ⟨round, hround, -, hid⟩
  · rw [hid] at h
    exact absurd h (by simp [Except.toOption])
  · rw [hid] at h
    exact ⟨round, hround, (Option.some.inj h).symm⟩

/-- A request that has been answered with a value takes the next identifier. -/
theorem streamId?_of_reply {v : LocallyProposedValue} {r : UInt32}
    (hmem : .reply (.localValue v) ∈ e.performed s) (hround : s.currentRound = .some r)
    (hnonce : s.streamNonce.toNat + 1 < 2 ^ 32) : e.streamId? s = some (s.nextStreamId r) := by
  rw [Event.streamId?, if_pos (List.any_eq_true.mpr ⟨_, hmem, rfl⟩),
    State.streamId_run hround hnonce]
  rfl

/-- **The messages of a stream carry the identifier of the call.** -/
theorem streamId?_of_published {m : StreamMessage ProposalPart}
    (hm : m ∈ published (e.performed s)) : e.streamId? s = some m.streamId := by
  have hpublished : m ∈ published (handle e.msg s).effects :=
    ((e.performed_isPrefix s).filterMap _).subset hm
  by_cases hget : ∃ height round, e.msg = .getValue height round
  · obtain ⟨height, round, hmsg⟩ := hget
    rw [hmsg] at hpublished
    by_cases hhands : ∃ p data, HandsOver s (.getValue height round) p data
    · obtain ⟨p, data, hhands⟩ := hhands
      obtain ⟨s', msgs, hheight, hround, hnonce, hmsgs, heffects⟩ := hhands.handle_getValue
      have hprefix := e.performed_isPrefix s
      rw [hmsg, heffects] at hprefix
      rw [heffects] at hpublished
      have hin : m ∈ msgs := by simpa using hpublished
      obtain hok := hmsgs.resolve_left (List.ne_nil_of_mem hin)
      obtain ⟨r, hr, hlt, -, -, -⟩ := State.streamProposal_of_ok hok
      obtain ⟨-, -, r', hr', hid⟩ := State.isStream_of_ok hok
      obtain rfl := Round.some.inj (hr.symm.trans hr')
      obtain ⟨hheight', hround'⟩ : height = s.currentHeight ∧ round = s.currentRound := by
        cases hhands with
        | propose hblock hne => exact ⟨rfl, rfl⟩
      rw [hnonce] at hlt
      have hid' : m.streamId = s.nextStreamId r := by
        rw [hid m hin, State.nextStreamId, State.nextStreamId, hheight, hheight', hnonce]
      rw [hid']
      -- the messages come after the reply
      rcases isPrefix_or_mem hprefix with hshort | hmem
      · have hnone := (hshort.filterMap Effect.asPublish).subset hm
        rw [← published, published_map_write] at hnone
        exact absurd hnone List.not_mem_nil
      · exact streamId?_of_reply hmem (by rw [← hround', ← hround, hr]) hlt
    · push Not at hhands
      rw [handle_getValue_of_not hhands] at hpublished
      exact absurd hpublished List.not_mem_nil
  · push Not at hget
    rw [published_handle hget] at hpublished
    exact absurd hpublished List.not_mem_nil

/-- **The nonce counts the calls.** -/
theorem streamNonce_handle (hok : (handle msg s).result = .ok ()) :
    (handle msg s).state.streamNonce.toNat =
      s.streamNonce.toNat + ((Event.deliver msg).streamId? s).toList.length := by
  have hother (hget : ∀ height round, msg ≠ .getValue height round)
      (hnonce : (handle msg s).state.streamNonce = s.streamNonce) :
      (handle msg s).state.streamNonce.toNat =
        s.streamNonce.toNat + ((Event.deliver msg).streamId? s).toList.length := by
    rw [streamId?_of_not (e := .deliver msg) hget, hnonce]
    rfl
  rcases msg.notes_cases with ⟨height, round, proposer, rfl⟩ | ⟨height, round, rfl⟩ |
    ⟨c, rfl⟩ | hkeeps
  · exact hother (by simp) rfl
  · obtain ⟨data, r, hblock, rfl, rfl, hround, hnonce, hstate⟩ := handle_getValue_of_ok hok
    have hhands := HandsOver.propose (s := s) hblock (by rw [hround]; simp)
    rw [hround] at hhands
    rw [streamId?_of_reply hhands.localValue_mem hround hnonce, hstate,
      State.streamNonce_afterValue, UInt32.toNat_add]
    exact Nat.mod_eq_of_lt hnonce
  · refine hother (by simp) ?_
    rcases handle_decided_of_ok hok with hstate | ⟨p, -, -, hstate⟩
    · rw [hstate]
    · rw [hstate]
      rfl
  · refine hother ?_ (SameNotes.handle hkeeps s).streamNonce
    rintro height round rfl
    exact hkeeps.elim

/-! ## Runs over several lives -/

/-- A call comes before another: in an earlier life, or earlier in the same life. -/
def StreamCall.Before (c c' : StreamCall) : Prop :=
  c.life < c'.life ∨ c.life = c'.life ∧ c.place < c'.place

/-- The identifier of a call is made of the height, the round and the place. -/
def StreamCall.Named (c : StreamCall) : Prop :=
  ∃ round place : UInt32, c.round = .some round ∧ place.toNat = c.place ∧
    c.streamId = ⟨u64Bytes c.height.asU64 ++ u32Bytes round ++ u32Bytes place⟩

omit [Crypto] [Prost] [Payload] in
/-- **An identifier says where it was taken**, but not in which life. -/
theorem StreamCall.Named.streamId_eq_iff {c c' : StreamCall} (h : c.Named) (h' : c'.Named) :
    c.streamId = c'.streamId ↔ c.height = c'.height ∧ c.round = c'.round ∧ c.place = c'.place := by
  obtain ⟨round, place, hround, hplace, hid⟩ := h
  obtain ⟨round', place', hround', hplace', hid'⟩ := h'
  rw [hid, hid', hround, hround', ← hplace, ← hplace']
  constructor
  · intro heq
    obtain ⟨hslots, hplaces⟩ := List.append_inj (StreamId.mk.inj heq) (by simp)
    obtain ⟨hheights, hrounds⟩ := List.append_inj hslots (by simp)
    exact ⟨congrArg Height.mk (u64Bytes_injective hheights),
      congrArg Round.some (u32Bytes_injective hrounds),
      congrArg UInt32.toNat (u32Bytes_injective hplaces)⟩
  · rintro ⟨hheights, hrounds, hplaces⟩
    rw [hheights, Round.some.inj hrounds, UInt32.toNat_inj.mp hplaces]

/-- The nonce is the number of calls in the present life, and every call is named after
its place. -/
structure Numbered (t : Tally) (s : State) : Prop where
  nonce : s.streamNonce.toNat = t.place
  named : ∀ c ∈ t.calls, c.Named
  before : ∀ c ∈ t.calls, c.life < t.life ∨ c.life = t.life ∧ c.place < t.place
  ordered : t.calls.Pairwise StreamCall.Before

namespace Numbered

variable {t : Tally}

/-- The call of a step is the next one. -/
theorem call_eq (h : Numbered t s) (e : Event) :
    t.call s e = [] ∨ ∃ c, t.call s e = [c] ∧ c.Named ∧ c.life = t.life ∧ c.place = t.place := by
  rw [Tally.call]
  cases hid : e.streamId? s with
  | none => exact Or.inl rfl
  | some id =>
      obtain ⟨round, hround, rfl⟩ := streamId?_eq_some hid
      exact Or.inr ⟨_, rfl, ⟨round, s.streamNonce, hround, h.nonce, rfl⟩, rfl, rfl⟩

theorem named_call (h : Numbered t s) (e : Event) : ∀ c ∈ t.calls ++ t.call s e, c.Named := by
  rcases h.call_eq e with hnone | ⟨c, hone, hc, -, -⟩
  · rw [hnone, List.append_nil]
    exact h.named
  · rw [hone, List.forall_mem_append, List.forall_mem_singleton]
    exact ⟨h.named, hc⟩

theorem ordered_call (h : Numbered t s) (e : Event) :
    (t.calls ++ t.call s e).Pairwise StreamCall.Before := by
  rcases h.call_eq e with hnone | ⟨c, hone, -, hlife, hplace⟩
  · rw [hnone, List.append_nil]
    exact h.ordered
  · rw [hone, List.pairwise_append]
    refine ⟨h.ordered, List.pairwise_singleton _ _, fun c' hc' c'' hc'' => ?_⟩
    rw [List.mem_singleton.mp hc'', StreamCall.Before, hlife, hplace]
    exact h.before c' hc'

theorem before_call (h : Numbered t s) (e : Event) : ∀ c ∈ t.calls ++ t.call s e,
    c.life < t.life ∨ c.life = t.life ∧ c.place < t.place + (t.call s e).length := by
  rcases h.call_eq e with hnone | ⟨c, hone, -, hlife, hplace⟩
  · rw [hnone, List.append_nil]
    exact h.before
  · rw [hone, List.forall_mem_append, List.forall_mem_singleton, List.length_singleton]
    refine ⟨fun c' hc' => ?_, Or.inr ⟨hlife, by omega⟩⟩
    rcases h.before c' hc' with hlt | ⟨hsame, hlt⟩
    · exact Or.inl hlt
    · exact Or.inr ⟨hsame, by omega⟩

/-- **A step keeps count.** -/
theorem count {config : Config} (h : Numbered t s) (hstep : (node config).step s e s') :
    Numbered (t.count (s, (config, e))) s' := by
  have hbefore := h.before_call e
  cases e with
  | deliver msg =>
      obtain ⟨hok, rfl⟩ := hstep
      refine ⟨?_, h.named_call _, hbefore, h.ordered_call _⟩
      rw [streamNonce_handle hok, h.nonce]
      simp [Tally.count, Tally.call]
  | restart msg n serverStarts =>
      obtain rfl := hstep
      refine ⟨rfl, h.named_call _, fun c hc => Or.inl ?_, h.ordered_call _⟩
      have hc := hbefore c hc
      show c.life < t.life + 1
      omega

end Numbered

theorem Run.numbered {key : PrivateKey} {steps : List (State × (Config × Event))}
    (h : Run (lives key) steps s) : Numbered (tally steps) s := by
  refine h.history_along (P := fun steps s => Numbered (tally steps) s)
    (G := fun _ _ => True) ?_ ?_ fun _ _ => trivial
  · rintro s ⟨config, -, serverStarts, rfl⟩
    exact ⟨rfl, by simp [tally], by simp [tally], List.Pairwise.nil⟩
  · intro steps s l s' hnumbered _ hstep
    rw [tally, List.foldl_append, List.foldl_cons, List.foldl_nil, ← tally]
    exact hnumbered.count hstep.2

/-- **Which identifiers repeat.**  In every history of a node the calls of one life have
different identifiers, and two calls of different lives have the same identifier exactly
if they are made in the same height and the same round with equally many calls of their
lives before them. -/
theorem streamIds_eq_iff {key : PrivateKey} {steps : List (State × (Config × Event))}
    (h : Run (lives key) steps s) :
    (streamCalls steps).Pairwise fun c c' =>
      (c.life = c'.life → c.streamId ≠ c'.streamId) ∧
        (c.streamId = c'.streamId ↔
          c.height = c'.height ∧ c.round = c'.round ∧ c.place = c'.place) := by
  have hnumbered := h.numbered
  refine hnumbered.ordered.imp_of_mem fun {c c'} hc hc' hbefore => ?_
  have hiff := (hnumbered.named c hc).streamId_eq_iff (hnumbered.named c' hc')
  refine ⟨fun hlife heq => ?_, hiff⟩
  obtain ⟨-, -, hplace⟩ := hiff.mp heq
  rcases hbefore with hlt | ⟨-, hlt⟩
  · omega
  · omega

end StreamIds

section StreamIdsDemo

attribute [local instance] demoCrypto Prost.reference demoPayload

/-- A request for a value in the first round of the default height. -/
def firstRequest : AppMsg := .getValue ⟨1⟩ (.some 0)

/-- The node of the first validator after its first proposal. -/
def proposedNode : State := (handle firstRequest (demoState 1 [5, 6])).state

/-- A proposal in the first round of the default height, a restart, and the same again. -/
def twoLives : List (State × (Config × Event)) :=
  [(demoState 1 [5, 6], (demoConfig 1 [5, 6], .deliver firstRequest)),
    (proposedNode, (demoConfig 1 [5, 6], .restart firstRequest 0 true)),
    (State.new (demoConfig 1 [5, 6]) proposedNode.store true,
      (demoConfig 1 [5, 6], .deliver firstRequest))]

theorem twoLives_run : ∃ s, Run (lives (demoKey 1)) twoLives s := by
  have hfirst : (node (demoConfig 1 [5, 6])).step (demoState 1 [5, 6]) (.deliver firstRequest)
      proposedNode := ⟨by decide +kernel, rfl⟩
  have hrestart : (node (demoConfig 1 [5, 6])).step proposedNode (.restart firstRequest 0 true)
      (State.new (demoConfig 1 [5, 6]) proposedNode.store true) := rfl
  have hagain : (node (demoConfig 1 [5, 6])).step
      (State.new (demoConfig 1 [5, 6]) proposedNode.store true) (.deliver firstRequest) _ :=
    ⟨by decide +kernel, rfl⟩
  have hstart : Run (lives (demoKey 1)) [] (demoState 1 [5, 6]) :=
    .start ⟨demoConfig 1 [5, 6], rfl, true, rfl⟩
  have hproposed := hstart.next (l := (demoConfig 1 [5, 6], _)) ⟨rfl, hfirst⟩
  have hrestarted := hproposed.next (l := (demoConfig 1 [5, 6], _)) ⟨rfl, hrestart⟩
  exact ⟨_, hrestarted.next (l := (demoConfig 1 [5, 6], _)) ⟨rfl, hagain⟩⟩

theorem streamIds_eq_iff_demo :
    (streamCalls twoLives).Pairwise fun c c' =>
      (c.life = c'.life → c.streamId ≠ c'.streamId) ∧
        (c.streamId = c'.streamId ↔
          c.height = c'.height ∧ c.round = c'.round ∧ c.place = c'.place) := by
  obtain ⟨s, hrun⟩ := twoLives_run
  exact streamIds_eq_iff hrun

/-- A node that comes back proposes in the first round of its height again, as the first
call of its second life: the identifier is that of its first proposal. -/
theorem streamIds_repeat_after_restart :
    ¬ ∀ (steps : List (State × (Config × Event))) (s : State),
      Run (lives (demoKey 1)) steps s →
        (streamCalls steps).Pairwise fun c c' => c.streamId ≠ c'.streamId := by
  intro hall
  obtain ⟨s, hrun⟩ := twoLives_run
  have hids := List.pairwise_map.mpr (hall _ _ hrun)
  rw [(by decide +kernel : (streamCalls twoLives).map StreamCall.streamId =
    [⟨[0, 0, 0, 0, 0, 0, 0, 1, 0, 0, 0, 0, 0, 0, 0, 0]⟩,
      ⟨[0, 0, 0, 0, 0, 0, 0, 1, 0, 0, 0, 0, 0, 0, 0, 0]⟩])] at hids
  exact absurd rfl (List.rel_of_pairwise_cons hids List.mem_cons_self)

end StreamIdsDemo
end MalakethTurbo
