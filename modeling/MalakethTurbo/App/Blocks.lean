import MalakethTurbo.App.Handover
import MalakethTurbo.App.Notes

/-!
# The blocks of a proposer

A node reads the blocks that it proposes from a file, one for each request for a value,
and never goes back.  A life of the node is followed by its `Progress` through the file:
how many blocks have been drawn, which slot of the store holds which of them, and which
have been decided.

A block whose round ends without a decision is not proposed again.  So the blocks are
decided in the order of the file as long as every request finds all the blocks drawn
before it decided (`decided_in_order`), and a decision on a block that has been drawn
after a lost one leaves a gap (`inOrder_decided_iff`).
-/

namespace MalakethTurbo

open Wire (Bytes)

/-! ## The file -/

namespace BlockProposer

/-- The blocks that are read one after the other; the first argument bounds their
number. -/
def blocksUpTo : Nat → BlockProposer → List Bytes
  | 0, _ => []
  | n + 1, p =>
      match p.readBlock with
      | (.ok (some block), rest) => block :: blocksUpTo n rest
      | _ => []

/-- The blocks in what is left of the file. -/
def blocks (p : BlockProposer) : List Bytes := blocksUpTo p.reader.length p

variable {p rest : BlockProposer} {block : Bytes}

/-- A block takes up four bytes at least. -/
theorem length_of_readBlock (h : p.readBlock = (.ok (some block), rest)) :
    rest.reader.length + 4 ≤ p.reader.length := by
  rw [readBlock] at h
  split_ifs at h with hshort
  · simp at h
  · dsimp only at h
    split_ifs at h
    · simp at h
    · obtain ⟨-, rfl⟩ := Prod.mk.inj h
      rw [List.length_drop, List.length_drop]
      omega

/-- Enough room gives all the blocks. -/
theorem blocksUpTo_of_le {n m : Nat} (hn : p.reader.length ≤ n) (hm : p.reader.length ≤ m) :
    blocksUpTo n p = blocksUpTo m p := by
  induction n generalizing p m with
  | zero =>
      have hend : p.readBlock = (.ok none, ⟨[]⟩) := by
        rw [readBlock, if_pos (by omega)]
      cases m with
      | zero => rfl
      | succ m => rw [blocksUpTo, blocksUpTo, hend]
  | succ n ih =>
      cases hread : p.readBlock with
      | mk result rest =>
          cases m with
          | zero =>
              have hend : p.readBlock = (.ok none, ⟨[]⟩) := by
                rw [readBlock, if_pos (by omega)]
              rw [blocksUpTo, blocksUpTo, hend]
          | succ m =>
              rw [blocksUpTo, blocksUpTo, hread]
              rcases result with e | (_ | block)
              · rfl
              · rfl
              · have hlength := length_of_readBlock hread
                dsimp only
                rw [ih (m := m) (by omega) (by omega)]

theorem blocks_of_some (h : p.readBlock = (.ok (some block), rest)) :
    p.blocks = block :: rest.blocks := by
  have hlength := length_of_readBlock h
  obtain ⟨n, hn⟩ : ∃ n, p.reader.length = n + 1 := ⟨p.reader.length - 1, by omega⟩
  rw [blocks, hn, blocksUpTo, h]
  dsimp only
  rw [blocks, blocksUpTo_of_le (by omega) (le_refl _)]

theorem blocks_of_not (h : ∀ block rest, p.readBlock ≠ (.ok (some block), rest)) :
    p.blocks = [] := by
  rw [blocks]
  cases p.reader.length with
  | zero => rfl
  | succ n =>
      rcases hread : p.readBlock with ⟨e | (_ | block), rest⟩
      · rw [blocksUpTo, hread]
      · rw [blocksUpTo, hread]
      · exact absurd hread (h block rest)

theorem proposeBlock_of_some [Payload] (h : p.readBlock = (.ok (some block), rest))
    (number : UInt64) :
    p.proposeBlock number = (okOr .payload (Payload.withNumber number block), rest) := by
  rw [proposeBlock, h]

/-- Whatever else is proposed is no block of the file, and there is none left. -/
theorem blocks_of_proposeBlock [Payload] (h : ∀ block rest, p.readBlock ≠ (.ok (some block), rest))
    {number : UInt64} {data : Bytes} (hok : (p.proposeBlock number).1 = .ok data) :
    (p.proposeBlock number).2.blocks = [] := by
  rcases hread : p.readBlock with ⟨e | (_ | block), rest⟩
  · rw [proposeBlock, hread] at hok
    exact absurd hok (by simp)
  · rw [proposeBlock, hread]
    rw [readBlock] at hread
    split_ifs at hread
    · obtain ⟨-, rfl⟩ := Prod.mk.inj hread
      rfl
    · dsimp only at hread
      split_ifs at hread <;> simp at hread
  · exact absurd hread (h block rest)

end BlockProposer

/-! ## One life of a node -/

section Life

variable [Crypto] [Prost] [Payload] {config : Config} {s : State}

omit [Crypto] [Prost] [Payload] in
/-- The blocks in the file of a node. -/
def Config.file (config : Config) : List Bytes := BlockProposer.blocks ⟨config.blocks⟩

/-- One life of a node, on a store that an earlier one may have left. -/
def life (config : Config) : System State AppMsg where
  init s := ∃ db serverStarts, db.WellFormed ∧ s = State.new config db serverStarts
  step s msg s' := (handle msg s).result = .ok () ∧ s' = (handle msg s).state

/-- Every state of a node is one of a life that began on the store of those before. -/
theorem System.Reachable.life (h : (node config).Reachable s) :
    (MalakethTurbo.life config).Reachable s := by
  obtain ⟨steps, hrun⟩ := h
  induction hrun with
  | start hinit =>
      obtain ⟨serverStarts, rfl⟩ := hinit
      exact ⟨[], .start ⟨Db.empty, serverStarts, Db.WellFormed.empty, rfl⟩⟩
  | @next steps s s' e hrun hstep ih =>
      cases e with
      | deliver msg =>
          obtain ⟨steps', hrun'⟩ := ih
          exact ⟨_, hrun'.next (l := msg) hstep⟩
      | restart msg n serverStarts =>
          obtain rfl := hstep
          have hdb := (System.Reachable.wellFormed ⟨steps, hrun⟩).refines_applyAll
            (writes (Event.performed s (.restart msg n serverStarts)))
          exact ⟨[], .start ⟨_, serverStarts, hdb.1, rfl⟩⟩

/-- The slot for which a message draws a block from the file. -/
def State.draws (s : State) : AppMsg → Option UndecidedValueKey
  | .getValue height round =>
      match s.blockProposer.readBlock.1 with
      | .ok (some _) => some ⟨height, round⟩
      | _ => none
  | _ => none

/-- A slot of the store holds a proposal. -/
def State.holds (s : State) (k : UndecidedValueKey) : Bool :=
  match s.store.getUndecidedProposal k.height k.round with
  | .ok (some _) => true
  | _ => false

/-- How many blocks have been drawn from the file, which of them the slots of the store
hold, and which have been decided, in the order of their first decision. -/
structure Progress where
  drawn : Nat
  origin : UndecidedValueKey → Option Nat
  decided : List Nat

namespace Progress

/-- The block that a decision decides: the one that the slot of its certificate holds. -/
def decides (p : Progress) (s : State) : AppMsg → Option Nat
  | .decided c =>
      if s.holds ⟨c.height, c.round⟩ then p.origin ⟨c.height, c.round⟩ else none
  | _ => none

/-- A draw uses up a block, and its slot holds the block if nothing is there. -/
def next (p : Progress) (x : State × AppMsg) : Progress where
  drawn := if (x.1.draws x.2).isSome then p.drawn + 1 else p.drawn
  origin k :=
    if x.1.holds k then p.origin k
    else if x.1.draws x.2 = some k then some p.drawn else none
  decided :=
    match p.decides x.1 x.2 with
    | some i => if i ∈ p.decided then p.decided else p.decided ++ [i]
    | none => p.decided

end Progress

/-- How far a life has got through the file. -/
def progress (steps : List (State × AppMsg)) : Progress :=
  steps.foldl Progress.next ⟨0, fun _ => none, []⟩

variable {steps : List (State × AppMsg)} {msg : AppMsg}

omit [Crypto] [Payload] in
theorem progress_concat (steps : List (State × AppMsg)) (s : State) (msg : AppMsg) :
    progress (steps ++ [(s, msg)]) = (progress steps).next (s, msg) := by
  rw [progress, List.foldl_append]
  rfl

/-! ## What the slots hold -/

omit [Crypto] [Payload] in
theorem State.holds_iff (hdb : s.store.WellFormed) (k : UndecidedValueKey) :
    s.holds k = true ↔ (s.store.ledger.proposal k).isSome := by
  rw [State.holds, hdb.getUndecidedProposal_eq]
  cases s.store.ledger.proposal k <;> simp

omit [Crypto] [Prost] [Payload] in
/-- Where no proposal is written, those that are there afterwards were there before. -/
theorem Ledger.proposal_of_applyAll {l : Ledger} {ws : List StoreWrite}
    (hws : ∀ p, .undecidedProposal p ∉ ws) {k : UndecidedValueKey} {q : ProposedValue}
    (h : (l.applyAll ws).proposal k = some q) : l.proposal k = some q := by
  induction ws generalizing l with
  | nil => exact h
  | cons w ws ih =>
      have hrest := ih (l := l.apply w) (fun p hp => hws p (List.mem_cons_of_mem _ hp)) h
      rcases proposal_of_apply hrest with hold | ⟨rfl, -⟩
      · exact hold
      · exact absurd List.mem_cons_self (hws q)

/-- A proposal in a slot was there before, or a producer has put it into the empty slot. -/
theorem proposal_of_handle (hdb : s.store.WellFormed) {k : UndecidedValueKey}
    {q : ProposedValue} (h : (handle msg s).state.store.ledger.proposal k = some q) :
    s.store.ledger.proposal k = some q ∨
      s.store.ledger.proposal k = none ∧ k = ⟨q.height, q.round⟩ ∧
        ∃ data, HandsOver s msg q data := by
  rw [(Framed.handle msg s).store, (hdb.refines_applyAll _).2] at h
  rcases handle_cases s msg with ⟨p, data, hhands⟩ | ⟨c, rfl⟩ | hquiet
  · obtain ⟨reply, msgs, -, heffects⟩ := hhands.handle_effects
    rw [heffects, writes_append, writes_map_write, writes_reply_cons, writes_map_publish,
      List.append_nil, Ledger.applyAll_keepWrites _ hhands.round_ne_nil] at h
    rcases keepFirst_eq_some h with hold | ⟨hk, hnone, rfl⟩
    · exact Or.inl hold
    · exact Or.inr ⟨by rw [hk]; exact hnone, hk, data, hhands⟩
  · refine Or.inl (Ledger.proposal_of_applyAll (fun p hp => ?_) h)
    rcases (handle_decided (s := s) c).1 with ⟨q', -, -, hwrites⟩ | hwrites
    · rw [hwrites, State.commitEffects, writes_write_cons] at hp
      rcases List.mem_cons.mp hp with hp | hp
      · exact absurd hp (by simp)
      · rcases State.mem_writes_settleEffects hp with ⟨data, -, hp⟩ | hp
        · exact absurd hp (by simp)
        · exact absurd hp (by simp)
    · rw [hwrites] at hp
      exact absurd hp List.not_mem_nil
  · rw [hquiet.writes_eq] at h
    exact Or.inl h

omit [Crypto] [Prost] [Payload] in
theorem State.draws_eq_some {k : UndecidedValueKey} (h : s.draws msg = some k) :
    msg = .getValue k.height k.round ∧
      ∃ block rest, s.blockProposer.readBlock = (.ok (some block), rest) := by
  cases msg with
  | getValue height round =>
      rw [State.draws] at h
      rcases hread : s.blockProposer.readBlock with ⟨e | (_ | block), rest⟩
      · rw [hread] at h
        exact absurd h (by simp)
      · rw [hread] at h
        exact absurd h (by simp)
      · rw [hread] at h
        obtain rfl := Option.some.inj h
        exact ⟨rfl, block, rest, rfl⟩
  | _ => exact absurd h (by simp [State.draws])

omit [Crypto] [Prost] [Payload] in
/-- A request that draws nothing finds no block. -/
theorem State.readBlock_of_draws {height : Height} {round : Round}
    (h : s.draws (.getValue height round) = none) :
    ∀ block rest, s.blockProposer.readBlock ≠ (.ok (some block), rest) := by
  intro block rest hread
  rw [State.draws, hread] at h
  exact absurd h (by simp)

/-- **A message draws the next block or leaves the file alone**, unless there is nothing
left. -/
theorem blocks_of_handle (hok : (handle msg s).result = .ok ()) :
    (s.draws msg = none ∧ (handle msg s).state.blockProposer.blocks = s.blockProposer.blocks) ∨
      ∃ k block, s.draws msg = some k ∧
        s.blockProposer.blocks = block :: (handle msg s).state.blockProposer.blocks := by
  rcases msg.notes_cases with ⟨height, round, proposer, rfl⟩ | ⟨height, round, rfl⟩ |
    ⟨c, rfl⟩ | hkeeps
  · exact Or.inl ⟨rfl, rfl⟩
  · obtain ⟨data, r, hblock, -, -, -, -, hstate⟩ := handle_getValue_of_ok hok
    rw [hstate, State.blockProposer_afterValue]
    cases hdraws : s.draws (.getValue height round) with
    | none =>
        have hnone := State.readBlock_of_draws hdraws
        refine Or.inl ⟨rfl, ?_⟩
        rw [BlockProposer.blocks_of_proposeBlock hnone hblock, BlockProposer.blocks_of_not hnone]
    | some k =>
        obtain ⟨-, block, rest, hread⟩ := State.draws_eq_some hdraws
        refine Or.inr ⟨k, block, rfl, ?_⟩
        rw [BlockProposer.proposeBlock_of_some hread, BlockProposer.blocks_of_some hread]
  · refine Or.inl ⟨rfl, ?_⟩
    rcases handle_decided_of_ok hok with hstate | ⟨p, -, -, hstate⟩
    · rw [hstate]
    · rw [hstate]
      rfl
  · have hnone : s.draws msg = none := by
      cases msg with
      | getValue height round => exact hkeeps.elim
      | _ => rfl
    exact Or.inl ⟨hnone, by rw [(SameNotes.handle hkeeps s).blockProposer]⟩

omit [Prost] in
/-- A request that draws a block and puts a proposal into its slot proposes the block. -/
theorem value_of_draws {k : UndecidedValueKey} {q : ProposedValue} {data block : Bytes}
    (hdraws : s.draws msg = some k) (hhands : HandsOver s msg q data)
    (hblock : s.blockProposer.blocks.head? = some block) :
    Payload.withNumber k.height.asU64 block = some data ∧ q.value = Value.new data := by
  obtain ⟨hmsg, block', rest, hread⟩ := State.draws_eq_some hdraws
  rw [BlockProposer.blocks_of_some hread] at hblock
  obtain rfl := Option.some.inj hblock
  refine ⟨?_, hhands.value_eq⟩
  cases hhands with
  | propose hdata hround =>
      obtain ⟨hheight, -⟩ := AppMsg.getValue.inj hmsg
      rw [BlockProposer.proposeBlock_of_some hread, hheight] at hdata
      cases hnumber : Payload.withNumber k.height.asU64 block' with
      | none =>
          rw [hnumber] at hdata
          cases hdata
      | some data' =>
          rw [hnumber] at hdata
          exact congrArg some (Except.ok.inj hdata)
  | receive => cases hmsg

/-- **The progress is that of the state**: the file goes on where the draws have left it,
and a slot holds the block it is said to hold, with the number of its height. -/
structure Progress.Tracks (config : Config) (p : Progress) (s : State) : Prop where
  wellFormed : s.store.WellFormed
  drawn_le : p.drawn ≤ config.file.length
  left : s.blockProposer.blocks = config.file.drop p.drawn
  origin_lt : ∀ k i, p.origin k = some i → i < p.drawn
  origin : ∀ k i q, p.origin k = some i → s.store.ledger.proposal k = some q →
    ∃ block data, config.file[i]? = some block ∧
      Payload.withNumber k.height.asU64 block = some data ∧ q.value = Value.new data
  decided_lt : ∀ i ∈ p.decided, i < p.drawn

namespace Progress

variable {p : Progress}

omit [Crypto] [Payload] in
/-- A step decides nothing new, or it decides the block in the slot of a certificate. -/
theorem next_decided (p : Progress) (s : State) (msg : AppMsg) :
    (p.next (s, msg)).decided = p.decided ∨ ∃ k i, p.origin k = some i ∧ i ∉ p.decided ∧
      (p.next (s, msg)).decided = p.decided ++ [i] := by
  cases hdecides : p.decides s msg with
  | none => exact Or.inl (by rw [next, hdecides])
  | some i =>
      by_cases hmem : i ∈ p.decided
      · exact Or.inl (by rw [next, hdecides]; exact if_pos hmem)
      · have horigin : ∃ k, p.origin k = some i := by
          cases msg with
          | decided c =>
              rw [decides] at hdecides
              split_ifs at hdecides
              exact ⟨_, hdecides⟩
          | _ => exact absurd hdecides (by simp [decides])
        obtain ⟨k, hk⟩ := horigin
        exact Or.inr ⟨k, i, hk, hmem, by rw [next, hdecides]; exact if_neg hmem⟩

omit [Crypto] [Payload] in
theorem drawn_next_of_draws (p : Progress) {k : UndecidedValueKey} (h : s.draws msg = some k) :
    (p.next (s, msg)).drawn = p.drawn + 1 := by
  rw [Progress.next]
  exact if_pos (by rw [h]; rfl)

omit [Crypto] [Payload] in
theorem drawn_next_of_none (p : Progress) (h : s.draws msg = none) :
    (p.next (s, msg)).drawn = p.drawn := by
  rw [Progress.next]
  exact if_neg (by rw [h]; simp)

omit [Crypto] [Payload] in
theorem drawn_le_next (p : Progress) (s : State) (msg : AppMsg) :
    p.drawn ≤ (p.next (s, msg)).drawn := by
  cases hdraws : s.draws msg with
  | none => rw [drawn_next_of_none p hdraws]
  | some k =>
      rw [drawn_next_of_draws p hdraws]
      exact Nat.le_succ _

/-- The file goes on where the draws have left it, and a draw takes its next block. -/
theorem Tracks.file_next (h : p.Tracks config s) (hok : (handle msg s).result = .ok ()) :
    (p.next (s, msg)).drawn ≤ config.file.length ∧
      (handle msg s).state.blockProposer.blocks = config.file.drop (p.next (s, msg)).drawn ∧
        ∀ k, s.draws msg = some k → s.blockProposer.blocks.head? = config.file[p.drawn]? := by
  rcases blocks_of_handle hok with ⟨hnone, hsame⟩ | ⟨k, block, hk, hcons⟩
  · rw [drawn_next_of_none p hnone, hsame, hnone]
    exact ⟨h.drawn_le, h.left, fun k hk => absurd hk (by simp)⟩
  · have hcons' := h.left.symm.trans hcons
    have hlength := congrArg List.length hcons'
    rw [List.length_drop, List.length_cons] at hlength
    rw [drawn_next_of_draws p hk, h.left, List.head?_drop]
    refine ⟨by omega, ?_, fun _ _ => rfl⟩
    rw [← List.drop_drop, hcons']
    rfl

/-- A slot holds the block it is said to hold after the step as well: its old one, or the
one that the step has drawn for it. -/
theorem Tracks.origin_next (h : p.Tracks config s) (hok : (handle msg s).result = .ok ())
    {k : UndecidedValueKey} {i : Nat} {q : ProposedValue}
    (hi : (p.next (s, msg)).origin k = some i)
    (hq : (handle msg s).state.store.ledger.proposal k = some q) :
    ∃ block data, config.file[i]? = some block ∧
      Payload.withNumber k.height.asU64 block = some data ∧ q.value = Value.new data := by
  have horigin : (p.next (s, msg)).origin k =
      if s.holds k then p.origin k else if s.draws msg = some k then some p.drawn else none := rfl
  rw [horigin] at hi
  rcases proposal_of_handle h.wellFormed hq with hold | ⟨hnone, hk, data, hhands⟩
  · rw [if_pos ((State.holds_iff h.wellFormed k).mpr (by rw [hold]; rfl))] at hi
    exact h.origin k i q hi hold
  · have hempty : ¬ s.holds k = true := by
      rw [State.holds_iff h.wellFormed, hnone]
      simp
    rw [if_neg hempty] at hi
    split_ifs at hi with hdraws
    obtain rfl := Option.some.inj hi
    have hhead := (h.file_next hok).2.2 k hdraws
    obtain ⟨-, block, rest, hread⟩ := State.draws_eq_some hdraws
    have hfirst : s.blockProposer.blocks.head? = some block := by
      rw [BlockProposer.blocks_of_some hread]
      rfl
    obtain ⟨hnumber, hvalue⟩ := value_of_draws hdraws hhands hfirst
    exact ⟨block, data, hhead.symm.trans hfirst, hnumber, hvalue⟩

/-- **A step keeps track.** -/
theorem Tracks.next (h : p.Tracks config s) (hok : (handle msg s).result = .ok ()) :
    (p.next (s, msg)).Tracks config (handle msg s).state := by
  have hgrow := p.drawn_le_next s msg
  have hstore : (handle msg s).state.store.WellFormed := by
    rw [(Framed.handle msg s).store]
    exact (h.wellFormed.refines_applyAll _).1
  obtain ⟨hdrawn, hleft, -⟩ := h.file_next hok
  refine ⟨hstore, hdrawn, hleft, fun k i hi => ?_, fun k i q hi hq => h.origin_next hok hi hq,
    fun i hi => ?_⟩
  · have horigin : (p.next (s, msg)).origin k =
        if s.holds k then p.origin k
        else if s.draws msg = some k then some p.drawn else none := rfl
    rw [horigin] at hi
    split_ifs at hi with hholds hdraws
    · exact lt_of_lt_of_le (h.origin_lt k i hi) hgrow
    · rw [drawn_next_of_draws p hdraws, ← Option.some.inj hi]
      exact Nat.lt_succ_self _
  · rcases p.next_decided s msg with hsame | ⟨k, j, hj, -, hnew⟩
    · rw [hsame] at hi
      exact lt_of_lt_of_le (h.decided_lt i hi) hgrow
    · rw [hnew] at hi
      rcases List.mem_append.mp hi with hi | hi
      · exact lt_of_lt_of_le (h.decided_lt i hi) hgrow
      · rw [List.mem_singleton.mp hi]
        exact lt_of_lt_of_le (h.origin_lt k j hj) hgrow

end Progress

theorem Run.tracks (h : Run (life config) steps s) : (progress steps).Tracks config s := by
  refine h.history_along (P := fun steps s => (progress steps).Tracks config s)
    (G := fun _ _ => True) ?_ ?_ fun _ _ => trivial
  · rintro s ⟨db, serverStarts, hdb, rfl⟩
    exact ⟨hdb, Nat.zero_le _, rfl, fun k i hi => absurd hi (by simp [progress]),
      fun k i q hi => absurd hi (by simp [progress]), fun i hi => absurd hi List.not_mem_nil⟩
  · rintro steps s msg s' htracks - ⟨hok, rfl⟩
    rw [progress_concat]
    exact htracks.next hok

/-! ## The order of the decisions -/

/-- The blocks that have been decided are the first ones of the file, in their order. -/
def Progress.InOrder (p : Progress) : Prop := p.decided = List.range p.decided.length

/-- The decided blocks themselves. -/
def Progress.decidedBlocks (p : Progress) (config : Config) : List Bytes :=
  p.decided.filterMap fun i => config.file[i]?

/-- Every block drawn so far has been decided. -/
def Progress.Settled (p : Progress) : Prop := ∀ i < p.drawn, i ∈ p.decided

instance (p : Progress) : Decidable p.Settled :=
  inferInstanceAs (Decidable (∀ i < p.drawn, i ∈ p.decided))

/-- Whenever a block is drawn, every block drawn before it has been decided. -/
def NoneLost (steps : List (State × AppMsg)) : Prop :=
  ∀ i : Fin steps.length, (steps[i].1.draws steps[i].2).isSome →
    (progress (steps.take i)).Settled

instance (steps : List (State × AppMsg)) : Decidable (NoneLost steps) :=
  inferInstanceAs (Decidable (∀ i : Fin steps.length, (steps[i].1.draws steps[i].2).isSome →
    (progress (steps.take i)).Settled))

omit [Crypto] [Payload] in
theorem NoneLost.of_concat {x : State × AppMsg} (h : NoneLost (steps ++ [x])) :
    NoneLost steps ∧ ((x.1.draws x.2).isSome → (progress steps).Settled) := by
  constructor
  · intro i hdraws
    have hi := h ⟨i, by simp only [List.length_append]; omega⟩
    simp only [Fin.getElem_fin] at hi hdraws
    rw [List.getElem_append_left i.isLt, List.take_append_of_le_length (le_of_lt i.isLt)] at hi
    exact hi hdraws
  · intro hdraws
    have hlast := h ⟨steps.length, by simp⟩
    simp only [Fin.getElem_fin] at hlast
    rw [List.getElem_concat_length rfl, List.take_left] at hlast
    exact hlast hdraws

omit [Crypto] [Prost] [Payload] in
theorem filterMap_range_getElem? {α : Type} (l : List α) (n : Nat) :
    (List.range n).filterMap (fun i => l[i]?) = l.take n := by
  induction n with
  | zero => rfl
  | succ n ih =>
      rw [List.range_succ, List.filterMap_append, ih, List.take_add_one]
      cases hn : l[n]? with
      | none => rw [List.filterMap_cons_none hn]; rfl
      | some a => rw [List.filterMap_cons_some hn]; rfl

omit [Crypto] [Prost] [Payload] in
theorem Progress.InOrder.decidedBlocks_isPrefix {p : Progress} (h : p.InOrder)
    (config : Config) : p.decidedBlocks config <+: config.file := by
  rw [Progress.decidedBlocks, h, filterMap_range_getElem?]
  exact List.take_prefix _ _

omit [Crypto] [Prost] [Payload] in
/-- What is settled in order is a first part of the numbers. -/
theorem Progress.InOrder.settled_iff {p : Progress} (h : p.InOrder) :
    p.Settled ↔ p.drawn ≤ p.decided.length := by
  have hmem : ∀ i, i ∈ p.decided ↔ i < p.decided.length := by
    intro i
    rw [h, List.mem_range, List.length_range]
  simp only [Progress.Settled, hmem]
  constructor
  · intro hall
    by_contra hlt
    have hlast := hall (p.drawn - 1) (by omega)
    omega
  · intro hle i hi
    omega

omit [Crypto] [Payload] in
/-- In a step that draws no block too early, one undecided block at most is left. -/
theorem Progress.InOrder.next {p : Progress} (h : p.InOrder)
    (hdrawn : p.drawn ≤ p.decided.length + 1) (horigin : ∀ k i, p.origin k = some i → i < p.drawn)
    (hsettled : (s.draws msg).isSome → p.Settled) :
    (p.next (s, msg)).InOrder ∧
      (p.next (s, msg)).drawn ≤ (p.next (s, msg)).decided.length + 1 := by
  have hgrow : (p.next (s, msg)).drawn ≤ p.decided.length + 1 := by
    rw [Progress.next]
    dsimp only
    split_ifs with hdraws
    · have hle := h.settled_iff.mp (hsettled hdraws)
      omega
    · exact hdrawn
  rcases p.next_decided s msg with hsame | ⟨k, i, hk, hnew, hlast⟩
  · rw [Progress.InOrder, hsame]
    exact ⟨h, hgrow⟩
  · have hlt := horigin k i hk
    have hge : p.decided.length ≤ i := by
      rw [h, List.mem_range] at hnew
      omega
    obtain rfl : i = p.decided.length := by omega
    rw [Progress.InOrder, hlast, List.length_append, List.length_singleton, List.range_succ, ← h]
    exact ⟨rfl, by omega⟩

/-- Blocks that are decided before the next one is drawn are decided in order. -/
theorem inOrder_of_noneLost (h : Run (life config) steps s) (hlost : NoneLost steps) :
    (progress steps).InOrder ∧ (progress steps).drawn ≤ (progress steps).decided.length + 1 := by
  induction h with
  | start _ => exact ⟨rfl, Nat.zero_le _⟩
  | @next steps s s' msg hrun hstep ih =>
      obtain ⟨hbefore, hlast⟩ := hlost.of_concat
      obtain ⟨horder, hdrawn⟩ := ih hbefore
      rw [progress_concat]
      exact horder.next hdrawn hrun.tracks.origin_lt hlast

/-- **Blocks are decided in the order of the file if none is lost.**  In every life of a
node in which each request for a block finds all the blocks drawn before it decided, the
decided blocks are at every moment a first part of the file. -/
theorem decided_in_order (h : Run (life config) steps s) (hlost : NoneLost steps) :
    (progress steps).InOrder ∧ (progress steps).decidedBlocks config <+: config.file := by
  have horder := (inOrder_of_noneLost h hlost).1
  exact ⟨horder, horder.decidedBlocks_isPrefix config⟩

/-- A request that is answered leaves a proposal in its slot. -/
theorem holds_of_getValue (hdb : s.store.WellFormed) {height : Height} {round : Round}
    (hok : (handle (.getValue height round) s).result = .ok ()) :
    (handle (.getValue height round) s).state.holds ⟨height, round⟩ = true := by
  obtain ⟨data, r, -, rfl, rfl, hround, -, hstate⟩ := handle_getValue_of_ok hok
  have hne : s.currentRound ≠ .nil := by
    rw [hround]
    simp
  obtain ⟨hwell, hledger⟩ := hdb.refines_applyAll (State.keepWrites
    (s.localProposal s.currentHeight s.currentRound (Value.new data)) s.currentHeight
    s.currentRound data)
  have hkept := Ledger.proposal_keepWrites s.store.ledger
    (p := s.localProposal s.currentHeight s.currentRound (Value.new data)) hne data
  rw [hstate, State.holds_iff hwell, ← hround]
  exact Option.isSome_iff_exists.mpr ⟨_, (congrArg (Ledger.proposal · _) hledger).trans hkept⟩

/-- **A lost block leaves a gap.**  The decision on a block that has just been drawn keeps
the order exactly if every block drawn before it has been decided. -/
theorem inOrder_decided_iff (h : Run (life config) steps s) (horder : (progress steps).InOrder)
    {c : CommitCertificate} (hdraws : s.draws msg = some ⟨c.height, c.round⟩)
    (hok : (handle msg s).result = .ok ()) (hfree : s.holds ⟨c.height, c.round⟩ = false) :
    (progress (steps ++ [(s, msg)] ++ [((handle msg s).state, .decided c)])).InOrder ↔
      (progress steps).Settled := by
  have htracks := h.tracks
  rw [progress_concat, progress_concat, horder.settled_iff]
  generalize progress steps = p at horder htracks ⊢
  have horigin : (p.next (s, msg)).origin ⟨c.height, c.round⟩ = some p.drawn := by
    rw [Progress.next]
    dsimp only
    rw [hfree, if_neg (by simp), if_pos hdraws]
  obtain ⟨rfl, -⟩ := State.draws_eq_some hdraws
  have hholds := holds_of_getValue htracks.wellFormed hok
  have hfresh : p.drawn ∉ p.decided := fun hmem => lt_irrefl _ (htracks.decided_lt _ hmem)
  have hdecides : (p.next (s, .getValue c.height c.round)).decides
      (handle (.getValue c.height c.round) s).state (.decided c) = some p.drawn := by
    rw [Progress.decides, if_pos hholds, horigin]
  have hlast : ((p.next (s, .getValue c.height c.round)).next
      ((handle (.getValue c.height c.round) s).state, .decided c)).decided =
        p.decided ++ [p.drawn] := by
    rw [Progress.next]
    dsimp only
    rw [hdecides]
    exact if_neg hfresh
  have hle : p.decided.length ≤ p.drawn := by
    by_contra hlt
    refine lt_irrefl _ (htracks.decided_lt p.drawn ?_)
    rw [horder, List.mem_range]
    omega
  rw [Progress.InOrder, hlast, List.length_append, List.length_singleton, List.range_succ,
    ← horder, List.append_cancel_left_eq, List.singleton_inj]
  omega

/-- The messages of a life, each with the state in which it is handled. -/
def exchanges (s : State) : List AppMsg → List (State × AppMsg)
  | [] => []
  | msg :: msgs => (s, msg) :: exchanges (handle msg s).state msgs

theorem Run.exchanges (h : Run (life config) steps s) (msgs : List AppMsg)
    (hok : allHandled s msgs = true) :
    Run (life config) (steps ++ exchanges s msgs) (handleAll s msgs) := by
  induction msgs generalizing s steps with
  | nil =>
      rw [MalakethTurbo.exchanges, List.append_nil]
      exact h
  | cons msg msgs ih =>
      obtain ⟨hresult, hrest⟩ := allHandled_cons hok
      have hnext := ih (h.next (l := msg) ⟨hresult, rfl⟩) hrest
      rw [List.append_assoc] at hnext
      exact hnext

end Life

section BlocksDemo

attribute [local instance] demoCrypto Prost.reference demoPayload

theorem decided_in_order_demo :
    (progress (exchanges (demoState 1 [5, 6]) settledMsgs)).decided = [0, 1] ∧
      (progress (exchanges (demoState 1 [5, 6]) settledMsgs)).InOrder := by
  have hstart : Run (life (demoConfig 1 [5, 6])) [] (demoState 1 [5, 6]) :=
    .start ⟨Db.empty, true, Db.WellFormed.empty, rfl⟩
  have hrun := hstart.exchanges settledMsgs (by decide +kernel)
  exact ⟨by decide +kernel, (decided_in_order hrun (by decide +kernel)).1⟩

/-- A height whose first round fails and whose second round is decided. -/
def lostMsgs : List AppMsg :=
  [.startedRound ⟨1⟩ (.some 0) (demoAddress 1), .getValue ⟨1⟩ (.some 0),
    .startedRound ⟨1⟩ (.some 1) (demoAddress 1), .getValue ⟨1⟩ (.some 1),
    .decided { demoCertificate 6 with round := .some 1 }]

/-- The proposer of both rounds proposes its second block in the second round, and the
first block is never proposed again. -/
theorem decided_not_in_order_after_failed_round :
    ¬ ∀ (steps : List (State × AppMsg)) (s : State), Run (life (demoConfig 1 [5, 6])) steps s →
      (∀ x ∈ steps, ¬ x.2.KeepsNotes) → (progress steps).InOrder := by
  intro hall
  have hstart : Run (life (demoConfig 1 [5, 6])) [] (demoState 1 [5, 6]) :=
    .start ⟨Db.empty, true, Db.WellFormed.empty, rfl⟩
  have hrun := hstart.exchanges lostMsgs (by decide +kernel)
  have horder := hall _ _ hrun (by
    simp [lostMsgs, exchanges, AppMsg.KeepsNotes])
  have hdecided : (progress ([] ++ exchanges (demoState 1 [5, 6]) lostMsgs)).decided = [1] := by
    decide +kernel
  rw [Progress.InOrder, hdecided] at horder
  exact absurd horder (by decide)

end BlocksDemo
end MalakethTurbo
