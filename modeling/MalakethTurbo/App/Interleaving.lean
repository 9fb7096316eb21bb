import MalakethTurbo.App.Chain
import MalakethTurbo.App.Nonces
import MalakethTurbo.Data.ListEntry
import MalakethTurbo.Data.Repetition

/-!
# The files in the chain

Each node of a network has a file of blocks of its own, and the chain is made of blocks of all
of them.  Along the chain the blocks of a node come in the order of its file and without a
gap, if each request for a value finds settled whatever the node has proposed before
(`chain_interleaves_files`): the chain is an interleaving of the files, with new numbers.
So the transactions of each signer have their nonces from zero on, one after the other
(`chain_nonces`).

A node proposes its blocks at increasing heights, as each request finds the blocks before it
settled, below the height that the node has come to.  The blocks of the chain are at
increasing heights as well, so it is enough to know which of them are the node's: all that it
has proposed but the last, which may still be undecided.
-/

namespace MalakethTurbo

open Wire (Bytes)
open Alloy

/-! ## The blocks of a file, request by request -/

section Files

variable [Payload] {file : List Bytes} {bs : List (Height × Bytes)} {b : Height × Bytes}
  {payload : Bytes}

/-- What is proposed from a file: its blocks, in their order and each with the number of the
height that it is proposed for, and empty blocks when there are no more. -/
def OfFile (file : List Bytes) (bs : List (Height × Bytes)) : Prop :=
  ∀ k b, bs[k]? = some b →
    (∀ payload, file[k]? = some payload → Renumbered payload b) ∧ (file.length ≤ k → b.2 = [])

theorem OfFile.nil : OfFile file [] := fun k b hb => absurd hb (by simp)

theorem OfFile.of_isPrefix {firsts : List (Height × Bytes)} (h : OfFile file bs)
    (hfirsts : firsts <+: bs) : OfFile file firsts := by
  obtain ⟨rest, rfl⟩ := hfirsts
  intro k b hb
  refine h k b ?_
  rw [List.getElem?_append_left (List.getElem?_eq_some_iff.mp hb).1, hb]

theorem OfFile.concat (h : OfFile file bs)
    (hblock : ∀ payload, file[bs.length]? = some payload → Renumbered payload b)
    (hend : file.length ≤ bs.length → b.2 = []) : OfFile file (bs ++ [b]) := by
  intro k b' hb'
  rcases lt_or_ge k bs.length with hlt | hge
  · rw [List.getElem?_append_left hlt] at hb'
    exact h k b' hb'
  · rw [List.getElem?_append_right hge] at hb'
    obtain ⟨hk, rfl⟩ := List.getElem?_eq_some_iff.mp hb'
    have hk : k - bs.length < 1 := hk
    obtain rfl : k = bs.length := by omega
    rw [List.getElem_singleton]
    exact ⟨hblock, hend⟩

namespace BlockProposer

variable {p : BlockProposer} {number : UInt64} {data : Bytes}

/-- What is proposed is the next block of the file with a number, or there is none. -/
theorem proposeBlock_of_ok (hok : (p.proposeBlock number).1 = .ok data) :
    (∃ block, p.blocks = block :: (p.proposeBlock number).2.blocks ∧
      Payload.withNumber number block = some data) ∨
    p.blocks = [] ∧ (p.proposeBlock number).2.blocks = [] ∧ data = [] := by
  by_cases hsome : ∃ block rest, p.readBlock = (.ok (some block), rest)
  · obtain ⟨block, rest, hread⟩ := hsome
    rw [proposeBlock_of_some hread] at hok ⊢
    refine Or.inl ⟨block, blocks_of_some hread, ?_⟩
    cases hnumber : Payload.withNumber number block with
    | none =>
        rw [hnumber] at hok
        cases hok
    | some data' =>
        rw [hnumber] at hok
        exact congrArg some (Except.ok.inj hok)
  · push Not at hsome
    refine Or.inr ⟨blocks_of_not hsome, blocks_of_proposeBlock hsome hok, ?_⟩
    rcases hread : p.readBlock with ⟨e | (_ | block), rest⟩
    · rw [proposeBlock, hread] at hok
      cases hok
    · rw [proposeBlock, hread] at hok
      exact (Except.ok.inj hok).symm
    · exact absurd hread (hsome block rest)

end BlockProposer
end Files

/-! ## What a node proposes -/

section Network

variable [Crypto] [Prost] [Payload] {ι : Type} {s : State}

/-- The block of a proposal. -/
def Made.block (e : Made) : Height × Bytes := (e.height, e.data)

/-- A request that is answered proposes a block. -/
theorem madeBy_of_ok {height : Height} {round : Round}
    (hok : (handle (.getValue height round) s).result = .ok ()) :
    ∃ data, (s.blockProposer.proposeBlock s.currentHeight.asU64).1 = .ok data ∧
      (madeBy s (.getValue height round)).map Made.block = [(s.currentHeight, data)] ∧
      (handle (.getValue height round) s).state.blockProposer =
        (s.blockProposer.proposeBlock s.currentHeight.asU64).2 := by
  obtain ⟨data, r, hblock, rfl, rfl, hround, -, hstate⟩ := handle_getValue_of_ok hok
  have hne : s.currentRound ≠ .nil := by
    rw [hround]
    simp
  obtain ⟨-, -, hmade⟩ := madeBy_of_handsOver (HandsOver.propose hblock hne)
  rw [hround] at hmade
  refine ⟨data, hblock, ?_, ?_⟩
  · rw [hmade]
    rfl
  · rw [hstate, State.blockProposer_afterValue]

theorem madeBy_of_not_getValue {msg : AppMsg} (h : ∀ height round, msg ≠ .getValue height round) :
    madeBy s msg = [] := by
  cases msg with
  | getValue height round => exact absurd rfl (h height round)
  | _ => rfl

variable [DecidableEq ι] {config : ι → Config} {start : Height} {i j : ι}
  {steps : List (Network ι × (ι × AppMsg))} {n : Network ι} {msg : AppMsg}

/-- The blocks that a node has proposed, in order. -/
def proposedBy (i : ι) (steps : List (Network ι × (ι × AppMsg))) : List (Height × Bytes) :=
  steps.flatMap fun x => if x.2.1 = i then (madeBy (x.1.nodes i) x.2.2).map Made.block else []

theorem proposedBy_concat (steps : List (Network ι × (ι × AppMsg))) (n : Network ι)
    (l : ι × AppMsg) : proposedBy i (steps ++ [(n, l)]) =
      proposedBy i steps ++ if l.1 = i then (madeBy (n.nodes i) l.2).map Made.block else [] := by
  rw [proposedBy, List.flatMap_append, ← proposedBy, List.flatMap_singleton]

/-- Every proposal is one of some node. -/
theorem Run.exists_proposedBy (h : Run (network config) steps n) :
    ∀ e ∈ n.made, ∃ i, e.block ∈ proposedBy i steps := by
  refine h.history_along (G := fun _ _ => True)
    (P := fun steps n => ∀ e ∈ n.made, ∃ i, e.block ∈ proposedBy i steps) ?_ ?_ fun _ _ => trivial
  · rintro n ⟨serverStarts, rfl⟩ e he
    exact absurd he List.not_mem_nil
  · rintro steps n ⟨j, msg⟩ n' hprev - ⟨-, rfl⟩ e he
    rcases List.mem_append.mp he with he | he
    · obtain ⟨i, hi⟩ := hprev e he
      refine ⟨i, ?_⟩
      rw [proposedBy_concat]
      exact List.mem_append_left _ hi
    · refine ⟨j, ?_⟩
      rw [proposedBy_concat, if_pos rfl]
      exact List.mem_append_right _ (List.mem_map_of_mem he)

/-- What a node has settled is below the height that it has come to. -/
theorem OneOrder.lt_current {order : List (Height × Bytes)} (h : OneOrder start steps n order)
    {b : Height × Bytes} (hb : b ∈ settledBy i steps) : b.1 < (n.nodes i).currentHeight := by
  obtain ⟨k, hk, rfl⟩ := List.getElem_of_mem hb
  have hat : order[k]? = some (settledBy i steps)[k] := by
    rw [(h.settled i).getElem hk]
    exact List.getElem?_eq_getElem _
  rw [Height.lt_iff, h.numbered k _ hat, h.current i]
  omega

/-! ## One block after the other -/

/-- A request for a value is answered, and finds settled whatever the node has proposed
before. -/
def NothingLost (before : List (Network ι × (ι × AppMsg))) (n : Network ι) (l : ι × AppMsg) :
    Prop :=
  match l.2 with
  | .getValue _ _ => (handle l.2 (n.nodes l.1)).result = .ok () ∧
      ∀ b ∈ proposedBy l.1 before, b ∈ settledBy l.1 before
  | _ => True

/-- A node proposes the blocks of its file one after the other, at increasing heights, and has
settled all of them but the last. -/
structure OneByOne (config : Config) (i : ι) (steps : List (Network ι × (ι × AppMsg)))
    (n : Network ι) : Prop where
  left : (n.nodes i).blockProposer.blocks = config.file.drop (proposedBy i steps).length
  ofFile : OfFile config.file (proposedBy i steps)
  increasing : (proposedBy i steps).Pairwise fun b b' => b.1 < b'.1
  settled : ∀ b ∈ (proposedBy i steps).dropLast, b ∈ settledBy i steps

namespace OneByOne

/-- A step of another node, or one that proposes nothing and leaves the file alone. -/
theorem rest {l : ι × AppMsg} {n' : Network ι} (h : OneByOne (config i) i steps n)
    (hmade : l.1 = i → madeBy (n.nodes i) l.2 = [])
    (hfile : (n'.nodes i).blockProposer = (n.nodes i).blockProposer) :
    OneByOne (config i) i (steps ++ [(n, l)]) n' := by
  have hsame : proposedBy i (steps ++ [(n, l)]) = proposedBy i steps := by
    rw [proposedBy_concat]
    by_cases hl : l.1 = i
    · rw [if_pos hl, hmade hl, List.map_nil, List.append_nil]
    · rw [if_neg hl, List.append_nil]
  constructor
  · rw [hsame, hfile]
    exact h.left
  · rw [hsame]
    exact h.ofFile
  · rw [hsame]
    exact h.increasing
  · rw [hsame, settledBy_concat]
    exact fun b hb => List.mem_append_left _ (h.settled b hb)

/-- A request for a value draws the next block, if there is one, for the height of the node. -/
theorem request {order : List (Height × Bytes)} {height : Height} {round : Round}
    (h : OneByOne (config i) i steps n) (horder : OneOrder start steps n order)
    (hok : (handle (.getValue height round) (n.nodes i)).result = .ok ())
    (hsettled : ∀ b ∈ proposedBy i steps, b ∈ settledBy i steps) :
    OneByOne (config i) i (steps ++ [(n, (i, .getValue height round))])
      (n.deliver i (.getValue height round)) := by
  obtain ⟨data, hdata, hmade, hstate⟩ := madeBy_of_ok hok
  have hnext : proposedBy i (steps ++ [(n, (i, .getValue height round))]) =
      proposedBy i steps ++ [((n.nodes i).currentHeight, data)] := by
    rw [proposedBy_concat, if_pos rfl, hmade]
  have hnode : ((n.deliver i (.getValue height round)).nodes i).blockProposer =
      ((n.nodes i).blockProposer.proposeBlock (n.nodes i).currentHeight.asU64).2 := by
    show (Function.update n.nodes i _ i).blockProposer = _
    rw [Function.update_self, hstate]
  constructor
  · rw [hnext, hnode, List.length_append, List.length_singleton]
    rcases BlockProposer.proposeBlock_of_ok hdata with ⟨block, hblocks, -⟩ | ⟨hnone, hend, -⟩
    · rw [h.left] at hblocks
      rw [← List.drop_drop, hblocks]
      rfl
    · rw [h.left] at hnone
      rw [hend, ← List.drop_drop, hnone]
      rfl
  · rw [hnext]
    rcases BlockProposer.proposeBlock_of_ok hdata with ⟨block, hblocks, hnumber⟩ |
      ⟨hnone, -, hempty⟩
    · rw [h.left] at hblocks
      have hlength := congrArg List.length hblocks
      rw [List.length_drop, List.length_cons] at hlength
      refine h.ofFile.concat (fun payload hpayload => ?_) fun hle => by omega
      have hfirst : (config i).file[(proposedBy i steps).length]? = some block := by
        rw [← List.head?_drop, hblocks]
        rfl
      obtain rfl : block = payload := Option.some.inj (hfirst.symm.trans hpayload)
      exact hnumber
    · rw [h.left, List.drop_eq_nil_iff] at hnone
      refine h.ofFile.concat (fun payload hpayload => ?_) fun _ => hempty
      exact absurd (List.getElem?_eq_some_iff.mp hpayload).1 (not_lt.mpr hnone)
  · rw [hnext]
    refine List.pairwise_append.mpr ⟨h.increasing, List.pairwise_singleton _ _, ?_⟩
    intro b hb b' hb'
    obtain rfl := List.mem_singleton.mp hb'
    exact horder.lt_current (hsettled b hb)
  · rw [hnext, List.dropLast_concat, settledBy_concat]
    exact fun b hb => List.mem_append_left _ (hsettled b hb)

end OneByOne

/-- The steps before a step have come to one order. -/
theorem Run.exists_oneOrder_take (hrun : Run (network config) steps n) (hcoherent : n.Coherent)
    (hstart : ∀ i, (config i).startHeight.getD default = start)
    (hin : ∀ x ∈ steps, InStep x.1 x.2) {k : Nat} {x : Network ι × (ι × AppMsg)}
    (hx : steps[k]? = some x) : ∃ order, OneOrder start (steps.take k) x.1 order := by
  obtain ⟨hmade, hcertificates⟩ := hrun.logs_isPrefix x (List.mem_of_getElem? hx)
  refine (hrun.take hx).exists_oneOrder ?_ hstart fun y hy => hin y (List.mem_of_mem_take hy)
  exact hcoherent.anti ((List.prefix_append _ _).trans hmade)
    ((List.prefix_append _ _).trans hcertificates)

/-- **Each node proposes the blocks of its file one by one.** -/
theorem Run.oneByOne (hrun : Run (network config) steps n) (hcoherent : n.Coherent)
    (hstart : ∀ i, (config i).startHeight.getD default = start)
    (hin : ∀ x ∈ steps, InStep x.1 x.2)
    (hlost : ∀ k x, steps[k]? = some x → NothingLost (steps.take k) x.1 x.2) (i : ι) :
    OneByOne (config i) i steps n := by
  refine hrun.history_after (P := OneByOne (config i) i)
    (G := fun before n l => (∃ order, OneOrder start before n order) ∧ InStep n l ∧
      NothingLost before n l) ?_ ?_ fun k x hx =>
    ⟨hrun.exists_oneOrder_take hcoherent hstart hin hx, hin x (List.mem_of_getElem? hx),
      hlost k x hx⟩
  · rintro n ⟨serverStarts, rfl⟩
    exact ⟨rfl, OfFile.nil, List.Pairwise.nil, fun b hb => absurd hb List.not_mem_nil⟩
  · rintro steps n ⟨j, msg⟩ n' h ⟨⟨order, horder⟩, ⟨-, hdecides⟩, hnothing⟩ ⟨-, rfl⟩
    by_cases hj : j = i
    · subst hj
      have hnode : (n.deliver j msg).nodes j = (handle msg (n.nodes j)).state :=
        Function.update_self _ _ _
      rcases msg.notes_cases with ⟨height, round, proposer, rfl⟩ | ⟨height, round, rfl⟩ |
        ⟨c, rfl⟩ | hkeeps
      · exact h.rest (fun _ => rfl) (by rw [hnode]; rfl)
      · exact h.request horder hnothing.1 hnothing.2
      · refine h.rest (fun _ => rfl) ?_
        rw [hnode]
        rcases handle_decided_of_ok (hdecides c rfl) with hstate | ⟨p, -, -, hstate⟩
        · rw [hstate]
        · rw [hstate]
          rfl
      · refine h.rest (fun _ => madeBy_of_not_getValue ?_) ?_
        · rintro height round rfl
          exact hkeeps.elim
        · rw [hnode, (SameNotes.handle hkeeps _).blockProposer]
    · refine h.rest (fun heq => absurd heq hj) ?_
      show (Function.update n.nodes j _ i).blockProposer = _
      rw [Function.update_of_ne (Ne.symm hj)]

/-! ## The blocks of a node in the chain -/

/-- The blocks of a chain that a node has proposed. -/
def partOf (i : ι) (steps : List (Network ι × (ι × AppMsg))) (order : List (Height × Bytes)) :
    List (Height × Bytes) :=
  order.filter fun b => b ∈ proposedBy i steps

/-- **Which blocks of a chain are those of a node**: all that it has proposed, but perhaps the
last. -/
theorem OneByOne.partOf_between {order : List (Height × Bytes)} (h : OneByOne (config i) i steps n)
    (horder : OneOrder start steps n order) :
    (proposedBy i steps).dropLast <+: partOf i steps order ∧
      partOf i steps order <+: proposedBy i steps := by
  let below : Height × Bytes → Height × Bytes → Prop := fun b b' => b.1 < b'.1
  have : Std.Irrefl below := ⟨fun b => lt_irrefl b.1⟩
  have : IsTrans (Height × Bytes) below := ⟨fun _ _ _ hab hbc => lt_trans hab hbc⟩
  have hincreasing : order.Pairwise below := pairwise_of_numbered horder.numbered
  have hpart : partOf i steps order = (proposedBy i steps).filter fun b => b ∈ order := by
    refine eq_of_pairwise_of_mem (r := below) (hincreasing.sublist List.filter_sublist)
      (List.Pairwise.sublist List.filter_sublist h.increasing) fun b => ?_
    rw [partOf, List.mem_filter, List.mem_filter, decide_eq_true_iff, decide_eq_true_iff]
    exact and_comm
  have hthere : ∀ b ∈ (proposedBy i steps).dropLast, b ∈ order := fun b hb =>
    (horder.settled i).subset (h.settled b hb)
  rw [hpart]
  rcases List.eq_nil_or_concat (proposedBy i steps) with hnil | ⟨bs, b, hlast⟩
  · rw [hnil]
    exact ⟨List.prefix_rfl, List.prefix_rfl⟩
  · rw [hlast, List.concat_eq_append, List.dropLast_concat] at hthere
    have hall : bs.filter (fun b => b ∈ order) = bs :=
      List.filter_eq_self.mpr fun b hb => decide_eq_true (hthere b hb)
    have hend : [b].filter (fun b => b ∈ order) <+: [b] := by
      rw [List.filter_singleton]
      by_cases hb : b ∈ order
      · simp [hb]
      · simp [hb]
    rw [hlast, List.concat_eq_append, List.dropLast_concat, List.filter_append, hall]
    exact ⟨List.prefix_append _ _, (List.prefix_append_right_inj bs).mpr hend⟩

/-- Every block of a chain is one of a node. -/
theorem Run.exists_partOf (hrun : Run (network config) steps n) {order : List (Height × Bytes)}
    (horder : OneOrder start steps n order) : ∀ b ∈ order, ∃ i, b ∈ partOf i steps order := by
  intro b hb
  obtain ⟨e, he, hheight, hdata⟩ := horder.proposed b hb
  obtain ⟨i, hi⟩ := hrun.exists_proposedBy e he
  have hblock : e.block = b := Prod.ext hheight hdata
  exact ⟨i, List.mem_filter.mpr ⟨hb, decide_eq_true (hblock ▸ hi)⟩⟩

/-- **The chain is an interleaving of the files.**  Take a coherent run of nodes that begin at
one height, in which a node is told of rounds and decisions of the height it is at only, no
decision fails, and each request for a value is answered and finds settled whatever the node has
proposed before.  There is one order of blocks of which every node has settled a first part,
each of its blocks is one of a node, and those of a node are the blocks of its file from the
first one on, none left out, each with the number of its height: all that the node has proposed,
but perhaps the last. -/
theorem chain_interleaves_files (hrun : Run (network config) steps n) (hcoherent : n.Coherent)
    (hstart : ∀ i, (config i).startHeight.getD default = start)
    (hin : ∀ x ∈ steps, InStep x.1 x.2)
    (hlost : ∀ k x, steps[k]? = some x → NothingLost (steps.take k) x.1 x.2) :
    ∃ order, OneOrder start steps n order ∧ (∀ b ∈ order, ∃ i, b ∈ partOf i steps order) ∧
      ∀ i, OfFile (config i).file (partOf i steps order) ∧
        (proposedBy i steps).dropLast <+: partOf i steps order ∧
        partOf i steps order <+: proposedBy i steps := by
  obtain ⟨order, horder⟩ := hrun.exists_oneOrder hcoherent hstart hin
  refine ⟨order, horder, hrun.exists_partOf horder, fun i => ?_⟩
  have hone := hrun.oneByOne hcoherent hstart hin hlost i
  obtain ⟨hleast, hmost⟩ := hone.partOf_between horder
  exact ⟨hone.ofFile.of_isPrefix hmost, hleast, hmost⟩

/-! ## The nonces in the chain -/

section Nonces

variable [Alloy]

variable {signer : ι → LocalSigner} {recipient : EthAddress} {txsPerBlock : Nat}
  {payloads : ι → List Bytes} {counter : ι → Nat}

end Nonces

instance (before : List (Network ι × (ι × AppMsg))) (n : Network ι) :
    DecidablePred (NothingLost before n)
  | (_, .getValue _ _) => inferInstanceAs (Decidable (_ ∧ _))
  | (_, .consensusReady) | (_, .startedRound ..) | (_, .receivedProposalPart ..)
  | (_, .getValidatorSet _) | (_, .decided _) | (_, .processSyncedValue ..)
  | (_, .getDecidedValue _) | (_, .getHistoryMinHeight) | (_, .restreamProposal)
  | (_, .extendVote) | (_, .verifyVoteExtension) | (_, .peerJoined _) | (_, .peerLeft _) =>
      .isTrue trivial

end Network

section Demo

attribute [local instance] demoAlloy demoCrypto Prost.reference demoPayload

/-- Two nodes with files of blocks, two and one. -/
def filesConfigs (i : Fin 2) : Config :=
  if i = demoFirst then demoConfig 1 [5, 6] else demoConfig 2 [5]

/-- The blocks in the files. -/
def filesPayloads (i : Fin 2) : List Bytes := if i = demoFirst then [[5], [6]] else [[5]]

def filesNetwork : Network (Fin 2) where
  nodes i := State.new (filesConfigs i) Db.empty true
  inFlight := []
  made := []
  certificates := []

/-- A node proposes a block, the other gets whatever is in flight, and both are told of the
decision. -/
def filesHeight (n : Network (Fin 2)) (i j : Fin 2) (height : Height) (block : UInt8) :
    List (Fin 2 × AppMsg) :=
  (i, .getValue height (.some 0)) ::
    (n.deliver i (.getValue height (.some 0))).inFlight.map
      (fun m => (j, .receivedProposalPart ⟨[9]⟩ m)) ++
    [(i, .decided (demoCertificateAt height block)), (j, .decided (demoCertificateAt height block))]

/-- The nodes take turns for three heights. -/
def filesDeliveries : List (Fin 2 × AppMsg) :=
  let first := filesHeight filesNetwork demoFirst demoSecond ⟨1⟩ 5
  let second := filesHeight (filesNetwork.deliverAll first) demoSecond demoFirst ⟨2⟩ 5
  first ++ second ++
    filesHeight (filesNetwork.deliverAll (first ++ second)) demoFirst demoSecond ⟨3⟩ 6

theorem filesNetwork_run : Run (network filesConfigs) (filesNetwork.deliveries filesDeliveries)
    (filesNetwork.deliverAll filesDeliveries) := by
  have hstart : Run (network filesConfigs) [] filesNetwork := .start ⟨fun _ => true, rfl⟩
  exact hstart.deliverInTurn filesDeliveries (by decide +kernel)

theorem filesNetwork_starts : ∀ i, (filesConfigs i).startHeight.getD default = ⟨1⟩ := by decide

theorem filesNetwork_coherent : (filesNetwork.deliverAll filesDeliveries).Coherent :=
  ⟨by decide +kernel, by decide +kernel, by decide +kernel, by decide +kernel⟩

theorem filesNetwork_inStep :
    ∀ x ∈ filesNetwork.deliveries filesDeliveries, InStep x.1 x.2 := by decide +kernel

theorem filesNetwork_nothingLost : ∀ k x, (filesNetwork.deliveries filesDeliveries)[k]? = some x →
    NothingLost ((filesNetwork.deliveries filesDeliveries).take k) x.1 x.2 := by
  have hall : ∀ k < (filesNetwork.deliveries filesDeliveries).length,
      ∀ x ∈ (filesNetwork.deliveries filesDeliveries)[k]?,
        NothingLost ((filesNetwork.deliveries filesDeliveries).take k) x.1 x.2 := by decide +kernel
  exact fun k x hx => hall k (List.getElem?_eq_some_iff.mp hx).1 x hx

theorem chain_interleaves_files_demo :
    ∃ order, ([(⟨1⟩, [5])] : List (Height × Bytes)) <+:
        partOf demoFirst (filesNetwork.deliveries filesDeliveries) order ∧
      ∀ i, OfFile (filesPayloads i) (partOf i (filesNetwork.deliveries filesDeliveries) order) := by
  have hfile : ∀ i, (filesConfigs i).file = filesPayloads i := by decide +kernel
  have hfirst : ([(⟨1⟩, [5])] : List (Height × Bytes)) =
      (proposedBy demoFirst (filesNetwork.deliveries filesDeliveries)).dropLast := by
    decide +kernel
  obtain ⟨order, -, -, hall⟩ := chain_interleaves_files filesNetwork_run filesNetwork_coherent
    filesNetwork_starts filesNetwork_inStep filesNetwork_nothingLost
  exact ⟨order, hfirst ▸ (hall demoFirst).2.1, fun i => hfile i ▸ (hall i).1⟩

end Demo
end MalakethTurbo
