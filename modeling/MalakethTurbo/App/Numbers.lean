import MalakethTurbo.App.Progress

/-!
# Block numbers

The blocks of the file carry any numbers.  A proposer gives its block the number of the
height it is at (`makeBlock`), and proposes it for no other height (`proposeValue`); the
receivers do not look at the number again.  Nevertheless every block in the stores of a
network of such nodes carries the number of the height it is kept under, and so does every
block that is handed to an executor (`blocks_numbered_by_height`).
-/

namespace MalakethTurbo

open Wire (Bytes)

section Numbers

variable [Crypto] [Prost] [Payload] {ι : Type} {s : State} {msg : AppMsg}

/-- Block data is empty, or it is of a block with the number of a height. -/
def CarriesNumber (number : Bytes → Option UInt64) (height : Height) (data : Bytes) : Prop :=
  data = [] ∨ number data = some height.asU64

/-- The number of a block is read off the payload that it is written as. -/
def ReadsNumber (number : Bytes → Option UInt64) : Prop :=
  ∀ (block : NumberedBlock Payload.Rest) (data : Bytes),
    Payload.toVec (Payload.fromBlockSlow block) = some data → number data = some block.number

variable {number : Bytes → Option UInt64}

omit [Crypto] [Prost] in
/-- A block that has been given a number is read to have it. -/
theorem ReadsNumber.of_withNumber (hnumber : ReadsNumber number) {n : UInt64} {block data : Bytes}
    (h : Payload.withNumber n block = some data) : number data = some n := by
  rw [Payload.withNumber, Option.bind_eq_bind, Option.bind_eq_some_iff] at h
  obtain ⟨payload, -, h⟩ := h
  obtain ⟨b, -, h⟩ := Option.bind_eq_some_iff.mp h
  exact hnumber _ data h

omit [Crypto] [Prost] in
/-- A proposer numbers its blocks. -/
theorem carriesNumber_of_proposeBlock {p : BlockProposer} {height : Height} {data : Bytes}
    (hnumber : ReadsNumber number)
    (h : (p.proposeBlock height.asU64).1 = .ok data) : CarriesNumber number height data := by
  unfold BlockProposer.proposeBlock at h
  split at h
  · exact absurd h (by simp)
  · exact Or.inl (Except.ok.inj h).symm
  · rename_i block rest _
    refine Or.inr (hnumber.of_withNumber (?_ : Payload.withNumber _ block = some data))
    cases hpayload : Payload.withNumber height.asU64 block with
    | none =>
        rw [hpayload] at h
        exact absurd h (by simp [okOr])
    | some data' =>
        rw [hpayload] at h
        exact congrArg some (Except.ok.inj h)

/-- What is proposed for a height carries its number. -/
theorem carriesNumber_of_madeBy
    (hnumber : ReadsNumber number)
    {e : Made} (he : e ∈ madeBy s msg) : CarriesNumber number e.height e.data := by
  rcases madeBy_cases s msg with ⟨hnone, -⟩ | ⟨e', hmade, -, -, p, hover, hheight, -⟩
  · rw [hnone] at he
    exact absurd he List.not_mem_nil
  · rw [hmade] at he
    rw [List.mem_singleton.mp he, ← hheight]
    cases msg with
    | getValue height round =>
        cases hover with
        | propose hblock hround => exact carriesNumber_of_proposeBlock hnumber hblock
    | _ => exact absurd (hmade ▸ List.mem_singleton_self e') List.not_mem_nil

omit [Crypto] [Prost] [Payload] in
theorem getBlockData_of_spawns_commit {c : CommitCertificate} {p : ProposedValue}
    {b : Height × Bytes} (hb : b ∈ spawns (s.commitEffects c p)) :
    b.1 = c.height ∧ b.2 ≠ [] ∧ s.store.getBlockData c.height c.round = some b.2 := by
  have hdata : spawns (s.commitEffects c p) = spawns (s.blockDataEffects c) := by
    rw [State.commitEffects, State.settleEffects]
    exact (spawns_append (s.blockDataEffects c) [.write _]).trans (List.append_nil _)
  rw [hdata, State.blockDataEffects] at hb
  cases hget : s.store.getBlockData c.height c.round with
  | none =>
      rw [hget] at hb
      exact absurd hb List.not_mem_nil
  | some data =>
      rw [hget] at hb
      dsimp only at hb
      by_cases hspawn : data ≠ [] ∧ s.rpcServer
      · rw [if_pos hspawn] at hb
        obtain rfl : b = (c.height, data) := List.mem_singleton.mp hb
        exact ⟨rfl, hspawn.1, rfl⟩
      · rw [if_neg hspawn] at hb
        exact absurd hb List.not_mem_nil

/-- The tasks that a message spawns are for the block data of the slot that is decided. -/
theorem getBlockData_of_spawns {b : Height × Bytes} (hb : b ∈ spawns (handle msg s).effects) :
    ∃ c : CommitCertificate, msg = .decided c ∧ b.1 = c.height ∧ b.2 ≠ [] ∧
      s.store.getBlockData c.height c.round = some b.2 := by
  rcases handle_cases s msg with ⟨p, data, hover⟩ | ⟨c, rfl⟩ | hquiet
  · obtain ⟨reply, msgs, -, heffects⟩ := hover.handle_effects
    have hpublish : spawns (msgs.map .publish) = [] := by
      rw [spawns, List.filterMap_map]
      exact List.filterMap_none _
    have hnone : spawns (.reply reply :: msgs.map .publish) = [] := hpublish
    rw [heffects, spawns_append, hnone, List.append_nil] at hb
    exact absurd hb List.not_mem_nil
  · obtain ⟨tail, htail, heffects⟩ := handle_decided_effects (s := s) c
    have hreply : spawns tail = [] := by
      rcases htail with rfl | ⟨h, vs, rfl⟩ <;> rfl
    rw [heffects, spawns_append, hreply, List.append_nil] at hb
    rcases State.commit_cases s c with ⟨hnone, -⟩ | ⟨p, -, -, hrun⟩
    · rw [hnone] at hb
      exact absurd hb List.not_mem_nil
    · rw [hrun, Action.after_effects, State.nextHeight_effects, List.append_nil] at hb
      exact ⟨c, rfl, getBlockData_of_spawns_commit hb⟩
  · rcases hquiet with heffects | ⟨r, -, heffects⟩
    · rw [heffects] at hb
      exact absurd hb List.not_mem_nil
    · rw [heffects] at hb
      exact absurd hb List.not_mem_nil

variable [DecidableEq ι] {config : ι → Config} {steps : List (Network ι × (ι × AppMsg))}
  {n : Network ι}

/-- What has been made for a slot carries the number of its height. -/
theorem Run.made_carriesNumber
    (hnumber : ReadsNumber number)
    (h : Run (network config) steps n) :
    ∀ e ∈ n.made, CarriesNumber number e.height e.data :=
  h.forall_made fun _ _ _ _ _ _ he => carriesNumber_of_madeBy hnumber he

/-- So does what a store has for it. -/
theorem Run.stored_carriesNumber
    (hnumber : ReadsNumber number)
    (h : Run (network config) steps n) (honce : OnePerSlot n.made) (i : ι) {height : Height}
    {round : Round} {data : Bytes}
    (hdata : (n.nodes i).store.getBlockData height round = some data) :
    CarriesNumber number height data := by
  have hmade : ∀ {k : UndecidedValueKey}, MadeFor n.made k data →
      CarriesNumber number k.height data := by
    rintro k ⟨e, he, hheight, -, rfl⟩
    rw [← hheight]
    exact h.made_carriesNumber hnumber e he
  rw [Db.getBlockData_eq] at hdata
  rcases ((h.honest honce).nodes i).drawn.blockDataAt hdata with hslot | ⟨c, -, -, hslot⟩
  · exact hmade hslot
  · exact hmade hslot

/-- **Every block carries the number of its height.**  In a run of any nodes in which no slot is
proposed for twice, what is proposed for a height, what a store has as the block data of a slot
of it or of a decision at it, and what is handed to an executor with it, are empty or of a
block with its number, and an executor is handed no empty block. -/
theorem blocks_numbered_by_height
    (hnumber : ReadsNumber number)
    (hrun : Run (network config) steps n) (honce : OnePerSlot n.made) :
    (∀ e ∈ n.made, CarriesNumber number e.height e.data) ∧
      (∀ i height round data, (n.nodes i).store.getBlockData height round = some data →
        CarriesNumber number height data) ∧
      ∀ x ∈ steps, ∀ b ∈ spawns (handle x.2.2 (x.1.nodes x.2.1)).effects,
        b.2 ≠ [] ∧ number b.2 = some b.1.asU64 := by
  refine ⟨hrun.made_carriesNumber hnumber,
    fun i height round data hdata => hrun.stored_carriesNumber hnumber honce i hdata,
    fun x hx b hb => ?_⟩
  obtain ⟨before, after, -, hbefore⟩ := hrun.exists_runTo hx
  have hmade : (x.1.deliver x.2.1 x.2.2).made <+: n.made := (hrun.logs_isPrefix x hx).1
  have honce' : OnePerSlot x.1.made :=
    honce.sublist ((List.prefix_append _ _).trans hmade).sublist
  obtain ⟨c, -, hheight, hne, hdata⟩ := getBlockData_of_spawns hb
  rw [hheight]
  exact ⟨hne, (hbefore.stored_carriesNumber hnumber honce' x.2.1 hdata).resolve_left hne⟩

end Numbers

section Demo

/-- The number of a payload that begins with it. -/
def payloadNumber (data : Bytes) : Option UInt64 :=
  if data.length < 8 then none
  else some (UInt64.ofNat ((data.take 8).foldl (fun n x => n * 256 + x.toNat) 0))

theorem payloadNumber_u64Bytes (n : UInt64) (block : Bytes) :
    payloadNumber (u64Bytes n ++ block) = some n := by
  have hlong : ¬ (u64Bytes n ++ block).length < 8 := by
    rw [List.length_append, length_u64Bytes]
    omega
  have hlt := n.toNat_lt
  rw [payloadNumber, if_neg hlong, List.take_left' (length_u64Bytes n), u64Bytes,
    foldl_beBytes (by omega), UInt64.ofNat_toNat]

/-- Payloads that are a number and a rest. -/
@[reducible] def numberedPayload : Payload where
  ExecutionPayloadV1 := Bytes
  Rest := Bytes
  fromSlice := some
  tryIntoBlock payload := (payloadNumber payload).map fun number => ⟨number, payload.drop 8⟩
  fromBlockSlow block := u64Bytes block.number ++ block.rest
  toVec := some

attribute [local instance] demoCrypto Prost.reference numberedPayload

/-- Two nodes, the first with a file of one block, of another number. -/
def numberedConfigs (i : Fin 2) : Config :=
  if i = demoFirst then { demoConfig 1 [] with blocks := [0, 0, 0, 9] ++ u64Bytes 5 ++ [7] }
  else demoConfig 2 []

def numberedNetwork : Network (Fin 2) where
  nodes i := State.new (numberedConfigs i) Db.empty true
  inFlight := []
  made := []
  certificates := []

/-- The first node proposes the block of its file, and the block is decided. -/
def numberedDeliveries : List (Fin 2 × AppMsg) :=
  [(demoFirst, .getValue ⟨1⟩ (.some 0)),
    (demoFirst, .decided ⟨⟨1⟩, .some 0, (Value.new (u64Bytes 1 ++ [7])).id, ⟨[]⟩⟩)]

theorem blocks_numbered_by_height_demo :
    (numberedNetwork.deliveries numberedDeliveries).flatMap
        (fun x => spawns (handle x.2.2 (x.1.nodes x.2.1)).effects) = [(⟨1⟩, u64Bytes 1 ++ [7])] ∧
      ∀ x ∈ numberedNetwork.deliveries numberedDeliveries,
        ∀ b ∈ spawns (handle x.2.2 (x.1.nodes x.2.1)).effects,
          b.2 ≠ [] ∧ payloadNumber b.2 = some b.1.asU64 := by
  have hstart : Run (network numberedConfigs) [] numberedNetwork := .start ⟨fun _ => true, rfl⟩
  have hrun := hstart.deliverInTurn numberedDeliveries (by decide +kernel)
  have hnumber : ReadsNumber payloadNumber := by
    intro block data h
    rw [← Option.some.inj h]
    exact payloadNumber_u64Bytes block.number block.rest
  exact ⟨by decide +kernel, (blocks_numbered_by_height hnumber hrun (by decide +kernel)).2.2⟩

end Demo
end MalakethTurbo
