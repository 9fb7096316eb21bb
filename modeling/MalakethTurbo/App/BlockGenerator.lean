import MalakethTurbo.App.BlockExecutor
import MalakethTurbo.App.BlockFile
import MalakethTurbo.Logic.Tickets
import Mathlib.Data.List.Sort
import Mathlib.Data.List.Perm.Basic

/-!
# Generating blocks

`generate_test_blocks` makes the blocks of a file one after the other.  The transactions of a
block are made in parallel: each task takes its nonce from a counter that all of them share,
and which task comes first is up to the scheduler.  The transactions are then sorted.

The file does not depend on the scheduler: there is a run that writes it if and only if it is
what one task writes that makes the transactions in the order of their nonces
(`generateTestBlocks_in_every_schedule`).

## The dictionary

A run of `Tickets` on `Fin txsPerBlock` is what the tasks of `into_par_iter` do to
`nonce_counter`, of which a state tells the nonce that each of them has got.  `collect` puts
the transactions in the order of the tasks; `createTestTransaction` takes nothing else from
the task, so that it does not matter when it runs.
-/

namespace MalakethTurbo

open Wire (Bytes)

/-! ## The nonces of a block -/

/-- The nonces of a block, in order. -/
def blockNonces (txsPerBlock k : Nat) : List Nat :=
  (numbers (2 ^ 64) (k * txsPerBlock) txsPerBlock).insertionSort (· ≤ ·)

theorem pairwise_blockNonces (txsPerBlock k : Nat) :
    (blockNonces txsPerBlock k).Pairwise (· ≤ ·) :=
  List.pairwise_insertionSort (· ≤ ·) _

theorem lt_of_mem_blockNonces {txsPerBlock k : Nat} {n : Nat} (h : n ∈ blockNonces txsPerBlock k) :
    n < 2 ^ 64 := by
  rw [blockNonces, List.mem_insertionSort, numbers] at h
  obtain ⟨m, -, rfl⟩ := List.mem_map.mp h
  exact Nat.mod_lt m (by decide)

/-- As long as there are enough of them, the nonces go on where the block before ended. -/
theorem blockNonces_eq {txsPerBlock k : Nat} (h : (k + 1) * txsPerBlock ≤ 2 ^ 64) :
    blockNonces txsPerBlock k = List.range' (k * txsPerBlock) txsPerBlock := by
  rw [Nat.succ_mul] at h
  rw [blockNonces, numbers_eq h]
  exact List.Pairwise.insertionSort_eq List.pairwise_le_range'

/-! ## Transactions and blocks -/

/-- A transaction, of the only kind that is made. -/
structure TxEip1559 where
  chainId : UInt64
  nonce : UInt64
  maxPriorityFeePerGas : Nat
  maxFeePerGas : Nat
  gasLimit : UInt64
  /-- The address in `TxKind::Call`. -/
  callee : EthAddress
  value : Nat
  input : Bytes
  accessList : List (EthAddress × List (FixedBytes 32))

/-- The header of a block. -/
structure Header where
  parentHash : FixedBytes 32
  ommersHash : FixedBytes 32
  beneficiary : EthAddress
  stateRoot : FixedBytes 32
  transactionsRoot : FixedBytes 32
  receiptsRoot : FixedBytes 32
  logsBloom : FixedBytes 256
  difficulty : Nat
  number : UInt64
  gasLimit : UInt64
  gasUsed : UInt64
  timestamp : UInt64
  extraData : Bytes
  mixHash : FixedBytes 32
  nonce : FixedBytes 8
  baseFeePerGas : Option UInt64
  withdrawalsRoot : Option (FixedBytes 32)
  blobGasUsed : Option UInt64
  excessBlobGas : Option UInt64
  parentBeaconBlockRoot : Option (FixedBytes 32)
  requestsHash : Option (FixedBytes 32)

/-- `TransactionSigned`. -/
structure TransactionSigned (σ : Type) where
  transaction : TxEip1559
  signature : σ

/-- A block, which has no ommers and no withdrawals. -/
structure TestBlock (σ : Type) where
  header : Header
  transactions : List (TransactionSigned σ)

/-- The functions that the generator takes from its libraries.  An error has a text. -/
class Alloy where
  LocalSigner : Type
  EthSignature : Type
  ExecutionPayloadV1 : Type
  signatureHash : TxEip1559 → FixedBytes 32
  signHash : LocalSigner → FixedBytes 32 → Call String EthSignature
  fromBlockSlow : TestBlock EthSignature → ExecutionPayloadV1
  toVec : ExecutionPayloadV1 → Call String Bytes

open Alloy

variable [Alloy]

/-- `create_test_transaction`. -/
def createTestTransaction (signer : LocalSigner) (callee : EthAddress) (value : Nat)
    (nonce : UInt64) : Call String (TransactionSigned EthSignature) := do
  let tx : TxEip1559 :=
    { chainId := 1
      nonce
      maxPriorityFeePerGas := 1000000000
      maxFeePerGas := 2000000000
      gasLimit := 21000
      callee
      value
      input := []
      accessList := [] }
  let signature ← signHash signer (signatureHash tx)
  return ⟨tx, signature⟩

/-- `create_test_block`. -/
def createTestBlock (transactions : List (TransactionSigned EthSignature)) :
    TestBlock EthSignature where
  header :=
    { parentHash := .ofBytes 32 []
      ommersHash := .ofBytes 32 []
      beneficiary := .ofBytes 20 []
      stateRoot := .ofBytes 32 []
      transactionsRoot := .ofBytes 32 []
      receiptsRoot := .ofBytes 32 []
      logsBloom := .ofBytes 256 []
      difficulty := 0
      number := 0
      gasLimit := 1000000000
      gasUsed := 0
      timestamp := 1234567890
      extraData := []
      mixHash := .ofBytes 32 []
      nonce := .ofBytes 8 []
      baseFeePerGas := some 1000000000
      withdrawalsRoot := none
      blobGasUsed := none
      excessBlobGas := none
      parentBeaconBlockRoot := none
      requestsHash := none }
  transactions

/-! ## Sorting -/

/-- The order of `sort_by_key`. -/
def ByNonce (a b : TransactionSigned EthSignature) : Prop :=
  a.transaction.nonce ≤ b.transaction.nonce

instance : DecidableRel (α := TransactionSigned EthSignature) ByNonce := fun a b =>
  inferInstanceAs (Decidable (a.transaction.nonce ≤ b.transaction.nonce))

instance : Std.Total (α := TransactionSigned EthSignature) ByNonce where
  total a b := UInt64.le_total a.transaction.nonce b.transaction.nonce

instance : IsTrans (TransactionSigned EthSignature) ByNonce where
  trans _ _ _ := UInt64.le_trans

/-! ## A block -/

section Block

variable (signer : LocalSigner) (recipient : EthAddress)

/-- What a task makes of the nonce that it has got, by `expect`. -/
def blockTransaction (nonce : Nat) : Call String (TransactionSigned EthSignature) :=
  unwrap (createTestTransaction signer recipient 10000000000000000
    (UInt64.ofNat nonce)).toOption

/-- The block of the transactions that the tasks have made, in the order of the tasks. -/
def collectedBlock (nonces : List Nat) : Call String Bytes := do
  let txs ← nonces.mapM (blockTransaction signer recipient)
  toVec (fromBlockSlow (createTestBlock (txs.insertionSort ByNonce)))

/-- The block that one task makes. -/
def sequentialBlock (nonces : List Nat) : Call String Bytes := do
  let txs ← nonces.mapM (blockTransaction signer recipient)
  toVec (fromBlockSlow (createTestBlock txs))

/-- The blocks that have been written, and the counter, after each turn of the loop. -/
inductive Generated (txsPerBlock : Nat) : List Bytes → Nat → Prop where
  | start : Generated txsPerBlock [] 0
  | block {payloads : List Bytes} {counter : Nat} {bytes : Bytes}
      {steps : List (Tickets (Fin txsPerBlock) × Fin txsPerBlock)}
      {s : Tickets (Fin txsPerBlock)} :
      Generated txsPerBlock payloads counter →
      Run (tickets (Fin txsPerBlock) (2 ^ 64) counter) steps s →
      s.Finished (List.finRange txsPerBlock) →
      collectedBlock signer recipient (s.collect (List.finRange txsPerBlock)) = .ok bytes →
      Generated txsPerBlock (payloads ++ [bytes]) s.counter

/-- A run of `generate_test_blocks` that returns, and the file that it leaves. -/
def GeneratesFile (txsPerBlock numBlocks : Nat) (file : Bytes) : Prop :=
  ∃ payloads counter, Generated signer recipient txsPerBlock payloads counter ∧
    payloads.length = numBlocks ∧ file = generateTestBlocks payloads

variable {signer recipient} {nonces nonces' : List Nat} {bytes : Bytes} {n : Nat}
  {tx : TransactionSigned EthSignature}

/-- The transaction has the nonce that the task has got. -/
theorem nonce_of_blockTransaction (h : blockTransaction signer recipient n = .ok tx) :
    tx.transaction.nonce = UInt64.ofNat n := by
  rw [blockTransaction, unwrap_eq_ok] at h
  cases htx : createTestTransaction signer recipient 10000000000000000 (UInt64.ofNat n) with
  | error e =>
      rw [htx] at h
      cases h
  | ok tx' =>
      rw [htx] at h
      obtain rfl := Option.some.inj h
      rw [createTestTransaction, call_bind_eq_ok] at htx
      obtain ⟨signature, -, htx⟩ := htx
      rw [← Except.ok.inj htx]

/-- Transactions with the same nonce are the same. -/
theorem blockTransaction_unique {n' : Nat} {tx' : TransactionSigned EthSignature}
    (h : blockTransaction signer recipient n = .ok tx)
    (h' : blockTransaction signer recipient n' = .ok tx')
    (hnonce : tx.transaction.nonce = tx'.transaction.nonce) : tx = tx' := by
  rw [nonce_of_blockTransaction h, nonce_of_blockTransaction h'] at hnonce
  rw [blockTransaction, hnonce, ← blockTransaction, h'] at h
  exact (Except.ok.inj h).symm

/-- The nonces of the transactions. -/
theorem map_nonce {txs : List (TransactionSigned EthSignature)}
    (htxs : List.Forall₂ (fun n tx => blockTransaction signer recipient n = .ok tx) nonces txs) :
    txs.map (·.transaction.nonce) = nonces.map UInt64.ofNat := by
  refine (List.forall₂_eq_eq_eq ▸ ?_ : _ = _).symm
  rw [List.forall₂_map_left_iff, List.forall₂_map_right_iff]
  exact htxs.imp fun n tx h => (nonce_of_blockTransaction h).symm

/-- Of sorted nonces, the transactions are sorted. -/
theorem pairwise_byNonce {txs : List (TransactionSigned EthSignature)}
    (hsorted : nonces.Pairwise (· ≤ ·)) (hlt : ∀ n ∈ nonces, n < 2 ^ 64)
    (htxs : List.Forall₂ (fun n tx => blockTransaction signer recipient n = .ok tx) nonces txs) :
    txs.Pairwise ByNonce := by
  suffices hmap : (txs.map (·.transaction.nonce)).Pairwise (· ≤ ·) by
    rw [List.pairwise_map] at hmap
    exact hmap
  rw [map_nonce htxs, List.pairwise_map]
  refine hsorted.imp_of_mem fun {n n'} hn hn' hle => ?_
  rw [UInt64.le_iff_toNat_le, UInt64.toNat_ofNat_of_lt' (hlt n hn),
    UInt64.toNat_ofNat_of_lt' (hlt n' hn')]
  exact hle

/-- **Sorting undoes the order of the tasks.** -/
theorem insertionSort_byNonce {txs txs' : List (TransactionSigned EthSignature)}
    (hperm : txs.Perm txs') (hsorted : nonces.Pairwise (· ≤ ·)) (hlt : ∀ n ∈ nonces, n < 2 ^ 64)
    (htxs : List.Forall₂ (fun n tx => blockTransaction signer recipient n = .ok tx)
      nonces txs') :
    txs.insertionSort ByNonce = txs' := by
  have hmade : ∀ tx ∈ txs', ∃ n, blockTransaction signer recipient n = .ok tx :=
    forall_mem_of_mapM (fun n tx h => ⟨n, h⟩) (mapM_eq_ok.mpr htxs)
  have hsame := (List.perm_insertionSort ByNonce txs).trans hperm
  refine List.Perm.eq_of_pairwise (fun tx tx' htx htx' hle hge => ?_)
    (List.pairwise_insertionSort ByNonce txs) (pairwise_byNonce hsorted hlt htxs) hsame
  obtain ⟨n, hn⟩ := hmade tx (hsame.mem_iff.mp htx)
  obtain ⟨n', hn'⟩ := hmade tx' htx'
  exact blockTransaction_unique hn hn' (UInt64.le_antisymm hle hge)

/-- The tasks make the block that one task makes. -/
theorem collectedBlock_eq_ok (hperm : nonces.Perm nonces') (hsorted : nonces'.Pairwise (· ≤ ·))
    (hlt : ∀ n ∈ nonces', n < 2 ^ 64) :
    collectedBlock signer recipient nonces = .ok bytes ↔
      sequentialBlock signer recipient nonces' = .ok bytes := by
  rw [collectedBlock, sequentialBlock, call_bind_eq_ok, call_bind_eq_ok]
  constructor
  · rintro ⟨txs, htxs, hbytes⟩
    obtain ⟨txs', htxs', hsame⟩ := List.perm_comp_forall₂ hperm.symm (mapM_eq_ok.mp htxs)
    rw [insertionSort_byNonce hsame.symm hsorted hlt htxs'] at hbytes
    exact ⟨txs', mapM_eq_ok.mpr htxs', hbytes⟩
  · rintro ⟨txs', htxs', hbytes⟩
    obtain ⟨txs, htxs, hsame⟩ := List.perm_comp_forall₂ hperm (mapM_eq_ok.mp htxs')
    rw [← insertionSort_byNonce hsame hsorted hlt (mapM_eq_ok.mp htxs')] at hbytes
    exact ⟨txs, mapM_eq_ok.mpr htxs, hbytes⟩

/-! ## The blocks of a file -/

/-- **Whatever the scheduler does**, the tasks make the block of its nonces, in order. -/
theorem collectedBlock_of_run {txsPerBlock k : Nat}
    {steps : List (Tickets (Fin txsPerBlock) × Fin txsPerBlock)}
    {s : Tickets (Fin txsPerBlock)}
    (hrun : Run (tickets (Fin txsPerBlock) (2 ^ 64) (k * txsPerBlock % 2 ^ 64)) steps s)
    (hfinished : s.Finished (List.finRange txsPerBlock)) :
    (collectedBlock signer recipient (s.collect (List.finRange txsPerBlock)) = .ok bytes ↔
      sequentialBlock signer recipient (blockNonces txsPerBlock k) = .ok bytes) ∧
      s.counter = (k + 1) * txsPerBlock % 2 ^ 64 := by
  have hfirst : k * txsPerBlock % 2 ^ 64 < 2 ^ 64 := Nat.mod_lt _ (by decide)
  have hperm := hrun.tickets_perm hfirst (List.nodup_finRange _) List.mem_finRange hfinished
  have hcounter := hrun.tickets_counter hfirst (List.nodup_finRange _) List.mem_finRange hfinished
  rw [List.length_finRange, numbers_mod] at hperm
  rw [List.length_finRange, Nat.mod_add_mod, ← Nat.succ_mul] at hcounter
  refine ⟨collectedBlock_eq_ok ?_ (pairwise_blockNonces _ _) fun n => lt_of_mem_blockNonces,
    hcounter⟩
  exact hperm.trans (List.perm_insertionSort (· ≤ ·) _).symm

/-- Each block is the one that one task makes of its nonces. -/
def InOrder (signer : LocalSigner) (recipient : EthAddress) (txsPerBlock : Nat)
    (payloads : List Bytes) : Prop :=
  ∀ k (h : k < payloads.length),
    sequentialBlock signer recipient (blockNonces txsPerBlock k) = .ok payloads[k]

variable {txsPerBlock numBlocks counter : Nat} {payloads : List Bytes} {file : Bytes}

theorem inOrder_concat : InOrder signer recipient txsPerBlock (payloads ++ [bytes]) ↔
    InOrder signer recipient txsPerBlock payloads ∧
      sequentialBlock signer recipient (blockNonces txsPerBlock payloads.length) = .ok bytes := by
  constructor
  · intro h
    refine ⟨fun k hk => ?_, ?_⟩
    · have hblock := h k (by rw [List.length_append]; omega)
      rwa [List.getElem_append_left hk] at hblock
    · have hblock := h payloads.length (by rw [List.length_append, List.length_singleton]; omega)
      rwa [List.getElem_concat_length rfl] at hblock
  · rintro ⟨hpayloads, hbytes⟩ k hk
    rw [List.length_append, List.length_singleton] at hk
    rcases Nat.lt_succ_iff_lt_or_eq.mp hk with hlt | rfl
    · rw [List.getElem_append_left hlt]
      exact hpayloads k hlt
    · rw [List.getElem_concat_length rfl]
      exact hbytes

/-- What a turn of the loop makes of a counter that is where the block begins. -/
theorem Generated.inOrder (h : Generated signer recipient txsPerBlock payloads counter) :
    InOrder signer recipient txsPerBlock payloads ∧
      counter = payloads.length * txsPerBlock % 2 ^ 64 := by
  induction h with
  | start =>
      refine ⟨fun k hk => absurd hk (Nat.not_lt_zero k), ?_⟩
      rw [List.length_nil, Nat.zero_mul, Nat.zero_mod]
  | block _ hrun hfinished hbytes ih =>
      obtain ⟨hpayloads, rfl⟩ := ih
      obtain ⟨hsame, hcounter⟩ := collectedBlock_of_run hrun hfinished
      refine ⟨inOrder_concat.mpr ⟨hpayloads, hsame.mp hbytes⟩, ?_⟩
      rw [hcounter, List.length_append, List.length_singleton]

/-- The tasks can always draw their nonces. -/
theorem generated_of_inOrder (h : InOrder signer recipient txsPerBlock payloads) :
    Generated signer recipient txsPerBlock payloads (payloads.length * txsPerBlock % 2 ^ 64) := by
  induction payloads using List.reverseRecOn with
  | nil =>
      rw [List.length_nil, Nat.zero_mul, Nat.zero_mod]
      exact .start
  | append_singleton payloads bytes ih =>
      obtain ⟨hpayloads, hbytes⟩ := inOrder_concat.mp h
      obtain ⟨steps, s, hrun, hfinished⟩ := exists_finished
        (Nat.mod_lt (payloads.length * txsPerBlock) (by decide : 0 < 2 ^ 64))
        (List.nodup_finRange txsPerBlock)
      obtain ⟨hsame, hcounter⟩ := collectedBlock_of_run hrun hfinished
      rw [List.length_append, List.length_singleton, ← hcounter]
      exact .block (ih hpayloads) hrun hfinished (hsame.mpr hbytes)

/-- **The file does not depend on the scheduler.**  It is written if and only if one task
writes it that makes the transactions in the order of their nonces.  The nonces of each block
go on where the block before ended, as long as there are enough of them, and a node reads back
the blocks that have been written, if their lengths fit. -/
theorem generateTestBlocks_in_every_schedule :
    (GeneratesFile signer recipient txsPerBlock numBlocks file ↔
      ∃ payloads, InOrder signer recipient txsPerBlock payloads ∧
        payloads.length = numBlocks ∧ file = generateTestBlocks payloads) ∧
    (numBlocks * txsPerBlock ≤ 2 ^ 64 → ∀ k < numBlocks,
      blockNonces txsPerBlock k = List.range' (k * txsPerBlock) txsPerBlock) ∧
    ∀ payloads, file = generateTestBlocks payloads → (∀ b ∈ payloads, b.length < 2 ^ 32) →
      ∀ k, BlockProposer.answer ⟨file⟩ k = .ok payloads[k]? := by
  refine ⟨⟨?_, ?_⟩, fun hfits k hk => ?_, ?_⟩
  · rintro ⟨payloads, counter, hgenerated, hlength, hfile⟩
    exact ⟨payloads, hgenerated.inOrder.1, hlength, hfile⟩
  · rintro ⟨payloads, hpayloads, hlength, hfile⟩
    exact ⟨payloads, _, generated_of_inOrder hpayloads, hlength, hfile⟩
  · exact blockNonces_eq (Nat.le_trans (Nat.mul_le_mul_right _ hk) hfits)
  · rintro payloads rfl hsmall
    exact answer_whole hsmall

end Block
end MalakethTurbo
