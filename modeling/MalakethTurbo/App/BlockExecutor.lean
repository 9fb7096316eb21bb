import MalakethTurbo.App.Execution
import MalakethTurbo.Data.ListEntry
import MalakethTurbo.Data.OrderedMap
import MalakethTurbo.Logic.Codec

/-!
# Executing a block

`BlockExecutor::next_block` reads a block, notes the balances of its signers, executes it,
appends it with what came out, and compares the balances.  Everything up to the commit
reads the database only, so an error on the way leaves it as it was.  Two things are not
covered by that.  The signers are recovered by `unwrap`, before anything has checked the
signatures; and the balances are compared after the commit, when an error no longer undoes
anything.

The function appends one block or leaves the database alone if and only if neither
happens: no transaction is reached whose signer cannot be recovered, and no block that
executes leaves a signer with more than it had (`nextBlock_all_or_nothing_iff`).
-/

namespace MalakethTurbo

open Wire (Bytes)
open MalakethTurbo.Action (read change lift perform)

/-! ## What the executor takes from its libraries -/

/-- An address of the execution layer. -/
abbrev EthAddress := FixedBytes 20

/-- The bytes of an address as numbers. -/
def EthAddress.order (address : EthAddress) : List ℕ := address.val.map UInt8.toNat

theorem EthAddress.order_injective : Function.Injective EthAddress.order := by
  intro a b h
  exact FixedBytes.val_injective (map_toNat_injective h)

instance : LinearOrder EthAddress := LinearOrder.lift' _ EthAddress.order_injective

/-- An account, of which the program reads the balance. -/
structure Account where
  balance : Nat

/-- The receipt of a transaction. -/
structure Receipt where
  success : Bool
  cumulativeGasUsed : UInt64

/-- A block with the signers of its transactions. -/
structure RecoveredBlock (β : Type) where
  block : β
  senders : List EthAddress

/-- The functions that `BlockExecutor` takes from its libraries, each of which returns a
result or the text of an error.  A write to the database is gathered in a provider and
takes effect when that is committed; `blocks` lists what has been appended so. -/
class Reth where
  Database : Type
  StateProvider : Type
  ProviderRw : Type
  ExecutionPayloadV1 : Type
  Block : Type
  Transaction : Type
  ExecutionResult : Type
  ExecutionOutcome : Type
  /-- An address as it is displayed. -/
  display : EthAddress → String
  fromSlice : Bytes → Except String ExecutionPayloadV1
  tryIntoBlock : ExecutionPayloadV1 → Except String Block
  number : Block → UInt64
  transactions : Block → List Transaction
  recoverSigner : Transaction → Option EthAddress
  latest : Database → Except String StateProvider
  basicAccount : StateProvider → EthAddress → Except String (Option Account)
  tryRecover : Block → Except String (RecoveredBlock Block)
  execute : StateProvider → RecoveredBlock Block → Except String ExecutionResult
  receipts : ExecutionResult → List Receipt
  outcome : ExecutionResult → UInt64 → ExecutionOutcome
  databaseProviderRw : Database → Except String ProviderRw
  appendBlocksWithState : ProviderRw → List (RecoveredBlock Block) → ExecutionOutcome →
    Except String ProviderRw
  commit : ProviderRw → Except String Database
  blocks : Database → List (RecoveredBlock Block × ExecutionOutcome)
  blocks_commit : ∀ {db provider appended blocks' result db'},
    databaseProviderRw db = .ok provider →
    appendBlocksWithState provider blocks' result = .ok appended → commit appended = .ok db' →
    blocks db' = blocks db ++ blocks'.map fun block => (block, result)

/-- The lines `next_block` prints. -/
inductive Printed where
  | executingBlock : UInt64 → Printed
  | transactionSigner : EthAddress → Printed
  | initialBalance : EthAddress → Nat → Printed
  | finalBalance : EthAddress → Nat → Printed
  deriving DecidableEq

/-- `map_err`, and the `?` that turns an error into a report. -/
def mapErr {α : Type} (f : String → String) : Except String α → Call String α
  | .ok a => .ok a
  | .error e => .error (.err (f e))

/-- The `?` on what a library returns. -/
def report {α : Type} : Except String α → Call String α := mapErr id

section BlockExecutor

variable [Reth]

/-- What `next_block` does with the database, printing on its way. -/
abbrev Execute := Action Reth.Database Printed (Stop String)

/-! ## The function -/

/-- `BlockExecutor::get_balance`. -/
def getBalance (db : Reth.Database) (address : Address) : Call String (Option Nat) := do
  let stateProvider ← report (Reth.latest db)
  let account ← report (Reth.basicAccount stateProvider address.intoInner)
  pure (account.map Account.balance)

/-- `next_block`, its first part: the block. -/
def readBlockData (data : Bytes) : Call String Reth.Block := do
  let payload ← mapErr ("Failed to deserialize ExecutionPayloadV1: " ++ ·) (Reth.fromSlice data)
  mapErr ("Failed to convert ExecutionPayloadV1 to Block: " ++ ·) (Reth.tryIntoBlock payload)

/-- Its second part: the lines before the balances. -/
def announce (block : Reth.Block) : Execute Unit := do
  perform (.executingBlock (Reth.number block))
  match Reth.transactions block with
  | [] => pure ()
  | tx :: _ => do
      let signer ← lift (unwrap (Reth.recoverSigner tx))
      perform (.transactionSigner signer)

/-- Its third part: the balances of the signers, each signer the first time it is met.  A
signer without an account is looked for again. -/
def storeInitialBalances : List Reth.Transaction → OrderedMap EthAddress Nat →
    Execute (OrderedMap EthAddress Nat)
  | [], balances => pure balances
  | tx :: txs, balances => do
      let signer ← lift (unwrap (Reth.recoverSigner tx))
      if (balances.get? signer).isSome then storeInitialBalances txs balances
      else do
        let db ← read
        let balance? ← lift (getBalance db ⟨signer⟩)
        match balance? with
        | none => storeInitialBalances txs balances
        | some balance => do
            perform (.initialBalance signer balance)
            storeInitialBalances txs (balances.insert signer balance)

/-- The checks of the receipts. -/
def checkReceipts (receipts : List Receipt) (expected : Nat) : Call String Unit :=
  let got := receipts.length
  if got ≠ expected then
    .error (.err s!"Receipt count mismatch: got {got} but expected {expected}")
  else
    match receipts.find? fun receipt => !receipt.success with
    | some receipt =>
        let gas := receipt.cumulativeGasUsed
        .error (.err s!"Transaction failed: cumulative_gas_used={gas}")
    | none => .ok ()

/-- Its fourth part, from reading the latest state to the commit: the database that the
block leaves. -/
def executeAndAppend (db : Reth.Database) (block : Reth.Block) : Call String Reth.Database := do
  let stateProvider ← report (Reth.latest db)
  let recoveredBlock ← report (Reth.tryRecover block)
  let result ← report (Reth.execute stateProvider recoveredBlock)
  checkReceipts (Reth.receipts result) (Reth.transactions block).length
  let providerRw ← report (Reth.databaseProviderRw db)
  let executionOutcome := Reth.outcome result (Reth.number recoveredBlock.block)
  let appended ← report (Reth.appendBlocksWithState providerRw [recoveredBlock] executionOutcome)
  report (Reth.commit appended)

/-- The text of the error of a balance that has grown. -/
def unexpectedIncrease (signer : EthAddress) (initial final : Nat) : String :=
  let address := Reth.display signer
  s!"Unexpected balance increase for {address}: {initial} -> {final}"

/-- The comparison of the balances, in the order of the addresses. -/
def validateFinalState : List (EthAddress × Nat) → Execute Unit
  | [] => pure ()
  | (signer, initial) :: balances => do
      let db ← read
      let balance? ← lift (getBalance db ⟨signer⟩)
      match balance? with
      | none => validateFinalState balances
      | some final => do
          perform (.finalBalance signer final)
          if initial < final then lift (.error (.err (unexpectedIncrease signer initial final)))
          else validateFinalState balances

/-- Its last part: the block is executed and appended, and then the balances are compared. -/
def settle (block : Reth.Block) (balances : OrderedMap EthAddress Nat) : Execute Unit := do
  let db ← read
  let db' ← lift (executeAndAppend db block)
  change fun _ => db'
  validateFinalState balances.entries

/-- `BlockExecutor::next_block`, its log apart. -/
def nextBlock (data : Bytes) : Execute Unit := do
  let block ← lift (readBlockData data)
  announce block
  let initialBalances ← storeInitialBalances (Reth.transactions block) OrderedMap.empty
  settle block initialBalances

/-! ## What does not panic -/

omit [Reth] in
@[simp] theorem returns_mapErr {α : Type} (f : String → String) (x : Except String α) :
    Returns (mapErr f x) := by
  cases x with
  | ok a => exact returns_ok a
  | error e => exact returns_err (f e)

omit [Reth] in
theorem returns_report {α : Type} (x : Except String α) : Returns (report x) := returns_mapErr id x

theorem returns_getBalance (db : Reth.Database) (address : Address) :
    Returns (getBalance db address) :=
  (returns_report _).bind fun _ => (returns_report _).bind fun _ => returns_ok _

theorem returns_readBlockData (data : Bytes) : Returns (readBlockData data) :=
  (returns_mapErr _ _).bind fun _ => returns_mapErr _ _

omit [Reth] in
theorem returns_checkReceipts (receipts : List Receipt) (expected : Nat) :
    Returns (checkReceipts receipts expected) := by
  rw [checkReceipts]
  by_cases hlength : receipts.length ≠ expected
  · rw [if_pos hlength]
    exact returns_err _
  · rw [if_neg hlength]
    cases receipts.find? fun receipt => !receipt.success with
    | none => exact returns_ok ()
    | some receipt => exact returns_err _

theorem returns_executeAndAppend (db : Reth.Database) (block : Reth.Block) :
    Returns (executeAndAppend db block) := by
  refine (returns_report _).bind fun _ => (returns_report _).bind fun _ => ?_
  refine (returns_report _).bind fun _ => (returns_checkReceipts _ _).bind fun _ => ?_
  exact (returns_report _).bind fun _ => (returns_report _).bind fun _ => returns_report _

/-! ## The balances before the block -/

/-- The signer of a transaction can be recovered, and its balance be read. -/
def Readable (db : Reth.Database) (tx : Reth.Transaction) : Prop :=
  ∃ signer balance?, Reth.recoverSigner tx = some signer ∧
    getBalance db ⟨signer⟩ = .ok balance?

/-- A signer of one of the transactions. -/
def Signs (txs : List Reth.Transaction) (signer : EthAddress) : Prop :=
  ∃ tx ∈ txs, Reth.recoverSigner tx = some signer

/-- The balances of the signers of the transactions, of those that have an account. -/
def Noted (db : Reth.Database) (txs : List Reth.Transaction)
    (balances : OrderedMap EthAddress Nat) : Prop :=
  ∀ signer balance, balances.get? signer = some balance ↔
    Signs txs signer ∧ getBalance db ⟨signer⟩ = .ok (some balance)

section Initial

variable {db : Reth.Database} {before txs : List Reth.Transaction} {tx : Reth.Transaction}
  {balances : OrderedMap EthAddress Nat}

theorem signs_concat {signer : EthAddress} :
    Signs (before ++ [tx]) signer ↔ Signs before signer ∨ Reth.recoverSigner tx = some signer := by
  constructor
  · rintro ⟨t, ht, hsigner⟩
    rcases List.mem_append.mp ht with ht | ht
    · exact Or.inl ⟨t, ht, hsigner⟩
    · rw [List.mem_singleton.mp ht] at hsigner
      exact Or.inr hsigner
  · rintro (⟨t, ht, hsigner⟩ | hsigner)
    · exact ⟨t, List.mem_append_left _ ht, hsigner⟩
    · exact ⟨tx, List.mem_append_right _ List.mem_cons_self, hsigner⟩

theorem noted_empty (db : Reth.Database) : Noted db [] OrderedMap.empty := by
  intro signer balance
  constructor
  · intro h
    cases h
  · rintro ⟨⟨t, ht, -⟩, -⟩
    cases ht

/-- Nothing to note: the signer has been met before, or it has no account. -/
theorem Noted.concat (hnoted : Noted db before balances)
    (h : ∀ signer balance, Reth.recoverSigner tx = some signer →
      getBalance db ⟨signer⟩ = .ok (some balance) → Signs before signer) :
    Noted db (before ++ [tx]) balances := by
  intro signer balance
  rw [hnoted signer balance, signs_concat]
  refine and_congr_left fun hbalance => ⟨Or.inl, ?_⟩
  rintro (hsigns | hsigner)
  · exact hsigns
  · exact h signer balance hsigner hbalance

/-- A signer with an account. -/
theorem Noted.concat_insert (hnoted : Noted db before balances) {signer : EthAddress}
    {balance : Nat} (hsigner : Reth.recoverSigner tx = some signer)
    (hbalance : getBalance db ⟨signer⟩ = .ok (some balance)) :
    Noted db (before ++ [tx]) (balances.insert signer balance) := by
  intro s b
  rw [OrderedMap.get?_insert, signs_concat]
  by_cases hs : s = signer
  · rw [if_pos hs, hs, hbalance]
    constructor
    · intro hb
      rw [hb]
      exact ⟨Or.inr hsigner, rfl⟩
    · rintro ⟨-, hb⟩
      exact Except.ok.inj hb
  · rw [if_neg hs, hnoted s b]
    refine and_congr_left fun _ => ⟨Or.inl, ?_⟩
    rintro (hsigns | hsigns)
    · exact hsigns
    · exact absurd (Option.some.inj (hsigns.symm.trans hsigner)) hs

/-- A transaction whose signer's balance is read: there is nothing to note, or the balance is
printed and noted. -/
theorem storeInitialBalances_step (hnoted : Noted db before balances) (hread : Readable db tx) :
    (Noted db (before ++ [tx]) balances ∧
      ∀ txs, storeInitialBalances (tx :: txs) balances db = storeInitialBalances txs balances db) ∨
    ∃ signer balance, balances.get? signer = none ∧
      Noted db (before ++ [tx]) (balances.insert signer balance) ∧
      ∀ txs, storeInitialBalances (tx :: txs) balances db =
        Action.after [.initialBalance signer balance]
          (storeInitialBalances txs (balances.insert signer balance) db) := by
  obtain ⟨signer, balance?, hsigner, hbalance⟩ := hread
  have hsame : ∀ s, Reth.recoverSigner tx = some s → s = signer := fun s hs =>
    Option.some.inj (hs.symm.trans hsigner)
  cases hknown : balances.get? signer with
  | some balance =>
      have hmet : Signs before signer := ((hnoted signer balance).mp hknown).1
      refine Or.inl ⟨hnoted.concat fun s _ hs _ => hsame s hs ▸ hmet, fun txs => ?_⟩
      rw [storeInitialBalances, hsigner, unwrap_some, Action.lift_ok_bind, hknown,
        if_pos Option.isSome_some]
  | none =>
      cases balance? with
      | none =>
          refine Or.inl ⟨hnoted.concat fun s b hs hb => ?_, fun txs => ?_⟩
          · rw [hsame s hs, hbalance] at hb
            cases hb
          · rw [storeInitialBalances, hsigner, unwrap_some, Action.lift_ok_bind, hknown,
              if_neg (by simp), Action.read_bind, hbalance, Action.lift_ok_bind]
      | some balance =>
          refine Or.inr ⟨signer, balance, hknown, hnoted.concat_insert hsigner hbalance,
            fun txs => ?_⟩
          rw [storeInitialBalances, hsigner, unwrap_some, Action.lift_ok_bind, hknown,
            if_neg (by simp), Action.read_bind, hbalance, Action.lift_ok_bind]
          exact Action.perform_bind _ _ db

theorem storeInitialBalances_cons (hnoted : Noted db before balances)
    (hread : Readable db tx) :
    ∃ balances' es, Noted db (before ++ [tx]) balances' ∧
      ∀ txs, storeInitialBalances (tx :: txs) balances db =
        Action.after es (storeInitialBalances txs balances' db) := by
  rcases storeInitialBalances_step hnoted hread with
    ⟨hsame, hrun⟩ | ⟨signer, balance, -, hinsert, hrun⟩
  · exact ⟨balances, [], hsame, hrun⟩
  · exact ⟨balances.insert signer balance, _, hinsert, hrun⟩

/-- One whose signer's balance is not read stops the function, in a panic if it is the signer
that is not recovered. -/
theorem storeInitialBalances_stops (hnoted : Noted db before balances)
    (hread : ¬ Readable db tx) (txs : List Reth.Transaction) :
    ∃ stop, storeInitialBalances (tx :: txs) balances db = ⟨.error stop, db, []⟩ ∧
      (stop = .panic ↔ Reth.recoverSigner tx = none) := by
  cases hsigner : Reth.recoverSigner tx with
  | none =>
      refine ⟨.panic, ?_, iff_of_true rfl rfl⟩
      rw [storeInitialBalances, hsigner, unwrap_none, Action.lift_error_bind]
  | some signer =>
      cases hbalance : getBalance db ⟨signer⟩ with
      | ok balance? => exact absurd ⟨signer, balance?, hsigner, hbalance⟩ hread
      | error stop =>
          have hunknown : ¬ (balances.get? signer).isSome := by
            intro hknown
            obtain ⟨balance, hget⟩ := Option.isSome_iff_exists.mp hknown
            rw [((hnoted signer balance).mp hget).2] at hbalance
            cases hbalance
          have hreturns := returns_getBalance db ⟨signer⟩
          rw [hbalance] at hreturns
          refine ⟨stop, ?_, iff_of_false (fun h => hreturns (congrArg Except.error h)) nofun⟩
          rw [storeInitialBalances, hsigner, unwrap_some, Action.lift_ok_bind, if_neg hunknown,
            Action.read_bind, hbalance, Action.lift_error_bind]

/-- By induction on the transactions still to come. -/
theorem storeInitialBalances_run (hnoted : Noted db before balances)
    (hread : ∀ tx ∈ txs, Readable db tx) (rest : List Reth.Transaction) :
    ∃ balances' es, Noted db (before ++ txs) balances' ∧
      storeInitialBalances (txs ++ rest) balances db =
        Action.after es (storeInitialBalances rest balances' db) := by
  induction txs generalizing before balances with
  | nil =>
      refine ⟨balances, [], ?_, ?_⟩
      · rw [List.append_nil]
        exact hnoted
      · rw [Action.after_nil, List.nil_append]
  | cons tx txs ih =>
      rw [List.forall_mem_cons] at hread
      obtain ⟨balances', es, hnoted', hrun⟩ := storeInitialBalances_cons hnoted hread.1
      obtain ⟨balances'', es', hnoted'', hrun'⟩ := ih hnoted' hread.2
      refine ⟨balances'', es ++ es', ?_, ?_⟩
      · rw [List.append_cons]
        exact hnoted''
      · rw [List.cons_append, hrun, hrun', Action.after_after]

end Initial

/-! ## The balances after the block -/

/-- The balance of a signer can be read, and it is not above a bound. -/
def NotAbove (db : Reth.Database) (signer : EthAddress) (bound : Nat) : Prop :=
  ∃ balance?, getBalance db ⟨signer⟩ = .ok balance? ∧ ∀ balance ∈ balance?, balance ≤ bound

theorem notAbove_iff {db : Reth.Database} {signer : EthAddress} {balance? : Option Nat}
    {bound : Nat} (h : getBalance db ⟨signer⟩ = .ok balance?) :
    NotAbove db signer bound ↔ ∀ balance ∈ balance?, balance ≤ bound := by
  constructor
  · rintro ⟨read, hread, hle⟩
    rw [Except.ok.inj (h.symm.trans hread)]
    exact hle
  · intro hle
    exact ⟨balance?, h, hle⟩

/-- One balance is compared: it is not read, there is none, or it is printed and the comparison
goes on if it has not grown. -/
theorem validateFinalState_cons (db : Reth.Database) (signer : EthAddress) (initial : Nat)
    (balances : List (EthAddress × Nat)) :
    (∃ stop, getBalance db ⟨signer⟩ = .error stop ∧
      validateFinalState ((signer, initial) :: balances) db = ⟨.error stop, db, []⟩) ∨
    (getBalance db ⟨signer⟩ = .ok none ∧
      validateFinalState ((signer, initial) :: balances) db = validateFinalState balances db) ∨
    ∃ final, getBalance db ⟨signer⟩ = .ok (some final) ∧
      validateFinalState ((signer, initial) :: balances) db =
        Action.after [.finalBalance signer final]
          (if initial < final then
            ⟨.error (.err (unexpectedIncrease signer initial final)), db, []⟩
          else validateFinalState balances db) := by
  rw [validateFinalState, Action.read_bind]
  cases hbalance : getBalance db ⟨signer⟩ with
  | error stop => exact Or.inl ⟨stop, rfl, rfl⟩
  | ok balance? =>
      rw [Action.lift_ok_bind]
      cases balance? with
      | none => exact Or.inr (Or.inl ⟨rfl, rfl⟩)
      | some final =>
          refine Or.inr (Or.inr ⟨final, rfl, (Action.perform_bind _ _ db).trans ?_⟩)
          by_cases hgrown : initial < final
          · rw [if_pos hgrown, if_pos hgrown]
            rfl
          · rw [if_neg hgrown, if_neg hgrown]

/-- The comparison ends well exactly if no balance has grown, and it changes nothing. -/
theorem validateFinalState_run (db : Reth.Database) (balances : List (EthAddress × Nat)) :
    ∃ result es, validateFinalState balances db = ⟨result, db, es⟩ ∧
      (result = .ok () ↔ ∀ e ∈ balances, NotAbove db e.1 e.2) := by
  induction balances with
  | nil => exact ⟨.ok (), [], rfl, iff_of_true rfl nofun⟩
  | cons e balances ih =>
      obtain ⟨signer, initial⟩ := e
      obtain ⟨result, es, hrun, hresult⟩ := ih
      rw [List.forall_mem_cons]
      rcases validateFinalState_cons db signer initial balances with
        ⟨stop, hbalance, hcons⟩ | ⟨hbalance, hcons⟩ | ⟨final, hbalance, hcons⟩
      · refine ⟨.error stop, [], hcons, iff_of_false nofun ?_⟩
        rintro ⟨⟨balance?, hread, -⟩, -⟩
        rw [hbalance] at hread
        cases hread
      · refine ⟨result, es, hcons.trans hrun, ?_⟩
        rw [notAbove_iff hbalance, hresult]
        exact (and_iff_right nofun).symm
      · have hmem : (∀ x ∈ some final, x ≤ initial) ↔ final ≤ initial := by simp
        rw [notAbove_iff hbalance, hmem]
        by_cases hgrown : initial < final
        · rw [if_pos hgrown] at hcons
          exact ⟨_, _, hcons, iff_of_false nofun fun h => absurd h.1 (by omega)⟩
        · rw [if_neg hgrown, hrun] at hcons
          refine ⟨result, _, hcons, ?_⟩
          rw [hresult]
          exact (and_iff_right (by omega)).symm

/-! ## The block as one step of the database -/

/-- The executor that the tasks of a node run, made from the libraries. -/
instance : Executor where
  ChainState := Reth.Database
  Block := RecoveredBlock Reth.Block
  Result := Reth.ExecutionResult
  parse data :=
    match readBlockData data with
    | .ok block => some ⟨block, []⟩
    | .error _ => none
  transactions recovered := (Reth.transactions recovered.block).length
  recover recovered := (Reth.tryRecover recovered.block).toOption
  execute db recovered := do
    let stateProvider ← (Reth.latest db).toOption
    (Reth.execute stateProvider recovered).toOption
  receipts result := (Reth.receipts result).map Receipt.success
  append db recovered result := do
    let providerRw ← (Reth.databaseProviderRw db).toOption
    let executionOutcome := Reth.outcome result (Reth.number recovered.block)
    let appended ←
      (Reth.appendBlocksWithState providerRw [recovered] executionOutcome).toOption
    (Reth.commit appended).toOption

section Steps

variable {db db' : Reth.Database} {block : Reth.Block} {data : Bytes}

/-- The block executes on the latest state, and every transaction has a receipt of success. -/
def Executes (db : Reth.Database) (block : Reth.Block) (recovered : RecoveredBlock Reth.Block)
    (result : Reth.ExecutionResult) : Prop :=
  ∃ stateProvider, Reth.latest db = .ok stateProvider ∧ Reth.tryRecover block = .ok recovered ∧
    Reth.execute stateProvider recovered = .ok result ∧
    (Reth.receipts result).length = (Reth.transactions block).length ∧
    ∀ receipt ∈ Reth.receipts result, receipt.success = true

/-- The block is appended with what came out, and committed. -/
def Commits (db : Reth.Database) (recovered : RecoveredBlock Reth.Block)
    (result : Reth.ExecutionResult) (db' : Reth.Database) : Prop :=
  ∃ providerRw appended, Reth.databaseProviderRw db = .ok providerRw ∧
    Reth.appendBlocksWithState providerRw [recovered]
      (Reth.outcome result (Reth.number recovered.block)) = .ok appended ∧
    Reth.commit appended = .ok db'

omit [Reth] in
theorem report_eq_ok_iff {α : Type} {x : Except String α} {a : α} :
    report x = .ok a ↔ x = .ok a := by
  cases x with
  | ok b => simp [report, mapErr]
  | error e => simp [report, mapErr]

omit [Reth] in
theorem checkReceipts_eq_ok_iff {receipts : List Receipt} {expected : Nat} :
    checkReceipts receipts expected = .ok () ↔
      receipts.length = expected ∧ ∀ receipt ∈ receipts, receipt.success = true := by
  rw [checkReceipts]
  by_cases hlength : receipts.length = expected
  · rw [if_neg (not_not_intro hlength), and_iff_right hlength]
    cases hfailed : receipts.find? fun receipt => !receipt.success with
    | none =>
        refine iff_of_true rfl fun receipt hmem => ?_
        simpa using List.find?_eq_none.mp hfailed receipt hmem
    | some receipt =>
        refine iff_of_false nofun fun hall => ?_
        have hsuccess := hall receipt (List.mem_of_find?_eq_some hfailed)
        have hfail := List.find?_some hfailed
        rw [hsuccess] at hfail
        cases hfail
  · rw [if_pos hlength]
    exact iff_of_false nofun fun h => hlength h.1

/-- The fourth part of the function, as an execution and a commit. -/
theorem executeAndAppend_eq_ok_iff :
    executeAndAppend db block = .ok db' ↔
      ∃ recovered result, Executes db block recovered result ∧ Commits db recovered result db' := by
  simp only [executeAndAppend, call_bind_eq_ok, report_eq_ok_iff]
  constructor
  · rintro ⟨stateProvider, hlatest, recovered, hrecover, result, hexecute, ⟨⟩, hreceipts,
      providerRw, hprovider, appended, happend, hcommit⟩
    rw [checkReceipts_eq_ok_iff] at hreceipts
    exact ⟨recovered, result, ⟨stateProvider, hlatest, hrecover, hexecute, hreceipts⟩,
      providerRw, appended, hprovider, happend, hcommit⟩
  · rintro ⟨recovered, result, ⟨stateProvider, hlatest, hrecover, hexecute, hreceipts⟩,
      providerRw, appended, hprovider, happend, hcommit⟩
    rw [← checkReceipts_eq_ok_iff] at hreceipts
    exact ⟨stateProvider, hlatest, recovered, hrecover, result, hexecute, (), hreceipts,
      providerRw, hprovider, appended, happend, hcommit⟩

/-- A commit appends one block. -/
theorem Commits.blocks {recovered : RecoveredBlock Reth.Block} {result : Reth.ExecutionResult}
    (h : Commits db recovered result db') :
    Reth.blocks db' =
      Reth.blocks db ++ [(recovered, Reth.outcome result (Reth.number recovered.block))] := by
  obtain ⟨providerRw, appended, hprovider, happend, hcommit⟩ := h
  exact Reth.blocks_commit hprovider happend hcommit

omit [Reth] in
theorem toOption_eq_some_iff {α : Type} {x : Except String α} {a : α} :
    x.toOption = some a ↔ x = .ok a := by
  cases x with
  | ok b => simp [Except.toOption]
  | error e => simp [Except.toOption]

theorem parse_eq_some_iff {parsed : RecoveredBlock Reth.Block} :
    Executor.parse data = some parsed ↔
      ∃ block, readBlockData data = .ok block ∧ parsed = ⟨block, []⟩ := by
  show (match readBlockData data with
    | .ok block => some (⟨block, []⟩ : RecoveredBlock Reth.Block)
    | .error _ => none) = some parsed ↔ _
  cases readBlockData data with
  | error stop => simp
  | ok block => simp [eq_comm]

theorem execute_eq_some_iff {recovered : RecoveredBlock Reth.Block}
    {result : Reth.ExecutionResult} :
    Executor.execute db recovered = some result ↔
      ∃ stateProvider, Reth.latest db = .ok stateProvider ∧
        Reth.execute stateProvider recovered = .ok result := by
  show (do
    let stateProvider ← (Reth.latest db).toOption
    (Reth.execute stateProvider recovered).toOption) = some result ↔ _
  simp only [Option.bind_eq_bind, Option.bind_eq_some_iff, toOption_eq_some_iff]

omit [Reth] in
theorem checked_eq_some_iff {α : Type} {a b : α} {receipts : List Receipt} {expected : Nat} :
    (if (receipts.map Receipt.success).length ≠ expected then none
      else if (receipts.map Receipt.success).all id then some a else none) = some b ↔
      (receipts.length = expected ∧ ∀ receipt ∈ receipts, receipt.success = true) ∧ a = b := by
  rw [List.length_map, List.all_map]
  by_cases hlength : receipts.length = expected
  · rw [if_neg (not_not_intro hlength), and_iff_right hlength]
    by_cases hall : receipts.all (id ∘ Receipt.success) = true
    · rw [if_pos hall, Option.some_inj]
      exact (and_iff_right (List.all_eq_true.mp hall)).symm
    · rw [if_neg hall]
      exact iff_of_false nofun fun h => hall (List.all_eq_true.mpr h.1)
  · rw [if_pos hlength]
    exact iff_of_false nofun fun h => hlength h.1.1

/-- The block of a task executes. -/
theorem executeBlock_eq_some_iff {recovered : RecoveredBlock Reth.Block}
    {result : Reth.ExecutionResult} :
    executeBlock db data = some (recovered, result) ↔
      ∃ block, readBlockData data = .ok block ∧ Executes db block recovered result := by
  simp only [executeBlock, Option.bind_eq_bind, Option.bind_eq_some_iff]
  constructor
  · rintro ⟨parsed, hparse, recovered', hrecover, result', hexecute, hchecked⟩
    obtain ⟨block, hread, rfl⟩ := parse_eq_some_iff.mp hparse
    obtain ⟨stateProvider, hlatest, hexecuted⟩ := execute_eq_some_iff.mp hexecute
    obtain ⟨hreceipts, heq⟩ := checked_eq_some_iff.mp hchecked
    obtain ⟨rfl, rfl⟩ := Prod.mk.inj heq
    exact ⟨block, hread, stateProvider, hlatest, toOption_eq_some_iff.mp hrecover, hexecuted,
      hreceipts⟩
  · rintro ⟨block, hread, stateProvider, hlatest, hrecover, hexecute, hreceipts⟩
    exact ⟨⟨block, []⟩, parse_eq_some_iff.mpr ⟨block, hread, rfl⟩, recovered,
      toOption_eq_some_iff.mpr hrecover, result,
      execute_eq_some_iff.mpr ⟨stateProvider, hlatest, hexecute⟩,
      checked_eq_some_iff.mpr ⟨hreceipts, rfl⟩⟩

/-- The block of a task is appended. -/
theorem append_eq_some_iff {recovered : RecoveredBlock Reth.Block}
    {result : Reth.ExecutionResult} :
    Executor.append db recovered result = some db' ↔ Commits db recovered result db' := by
  show (do
    let providerRw ← (Reth.databaseProviderRw db).toOption
    let appended ← (Reth.appendBlocksWithState providerRw [recovered]
      (Reth.outcome result (Reth.number recovered.block))).toOption
    (Reth.commit appended).toOption) = some db' ↔ _
  simp only [Option.bind_eq_bind, Option.bind_eq_some_iff, toOption_eq_some_iff]
  constructor
  · rintro ⟨providerRw, hprovider, appended, happend, hcommit⟩
    exact ⟨providerRw, appended, hprovider, happend, hcommit⟩
  · rintro ⟨providerRw, appended, hprovider, happend, hcommit⟩
    exact ⟨providerRw, hprovider, appended, happend, hcommit⟩

/-- **What the function does to the database is a step of a task.** -/
theorem takes_iff :
    Execution.Takes db data db' ↔
      ∃ block, readBlockData data = .ok block ∧ executeAndAppend db block = .ok db' := by
  simp only [executeAndAppend_eq_ok_iff]
  constructor
  · rintro ⟨recovered, result, hexecute, happend⟩
    obtain ⟨block, hread, hexecutes⟩ := executeBlock_eq_some_iff.mp hexecute
    exact ⟨block, hread, recovered, result, hexecutes, append_eq_some_iff.mp happend⟩
  · rintro ⟨block, hread, recovered, result, hexecutes, hcommits⟩
    exact ⟨recovered, result, executeBlock_eq_some_iff.mpr ⟨block, hread, hexecutes⟩,
      append_eq_some_iff.mpr hcommits⟩

end Steps

/-! ## All or nothing -/

/-- One block has been appended, the one that was given, with what executing it gave. -/
def AppendsOne (data : Bytes) (db db' : Reth.Database) : Prop :=
  ∃ block recovered result, readBlockData data = .ok block ∧ Executes db block recovered result ∧
    Reth.blocks db' =
      Reth.blocks db ++ [(recovered, Reth.outcome result (Reth.number recovered.block))]

/-- The function succeeds and has appended one block, or it returns an error and has changed
nothing. -/
def AllOrNothing (data : Bytes) (db : Reth.Database) : Prop :=
  ((nextBlock data db).result = .ok () ∧ AppendsOne data db (nextBlock data db).state) ∨
    ((∃ e, (nextBlock data db).result = .error (.err e)) ∧ (nextBlock data db).state = db)

/-- The transactions of the block that is given. -/
def transactionsOf (data : Bytes) : List Reth.Transaction :=
  match readBlockData data with
  | .ok block => Reth.transactions block
  | .error _ => []

/-- When the function does what it should. -/
structure Sound (data : Bytes) (db : Reth.Database) : Prop where
  /-- No transaction is reached whose signer cannot be recovered. -/
  recoverable : ∀ before tx after, transactionsOf data = before ++ tx :: after →
    (∀ t ∈ before, Readable db t) → (Reth.recoverSigner tx).isSome
  /-- A block that executes leaves no signer with more than it had. -/
  spends : (∀ tx ∈ transactionsOf data, Readable db tx) → ∀ db', Execution.Takes db data db' →
    ∀ signer initial, Signs (transactionsOf data) signer →
      getBalance db ⟨signer⟩ = .ok (some initial) → NotAbove db' signer initial

section AllOrNothing

variable {db db' : Reth.Database} {block : Reth.Block} {data : Bytes}
  {before after : List Reth.Transaction} {tx : Reth.Transaction}

theorem transactionsOf_eq (hread : readBlockData data = .ok block) :
    transactionsOf data = Reth.transactions block := by
  rw [transactionsOf, hread]

theorem announce_run (h : ∀ tx ∈ (Reth.transactions block).head?, (Reth.recoverSigner tx).isSome) :
    ∃ es, announce block db = ⟨.ok (), db, es⟩ := by
  rw [announce, Action.perform_bind]
  cases htxs : Reth.transactions block with
  | nil => exact ⟨_, rfl⟩
  | cons tx txs =>
      rw [htxs] at h
      obtain ⟨signer, hsigner⟩ := Option.isSome_iff_exists.mp (h tx rfl)
      dsimp only
      rw [hsigner]
      exact ⟨_, rfl⟩

theorem announce_panics {txs : List Reth.Transaction} (htxs : Reth.transactions block = tx :: txs)
    (h : Reth.recoverSigner tx = none) : ∃ es, announce block db = ⟨.error .panic, db, es⟩ := by
  rw [announce, Action.perform_bind, htxs]
  dsimp only
  rw [h]
  exact ⟨_, rfl⟩

/-- The function up to the balances: the transactions before a place are read. -/
theorem nextBlock_reading (hread : readBlockData data = .ok block)
    (htxs : Reth.transactions block = before ++ after) (hbefore : ∀ t ∈ before, Readable db t)
    (hannounce : ∃ es, announce block db = ⟨.ok (), db, es⟩) :
    ∃ balances es, Noted db before balances ∧
      nextBlock data db =
        Action.after es ((storeInitialBalances after balances >>= settle block) db) := by
  obtain ⟨es, hannounce⟩ := hannounce
  obtain ⟨balances, es', hnoted, hrun⟩ := storeInitialBalances_run (noted_empty db) hbefore after
  refine ⟨balances, es ++ es', hnoted, ?_⟩
  rw [nextBlock, hread, Action.lift_ok_bind, Action.bind_of_ok hannounce, htxs,
    Action.bind_of_after hrun, Action.after_after]

theorem Readable.isSome (h : Readable db tx) : (Reth.recoverSigner tx).isSome := by
  obtain ⟨signer, -, hsigner, -⟩ := h
  rw [hsigner]
  rfl

/-- The first signer is recovered if it comes before a place up to which all are read. -/
theorem first_recovered (hbefore : ∀ t ∈ before, Readable db t)
    (h : before = [] → (Reth.recoverSigner tx).isSome) :
    ∀ x ∈ (before ++ tx :: after).head?, (Reth.recoverSigner x).isSome := by
  intro x hx
  cases before with
  | nil =>
      obtain rfl := Option.some.inj hx
      exact h rfl
  | cons t before =>
      obtain rfl := Option.some.inj hx
      exact (hbefore t List.mem_cons_self).isSome

theorem nextBlock_unread {stop : Stop String} (hread : readBlockData data = .error stop) :
    nextBlock data db = ⟨.error stop, db, []⟩ := by
  rw [nextBlock, hread, Action.lift_error_bind]

/-- The first signer that is not recovered ends the function in a panic. -/
theorem nextBlock_panics (hread : readBlockData data = .ok block)
    (htxs : Reth.transactions block = before ++ tx :: after)
    (hbefore : ∀ t ∈ before, Readable db t) (h : Reth.recoverSigner tx = none) :
    ∃ es, nextBlock data db = ⟨.error .panic, db, es⟩ := by
  have hunread : ¬ Readable db tx := by
    intro hreadable
    have hsome := hreadable.isSome
    rw [h] at hsome
    cases hsome
  by_cases hempty : before = []
  · rw [hempty, List.nil_append] at htxs
    have hpanic : ∃ es, announce block db = ⟨.error .panic, db, es⟩ := announce_panics htxs h
    obtain ⟨es, hannounce⟩ := hpanic
    exact ⟨es, by rw [nextBlock, hread, Action.lift_ok_bind, Action.bind_of_error hannounce]⟩
  · have hfirst : ∀ x ∈ (before ++ tx :: after).head?, (Reth.recoverSigner x).isSome :=
      first_recovered hbefore fun hnil => absurd hnil hempty
    rw [← htxs] at hfirst
    obtain ⟨balances, es, hnoted, hrun⟩ :=
      nextBlock_reading hread htxs hbefore (announce_run hfirst)
    obtain ⟨stop, hstop, hpanic⟩ := storeInitialBalances_stops hnoted hunread after
    refine ⟨es ++ [], ?_⟩
    rw [hrun, Action.bind_of_error hstop, hpanic.mpr h]
    rfl

/-- If signers are recovered, the first balance that is not read ends it in an error. -/
theorem nextBlock_unreadable (hread : readBlockData data = .ok block)
    (htxs : Reth.transactions block = before ++ tx :: after)
    (hbefore : ∀ t ∈ before, Readable db t) (h : (Reth.recoverSigner tx).isSome)
    (hunread : ¬ Readable db tx) : ∃ e es, nextBlock data db = ⟨.error (.err e), db, es⟩ := by
  have hfirst : ∀ x ∈ (before ++ tx :: after).head?, (Reth.recoverSigner x).isSome :=
    first_recovered hbefore fun _ => h
  rw [← htxs] at hfirst
  obtain ⟨balances, es, hnoted, hrun⟩ := nextBlock_reading hread htxs hbefore (announce_run hfirst)
  obtain ⟨stop, hstop, hpanic⟩ := storeInitialBalances_stops hnoted hunread after
  cases stop with
  | panic =>
      rw [hpanic.mp rfl] at h
      cases h
  | err e => exact ⟨e, es ++ [], by rw [hrun, Action.bind_of_error hstop]; rfl⟩

section Read

variable (hread : readBlockData data = .ok block)
  (hall : ∀ t ∈ Reth.transactions block, Readable db t)

include hread hall

/-- If every balance is read, the function goes on to execute the block. -/
theorem nextBlock_read :
    ∃ balances es, Noted db (Reth.transactions block) balances ∧
      nextBlock data db = Action.after es (settle block balances db) := by
  have hfirst : ∀ x ∈ (Reth.transactions block).head?, (Reth.recoverSigner x).isSome := by
    intro x hx
    exact (hall x (List.mem_of_mem_head? hx)).isSome
  obtain ⟨balances, es, hnoted, hrun⟩ :=
    nextBlock_reading hread (List.append_nil _).symm hall (announce_run hfirst)
  exact ⟨balances, es, hnoted, hrun⟩

/-- A block that does not execute leaves the database as it was. -/
theorem nextBlock_unexecuted {stop : Stop String} (h : executeAndAppend db block = .error stop) :
    ∃ es, nextBlock data db = ⟨.error stop, db, es⟩ := by
  obtain ⟨balances, es, -, hrun⟩ := nextBlock_read hread hall
  refine ⟨es ++ [], ?_⟩
  rw [hrun, settle, Action.read_bind, h, Action.lift_error_bind]
  rfl

/-- One that executes is appended, whatever the comparison of the balances says. -/
theorem nextBlock_executed (h : executeAndAppend db block = .ok db') :
    ∃ result es, nextBlock data db = ⟨result, db', es⟩ ∧
      (result = .ok () ↔ ∀ signer initial, Signs (Reth.transactions block) signer →
        getBalance db ⟨signer⟩ = .ok (some initial) → NotAbove db' signer initial) := by
  obtain ⟨balances, es, hnoted, hrun⟩ := nextBlock_read hread hall
  obtain ⟨result, es', hvalidate, hresult⟩ := validateFinalState_run db' balances.entries
  refine ⟨result, es ++ es', ?_, ?_⟩
  · rw [hrun, settle, Action.read_bind, h, Action.lift_ok_bind, Action.change_bind, hvalidate]
    rfl
  · rw [hresult]
    constructor
    · intro hkept signer initial hsigns hbalance
      have hget := (hnoted signer initial).mpr ⟨hsigns, hbalance⟩
      exact hkept (signer, initial) (balances.get?_eq_some_iff.mp hget)
    · rintro hkept ⟨signer, initial⟩ hmem
      obtain ⟨hsigns, hbalance⟩ := (hnoted signer initial).mp (balances.get?_eq_some_iff.mpr hmem)
      exact hkept signer initial hsigns hbalance

end Read

/-- An error with the database as it was. -/
theorem allOrNothing_of_error (h : ∃ e es, nextBlock data db = ⟨.error (.err e), db, es⟩) :
    AllOrNothing data db := by
  obtain ⟨e, es, hrun⟩ := h
  rw [AllOrNothing, hrun]
  exact Or.inr ⟨⟨e, rfl⟩, rfl⟩

/-- A block that is appended: what matters is that no error is returned. -/
theorem allOrNothing_of_commit (hread : readBlockData data = .ok block)
    (h : executeAndAppend db block = .ok db') (hstate : (nextBlock data db).state = db') :
    AllOrNothing data db ↔ (nextBlock data db).result = .ok () := by
  obtain ⟨recovered, result, hexecutes, hcommits⟩ := executeAndAppend_eq_ok_iff.mp h
  rw [AllOrNothing, hstate]
  constructor
  · rintro (⟨hok, -⟩ | ⟨-, hsame⟩)
    · exact hok
    · -- the list of blocks has grown
      have hblocks := hcommits.blocks
      rw [hsame] at hblocks
      exact absurd (List.self_eq_append_right.mp hblocks) (List.cons_ne_nil _ _)
  · intro hok
    exact Or.inl ⟨hok, block, recovered, result, hread, hexecutes, hcommits.blocks⟩

/-- A panic is neither. -/
theorem not_allOrNothing_of_panic (h : (nextBlock data db).result = .error .panic) :
    ¬ AllOrNothing data db := by
  rw [AllOrNothing, h]
  rintro (⟨hok, -⟩ | ⟨⟨e, herr⟩, -⟩)
  · cases hok
  · cases herr

/-- If every balance is read, what matters is that none has grown. -/
theorem allOrNothing_iff_of_read (hread : readBlockData data = .ok block)
    (hall : ∀ t ∈ Reth.transactions block, Readable db t) :
    AllOrNothing data db ↔ ∀ db', Execution.Takes db data db' → ∀ signer initial,
      Signs (Reth.transactions block) signer → getBalance db ⟨signer⟩ = .ok (some initial) →
        NotAbove db' signer initial := by
  have htakes : ∀ db', Execution.Takes db data db' ↔ executeAndAppend db block = .ok db' := by
    intro db'
    rw [takes_iff]
    constructor
    · rintro ⟨block', hblock, h⟩
      rw [Except.ok.inj (hread.symm.trans hblock)]
      exact h
    · intro h
      exact ⟨block, hread, h⟩
  cases hexecute : executeAndAppend db block with
  | error stop =>
      have hreturns := returns_executeAndAppend db block
      rw [hexecute] at hreturns
      obtain ⟨e, rfl⟩ := hreturns.exists_err
      refine iff_of_true ?_ fun db' h => ?_
      · exact allOrNothing_of_error ⟨e, nextBlock_unexecuted hread hall hexecute⟩
      · rw [htakes, hexecute] at h
        cases h
  | ok after =>
      obtain ⟨result, es, hrun, hresult⟩ := nextBlock_executed hread hall hexecute
      rw [allOrNothing_of_commit hread hexecute (by rw [hrun]), hrun, hresult]
      constructor
      · intro h db' htaken
        rw [htakes, hexecute] at htaken
        rw [← Except.ok.inj htaken]
        exact h
      · intro h
        exact h after ((htakes after).mpr hexecute)

/-- **Executing a block is all or nothing exactly if** no transaction is reached whose signer
cannot be recovered, and no signer of a block that executes ends up with more than it had. -/
theorem nextBlock_all_or_nothing_iff (data : Bytes) (db : Reth.Database) :
    AllOrNothing data db ↔ Sound data db := by
  cases hread : readBlockData data with
  | error stop =>
      have hreturns := returns_readBlockData data
      rw [hread] at hreturns
      obtain ⟨e, rfl⟩ := hreturns.exists_err
      have hnone : transactionsOf data = [] := by rw [transactionsOf, hread]
      refine iff_of_true (allOrNothing_of_error ⟨e, [], nextBlock_unread hread⟩) ⟨?_, ?_⟩
      · intro before tx after htxs
        rw [hnone] at htxs
        exact absurd htxs.symm (List.append_ne_nil_of_right_ne_nil _ (List.cons_ne_nil _ _))
      · intro _ db' htakes
        obtain ⟨block, hblock, -⟩ := takes_iff.mp htakes
        rw [hread] at hblock
        cases hblock
  | ok block =>
      have htxsOf := transactionsOf_eq hread
      by_cases hrecoverable : ∀ before tx after, transactionsOf data = before ++ tx :: after →
          (∀ t ∈ before, Readable db t) → (Reth.recoverSigner tx).isSome
      · by_cases hall : ∀ t ∈ transactionsOf data, Readable db t
        · rw [allOrNothing_iff_of_read hread (htxsOf ▸ hall), ← htxsOf]
          exact ⟨fun h => ⟨hrecoverable, fun _ => h⟩, fun h => h.spends hall⟩
        · obtain ⟨before, tx, after, htxs, hbefore, hunread⟩ := exists_first_not hall
          refine iff_of_true (allOrNothing_of_error ?_) ⟨hrecoverable, fun h => absurd h hall⟩
          exact nextBlock_unreadable hread (htxsOf.symm.trans htxs) hbefore
            (hrecoverable before tx after htxs hbefore) hunread
      · refine iff_of_false ?_ fun h => hrecoverable h.recoverable
        push Not at hrecoverable
        obtain ⟨before, tx, after, htxs, hbefore, hnone⟩ := hrecoverable
        obtain ⟨es, hrun⟩ := nextBlock_panics hread (htxsOf.symm.trans htxs) hbefore
          (Option.not_isSome_iff_eq_none.mp hnone)
        exact not_allOrNothing_of_panic (by rw [hrun])

/-- **What the function leaves** is the database as it was, or what a step of a task leaves. -/
theorem nextBlock_state (data : Bytes) (db : Reth.Database) :
    (nextBlock data db).state = db ∨ Execution.Takes db data (nextBlock data db).state := by
  cases hread : readBlockData data with
  | error stop => exact Or.inl (by rw [nextBlock_unread hread])
  | ok block =>
      by_cases hall : ∀ t ∈ Reth.transactions block, Readable db t
      · cases hexecute : executeAndAppend db block with
        | error stop =>
            obtain ⟨es, hrun⟩ := nextBlock_unexecuted hread hall hexecute
            exact Or.inl (by rw [hrun])
        | ok db' =>
            obtain ⟨result, es, hrun, -⟩ := nextBlock_executed hread hall hexecute
            rw [hrun]
            exact Or.inr (takes_iff.mpr ⟨block, hread, hexecute⟩)
      · obtain ⟨before, tx, after, htxs, hbefore, hunread⟩ := exists_first_not hall
        cases hsigner : Reth.recoverSigner tx with
        | none =>
            obtain ⟨es, hrun⟩ := nextBlock_panics hread htxs hbefore hsigner
            exact Or.inl (by rw [hrun])
        | some signer =>
            obtain ⟨e, es, hrun⟩ := nextBlock_unreadable hread htxs hbefore
              (by rw [hsigner]; rfl) hunread
            exact Or.inl (by rw [hrun])

end AllOrNothing

end BlockExecutor

section Demo

/-- A payment; one with a signature that does not verify has no signer. -/
structure DemoTransaction where
  signer : Option EthAddress
  recipient : EthAddress
  value : Nat

/-- A block of payments. -/
structure DemoBlock where
  number : UInt64
  transactions : List DemoTransaction

/-- Balances, and the blocks that have been appended with the balances they left. -/
structure DemoChain where
  accounts : OrderedMap EthAddress Nat
  blocks : List (RecoveredBlock DemoBlock × OrderedMap EthAddress Nat)

/-- The address that is written as one byte. -/
def demoEthAddress (i : UInt8) : EthAddress := FixedBytes.ofBytes 20 [i]

/-- A payment is written as its signer, its recipient and its value; a signer that is zero is
one that is not recovered. -/
def demoTransactions : Bytes → Option (List DemoTransaction)
  | [] => some []
  | signer :: recipient :: value :: b => do
      let txs ← demoTransactions b
      let recovered := if signer = 0 then none else some (demoEthAddress signer)
      pure (⟨recovered, demoEthAddress recipient, value.toNat⟩ :: txs)
  | _ => none

/-- A block is written as its number and its payments. -/
def demoBlock : Bytes → Option DemoBlock
  | [] => none
  | number :: b => (demoTransactions b).map (⟨number.toUInt64, ·⟩)

/-- A payment is made if there is enough to pay. -/
def demoPay (accounts : OrderedMap EthAddress Nat) (signer : EthAddress) (tx : DemoTransaction) :
    Option (OrderedMap EthAddress Nat) :=
  let balance := (accounts.get? signer).getD 0
  if tx.value ≤ balance then
    let paid := accounts.insert signer (balance - tx.value)
    some (paid.insert tx.recipient ((paid.get? tx.recipient).getD 0 + tx.value))
  else none

def demoResult {α : Type} (text : String) : Option α → Except String α
  | some a => .ok a
  | none => .error text

/-- Libraries to run the function with: blocks of payments on a table of balances. -/
@[reducible] def demoReth : Reth where
  Database := DemoChain
  StateProvider := OrderedMap EthAddress Nat
  ProviderRw := DemoChain
  ExecutionPayloadV1 := DemoBlock
  Block := DemoBlock
  Transaction := DemoTransaction
  ExecutionResult := OrderedMap EthAddress Nat × List Receipt
  ExecutionOutcome := OrderedMap EthAddress Nat
  display address := toString (BlockProposer.lengthOf address.val)
  fromSlice data := demoResult "expected value" (demoBlock data)
  tryIntoBlock payload := .ok payload
  number := DemoBlock.number
  transactions := DemoBlock.transactions
  recoverSigner := DemoTransaction.signer
  latest chain := .ok chain.accounts
  basicAccount accounts address := .ok ((accounts.get? address).map Account.mk)
  tryRecover block :=
    demoResult "invalid signature"
      ((block.transactions.mapM DemoTransaction.signer).map (⟨block, ·⟩))
  execute accounts recovered := do
    let txs := recovered.senders.zip recovered.block.transactions
    let after ← demoResult "insufficient funds"
      (txs.foldlM (fun accounts x => demoPay accounts x.1 x.2) accounts)
    pure (after, txs.map fun _ => ⟨true, 21000⟩)
  receipts := Prod.snd
  outcome result _ := result.1
  databaseProviderRw chain := .ok chain
  appendBlocksWithState chain blocks outcome :=
    .ok ⟨outcome, chain.blocks ++ blocks.map fun block => (block, outcome)⟩
  commit chain := .ok chain
  blocks := DemoChain.blocks
  blocks_commit := by
    intro db provider appended blocks' result db' hprovider happend hcommit
    rw [← Except.ok.inj hcommit, ← Except.ok.inj happend, ← Except.ok.inj hprovider]

attribute [local instance] demoReth

/-- Two accounts with ten each, and no block. -/
def demoChain : DemoChain where
  accounts := (OrderedMap.empty.insert (demoEthAddress 1) 10).insert (demoEthAddress 2) 10
  blocks := []

/-- **A forged signature is a panic, and a gift to a signer is an error for a block that has
been appended.**  In the second block the first account pays five to the second, which pays
one to a third. -/
theorem nextBlock_not_all_or_nothing :
    (nextBlock [1, 0, 2, 5] demoChain).result = .error .panic ∧
      ¬ AllOrNothing [1, 0, 2, 5] demoChain ∧
      (nextBlock [1, 1, 2, 5, 2, 3, 1] demoChain).result ≠ .ok () ∧
      (Reth.blocks (nextBlock [1, 1, 2, 5, 2, 3, 1] demoChain).state).length = 1 ∧
      ¬ AllOrNothing [1, 1, 2, 5, 2, 3, 1] demoChain := by
  have hforged : (nextBlock [1, 0, 2, 5] demoChain).result = .error .panic := by decide +kernel
  have hgift : (nextBlock [1, 1, 2, 5, 2, 3, 1] demoChain).result ≠ .ok () := by decide +kernel
  have hblocks : (Reth.blocks (nextBlock [1, 1, 2, 5, 2, 3, 1] demoChain).state).length = 1 := by
    decide +kernel
  refine ⟨hforged, not_allOrNothing_of_panic hforged, hgift, hblocks, ?_⟩
  rintro (⟨hok, -⟩ | ⟨-, hsame⟩)
  · exact hgift hok
  · rw [hsame] at hblocks
    exact absurd hblocks (by decide)

/-- A payment to an address that signs nothing is executed and appended. -/
example : (nextBlock [1, 1, 3, 5] demoChain).result = .ok () := by decide +kernel

end Demo

end MalakethTurbo
