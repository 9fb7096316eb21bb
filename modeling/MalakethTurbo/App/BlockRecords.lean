import MalakethTurbo.App.BlockLog

/-!
# The records of the executed blocks

The log of blocks that are executed one after the other is read block by block: the lines of
a block are read the same wherever they stand (`foldl_see_printedBy`).  Its records carry the
number of the block and the signer of its first transaction (`recordsRead_signers`), and the
last of them gets every balance after the block.

So the records are those that were printed if and only if in every block no signer has an
account but that of the first transaction (`readLog_eq_iff`).
-/

namespace MalakethTurbo

open Text
open Wire (Bytes)

section BlockRecords

variable [Reth]

/-! ## What is printed -/

section Prints

variable {db : Reth.Database} {before txs : List Reth.Transaction}
  {balances : OrderedMap EthAddress Nat} {block : Reth.Block} {data : Bytes}

/-- The balances before the block: each signer's once, and those that are noted. -/
theorem storeInitialBalances_prints (hnoted : Noted db before balances)
    (hread : ∀ tx ∈ txs, Readable db tx) :
    ∃ (balances' : OrderedMap EthAddress Nat) (initials : List (EthAddress × Nat)),
      storeInitialBalances txs balances db =
        ⟨.ok balances', db, initials.map fun e => .initialBalance e.1 e.2⟩ ∧
      (initials.map Prod.fst).Nodup ∧ (∀ e ∈ initials, balances.get? e.1 = none) ∧
      Noted db (before ++ txs) balances' ∧
      ∀ s b, balances'.get? s = some b ↔ balances.get? s = some b ∨ (s, b) ∈ initials := by
  induction txs generalizing before balances with
  | nil =>
      refine ⟨balances, [], rfl, List.nodup_nil, nofun, ?_, fun s b => ?_⟩
      · rw [List.append_nil]
        exact hnoted
      · exact (or_iff_left List.not_mem_nil).symm
  | cons tx txs ih =>
      rw [List.forall_mem_cons] at hread
      rw [List.append_cons]
      rcases storeInitialBalances_step hnoted hread.1 with
        ⟨hsame, hrun⟩ | ⟨signer, balance, hnew, hinsert, hrun⟩
      · rw [hrun txs]
        exact ih hsame hread.2
      · obtain ⟨balances', initials, hrun', hnodup, hfresh, hnoted', hget⟩ := ih hinsert hread.2
        -- a signer that has been met is not met again
        have hother : ∀ e ∈ initials, e.1 ≠ signer ∧ balances.get? e.1 = none := by
          intro e he
          have hfree := hfresh e he
          rw [OrderedMap.get?_insert] at hfree
          by_cases hs : e.1 = signer
          · rw [if_pos hs] at hfree
            cases hfree
          · rw [if_neg hs] at hfree
            exact ⟨hs, hfree⟩
        refine ⟨balances', (signer, balance) :: initials, ?_, ?_, ?_, hnoted', fun s b => ?_⟩
        · rw [hrun txs, hrun']
          rfl
        · rw [List.map_cons, List.nodup_cons]
          refine ⟨fun hmem => ?_, hnodup⟩
          obtain ⟨e, he, heq⟩ := List.mem_map.mp hmem
          exact (hother e he).1 heq
        · exact List.forall_mem_cons.mpr ⟨hnew, fun e he => (hother e he).2⟩
        · rw [hget s b, OrderedMap.get?_insert, List.mem_cons, Prod.mk.injEq]
          by_cases hs : s = signer
          · rw [if_pos hs, hs, hnew]
            simp [eq_comm]
          · rw [if_neg hs]
            simp [hs]

/-- The balances after the block, of some of the signers, if none has grown. -/
theorem validateFinalState_prints {entries : List (EthAddress × Nat)}
    (h : (validateFinalState entries db).result = .ok ()) :
    ∃ finals : List (EthAddress × Nat),
      validateFinalState entries db =
        ⟨.ok (), db, finals.map fun e => .finalBalance e.1 e.2⟩ ∧
      (finals.map Prod.fst).Sublist (entries.map Prod.fst) ∧
      ∀ e ∈ finals, getBalance db ⟨e.1⟩ = .ok (some e.2) := by
  induction entries with
  | nil => exact ⟨[], rfl, List.Sublist.refl _, nofun⟩
  | cons entry entries ih =>
      obtain ⟨signer, initial⟩ := entry
      rcases validateFinalState_cons db signer initial entries with
        ⟨stop, -, hcons⟩ | ⟨-, hcons⟩ | ⟨final, hbalance, hcons⟩
      · rw [hcons] at h
        cases h
      · rw [hcons] at h ⊢
        obtain ⟨finals, hrun, hsub, hfinals⟩ := ih h
        exact ⟨finals, hrun, hsub.cons _, hfinals⟩
      · by_cases hgrown : initial < final
        · rw [hcons, if_pos hgrown] at h
          cases h
        · rw [if_neg hgrown] at hcons
          rw [hcons] at h ⊢
          obtain ⟨finals, hrun, hsub, hfinals⟩ := ih h
          refine ⟨(signer, final) :: finals, ?_, hsub.cons_cons _, ?_⟩
          · rw [hrun]
            rfl
          · exact List.forall_mem_cons.mpr ⟨hbalance, hfinals⟩

/-- The signer of the first transaction. -/
def firstSigner (txs : List Reth.Transaction) : Option EthAddress :=
  txs.head?.bind Reth.recoverSigner

/-- The lines before the balances. -/
def announceLines (block : Reth.Block) : List Printed :=
  .executingBlock (Reth.number block) ::
    (firstSigner (Reth.transactions block)).toList.map .transactionSigner

/-- The lines of a block. -/
def blockLines (block : Reth.Block) (initials finals : List (EthAddress × Nat)) : List Printed :=
  announceLines block ++ initials.map (fun e => .initialBalance e.1 e.2) ++
    finals.map fun e => .finalBalance e.1 e.2

/-- The balances that are printed for a block: before it those of all signers that have an
account, each once; after it those of some of them, each once. -/
structure Prints (db db' : Reth.Database) (block : Reth.Block)
    (initials finals : List (EthAddress × Nat)) : Prop where
  first_isSome : initials ≠ [] → (firstSigner (Reth.transactions block)).isSome
  nodup : (initials.map Prod.fst).Nodup
  mem_iff : ∀ signer balance, (signer, balance) ∈ initials ↔
    Signs (Reth.transactions block) signer ∧ getBalance db ⟨signer⟩ = .ok (some balance)
  finals_nodup : (finals.map Prod.fst).Nodup
  finals_subset : finals.map Prod.fst ⊆ initials.map Prod.fst
  finals_read : ∀ e ∈ finals, getBalance db' ⟨e.1⟩ = .ok (some e.2)

theorem announce_prints
    (h : ∀ tx ∈ (Reth.transactions block).head?, (Reth.recoverSigner tx).isSome) :
    announce block db = ⟨.ok (), db, announceLines block⟩ := by
  rw [announce, announceLines, firstSigner, Action.perform_bind]
  cases htxs : Reth.transactions block with
  | nil => rfl
  | cons tx txs =>
      rw [htxs] at h
      obtain ⟨signer, hsigner⟩ := Option.isSome_iff_exists.mp (h tx rfl)
      dsimp only [List.head?_cons, Option.bind_some]
      rw [hsigner]
      rfl

/-- A block that is executed has been read, with the balances of all its signers. -/
theorem exists_read_of_ok (h : (nextBlock data db).result = .ok ()) :
    ∃ block, readBlockData data = .ok block ∧ ∀ tx ∈ Reth.transactions block, Readable db tx := by
  cases hread : readBlockData data with
  | error stop =>
      rw [nextBlock_unread hread] at h
      cases h
  | ok block =>
      refine ⟨block, rfl, ?_⟩
      by_contra hall
      obtain ⟨before, tx, after, htxs, hbefore, hunread⟩ := exists_first_not hall
      cases hsigner : Reth.recoverSigner tx with
      | none =>
          obtain ⟨es, hrun⟩ := nextBlock_panics hread htxs hbefore hsigner
          rw [hrun] at h
          cases h
      | some signer =>
          obtain ⟨e, es, hrun⟩ := nextBlock_unreadable hread htxs hbefore
            (by rw [hsigner]; rfl) hunread
          rw [hrun] at h
          cases h

/-- The balances after the block are printed once it has been appended. -/
theorem settle_prints (h : (settle block balances db).result = .ok ()) :
    ∃ (db' : Reth.Database) (finals : List (EthAddress × Nat)),
      settle block balances db = ⟨.ok (), db', finals.map fun e => .finalBalance e.1 e.2⟩ ∧
      (finals.map Prod.fst).Sublist balances.keys ∧
      ∀ e ∈ finals, getBalance db' ⟨e.1⟩ = .ok (some e.2) := by
  rw [settle, Action.read_bind] at h ⊢
  cases hexecute : executeAndAppend db block with
  | error stop =>
      rw [hexecute, Action.lift_error_bind] at h
      cases h
  | ok db' =>
      rw [hexecute, Action.lift_ok_bind, Action.change_bind] at h
      rw [Action.lift_ok_bind, Action.change_bind]
      obtain ⟨finals, hvalidate, hsub, hfinals⟩ := validateFinalState_prints h
      exact ⟨db', finals, hvalidate, hsub, hfinals⟩

theorem firstSigner_isSome {txs : List Reth.Transaction} {signer : EthAddress}
    (hfirst : ∀ tx ∈ txs.head?, (Reth.recoverSigner tx).isSome) (hsigns : Signs txs signer) :
    (firstSigner txs).isSome := by
  obtain ⟨tx, htx, -⟩ := hsigns
  rw [firstSigner, List.head?_eq_some_head (List.ne_nil_of_mem htx), Option.bind_some]
  exact hfirst _ (List.head_mem_head? _)

/-- **What a block that is executed prints.** -/
theorem nextBlock_prints (h : (nextBlock data db).result = .ok ()) :
    ∃ block initials finals, readBlockData data = .ok block ∧
      (nextBlock data db).effects = blockLines block initials finals ∧
      Prints db (nextBlock data db).state block initials finals := by
  obtain ⟨block, hread, hall⟩ := exists_read_of_ok h
  have hfirst : ∀ tx ∈ (Reth.transactions block).head?, (Reth.recoverSigner tx).isSome :=
    fun tx htx => (hall tx (List.mem_of_mem_head? htx)).isSome
  obtain ⟨balances, initials, hstore, hnodup, -, hnoted, hget⟩ :=
    storeInitialBalances_prints (noted_empty db) hall
  have hrun : nextBlock data db =
      Action.after (announceLines block ++ initials.map fun e => .initialBalance e.1 e.2)
        (settle block balances db) := by
    rw [nextBlock, hread, Action.lift_ok_bind, Action.bind_of_ok (announce_prints hfirst),
      Action.bind_of_ok hstore, Action.after_after]
  have hinitials : ∀ s b, (s, b) ∈ initials ↔ balances.get? s = some b := by
    intro s b
    rw [hget s b]
    exact (or_iff_right (Option.some_ne_none b).symm).symm
  have hmem : ∀ s b, (s, b) ∈ initials ↔
      Signs (Reth.transactions block) s ∧ getBalance db ⟨s⟩ = .ok (some b) := fun s b =>
    (hinitials s b).trans (hnoted s b)
  rw [hrun, Action.after_result] at h
  obtain ⟨db', finals, hsettle, hsub, hfinals⟩ := settle_prints h
  rw [hrun, hsettle]
  refine ⟨block, initials, finals, hread, rfl, fun hne => ?_, hnodup, hmem, ?_, ?_, hfinals⟩
  · obtain ⟨⟨s, b⟩, he⟩ := List.exists_mem_of_ne_nil _ hne
    exact firstSigner_isSome hfirst ((hmem s b).mp he).1
  · exact hsub.nodup (balances.keys_increasing.imp fun hlt => hlt.ne)
  · intro s hs
    obtain ⟨b, hb⟩ := Option.isSome_iff_exists.mp ((balances.mem_keys_iff s).mp (hsub.subset hs))
    exact List.mem_map_of_mem ((hinitials s b).mpr hb)

end Prints

/-! ## Reading a block -/

/-- The balances before the block, as they are printed. -/
def initialsOf (es : List Printed) : List (EthAddress × Nat) :=
  es.filterMap fun
    | .initialBalance signer balance => some (signer, balance)
    | _ => none

/-- The balance after the block that is printed for a signer. -/
def finalOf (es : List Printed) (signer : EthAddress) : Option Nat :=
  es.findSome? fun
    | .finalBalance s balance => if s = signer then some balance else none
    | _ => none

/-- The records of a block: for each balance that is printed before it one with the signer
and with the balance after it, or with the same balance if there is none. -/
def recordsOf (number : UInt64) (es : List Printed) : List BlockExecution :=
  (initialsOf es).map fun e => ⟨number, number, e.1, e.2, (finalOf es e.1).getD e.2⟩

section See

variable {block : Reth.Block} {initials finals : List (EthAddress × Nat)}

omit [Reth] in
@[simp] theorem updateLast_concat {α : Type} {p : α → Bool} {f : α → α} {e : α} (h : p e = true)
    (es : List α) : updateLast p f (es ++ [e]) = es ++ [f e] := by
  induction es with
  | nil => simp [updateLast, h]
  | cons e' es ih =>
      have hany : (es ++ [e]).any p = true :=
        List.any_eq_true.mpr ⟨e, List.mem_append_right _ List.mem_cons_self, h⟩
      rw [List.cons_append, updateLast, if_pos hany, ih, List.cons_append]

theorem foldl_see_announceLines (reader : LogReader) :
    (announceLines block).foldl LogReader.see reader =
      ⟨reader.executions, Reth.number block,
        (firstSigner (Reth.transactions block)).or reader.currentSigner⟩ := by
  rw [announceLines]
  cases firstSigner (Reth.transactions block) with
  | none => rfl
  | some signer => rfl

omit [Reth] in
/-- Every balance before the block becomes a record of the current signer. -/
theorem foldl_see_initials {reader : LogReader} {signer : EthAddress}
    (h : reader.currentSigner = some signer) (initials : List (EthAddress × Nat)) :
    (initials.map fun e => Printed.initialBalance e.1 e.2).foldl LogReader.see reader =
      { reader with
        executions := reader.executions ++ initials.map fun e =>
          ⟨reader.currentHeight, reader.currentHeight, signer, e.2, e.2⟩ } := by
  induction initials generalizing reader with
  | nil => simp
  | cons e initials ih =>
      have hsee : reader.see (.initialBalance e.1 e.2) = reader.push signer e.2 := by
        rw [LogReader.see, h]
      have hsame : (reader.push signer e.2).currentSigner = some signer := h
      rw [List.map_cons, List.foldl_cons, hsee, ih hsame, LogReader.push]
      simp

omit [Reth] in
/-- Every balance after the block goes to the last record. -/
theorem foldl_see_finals {reader : LogReader} {es : List BlockExecution} {last : BlockExecution}
    (hexecutions : reader.executions = es ++ [last])
    (hsigner : reader.currentSigner = some last.signer)
    (hheight : last.height = reader.currentHeight) (finals : List (EthAddress × Nat)) :
    (finals.map fun e => Printed.finalBalance e.1 e.2).foldl LogReader.see reader =
      { reader with
        executions := es ++
          [{ last with finalBalance := finals.foldl (fun _ e => e.2) last.finalBalance }] } := by
  induction finals generalizing reader last with
  | nil => simp [← hexecutions]
  | cons e finals ih =>
      have hsee : reader.see (.finalBalance e.1 e.2) = reader.update last.signer e.2 := by
        rw [LogReader.see, hsigner]
      have hupdate : (reader.update last.signer e.2).executions =
          es ++ [{ last with finalBalance := e.2 }] := by
        rw [LogReader.update, hexecutions, updateLast_concat (by simp [hheight])]
      rw [List.map_cons, List.foldl_cons, hsee, ih hupdate hsigner hheight]
      rfl

theorem initialsOf_blockLines : initialsOf (blockLines block initials finals) = initials := by
  have hannounce : initialsOf (announceLines block) = [] := by
    rw [announceLines]
    cases firstSigner (Reth.transactions block) with
    | none => rfl
    | some signer => rfl
  rw [initialsOf] at hannounce
  rw [initialsOf, blockLines, List.filterMap_append, List.filterMap_append, hannounce,
    List.filterMap_map, List.filterMap_map]
  simp

theorem finalOf_blockLines (signer : EthAddress) :
    finalOf (blockLines block initials finals) signer =
      finals.findSome? fun e => if e.1 = signer then some e.2 else none := by
  have hannounce : finalOf (announceLines block) signer = none := by
    rw [announceLines]
    cases firstSigner (Reth.transactions block) with
    | none => rfl
    | some signer => rfl
  have hinitials : finalOf (initials.map fun e => .initialBalance e.1 e.2) signer = none := by
    rw [finalOf, List.findSome?_eq_none_iff]
    intro x hx
    obtain ⟨e, -, rfl⟩ := List.mem_map.mp hx
    rfl
  rw [finalOf] at hannounce hinitials
  rw [finalOf, blockLines, List.findSome?_append, List.findSome?_append, hannounce, hinitials,
    Option.none_or, Option.none_or, List.findSome?_map]
  rfl

omit [Reth] in
/-- Balances of no signer but one, each once. -/
theorem eq_nil_or_singleton {signer : EthAddress} (hnodup : (finals.map Prod.fst).Nodup)
    (hsubset : finals.map Prod.fst ⊆ [signer]) :
    finals = [] ∨ ∃ final, finals = [(signer, final)] := by
  cases finals with
  | nil => exact Or.inl rfl
  | cons e finals =>
      have hsame : ∀ x ∈ e :: finals, x.1 = signer := fun x hx =>
        List.mem_singleton.mp (hsubset (List.mem_map_of_mem hx))
      have hnone : finals = [] := by
        refine List.eq_nil_iff_forall_not_mem.mpr fun x hx => ?_
        refine (List.nodup_cons.mp hnodup).1 (List.mem_map.mpr ⟨x, hx, ?_⟩)
        exact (hsame x (List.mem_cons_of_mem _ hx)).trans (hsame e List.mem_cons_self).symm
      refine Or.inr ⟨e.2, ?_⟩
      rw [hnone, ← hsame e List.mem_cons_self]

/-- **What a block is read as.**  The records are of the first signer, one for each balance
that is printed before the block, and right if there is one balance and it is the signer's. -/
theorem exists_records {db db' : Reth.Database} (h : Prints db db' block initials finals) :
    ∃ records : List BlockExecution,
      (∀ reader : LogReader, ((blockLines block initials finals).foldl LogReader.see
        reader).executions = reader.executions ++ records) ∧
      records.map (fun r => (r.blockNumber, some r.signer)) =
        initials.map (fun _ => (Reth.number block, firstSigner (Reth.transactions block))) ∧
      ∀ e, initials = [e] → firstSigner (Reth.transactions block) = some e.1 →
        records = recordsOf (Reth.number block) (blockLines block initials finals) := by
  rcases List.eq_nil_or_concat' initials with rfl | ⟨es, e, rfl⟩
  · have hfinals : finals = [] := List.map_eq_nil_iff.mp (List.subset_nil.mp h.finals_subset)
    refine ⟨[], fun reader => ?_, rfl, nofun⟩
    rw [hfinals, blockLines, List.map_nil, List.map_nil, List.append_nil, List.append_nil,
      foldl_see_announceLines, List.append_nil]
  · obtain ⟨signer, hsigner⟩ := Option.isSome_iff_exists.mp
      (h.first_isSome (List.append_ne_nil_of_right_ne_nil _ (List.cons_ne_nil _ _)))
    let number := Reth.number block
    refine ⟨es.map (fun e => ⟨number, number, signer, e.2, e.2⟩) ++
      [⟨number, number, signer, e.2, finals.foldl (fun _ e => e.2) e.2⟩], fun reader => ?_, ?_, ?_⟩
    · let records := es.map fun e => (⟨number, number, signer, e.2, e.2⟩ : BlockExecution)
      have hinitials : reader.executions ++ (es ++ [e]).map (fun e =>
          (⟨number, number, signer, e.2, e.2⟩ : BlockExecution)) =
          (reader.executions ++ records) ++ [⟨number, number, signer, e.2, e.2⟩] := by
        rw [List.map_append, List.append_assoc]
        rfl
      rw [blockLines, List.foldl_append, List.foldl_append, foldl_see_announceLines, hsigner,
        foldl_see_initials rfl, foldl_see_finals hinitials rfl rfl, List.append_assoc]
    · rw [hsigner, List.map_append, List.map_append, List.map_map]
      rfl
    · intro e' he hfirst
      obtain rfl : es = [] := List.append_eq_singleton_iff.mp he |>.resolve_right (by simp) |>.1
      obtain rfl : e = e' := List.singleton_inj.mp he
      obtain rfl : signer = e.1 := Option.some.inj (hsigner.symm.trans hfirst)
      rw [recordsOf, initialsOf_blockLines]
      rcases eq_nil_or_singleton h.finals_nodup h.finals_subset with rfl | ⟨final, rfl⟩
      · simp [finalOf_blockLines, number]
      · simp [finalOf_blockLines, number]

end See

/-! ## Reading a log -/

/-- Blocks that are executed one after the other, each with the database it finds. -/
def executed (db : Reth.Database) : List Bytes → List (Reth.Database × Bytes)
  | [] => []
  | data :: blocks => (db, data) :: executed (nextBlock data db).state blocks

/-- The block is executed without an error. -/
def Succeeds (x : Reth.Database × Bytes) : Prop := (nextBlock x.2 x.1).result = .ok ()

/-- The lines it prints. -/
def printedBy (x : Reth.Database × Bytes) : List Printed := (nextBlock x.2 x.1).effects

/-- The number of a block. -/
def blockNumber (data : Bytes) : Option UInt64 := (readBlockData data).toOption.map Reth.number

/-- The records of the balances that are printed for a block. -/
def recordsFor (x : Reth.Database × Bytes) : List BlockExecution :=
  match readBlockData x.2 with
  | .ok block => recordsOf (Reth.number block) (printedBy x)
  | .error _ => []

/-- The records that are read from the lines of a block. -/
def recordsRead (x : Reth.Database × Bytes) : List BlockExecution :=
  ((printedBy x).foldl LogReader.see LogReader.start).executions

/-- All signers that have an account are the signer of the first transaction. -/
def OneSigner (x : Reth.Database × Bytes) : Prop :=
  ∀ signer balance, Signs (transactionsOf x.2) signer →
    getBalance x.1 ⟨signer⟩ = .ok (some balance) → firstSigner (transactionsOf x.2) = some signer

section Log

variable {x : Reth.Database × Bytes} {xs : List (Reth.Database × Bytes)}

theorem getBalance_lt [EthText] {db : Reth.Database} {address : Address} {balance : Nat}
    (h : getBalance db address = .ok (some balance)) : balance < 2 ^ 256 := by
  simp only [getBalance, call_bind_eq_ok, report_eq_ok_iff] at h
  obtain ⟨provider, -, account, haccount, hbalance⟩ := h
  obtain ⟨account, rfl, rfl⟩ := Option.map_eq_some_iff.mp (Except.ok.inj hbalance)
  exact EthText.balance_lt haccount

/-- The balances that are printed have 256 bits. -/
theorem printedBy_fits [EthText] (h : Succeeds x) : ∀ e ∈ printedBy x, e.Fits := by
  obtain ⟨block, initials, finals, -, heffects, hprints⟩ := nextBlock_prints h
  intro e he
  rw [printedBy, heffects, blockLines, announceLines] at he
  simp only [List.mem_append, List.mem_cons, List.mem_map] at he
  rcases he with ((rfl | ⟨signer, -, rfl⟩) | ⟨⟨s, b⟩, he, rfl⟩) | ⟨e, he, rfl⟩
  · trivial
  · trivial
  · exact getBalance_lt ((hprints.mem_iff s b).mp he).2
  · exact getBalance_lt (hprints.finals_read e he)

/-- What is known of a block that is executed. -/
theorem exists_block (h : Succeeds x) :
    ∃ block initials finals, readBlockData x.2 = .ok block ∧
      printedBy x = blockLines block initials finals ∧
      Prints x.1 (nextBlock x.2 x.1).state block initials finals ∧
      (OneSigner x ↔ ∀ e ∈ initials, firstSigner (Reth.transactions block) = some e.1) := by
  obtain ⟨block, initials, finals, hread, heffects, hprints⟩ := nextBlock_prints h
  refine ⟨block, initials, finals, hread, heffects, hprints, ?_⟩
  rw [OneSigner, transactionsOf_eq hread]
  constructor
  · rintro hone ⟨s, b⟩ he
    obtain ⟨hsigns, hbalance⟩ := (hprints.mem_iff s b).mp he
    exact hone s b hsigns hbalance
  · intro hall signer balance hsigns hbalance
    exact hall (signer, balance) ((hprints.mem_iff signer balance).mpr ⟨hsigns, hbalance⟩)

/-- The signers before a block are printed once each. -/
theorem initialsOf_printedBy_nodup (h : Succeeds x) :
    ((initialsOf (printedBy x)).map Prod.fst).Nodup := by
  obtain ⟨block, initials, finals, -, heffects, hprints, -⟩ := exists_block h
  rw [heffects, initialsOf_blockLines]
  exact hprints.nodup

theorem blockNumber_eq {block : Reth.Block} (hread : readBlockData x.2 = .ok block) :
    blockNumber x.2 = some (Reth.number block) := by
  rw [blockNumber, hread]
  rfl

theorem recordsFor_eq {block : Reth.Block} (hread : readBlockData x.2 = .ok block) :
    recordsFor x = recordsOf (Reth.number block) (printedBy x) := by
  rw [recordsFor, hread]

/-- What the lines of a block are read as after any others, they are read as alone. -/
theorem recordsRead_eq {es : List Printed} {records : List BlockExecution}
    (heffects : printedBy x = es) (hrecords : ∀ reader : LogReader,
      (es.foldl LogReader.see reader).executions = reader.executions ++ records) :
    recordsRead x = records := by
  rw [recordsRead, heffects, hrecords]
  rfl

/-- The lines of a block are read the same wherever they stand. -/
theorem foldl_see_printedBy (h : Succeeds x) (reader : LogReader) :
    ((printedBy x).foldl LogReader.see reader).executions =
      reader.executions ++ recordsRead x := by
  obtain ⟨block, initials, finals, -, heffects, hprints, -⟩ := exists_block h
  obtain ⟨records, hrecords, -⟩ := exists_records hprints
  rw [recordsRead_eq heffects hrecords, heffects, hrecords]

/-- **The records of a block carry its number and its first signer**, and there are as many
as there should be. -/
theorem recordsRead_signers (h : Succeeds x) :
    (recordsRead x).map (fun r => (some r.blockNumber, some r.signer)) =
      (recordsFor x).map fun _ => (blockNumber x.2, firstSigner (transactionsOf x.2)) := by
  obtain ⟨block, initials, finals, hread, heffects, hprints, -⟩ := exists_block h
  obtain ⟨records, hrecords, hsigners, -⟩ := exists_records hprints
  have hsome := congrArg (List.map fun e => (some e.1, e.2)) hsigners
  rw [List.map_map, List.map_map] at hsome
  rw [recordsRead_eq heffects hrecords, recordsFor_eq hread, heffects, recordsOf,
    initialsOf_blockLines, blockNumber_eq hread, transactionsOf_eq hread, List.map_map]
  exact hsome

/-- There is a record for each balance that is printed before the block. -/
theorem exists_mem_recordsFor {block : Reth.Block} (hread : readBlockData x.2 = .ok block)
    {e : EthAddress × Nat} (he : e ∈ initialsOf (printedBy x)) :
    ∃ r ∈ recordsFor x, blockNumber x.2 = some r.blockNumber ∧ r.signer = e.1 := by
  rw [recordsFor_eq hread, blockNumber_eq hread]
  exact ⟨_, List.mem_map_of_mem he, rfl, rfl⟩

/-- **The lines of a block are read right exactly if** no signer but the first has an
account. -/
theorem recordsRead_eq_iff (h : Succeeds x) : recordsRead x = recordsFor x ↔ OneSigner x := by
  obtain ⟨block, initials, finals, hread, heffects, hprints, hone⟩ := exists_block h
  rw [hone]
  constructor
  · intro heq e he
    have hsigners := recordsRead_signers h
    rw [heq, List.map_inj_left] at hsigners
    have hprinted : e ∈ initialsOf (printedBy x) := by
      rw [heffects, initialsOf_blockLines]
      exact he
    obtain ⟨r, hr, -, hsigner⟩ := exists_mem_recordsFor hread hprinted
    rw [← transactionsOf_eq hread, ← hsigner]
    exact (congrArg Prod.snd (hsigners r hr)).symm
  · intro hall
    obtain ⟨records, hrecords, hsigners, hright⟩ := exists_records hprints
    rw [recordsRead_eq heffects hrecords, recordsFor_eq hread, heffects]
    cases initials with
    | nil =>
        rw [recordsOf, initialsOf_blockLines]
        exact List.map_eq_nil_iff.mp hsigners
    | cons e initials =>
        rw [List.forall_mem_cons] at hall
        have hsubset : (e :: initials).map Prod.fst ⊆ [e.1] := by
          intro s hs
          obtain ⟨e', he', rfl⟩ := List.mem_map.mp hs
          rcases List.mem_cons.mp he' with rfl | he'
          · exact List.mem_singleton_self _
          · exact List.mem_singleton.mpr (Option.some.inj ((hall.2 e' he').symm.trans hall.1))
        rcases eq_nil_or_singleton hprints.nodup hsubset with hnil | ⟨b, hsingle⟩
        · cases hnil
        · refine hright e ?_ hall.1
          obtain ⟨-, rfl⟩ := List.cons.inj hsingle
          rfl

/-- The records of a log are those of its blocks. -/
theorem readLog_flatMap [EthText] (h : ∀ x ∈ xs, Succeeds x) :
    readLog (logText (xs.flatMap printedBy)) = xs.flatMap recordsRead := by
  have hfits : ∀ e ∈ xs.flatMap printedBy, e.Fits := by
    intro e he
    obtain ⟨x, hx, he⟩ := List.mem_flatMap.mp he
    exact printedBy_fits (h x hx) e he
  rw [readLog, foldl_readLine_logText _ hfits]
  have hrun : ∀ reader : LogReader, ((xs.flatMap printedBy).foldl LogReader.see
      reader).executions = reader.executions ++ xs.flatMap recordsRead := by
    clear hfits
    induction xs with
    | nil =>
        intro reader
        exact (List.append_nil _).symm
    | cons x xs ih =>
        intro reader
        rw [List.forall_mem_cons] at h
        rw [List.flatMap_cons, List.foldl_append, ih h.2, foldl_see_printedBy h.1,
          List.append_assoc, List.flatMap_cons]
  exact hrun LogReader.start

/-- Records in another order can only be right if they are in the right one, where no number
comes twice. -/
theorem oneSigner_of_perm (h : ∀ x ∈ xs, Succeeds x)
    (hnodup : (xs.map fun x => blockNumber x.2).Nodup)
    (hperm : (xs.flatMap recordsRead).Perm (xs.flatMap recordsFor)) : ∀ x ∈ xs, OneSigner x := by
  intro x hx
  obtain ⟨block, initials, finals, hread, heffects, -, hone⟩ := exists_block (h x hx)
  refine hone.mpr fun e he => ?_
  have hprinted : e ∈ initialsOf (printedBy x) := by
    rw [heffects, initialsOf_blockLines]
    exact he
  obtain ⟨r, hr, hnumber, hsigner⟩ := exists_mem_recordsFor hread hprinted
  obtain ⟨y, hy, hry⟩ := List.mem_flatMap.mp
    (hperm.mem_iff.mpr (List.mem_flatMap.mpr ⟨x, hx, hr⟩))
  have hkey : (some r.blockNumber, some r.signer) ∈
      (recordsFor y).map fun _ => (blockNumber y.2, firstSigner (transactionsOf y.2)) := by
    rw [← recordsRead_signers (h y hy)]
    exact List.mem_map_of_mem hry
  obtain ⟨-, -, heq⟩ := List.mem_map.mp hkey
  obtain ⟨hyNumber, hySigner⟩ := Prod.mk.inj heq
  -- the record was read from the block itself
  obtain rfl : y = x := List.inj_on_of_nodup_map hnodup hy hx (hyNumber.trans hnumber.symm)
  rw [← transactionsOf_eq hread, hySigner, hsigner]

end Log

/-- **What is read is what was printed exactly if** in every block no signer has an account
but that of the first transaction.  Each signer's balance before a block is printed once, so
that there is one record for it; the records come in the order in which the balances are
printed, and in another order they would not be right either, where no number of a block
comes twice. -/
theorem readLog_eq_iff [EthText] (db : Reth.Database) (blocks : List Bytes)
    (h : ∀ x ∈ executed db blocks, Succeeds x) :
    (∀ x ∈ executed db blocks, ((initialsOf (printedBy x)).map Prod.fst).Nodup) ∧
      (readLog (logText ((executed db blocks).flatMap printedBy)) =
          (executed db blocks).flatMap recordsFor ↔ ∀ x ∈ executed db blocks, OneSigner x) ∧
      (((executed db blocks).map fun x => blockNumber x.2).Nodup →
        ((readLog (logText ((executed db blocks).flatMap printedBy))).Perm
          ((executed db blocks).flatMap recordsFor) ↔ ∀ x ∈ executed db blocks, OneSigner x)) := by
  have hlength : ∀ x ∈ executed db blocks, (recordsRead x).length = (recordsFor x).length := by
    intro x hx
    have hsigners := congrArg List.length (recordsRead_signers (h x hx))
    rwa [List.length_map, List.length_map] at hsigners
  have hiff : (executed db blocks).flatMap recordsRead = (executed db blocks).flatMap recordsFor ↔
      ∀ x ∈ executed db blocks, OneSigner x := by
    rw [flatMap_eq_flatMap_iff hlength]
    exact forall₂_congr fun x hx => recordsRead_eq_iff (h x hx)
  rw [readLog_flatMap h]
  refine ⟨fun x hx => initialsOf_printedBy_nodup (h x hx), hiff, fun hnodup => ?_⟩
  constructor
  · exact oneSigner_of_perm h hnodup
  · intro hone
    rw [hiff.mpr hone]

end BlockRecords

section Demo

/-- Bytes in hexadecimal digits. -/
def demoHex : Bytes → List Char
  | [] => []
  | x :: b => Nat.digitChar (x.toNat / 16) :: Nat.digitChar (x.toNat % 16) :: demoHex b

def demoDigit (c : Char) : Nat := if c.isDigit then c.toNat - 48 else c.toNat - 87

/-- The bytes that digits are written for. -/
def demoUnhex : List Char → Bytes
  | high :: low :: s => UInt8.ofNat (demoDigit high * 16 + demoDigit low) :: demoUnhex s
  | _ => []

theorem demoDigit_digitChar :
    ∀ n < 16, demoDigit (Nat.digitChar n) = n ∧ isWhitespace (Nat.digitChar n) = false := by
  decide

theorem demoUnhex_demoHex (b : Bytes) : demoUnhex (demoHex b) = b := by
  induction b with
  | nil => rfl
  | cons x b ih =>
      have hlt := x.toNat_lt
      rw [demoHex, demoUnhex, ih, (demoDigit_digitChar _ (by omega)).1,
        (demoDigit_digitChar _ (by omega)).1, Nat.div_add_mod', UInt8.ofNat_toNat]

theorem demoHex_letters (b : Bytes) : ∀ c ∈ demoHex b, isWhitespace c = false := by
  induction b with
  | nil => exact List.forall_mem_nil _
  | cons x b ih =>
      have hlt := x.toNat_lt
      rw [demoHex, List.forall_mem_cons, List.forall_mem_cons]
      exact ⟨(demoDigit_digitChar _ (by omega)).2, (demoDigit_digitChar _ (by omega)).2, ih⟩

/-- The libraries of the payments, with addresses in hexadecimal digits and balances of 256
bits. -/
@[reducible] def demoLog : Reth :=
  { demoReth with
    display := fun address => String.ofList ('0' :: 'x' :: demoHex address.val)
    basicAccount := fun accounts address =>
      .ok ((accounts.get? address).map fun balance => ⟨balance % 2 ^ 256⟩) }

attribute [local instance] demoLog

/-- Addresses and balances are read from their digits. -/
@[reducible] def demoText : EthText where
  addressFromStr
    | '0' :: 'x' :: s => FixedBytes.tryFrom 20 (demoUnhex s)
    | _ => none
  u256FromStr s := if s.all Char.isDigit then some (Nat.ofDigitChars 10 s 0) else none
  display_isWord address := by
    show IsWord isWhitespace (String.ofList ('0' :: 'x' :: demoHex address.val)).toList
    rw [String.toList_ofList]
    refine ⟨List.cons_ne_nil _ _, ?_⟩
    rw [List.forall_mem_cons, List.forall_mem_cons]
    exact ⟨by decide, by decide, demoHex_letters address.val⟩
  addressFromStr_display address := by
    show (match (String.ofList ('0' :: 'x' :: demoHex address.val)).toList with
      | '0' :: 'x' :: s => FixedBytes.tryFrom 20 (demoUnhex s)
      | _ => none) = some address
    rw [String.toList_ofList]
    show FixedBytes.tryFrom 20 (demoUnhex (demoHex address.val)) = some address
    rw [demoUnhex_demoHex, FixedBytes.tryFrom_val]
  u256FromStr_toDigits n _ := by
    have hdigits : (Nat.toDigits 10 n).all Char.isDigit = true :=
      List.all_eq_true.mpr fun c hc => Nat.isDigit_of_mem_toDigits (by omega) (by omega) hc
    rw [if_pos hdigits, Nat.ofDigitChars_ten_toDigits]
  balance_lt := by
    intro provider address account h
    obtain ⟨balance, -, rfl⟩ := Option.map_eq_some_iff.mp (Except.ok.inj h)
    exact Nat.mod_lt _ (by decide)

attribute [local instance] demoText

/-- **Two signers with accounts are read as one.**  Both accounts pay to a third.  Their
balances go from ten to five and from ten to nine; the reader gives both records to the first
signer, and both balances after the block to the second of them. -/
theorem readLog_two_signers :
    (∀ x ∈ executed demoChain [[1, 1, 3, 5, 2, 3, 1]], Succeeds x) ∧
      (executed demoChain [[1, 1, 3, 5, 2, 3, 1]]).flatMap recordsFor =
        [⟨1, 1, demoEthAddress 1, 10, 5⟩, ⟨1, 1, demoEthAddress 2, 10, 9⟩] ∧
      readLog (logText ((executed demoChain [[1, 1, 3, 5, 2, 3, 1]]).flatMap printedBy)) =
        [⟨1, 1, demoEthAddress 1, 10, 10⟩, ⟨1, 1, demoEthAddress 1, 10, 9⟩] ∧
      ¬ (readLog (logText ((executed demoChain [[1, 1, 3, 5, 2, 3, 1]]).flatMap printedBy))).Perm
        ((executed demoChain [[1, 1, 3, 5, 2, 3, 1]]).flatMap recordsFor) := by
  have hsucceeds : ∀ x ∈ executed demoChain [[1, 1, 3, 5, 2, 3, 1]], Succeeds x := by
    have hone : (nextBlock [1, 1, 3, 5, 2, 3, 1] demoChain).result = .ok () := by decide +kernel
    exact List.forall_mem_cons.mpr ⟨hone, List.forall_mem_nil _⟩
  rw [readLog_flatMap hsucceeds]
  exact ⟨hsucceeds, by decide +kernel, by decide +kernel, by decide +kernel⟩

/-- Two blocks, each with payments of one account. -/
theorem readLog_one_signer_each :
    ((executed demoChain [[1, 1, 3, 5, 1, 2, 1], [2, 2, 3, 1]]).map fun x =>
        blockNumber x.2).Nodup ∧
      readLog (logText ((executed demoChain [[1, 1, 3, 5, 1, 2, 1], [2, 2, 3, 1]]).flatMap
        printedBy)) =
        (executed demoChain [[1, 1, 3, 5, 1, 2, 1], [2, 2, 3, 1]]).flatMap recordsFor ∧
      ∀ x ∈ executed demoChain [[1, 1, 3, 5, 1, 2, 1], [2, 2, 3, 1]], OneSigner x := by
  have hsucceeds : ∀ x ∈ executed demoChain [[1, 1, 3, 5, 1, 2, 1], [2, 2, 3, 1]], Succeeds x := by
    have hfirst : (nextBlock [1, 1, 3, 5, 1, 2, 1] demoChain).result = .ok () := by
      decide +kernel
    have hsecond : (nextBlock [2, 2, 3, 1]
        (nextBlock [1, 1, 3, 5, 1, 2, 1] demoChain).state).result = .ok () := by decide +kernel
    exact List.forall_mem_cons.mpr ⟨hfirst, List.forall_mem_cons.mpr
      ⟨hsecond, List.forall_mem_nil _⟩⟩
  have hone : ∀ x : Reth.Database × Bytes, (∀ s ∈ (transactionsOf x.2).map Reth.recoverSigner,
      s = firstSigner (transactionsOf x.2)) → OneSigner x := by
    rintro x hall signer balance ⟨tx, htx, hsigner⟩ -
    rw [← hsigner]
    exact (hall _ (List.mem_map_of_mem htx)).symm
  have hall : ∀ x ∈ executed demoChain [[1, 1, 3, 5, 1, 2, 1], [2, 2, 3, 1]], OneSigner x :=
    List.forall_mem_cons.mpr ⟨hone _ (by decide +kernel), List.forall_mem_cons.mpr
      ⟨hone _ (by decide +kernel), List.forall_mem_nil _⟩⟩
  have hnumbers : ((executed demoChain [[1, 1, 3, 5, 1, 2, 1], [2, 2, 3, 1]]).map fun x =>
      blockNumber x.2).Nodup := by decide +kernel
  obtain ⟨-, heq, hperm⟩ := readLog_eq_iff demoChain _ hsucceeds
  have hread := heq.mpr hall
  refine ⟨hnumbers, hread, (hperm hnumbers).mp ?_⟩
  rw [hread]

end Demo

end MalakethTurbo
