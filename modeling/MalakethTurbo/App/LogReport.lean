import MalakethTurbo.App.BlockRecords
import Mathlib.Data.List.Sort

/-!
# The report about a log

`verify_block_logs` asks for a block of height ten or more, and then reports on the records up to
height ten.  The records of each signer are put in the order of their heights, and each of them
is compared with the one before it.  The signers come in the order of a hash map, which can be
any.

What is reported is what is the case (`verifyBlockLogs_exact`): the balances that have grown, the
signers whose balance before a block is not the one after their last block, and the heights
without a record.  The numbers of the blocks are never reported, as the reader takes them for the
heights; and no finding makes the verification fail.

A log of blocks that have been executed, each with one signer, reports no balance as grown.  A
height is reported as missing although its block has been executed, if the block has no signer
with an account (`verifyBlockLogs_executed`).
-/

namespace MalakethTurbo

open Text
open Wire (Bytes)

/-! ## The report -/

/-- A height with the balances of a signer before and after. -/
@[ext] structure BalanceChange where
  height : UInt64
  initial : Nat
  finalBal : Nat
  deriving DecidableEq

/-- The findings of the report, each with what is printed of it. -/
inductive Finding where
  | numberMismatch (height blockNumber : UInt64)
  | checking (signer : EthAddress)
  /-- The balance after a height, the one before the next, and how many blocks are between. -/
  | inconsistent (lastHeight : UInt64) (lastBalance : Nat) (height : UInt64) (initial : Nat)
      (between : Option UInt64)
  | change (c : BalanceChange)
  | increase (height : UInt64) (initial finalBal : Nat)
  | missing (height : UInt64)
  | allExecuted
  | complete
  deriving DecidableEq

/-- A record whose number is not its height. -/
def checkNumber (e : BlockExecution) : List Finding :=
  if e.height ≠ e.blockNumber then [.numberMismatch e.height e.blockNumber] else []

/-- `balance_sequences`, the entry of a signer. -/
def balanceSequence (executions : List BlockExecution) (signer : EthAddress) :
    List BalanceChange :=
  (executions.filter fun e => e.signer = signer).map fun e =>
    ⟨e.height, e.initialBalance, e.finalBalance⟩

/-- `sorted_sequence`: `sort_by_key` is stable. -/
def sortedSequence (executions : List BlockExecution) (signer : EthAddress) :
    List BalanceChange :=
  (balanceSequence executions signer).insertionSort fun c c' => c.height ≤ c'.height

/-- The blocks between two heights, if there are any.  The heights are at most ten, so the
arithmetic is exact. -/
def blocksBetween (lastHeight height : UInt64) : Option UInt64 :=
  if lastHeight + 1 < height then some (height - lastHeight - 1) else none

/-- The comparison with the last known balance. -/
def checkConsistent (last : Option (UInt64 × Nat)) (c : BalanceChange) : List Finding :=
  match last with
  | none => []
  | some (lastHeight, lastBalance) =>
      if c.initial ≠ lastBalance then
        [.inconsistent lastHeight lastBalance c.height c.initial
          (blocksBetween lastHeight c.height)]
      else []

/-- The loop over the sequence of a signer. -/
def checkSequence : Option (UInt64 × Nat) → List BalanceChange → List Finding
  | _, [] => []
  | last, c :: cs =>
      checkConsistent last c ++
        .change c ::
          (if c.initial < c.finalBal then [.increase c.height c.initial c.finalBal] else []) ++
        checkSequence (some (c.height, c.finalBal)) cs

/-- The heights that should have been executed. -/
def verifiedHeights : List UInt64 := (List.range' 1 10).map UInt64.ofNat

/-- The heights of these without a record. -/
def missingHeights (executions : List BlockExecution) : List UInt64 :=
  verifiedHeights.filter fun height => height ∉ executions.map BlockExecution.height

/-- The report about the records up to height ten, with the signers in a given order. -/
def blockReport (executions : List BlockExecution) (signers : List EthAddress) : List Finding :=
  executions.flatMap checkNumber ++
    signers.flatMap (fun signer =>
      .checking signer :: checkSequence none (sortedSequence executions signer)) ++
    (missingHeights executions).map .missing ++
    (if missingHeights executions = [] then [.allExecuted] else []) ++ [.complete]

/-- The height of the highest block. -/
def maxHeight (executions : List BlockExecution) : UInt64 :=
  (executions.map BlockExecution.height).foldl max 0

/-- The message if there are too few blocks. -/
def notEnoughBlocks (height : UInt64) : String :=
  s!"Not enough blocks in logs. Found blocks up to height {height}, but need at least 10 " ++
    "blocks. Please run the network longer."

/-- The records up to height ten. -/
def firstTen (executions : List BlockExecution) : List BlockExecution :=
  executions.filter fun e => e.height ≤ 10

/-- `verify_block_logs`.  `iterate` is the order in which the hash map lists its keys. -/
def verifyBlockLogs [Reth] [EthText] (iterate : List EthAddress → List EthAddress)
    (text : List Char) : Except String (List Finding) :=
  let executions := readLog text
  if maxHeight executions < 10 then .error (notEnoughBlocks (maxHeight executions))
  else
    .ok (blockReport (firstTen executions)
      (iterate ((firstTen executions).map BlockExecution.signer).dedup))

/-! ## What is in a sequence -/

section Sequence

variable {last : Option (UInt64 × Nat)} {c : BalanceChange} {cs : List BalanceChange}

/-- Nothing but the findings of its kinds. -/
theorem mem_checkConsistent {f : Finding} : f ∈ checkConsistent last c ↔
    ∃ l ∈ last, c.initial ≠ l.2 ∧
      f = .inconsistent l.1 l.2 c.height c.initial (blocksBetween l.1 c.height) := by
  cases last with
  | none => simp [checkConsistent]
  | some l =>
      rw [checkConsistent]
      by_cases hne : c.initial ≠ l.2
      · simp [hne]
      · simp [hne]

theorem mem_checkSequence_cons {f : Finding} : f ∈ checkSequence last (c :: cs) ↔
    f ∈ checkConsistent last c ∨ f = .change c ∨
      (c.initial < c.finalBal ∧ f = .increase c.height c.initial c.finalBal) ∨
      f ∈ checkSequence (some (c.height, c.finalBal)) cs := by
  rw [checkSequence]
  by_cases hlt : c.initial < c.finalBal
  · simp [hlt]
  · simp [hlt]

/-- **A balance is reported as grown** if it has grown. -/
theorem increase_mem_checkSequence {height : UInt64} {initial finalBal : Nat} :
    .increase height initial finalBal ∈ checkSequence last cs ↔
      initial < finalBal ∧ ⟨height, initial, finalBal⟩ ∈ cs := by
  induction cs generalizing last with
  | nil => simp [checkSequence]
  | cons c cs ih =>
      rw [mem_checkSequence_cons, ih, mem_checkConsistent, List.mem_cons]
      constructor
      · rintro (⟨l, -, -, hf⟩ | hf | ⟨hlt, hf⟩ | ⟨hlt, hmem⟩)
        · cases hf
        · cases hf
        · cases hf
          exact ⟨hlt, Or.inl rfl⟩
        · exact ⟨hlt, Or.inr hmem⟩
      · rintro ⟨hlt, rfl | hmem⟩
        · exact Or.inr (Or.inr (Or.inl ⟨hlt, rfl⟩))
        · exact Or.inr (Or.inr (Or.inr ⟨hlt, hmem⟩))

/-- Two balances that should be the same are not: the one after a block, and the one before the
next. -/
def Disagree (f : Finding) (a b : BalanceChange) : Prop :=
  b.initial ≠ a.finalBal ∧
    f = .inconsistent a.height a.finalBal b.height b.initial (blocksBetween a.height b.height)

/-- **Two balances are reported to disagree** if they do, of two blocks one after the other. -/
theorem inconsistent_mem_checkSequence {lastHeight height : UInt64} {lastBalance initial : Nat}
    {between : Option UInt64} :
    .inconsistent lastHeight lastBalance height initial between ∈ checkSequence last cs ↔
      (∃ c ∈ cs.head?,
        .inconsistent lastHeight lastBalance height initial between ∈ checkConsistent last c) ∨
      ∃ a b, [a, b] <:+: cs ∧
        Disagree (.inconsistent lastHeight lastBalance height initial between) a b := by
  induction cs generalizing last with
  | nil => simp [checkSequence]
  | cons c cs ih =>
      have hnext : (∃ b ∈ cs.head?, .inconsistent lastHeight lastBalance height initial between ∈
          checkConsistent (some (c.height, c.finalBal)) b) ↔ ∃ a b, [a, b] <+: c :: cs ∧
            Disagree (.inconsistent lastHeight lastBalance height initial between) a b := by
        cases cs with
        | nil => simp [List.cons_prefix_cons]
        | cons b cs => simp [List.cons_prefix_cons, mem_checkConsistent, Disagree]
      rw [mem_checkSequence_cons, ih, hnext]
      simp only [List.infix_cons_iff, or_and_right, exists_or, List.head?_cons,
        Option.mem_some_iff, exists_eq_left', reduceCtorEq, and_false, false_or]

end Sequence

/-! ## What is in the report -/

section Report

variable {executions : List BlockExecution} {signers : List EthAddress}

theorem max_lt_iff_of_uint64 {a b c : UInt64} : max a b < c ↔ a < c ∧ b < c := by
  show (if a ≤ b then b else a) < c ↔ _
  split_ifs with hle <;> simp only [UInt64.lt_iff_toNat_lt, UInt64.le_iff_toNat_le] at * <;> omega

/-- The highest block is below a height if all blocks are. -/
theorem maxHeight_lt_iff {height : UInt64} (hpos : 0 < height) :
    maxHeight executions < height ↔ ∀ e ∈ executions, e.height < height := by
  have hfold : ∀ (heights : List UInt64) (a : UInt64), heights.foldl max a < height ↔
      a < height ∧ ∀ h ∈ heights, h < height := by
    intro heights
    induction heights with
    | nil => simp
    | cons h heights ih =>
        intro a
        rw [List.foldl_cons, ih, max_lt_iff_of_uint64, List.forall_mem_cons, and_assoc]
  rw [maxHeight, hfold, and_iff_right hpos, List.forall_mem_map]

theorem mem_verifiedHeights {height : UInt64} : height ∈ verifiedHeights ↔
    1 ≤ height ∧ height ≤ 10 := by
  rw [verifiedHeights, List.mem_map]
  simp only [List.mem_range'_1, UInt64.le_iff_toNat_le]
  constructor
  · rintro ⟨n, hn, rfl⟩
    rw [UInt64.toNat_ofNat_of_lt' (by show n < 2 ^ 64; omega)]
    exact ⟨hn.1, Nat.le_of_lt_succ hn.2⟩
  · rintro ⟨hone, hten⟩
    exact ⟨height.toNat, ⟨hone, Nat.lt_succ_of_le hten⟩, UInt64.ofNat_toNat⟩

/-- A height is missing if it should have a record and has none. -/
theorem mem_missingHeights {height : UInt64} : height ∈ missingHeights executions ↔
    1 ≤ height ∧ height ≤ 10 ∧ ∀ e ∈ executions, e.height ≠ height := by
  rw [missingHeights, List.mem_filter, mem_verifiedHeights, and_assoc]
  simp

/-- A finding of the loop over a sequence. -/
def Finding.OfSequence : Finding → Prop
  | .inconsistent .. | .change _ | .increase .. => True
  | _ => False

/-- The loop has no other findings. -/
theorem ofSequence_of_mem {last : Option (UInt64 × Nat)} {cs : List BalanceChange} {f : Finding}
    (h : f ∈ checkSequence last cs) : f.OfSequence := by
  induction cs generalizing last with
  | nil => exact absurd h List.not_mem_nil
  | cons c cs ih =>
      rcases mem_checkSequence_cons.mp h with hf | rfl | ⟨-, rfl⟩ | hmem
      · obtain ⟨l, -, -, rfl⟩ := mem_checkConsistent.mp hf
        trivial
      · trivial
      · trivial
      · exact ih hmem

theorem mem_checkNumber {e : BlockExecution} {f : Finding} : f ∈ checkNumber e ↔
    e.height ≠ e.blockNumber ∧ f = .numberMismatch e.height e.blockNumber := by
  rw [checkNumber]
  by_cases hne : e.height = e.blockNumber
  · simp [hne]
  · simp [hne]

/-- The parts of the report. -/
theorem mem_blockReport {f : Finding} : f ∈ blockReport executions signers ↔
    (∃ e ∈ executions, e.height ≠ e.blockNumber ∧
      f = .numberMismatch e.height e.blockNumber) ∨
      (∃ signer ∈ signers, f = .checking signer ∨
        f ∈ checkSequence none (sortedSequence executions signer)) ∨
      (∃ height ∈ missingHeights executions, f = .missing height) ∨
      (missingHeights executions = [] ∧ f = .allExecuted) ∨ f = .complete := by
  rw [blockReport]
  simp only [List.mem_append, List.mem_flatMap, mem_checkNumber, List.mem_cons, List.mem_map,
    List.not_mem_nil, or_false, List.mem_ite_nil_right, eq_comm (a := f), or_assoc]

/-- The records in the sequence of a signer. -/
theorem mem_sortedSequence {signer : EthAddress} {c : BalanceChange} :
    c ∈ sortedSequence executions signer ↔ ∃ e ∈ executions, e.signer = signer ∧
      e.height = c.height ∧ e.initialBalance = c.initial ∧ e.finalBalance = c.finalBal := by
  rw [sortedSequence, List.mem_insertionSort, balanceSequence, List.mem_map]
  simp only [List.mem_filter, decide_eq_true_eq, and_assoc, BalanceChange.ext_iff]

theorem numberMismatch_mem_blockReport {height number : UInt64} :
    .numberMismatch height number ∈ blockReport executions signers ↔
      height ≠ number ∧ ∃ e ∈ executions, e.height = height ∧ e.blockNumber = number := by
  rw [mem_blockReport]
  constructor
  · rintro (⟨e, he, hne, hf⟩ | ⟨signer, -, hf | hf⟩ | ⟨h, -, hf⟩ | ⟨-, hf⟩ | hf)
    · obtain ⟨rfl, rfl⟩ := Finding.numberMismatch.inj hf
      exact ⟨hne, e, he, rfl, rfl⟩
    · cases hf
    · cases ofSequence_of_mem hf
    all_goals cases hf
  · rintro ⟨hne, e, he, rfl, rfl⟩
    exact Or.inl ⟨e, he, hne, rfl⟩

/-- The findings of the loop are those of the sequences. -/
theorem ofSequence_mem_blockReport {f : Finding} (h : f.OfSequence) :
    f ∈ blockReport executions signers ↔
      ∃ signer ∈ signers, f ∈ checkSequence none (sortedSequence executions signer) := by
  rw [mem_blockReport]
  constructor
  · rintro (⟨e, -, -, rfl⟩ | ⟨signer, hsigner, rfl | hf⟩ | ⟨h, -, rfl⟩ | ⟨-, rfl⟩ | rfl)
    · cases h
    · cases h
    · exact ⟨signer, hsigner, hf⟩
    all_goals cases h
  · rintro ⟨signer, hsigner, hf⟩
    exact Or.inr (Or.inl ⟨signer, hsigner, Or.inr hf⟩)

theorem missing_mem_blockReport {height : UInt64} :
    .missing height ∈ blockReport executions signers ↔ height ∈ missingHeights executions := by
  rw [mem_blockReport]
  constructor
  · rintro (⟨e, -, -, hf⟩ | ⟨signer, -, hf | hf⟩ | ⟨h, hh, hf⟩ | ⟨-, hf⟩ | hf)
    · cases hf
    · cases hf
    · cases ofSequence_of_mem hf
    · rw [Finding.missing.inj hf]
      exact hh
    all_goals cases hf
  · exact fun hh => Or.inr (Or.inr (Or.inl ⟨height, hh, rfl⟩))

theorem allExecuted_mem_blockReport :
    .allExecuted ∈ blockReport executions signers ↔ missingHeights executions = [] := by
  rw [mem_blockReport]
  constructor
  · rintro (⟨e, -, -, hf⟩ | ⟨signer, -, hf | hf⟩ | ⟨h, -, hf⟩ | ⟨hh, -⟩ | hf)
    · cases hf
    · cases hf
    · cases ofSequence_of_mem hf
    · cases hf
    · exact hh
    · cases hf
  · exact fun hh => Or.inr (Or.inr (Or.inr (Or.inl ⟨hh, rfl⟩)))

/-- What the report says about the records. -/
structure ReportsOn (executions : List BlockExecution) (findings : List Finding) : Prop where
  mismatch : ∀ height number, .numberMismatch height number ∈ findings ↔
    height ≤ 10 ∧ height ≠ number ∧ ∃ e ∈ executions, e.height = height ∧ e.blockNumber = number
  increase : ∀ height initial finalBal, .increase height initial finalBal ∈ findings ↔
    height ≤ 10 ∧ initial < finalBal ∧ ∃ e ∈ executions, e.height = height ∧
      e.initialBalance = initial ∧ e.finalBalance = finalBal
  inconsistent : ∀ lastHeight lastBalance height initial between,
    .inconsistent lastHeight lastBalance height initial between ∈ findings ↔
      ∃ signer a b, [a, b] <:+: sortedSequence (firstTen executions) signer ∧
        Disagree (.inconsistent lastHeight lastBalance height initial between) a b
  missing : ∀ height, .missing height ∈ findings ↔
    1 ≤ height ∧ height ≤ 10 ∧ ∀ e ∈ executions, e.height ≠ height
  allExecuted : .allExecuted ∈ findings ↔
    ∀ height, 1 ≤ height → height ≤ 10 → ∃ e ∈ executions, e.height = height
  complete : .complete ∈ findings

theorem mem_firstTen {e : BlockExecution} :
    e ∈ firstTen executions ↔ e ∈ executions ∧ e.height ≤ 10 := by
  rw [firstTen, List.mem_filter, decide_eq_true_eq]

/-- Records above height ten do not count for the heights below. -/
theorem mem_missingHeights_firstTen {height : UInt64} :
    height ∈ missingHeights (firstTen executions) ↔
      1 ≤ height ∧ height ≤ 10 ∧ ∀ e ∈ executions, e.height ≠ height := by
  rw [mem_missingHeights]
  refine and_congr_right fun _ => and_congr_right fun hle => ?_
  constructor
  · intro hnone e he heq
    exact hnone e (mem_firstTen.mpr ⟨he, heq ▸ hle⟩) heq
  · exact fun hnone e he => hnone e (mem_firstTen.mp he).1

/-- **The report says what is the case**, if it has all the signers. -/
theorem reportsOn_blockReport
    (hsigners : ∀ e ∈ firstTen executions, e.signer ∈ signers) :
    ReportsOn executions (blockReport (firstTen executions) signers) where
  mismatch height number := by
    rw [numberMismatch_mem_blockReport]
    constructor
    · rintro ⟨hne, e, he, rfl, rfl⟩
      exact ⟨(mem_firstTen.mp he).2, hne, e, (mem_firstTen.mp he).1, rfl, rfl⟩
    · rintro ⟨hle, hne, e, he, rfl, rfl⟩
      exact ⟨hne, e, mem_firstTen.mpr ⟨he, hle⟩, rfl, rfl⟩
  increase height initial finalBal := by
    have hkind : (Finding.increase height initial finalBal).OfSequence := trivial
    rw [ofSequence_mem_blockReport hkind]
    constructor
    · rintro ⟨signer, -, hf⟩
      obtain ⟨hlt, hmem⟩ := increase_mem_checkSequence.mp hf
      obtain ⟨e, he, -, rfl, hbalances⟩ := mem_sortedSequence.mp hmem
      exact ⟨(mem_firstTen.mp he).2, hlt, e, (mem_firstTen.mp he).1, rfl, hbalances⟩
    · rintro ⟨hle, hlt, e, he, rfl, rfl, rfl⟩
      have hfirst := mem_firstTen.mpr ⟨he, hle⟩
      exact ⟨e.signer, hsigners e hfirst, increase_mem_checkSequence.mpr
        ⟨hlt, mem_sortedSequence.mpr ⟨e, hfirst, rfl, rfl, rfl, rfl⟩⟩⟩
  inconsistent lastHeight lastBalance height initial between := by
    have hkind :
        (Finding.inconsistent lastHeight lastBalance height initial between).OfSequence := trivial
    rw [ofSequence_mem_blockReport hkind]
    constructor
    · rintro ⟨signer, -, hf⟩
      rcases inconsistent_mem_checkSequence.mp hf with ⟨c, -, hnone⟩ | ⟨a, b, hneighbours, hf⟩
      · exact absurd hnone List.not_mem_nil
      · exact ⟨signer, a, b, hneighbours, hf⟩
    · rintro ⟨signer, a, b, hneighbours, hf⟩
      -- a signer with two records is among the signers
      obtain ⟨e, he, rfl, -⟩ := mem_sortedSequence.mp (hneighbours.subset List.mem_cons_self)
      exact ⟨e.signer, hsigners e he,
        inconsistent_mem_checkSequence.mpr (Or.inr ⟨a, b, hneighbours, hf⟩)⟩
  missing height := missing_mem_blockReport.trans mem_missingHeights_firstTen
  allExecuted := by
    rw [allExecuted_mem_blockReport, List.eq_nil_iff_forall_not_mem]
    refine forall_congr' fun height => ?_
    rw [mem_missingHeights_firstTen]
    push Not
    rfl
  complete := mem_blockReport.mpr (Or.inr (Or.inr (Or.inr (Or.inr rfl))))

end Report

/-! ## The report about a file -/

section File

variable [Reth] [EthText]

omit [Reth] [EthText] in
theorem mem_updateLast {α : Type} {p : α → Bool} {f : α → α} {es : List α} {e : α}
    (h : e ∈ updateLast p f es) : e ∈ es ∨ ∃ e' ∈ es, e = f e' := by
  induction es with
  | nil => exact Or.inl h
  | cons e' es ih =>
      rw [updateLast] at h
      split_ifs at h
      · rcases List.mem_cons.mp h with rfl | h
        · exact Or.inl List.mem_cons_self
        · rcases ih h with hmem | ⟨e'', hmem, rfl⟩
          · exact Or.inl (List.mem_cons_of_mem _ hmem)
          · exact Or.inr ⟨e'', List.mem_cons_of_mem _ hmem, rfl⟩
      · rcases List.mem_cons.mp h with rfl | h
        · exact Or.inr ⟨e', List.mem_cons_self, rfl⟩
        · exact Or.inl (List.mem_cons_of_mem _ h)
      · exact Or.inl h

/-- The reader takes the height of a record for its number. -/
def LogReader.Numbered (reader : LogReader) : Prop :=
  ∀ e ∈ reader.executions, e.height = e.blockNumber

theorem LogReader.Numbered.readLine {reader : LogReader} (h : reader.Numbered)
    (line : List Char) : (reader.readLine line).Numbered := by
  have hpush : ∀ signer balance, (reader.push signer balance).Numbered := by
    intro signer balance e he
    rcases List.mem_append.mp he with he | he
    · exact h e he
    · rw [List.mem_singleton.mp he]
  have hupdate : ∀ signer balance, (reader.update signer balance).Numbered := by
    intro signer balance e he
    rcases mem_updateLast he with he | ⟨e', he', rfl⟩
    · exact h e he
    · exact h e' he'
  rw [LogReader.readLine]
  split
  · split <;> exact h
  split
  · split <;> exact h
  split
  · split
    · exact h
    dsimp only
    split
    · split
      · exact h
      split
      · exact hpush _ _
      split
      · exact hupdate _ _
      · exact h
    · exact h
  · exact h

theorem height_eq_of_mem_readLog {text : List Char} {e : BlockExecution}
    (h : e ∈ readLog text) : e.height = e.blockNumber := by
  have hlines : ∀ (ls : List (List Char)) (reader : LogReader), reader.Numbered →
      (ls.foldl LogReader.readLine reader).Numbered := by
    intro ls
    induction ls with
    | nil => exact fun _ hreader => hreader
    | cons l ls ih => exact fun reader hreader => ih _ (hreader.readLine l)
  exact hlines _ LogReader.start nofun e h

/-- Too few blocks. -/
theorem verifyBlockLogs_of_few {iterate : List EthAddress → List EthAddress} {text : List Char}
    (h : ∀ e ∈ readLog text, e.height < 10) :
    verifyBlockLogs iterate text = .error (notEnoughBlocks (maxHeight (readLog text))) :=
  if_pos ((maxHeight_lt_iff (by decide)).mpr h)

/-- A report, which has all the signers, in whatever order. -/
theorem exists_reportsOn {iterate : List EthAddress → List EthAddress}
    (hiterate : ∀ signers, (iterate signers).Perm signers) {text : List Char}
    (h : ∃ e ∈ readLog text, 10 ≤ e.height) :
    ∃ findings, verifyBlockLogs iterate text = .ok findings ∧
      ReportsOn (readLog text) findings := by
  refine ⟨_, if_neg fun hfew => ?_, reportsOn_blockReport fun e he => ?_⟩
  · obtain ⟨e, he, hten⟩ := h
    have hlt := (maxHeight_lt_iff (by decide)).mp hfew e he
    rw [UInt64.lt_iff_toNat_lt] at hlt
    rw [UInt64.le_iff_toNat_le] at hten
    omega
  · rw [(hiterate _).mem_iff, List.mem_dedup]
    exact List.mem_map_of_mem he

/-- Either there are too few blocks or there is a report. -/
theorem few_or_ten (text : List Char) :
    (∀ e ∈ readLog text, e.height < 10) ∨ ∃ e ∈ readLog text, 10 ≤ e.height := by
  by_cases hten : ∃ e ∈ readLog text, 10 ≤ e.height
  · exact Or.inr hten
  · refine Or.inl fun e he => ?_
    have hlow : ¬ 10 ≤ e.height := fun hle => hten ⟨e, he, hle⟩
    simp only [UInt64.lt_iff_toNat_lt, UInt64.le_iff_toNat_le] at hlow ⊢
    omega

/-- **The verification of a log**, whatever is in the file and in whatever order the hash map
has its keys.  It fails exactly if there is no record of height ten or more.  Otherwise it
reports what is the case, and nothing that it finds makes it fail; that a number is not the
height it never finds. -/
theorem verifyBlockLogs_exact {iterate : List EthAddress → List EthAddress}
    (hiterate : ∀ signers, (iterate signers).Perm signers) (text : List Char) :
    ((∀ e ∈ readLog text, e.height < 10) ∧
      verifyBlockLogs iterate text = .error (notEnoughBlocks (maxHeight (readLog text)))) ∨
    (∃ e ∈ readLog text, 10 ≤ e.height) ∧
      ∃ findings, verifyBlockLogs iterate text = .ok findings ∧
        ReportsOn (readLog text) findings ∧
        ∀ height number, .numberMismatch height number ∉ findings := by
  rcases few_or_ten text with hfew | hten
  · exact Or.inl ⟨hfew, verifyBlockLogs_of_few hfew⟩
  · obtain ⟨findings, hok, hreports⟩ := exists_reportsOn hiterate hten
    refine Or.inr ⟨hten, findings, hok, hreports, fun height number hf => ?_⟩
    obtain ⟨-, hne, e, he, rfl, rfl⟩ := (hreports.mismatch height number).mp hf
    exact hne (height_eq_of_mem_readLog he)

end File

/-! ## The report about executed blocks -/

section Executed

variable [Reth] {x : Reth.Database × Bytes}

/-- A block that is executed leaves no signer with more than it had. -/
theorem notAbove_of_succeeds (h : Succeeds x) {signer : EthAddress} {initial : Nat}
    (hsigns : Signs (transactionsOf x.2) signer)
    (hbalance : getBalance x.1 ⟨signer⟩ = .ok (some initial)) :
    NotAbove (nextBlock x.2 x.1).state signer initial := by
  obtain ⟨block, hread, hall⟩ := exists_read_of_ok h
  rw [transactionsOf_eq hread] at hsigns
  rw [Succeeds] at h
  cases hexecute : executeAndAppend x.1 block with
  | error stop =>
      obtain ⟨es, hrun⟩ := nextBlock_unexecuted hread hall hexecute
      rw [hrun] at h
      cases h
  | ok db' =>
      obtain ⟨result, es, hrun, hresult⟩ := nextBlock_executed hread hall hexecute
      rw [hrun] at h ⊢
      exact hresult.mp h signer initial hsigns hbalance

/-- The records of a block that is executed have no balance that has grown. -/
theorem final_le_of_mem_recordsFor (h : Succeeds x) {r : BlockExecution}
    (hr : r ∈ recordsFor x) : r.finalBalance ≤ r.initialBalance := by
  obtain ⟨block, initials, finals, hread, heffects, hprints, -⟩ := exists_block h
  rw [recordsFor_eq hread, heffects, recordsOf, initialsOf_blockLines] at hr
  obtain ⟨⟨signer, initial⟩, he, rfl⟩ := List.mem_map.mp hr
  obtain ⟨hsigns, hbalance⟩ := (hprints.mem_iff signer initial).mp he
  rw [← transactionsOf_eq hread] at hsigns
  show (finalOf _ signer).getD initial ≤ initial
  rw [finalOf_blockLines]
  cases hfinal : finals.findSome? fun e => if e.1 = signer then some e.2 else none with
  | none => exact le_rfl
  | some final =>
      obtain ⟨e, hmem, hsome⟩ := List.exists_of_findSome?_eq_some hfinal
      obtain ⟨hsigner, hsome⟩ := Option.ite_none_right_eq_some.mp hsome
      have hread' := hprints.finals_read e hmem
      rw [hsigner, Option.some.inj hsome] at hread'
      exact (notAbove_iff hread').mp (notAbove_of_succeeds h hsigns hbalance) final rfl

/-- Some signer of the block has an account. -/
def HasAccount (x : Reth.Database × Bytes) : Prop :=
  ∃ signer balance, Signs (transactionsOf x.2) signer ∧
    getBalance x.1 ⟨signer⟩ = .ok (some balance)

theorem recordsFor_ne_nil_iff (h : Succeeds x) : recordsFor x ≠ [] ↔ HasAccount x := by
  obtain ⟨block, initials, finals, hread, heffects, hprints, -⟩ := exists_block h
  rw [recordsFor_eq hread, heffects, recordsOf, initialsOf_blockLines, Ne, List.map_eq_nil_iff,
    HasAccount, transactionsOf_eq hread]
  constructor
  · intro hne
    obtain ⟨⟨signer, balance⟩, he⟩ := List.exists_mem_of_ne_nil _ hne
    exact ⟨signer, balance, (hprints.mem_iff signer balance).mp he⟩
  · rintro ⟨signer, balance, hsigner⟩
    exact List.ne_nil_of_mem ((hprints.mem_iff signer balance).mpr hsigner)

variable [EthText]

/-- A block that is executed has a record if it has a signer with an account. -/
theorem exists_record_iff (h : Succeeds x) {height : UInt64} :
    (∃ e ∈ recordsRead x, e.height = height) ↔ blockNumber x.2 = some height ∧ HasAccount x := by
  have hsigners := recordsRead_signers h
  have hnumbered : ∀ e ∈ recordsRead x, e.height = e.blockNumber := by
    intro e he
    have hone := readLog_flatMap (List.forall_mem_singleton.mpr h)
    rw [List.flatMap_singleton, List.flatMap_singleton] at hone
    rw [← hone] at he
    exact height_eq_of_mem_readLog he
  rw [← recordsFor_ne_nil_iff h]
  constructor
  · rintro ⟨e, he, rfl⟩
    have hmem := List.mem_map_of_mem
      (f := fun r : BlockExecution => (some r.blockNumber, some r.signer)) he
    rw [hsigners] at hmem
    obtain ⟨r, hr, heq⟩ := List.mem_map.mp hmem
    refine ⟨?_, List.ne_nil_of_mem hr⟩
    rw [(Prod.mk.inj heq).1, hnumbered e he]
  · rintro ⟨hnumber, hne⟩
    obtain ⟨r, hr⟩ := List.exists_mem_of_ne_nil _ hne
    have hmem := List.mem_map_of_mem
      (f := fun _ : BlockExecution => (blockNumber x.2, firstSigner (transactionsOf x.2))) hr
    rw [← hsigners] at hmem
    obtain ⟨e, he, heq⟩ := List.mem_map.mp hmem
    rw [hnumber] at heq
    exact ⟨e, he, (hnumbered e he).trans (Option.some.inj (Prod.mk.inj heq).1)⟩

/-- **The report about blocks that have been executed**, one after the other and without an
error.  There is one if a block of height ten or more has a signer with an account.  Where each
block has one signer, no balance is reported as grown.  A height is reported as missing exactly
if no block of that number has a signer with an account, executed though the block may be. -/
theorem verifyBlockLogs_executed {iterate : List EthAddress → List EthAddress}
    (hiterate : ∀ signers, (iterate signers).Perm signers) {db : Reth.Database}
    {blocks : List Bytes} (h : ∀ x ∈ executed db blocks, Succeeds x) :
    ((∃ findings, verifyBlockLogs iterate
        (logText ((executed db blocks).flatMap printedBy)) = .ok findings) ↔
      ∃ x ∈ executed db blocks, HasAccount x ∧ ∃ n ∈ blockNumber x.2, 10 ≤ n) ∧
    ∀ findings, verifyBlockLogs iterate (logText ((executed db blocks).flatMap printedBy)) =
        .ok findings →
      ((∀ x ∈ executed db blocks, OneSigner x) →
        ∀ height initial finalBal, .increase height initial finalBal ∉ findings) ∧
      ∀ height, .missing height ∈ findings ↔ 1 ≤ height ∧ height ≤ 10 ∧
        ∀ x ∈ executed db blocks, blockNumber x.2 = some height → ¬ HasAccount x := by
  have hrecord : ∀ height, (∃ e ∈ readLog (logText ((executed db blocks).flatMap printedBy)),
      e.height = height) ↔
        ∃ x ∈ executed db blocks, blockNumber x.2 = some height ∧ HasAccount x := by
    intro height
    rw [readLog_flatMap h]
    simp only [List.mem_flatMap, ← exists_and_right]
    constructor
    · rintro ⟨e, x, ⟨hx, he⟩, hheight⟩
      exact ⟨x, hx, (exists_record_iff (h x hx)).mp ⟨e, he, hheight⟩⟩
    · rintro ⟨x, hx, hnumber⟩
      obtain ⟨e, he, hheight⟩ := (exists_record_iff (h x hx)).mpr hnumber
      exact ⟨e, x, ⟨hx, he⟩, hheight⟩
  rcases few_or_ten (logText ((executed db blocks).flatMap printedBy)) with hfew | hsome
  · rw [verifyBlockLogs_of_few hfew]
    refine ⟨iff_of_false (by simp) ?_, fun findings hok => absurd hok (by simp)⟩
    rintro ⟨x, hx, haccount, n, hn, hten⟩
    obtain ⟨e, he, rfl⟩ := (hrecord n).mpr ⟨x, hx, hn, haccount⟩
    have hlt := hfew e he
    simp only [UInt64.lt_iff_toNat_lt, UInt64.le_iff_toNat_le] at hlt hten
    omega
  · obtain ⟨findings, hfindings, hreports⟩ := exists_reportsOn hiterate hsome
    obtain ⟨e, he, hten⟩ := hsome
    obtain ⟨x, hx, hnumber, haccount⟩ := (hrecord e.height).mp ⟨e, he, rfl⟩
    rw [hfindings]
    refine ⟨iff_of_true ⟨findings, rfl⟩ ⟨x, hx, haccount, e.height, hnumber, hten⟩, ?_⟩
    rintro findings' hok
    obtain rfl := Except.ok.inj hok
    refine ⟨fun hone height initial finalBal hf => ?_, fun height => ?_⟩
    · obtain ⟨-, hlt, r, hr, -, rfl, rfl⟩ := (hreports.increase _ _ _).mp hf
      rw [readLog_flatMap h] at hr
      obtain ⟨y, hy, hr⟩ := List.mem_flatMap.mp hr
      rw [(recordsRead_eq_iff (h y hy)).mpr (hone y hy)] at hr
      exact absurd hlt (not_lt.mpr (final_le_of_mem_recordsFor (h y hy) hr))
    · rw [hreports.missing]
      refine and_congr_right fun _ => and_congr_right fun _ => ?_
      have hnone := not_congr (hrecord height)
      push Not at hnone
      exact hnone

end Executed

section Demo

attribute [local instance] demoLog demoText

/-- Two blocks of one payment, of heights one and ten. -/
def demoLogBlocks : List Bytes := [[1, 1, 3, 5], [10, 2, 3, 1]]

theorem demoLogBlocks_succeed : ∀ x ∈ executed demoChain demoLogBlocks, Succeeds x := by
  have hfirst : (nextBlock [1, 1, 3, 5] demoChain).result = .ok () := by decide +kernel
  have hsecond : (nextBlock [10, 2, 3, 1]
      (nextBlock [1, 1, 3, 5] demoChain).state).result = .ok () := by decide +kernel
  exact List.forall_mem_cons.mpr ⟨hfirst, List.forall_mem_cons.mpr
    ⟨hsecond, List.forall_mem_nil _⟩⟩

theorem verifyBlockLogs_exact_demo :
    ∃ findings, verifyBlockLogs id
        (logText ((executed demoChain demoLogBlocks).flatMap printedBy)) = .ok findings ∧
      ReportsOn [⟨1, 1, demoEthAddress 1, 10, 5⟩, ⟨10, 10, demoEthAddress 2, 10, 9⟩]
        findings := by
  have hread : readLog (logText ((executed demoChain demoLogBlocks).flatMap printedBy)) =
      [⟨1, 1, demoEthAddress 1, 10, 5⟩, ⟨10, 10, demoEthAddress 2, 10, 9⟩] := by
    rw [readLog_flatMap demoLogBlocks_succeed]
    decide +kernel
  rcases verifyBlockLogs_exact (fun signers => List.Perm.refl (id signers))
    (logText ((executed demoChain demoLogBlocks).flatMap printedBy)) with
    ⟨hfew, -⟩ | ⟨-, findings, hok, hreports, -⟩
  · rw [hread] at hfew
    exact absurd hfew (by decide)
  · rw [hread] at hreports
    exact ⟨findings, hok, hreports⟩

theorem verifyBlockLogs_executed_demo :
    ∃ findings, verifyBlockLogs id
        (logText ((executed demoChain demoLogBlocks).flatMap printedBy)) = .ok findings ∧
      .missing 1 ∉ findings ∧ .missing 2 ∈ findings := by
  have hlow : HasAccount (demoChain, [1, 1, 3, 5]) :=
    ⟨demoEthAddress 1, 10, ⟨_, List.mem_cons_self, rfl⟩, by decide +kernel⟩
  have hhigh : HasAccount ((nextBlock [1, 1, 3, 5] demoChain).state, [10, 2, 3, 1]) :=
    ⟨demoEthAddress 2, 10, ⟨_, List.mem_cons_self, rfl⟩, by decide +kernel⟩
  obtain ⟨hiff, hreport⟩ := verifyBlockLogs_executed
    (fun signers => List.Perm.refl (id signers)) demoLogBlocks_succeed
  obtain ⟨findings, hok⟩ := hiff.mpr ⟨_, List.mem_cons_of_mem _ List.mem_cons_self, hhigh, 10,
    by decide +kernel, by decide⟩
  obtain ⟨-, hmissing⟩ := hreport findings hok
  refine ⟨findings, hok, fun hone => ?_, (hmissing 2).mpr ⟨by decide, by decide, ?_⟩⟩
  · obtain ⟨-, -, hnone⟩ := (hmissing 1).mp hone
    exact hnone _ List.mem_cons_self (by decide +kernel) hlow
  · have hnumbers : ∀ x ∈ executed demoChain demoLogBlocks,
        blockNumber x.2 ≠ some 2 := by decide +kernel
    exact fun x hx hnumber => absurd hnumber (hnumbers x hx)

end Demo

end MalakethTurbo
