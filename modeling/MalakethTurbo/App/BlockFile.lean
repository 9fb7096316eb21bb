import MalakethTurbo.App.State

/-!
# The file of blocks

The tool that makes test blocks writes each block behind its length, and a node reads them
back one by one.  A file may be cut off anywhere.  What a node reads of it is the blocks
that lie wholly before the cut; then it finds that the file is over if the cut is between
blocks or within a length, and fails if the cut is within a block.  In no case does it
read a block that was not written (`readBlock_reads_back`).
-/

namespace MalakethTurbo

open Wire (Bytes)

/-! ## Writing -/

/-- A block as it is written: its length, cast to `u32`, and the block. -/
def frame (block : Bytes) : Bytes := u32Bytes (UInt32.ofNat block.length) ++ block

/-- What `generate_test_blocks` writes, of blocks that have been serialised. -/
def generateTestBlocks (blocks : List Bytes) : Bytes := blocks.flatMap frame

/-- Where a block begins in the file. -/
def offset (blocks : List Bytes) (n : Nat) : Nat := (generateTestBlocks (blocks.take n)).length

theorem generateTestBlocks_cons (block : Bytes) (blocks : List Bytes) :
    generateTestBlocks (block :: blocks) = frame block ++ generateTestBlocks blocks :=
  List.flatMap_cons

@[simp] theorem length_frame (block : Bytes) : (frame block).length = 4 + block.length := by
  rw [frame, List.length_append, length_u32Bytes]

@[simp] theorem offset_zero (blocks : List Bytes) : offset blocks 0 = 0 := rfl

theorem offset_succ (block : Bytes) (blocks : List Bytes) (n : Nat) :
    offset (block :: blocks) (n + 1) = 4 + block.length + offset blocks n := by
  rw [offset, List.take_succ_cons, generateTestBlocks_cons, List.length_append, length_frame,
    offset]

theorem offset_le (blocks : List Bytes) (n : Nat) :
    offset blocks n ≤ (generateTestBlocks blocks).length := by
  have hsplit : generateTestBlocks blocks =
      generateTestBlocks (blocks.take n) ++ generateTestBlocks (blocks.drop n) := by
    rw [generateTestBlocks, generateTestBlocks, generateTestBlocks, ← List.flatMap_append,
      List.take_append_drop]
  rw [offset, hsplit, List.length_append]
  exact Nat.le_add_right _ _

/-! ## Reading -/

namespace BlockProposer

/-- What the calls of `read_block` return, one after the other. -/
def answer (p : BlockProposer) : Nat → Call AppError (Option Bytes)
  | 0 => p.readBlock.1
  | i + 1 => p.readBlock.2.answer i

theorem lengthOf_u32Bytes {n : Nat} (h : n < 2 ^ 32) :
    lengthOf (u32Bytes (UInt32.ofNat n)) = n := by
  rw [u32Bytes, UInt32.toNat_ofNat_of_lt' h]
  exact foldl_beBytes (by omega)

section Reading

variable {block rest : Bytes} {k : Nat}

/-- A cut within the length. -/
theorem readBlock_of_short {b : Bytes} (h : b.length < 4) :
    readBlock ⟨b⟩ = (.ok none, ⟨[]⟩) := by
  rw [readBlock, if_pos h]

/-- A file with a whole length is read as far as it says. -/
theorem readBlock_of_length {b : Bytes} {n : Nat} (hn : n < 2 ^ 32) :
    readBlock ⟨u32Bytes (UInt32.ofNat n) ++ b⟩ =
      if b.length < n then (.error (.err .io), ⟨[]⟩) else (.ok (some (b.take n)), ⟨b.drop n⟩) := by
  have htake : (u32Bytes (UInt32.ofNat n) ++ b).take 4 = u32Bytes (UInt32.ofNat n) :=
    List.take_left' (length_u32Bytes _)
  have hdrop : (u32Bytes (UInt32.ofNat n) ++ b).drop 4 = b :=
    List.drop_left' (length_u32Bytes _)
  have hlong : ¬ (u32Bytes (UInt32.ofNat n) ++ b).length < 4 := by
    rw [List.length_append, length_u32Bytes]
    omega
  rw [readBlock, if_neg hlong]
  simp only [htake, hdrop, lengthOf_u32Bytes hn]

/-- What a cut beyond the length of the first block leaves. -/
theorem take_frame_append (h : 4 ≤ k) :
    (frame block ++ rest).take k =
      u32Bytes (UInt32.ofNat block.length) ++ (block ++ rest).take (k - 4) := by
  rw [frame, List.append_assoc, List.take_append, length_u32Bytes,
    List.take_of_length_le (by rw [length_u32Bytes]; exact h)]

/-- A cut within the length or within the block. -/
theorem readBlock_of_cut (hblock : block.length < 2 ^ 32) (h : k < 4 + block.length) :
    readBlock ⟨(frame block ++ rest).take k⟩ =
      (if 4 ≤ k then .error (.err .io) else .ok none, ⟨[]⟩) := by
  by_cases hlow : 4 ≤ k
  · have hshort : ((block ++ rest).take (k - 4)).length < block.length := by
      rw [List.length_take]
      omega
    rw [take_frame_append hlow, readBlock_of_length hblock, if_pos hshort, if_pos hlow]
  · have hshort : ((frame block ++ rest).take k).length < 4 := by
      rw [List.length_take]
      omega
    rw [readBlock_of_short hshort, if_neg hlow]

/-- No cut within the block. -/
theorem readBlock_of_whole (hblock : block.length < 2 ^ 32) (h : 4 + block.length ≤ k) :
    readBlock ⟨(frame block ++ rest).take k⟩ =
      (.ok (some block), ⟨rest.take (k - (4 + block.length))⟩) := by
  have hlong : ¬ ((block ++ rest).take (k - 4)).length < block.length := by
    rw [List.length_take, List.length_append]
    omega
  have hsplit : (block ++ rest).take (k - 4) =
      block ++ rest.take (k - (4 + block.length)) := by
    rw [List.take_append, List.take_of_length_le (by omega), Nat.sub_sub]
  rw [take_frame_append (by omega), readBlock_of_length hblock, if_neg hlong, hsplit,
    List.take_left' rfl, List.drop_left' rfl]

theorem answer_nil (i : Nat) : answer ⟨[]⟩ i = .ok none := by
  induction i with
  | zero => rfl
  | succ i ih => exact ih

end Reading

end BlockProposer

/-! ## What is read of a file that is cut off -/

/-- What a node reads of the first `k` bytes of the file, when the cut comes after `n` whole
blocks. -/
structure ReadsBack (blocks : List Bytes) (k n : Nat) : Prop where
  /-- The first `n` blocks are whole. -/
  within : offset blocks n ≤ k
  /-- The next one is not. -/
  last : n < blocks.length → k < offset blocks (n + 1)
  /-- The whole blocks are read, in order. -/
  answers : ∀ i < n,
    BlockProposer.answer ⟨(generateTestBlocks blocks).take k⟩ i = .ok blocks[i]?
  /-- Then the reading fails if the cut is within a block, and else the file is over. -/
  ending : BlockProposer.answer ⟨(generateTestBlocks blocks).take k⟩ n =
    if n < blocks.length ∧ offset blocks n + 4 ≤ k then .error (.err .io) else .ok none
  /-- Nothing is read after that. -/
  after : ∀ i > n, BlockProposer.answer ⟨(generateTestBlocks blocks).take k⟩ i = .ok none

namespace ReadsBack

open BlockProposer

variable {block : Bytes} {blocks : List Bytes} {k n : Nat}

/-- A file without a block. -/
theorem nil (k : Nat) : ReadsBack [] k 0 where
  within := Nat.zero_le k
  last := by
    intro h
    cases h
  answers := by
    intro i hi
    cases hi
  ending := by
    rw [generateTestBlocks, List.flatMap_nil, List.take_nil, answer_nil, if_neg (by simp)]
  after := by
    intro i _
    rw [generateTestBlocks, List.flatMap_nil, List.take_nil, answer_nil]

/-- A cut within the first block or its length. -/
theorem of_cut (hblock : block.length < 2 ^ 32) (h : k < 4 + block.length) :
    ReadsBack (block :: blocks) k 0 := by
  have hread : readBlock ⟨(generateTestBlocks (block :: blocks)).take k⟩ =
      (if 4 ≤ k then .error (.err .io) else .ok none, ⟨[]⟩) := by
    rw [generateTestBlocks_cons]
    exact readBlock_of_cut hblock h
  refine ⟨Nat.zero_le k, ?_, ?_, ?_, ?_⟩
  · intro _
    rw [offset_succ]
    omega
  · intro i hi
    cases hi
  · rw [answer, hread, offset_zero, Nat.zero_add]
    exact if_congr (and_iff_right (Nat.zero_lt_succ _)).symm rfl rfl
  · intro i hi
    obtain ⟨i, rfl⟩ := Nat.exists_eq_succ_of_ne_zero (Nat.ne_of_gt hi)
    rw [answer, hread, answer_nil]

/-- A cut after the first block, from what is read of the others. -/
theorem cons (hblock : block.length < 2 ^ 32) (h : 4 + block.length ≤ k)
    (hrest : ReadsBack blocks (k - (4 + block.length)) n) :
    ReadsBack (block :: blocks) k (n + 1) := by
  have hread : readBlock ⟨(generateTestBlocks (block :: blocks)).take k⟩ =
      (.ok (some block), ⟨(generateTestBlocks blocks).take (k - (4 + block.length))⟩) := by
    rw [generateTestBlocks_cons]
    exact readBlock_of_whole hblock h
  have hwithin := hrest.within
  refine ⟨?_, ?_, ?_, ?_, ?_⟩
  · rw [offset_succ]
    omega
  · intro hn
    have hlast := hrest.last (Nat.lt_of_succ_lt_succ hn)
    rw [offset_succ]
    omega
  · intro i hi
    cases i with
    | zero => rw [answer, hread, List.getElem?_cons_zero]
    | succ i =>
        rw [answer, hread, hrest.answers i (Nat.lt_of_succ_lt_succ hi), List.getElem?_cons_succ]
  · rw [answer, hread, hrest.ending, offset_succ, List.length_cons]
    have hsame : n + 1 < blocks.length + 1 ∧ 4 + block.length + offset blocks n + 4 ≤ k ↔
        n < blocks.length ∧ offset blocks n + 4 ≤ k - (4 + block.length) := by
      omega
    rw [if_congr hsame rfl rfl]
  · intro i hi
    cases i with
    | zero => cases hi
    | succ i => rw [answer, hread, hrest.after i (Nat.lt_of_succ_lt_succ hi)]

end ReadsBack

/-- By induction on the blocks: what is left of the cut is a cut of what is left. -/
theorem exists_readsBack {blocks : List Bytes} (hsmall : ∀ b ∈ blocks, b.length < 2 ^ 32) :
    ∀ k, ∃ n ≤ blocks.length, ReadsBack blocks k n := by
  induction blocks with
  | nil =>
      intro k
      exact ⟨0, Nat.le_refl 0, ReadsBack.nil k⟩
  | cons block blocks ih =>
      rw [List.forall_mem_cons] at hsmall
      obtain ⟨hblock, hblocks⟩ := hsmall
      intro k
      by_cases hcut : k < 4 + block.length
      · exact ⟨0, Nat.zero_le _, ReadsBack.of_cut hblock hcut⟩
      · obtain ⟨n, hn, hrest⟩ := ih hblocks (k - (4 + block.length))
        exact ⟨n + 1, Nat.succ_le_succ hn, ReadsBack.cons hblock (by omega) hrest⟩

/-- The whole file is a cut after the last block. -/
theorem answer_whole {blocks : List Bytes} (hsmall : ∀ b ∈ blocks, b.length < 2 ^ 32) (i : Nat) :
    BlockProposer.answer ⟨generateTestBlocks blocks⟩ i = .ok blocks[i]? := by
  obtain ⟨n, hn, hreads⟩ := exists_readsBack hsmall (generateTestBlocks blocks).length
  have hwhole : blocks.length ≤ n := by
    by_contra hless
    have hlast := hreads.last (by omega)
    have hle := offset_le blocks (n + 1)
    omega
  have hanswers := hreads.answers
  have hending := hreads.ending
  have hafter := hreads.after
  rw [List.take_length] at hanswers hending hafter
  rcases Nat.lt_trichotomy i n with hlt | rfl | hgt
  · exact hanswers i hlt
  · rw [hending, if_neg (by omega), List.getElem?_eq_none hwhole]
  · rw [hafter i hgt, List.getElem?_eq_none (by omega)]

/-- **Of a file that is cut off anywhere a node reads the whole blocks, in order, and then
nothing that was not written.**  The reading ends without an error if the cut is between two
blocks or within a length, and with one if it is within a block.  Of the whole file every
block is read, and then nothing. -/
theorem readBlock_reads_back {blocks : List Bytes} (hsmall : ∀ b ∈ blocks, b.length < 2 ^ 32) :
    (∀ k, ∃ n ≤ blocks.length, ReadsBack blocks k n) ∧
      ∀ i, BlockProposer.answer ⟨generateTestBlocks blocks⟩ i = .ok blocks[i]? :=
  ⟨exists_readsBack hsmall, answer_whole hsmall⟩

/-- A file with an empty block, cut within the block after it: the empty block is read. -/
theorem readBlock_reads_back_demo :
    (∀ b ∈ ([[], [1, 2, 3]] : List Bytes), b.length < 2 ^ 32) ∧
      (∃ n ≤ 2, ReadsBack [[], [1, 2, 3]] 9 n) ∧
      BlockProposer.answer ⟨generateTestBlocks [[], [1, 2, 3]]⟩ 1 = .ok (some [1, 2, 3]) := by
  have hsmall : ∀ b ∈ ([[], [1, 2, 3]] : List Bytes), b.length < 2 ^ 32 := by decide
  have hreads := readBlock_reads_back hsmall
  exact ⟨hsmall, hreads.1 9, hreads.2 1⟩

end MalakethTurbo
