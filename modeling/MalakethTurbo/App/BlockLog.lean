import MalakethTurbo.App.BlockExecutor
import MalakethTurbo.Data.Words

/-!
# The log of the executed blocks

`next_block` prints the number of the block, the signer of its first transaction, and the
balances of its signers before and after, each behind the address it belongs to.
`verify_block_logs` reads these lines back into one record for each balance before a block.
Every line is read as what it says (`readLine_line`), but for the address of a balance: the
signer of a record is taken from the line of the first transaction.
-/

namespace MalakethTurbo

open Text
open Wire (Bytes)

/-! ## The text of a line -/

/-- `char::is_whitespace`. -/
def isWhitespace (c : Char) : Bool :=
  (9 ≤ c.toNat && c.toNat ≤ 13) || c.toNat = 0x20 || c.toNat = 0x85 || c.toNat = 0xA0 ||
    c.toNat = 0x1680 || (0x2000 ≤ c.toNat && c.toNat ≤ 0x200A) || c.toNat = 0x2028 ||
    c.toNat = 0x2029 || c.toNat = 0x202F || c.toNat = 0x205F || c.toNat = 0x3000

section BlockLog

variable [Reth]

/-- What `println!` writes for each of the lines of `next_block`, up to its line break. -/
def Printed.text : Printed → String
  | .executingBlock number => s!"\nExecuting block {number}..."
  | .transactionSigner signer =>
      let address := Reth.display signer
      s!"Transaction signer: {address}"
  | .initialBalance signer balance =>
      let address := Reth.display signer
      s!"Initial balance for {address}: {balance}"
  | .finalBalance signer balance =>
      let address := Reth.display signer
      s!"Final balance for {address}: {balance}"

/-- The file that the lines are written to. -/
def logText (es : List Printed) : List Char := es.flatMap fun e => e.text.toList ++ ['\n']

/-- How addresses and balances are read.  An address is read from what it is displayed as,
and a balance, which has 256 bits, from its decimal digits. -/
class EthText where
  addressFromStr : List Char → Option EthAddress
  u256FromStr : List Char → Option Nat
  display_isWord : ∀ address, IsWord isWhitespace (Reth.display address).toList
  addressFromStr_display : ∀ address,
    addressFromStr (Reth.display address).toList = some address
  u256FromStr_toDigits : ∀ n < 2 ^ 256, u256FromStr (Nat.toDigits 10 n) = some n
  balance_lt : ∀ {provider address account},
    Reth.basicAccount provider address = .ok (some account) → account.balance < 2 ^ 256

/-! ## The reader -/

/-- `BlockExecution`. -/
structure BlockExecution where
  height : UInt64
  blockNumber : UInt64
  signer : EthAddress
  initialBalance : Nat
  finalBalance : Nat
  deriving DecidableEq

/-- What the loop over the lines carries. -/
structure LogReader where
  executions : List BlockExecution
  currentHeight : UInt64
  currentSigner : Option EthAddress

/-- Before the first line. -/
def LogReader.start : LogReader := ⟨[], 0, none⟩

/-- `str::contains`. -/
def contains (line : List Char) (pattern : String) : Bool := decide (pattern.toList <:+: line)

/-- `str::starts_with`. -/
def startsWith (line : List Char) (pattern : String) : Bool := decide (pattern.toList <+: line)

/-- A number may be written with a plus before it. -/
def dropPlus : List Char → List Char
  | '+' :: s => s
  | s => s

/-- `str::parse::<u64>`. -/
def parseU64 (s : List Char) : Option UInt64 :=
  let digits := dropPlus s
  if digits.isEmpty || !digits.all Char.isDigit then none
  else
    let n := Nat.ofDigitChars 10 digits 0
    if n < 2 ^ 64 then some (UInt64.ofNat n) else none

/-- Without the dots it begins with, as far as they come in threes. -/
def trimDots : List Char → List Char
  | '.' :: '.' :: '.' :: s => trimDots s
  | s => s

/-- `trim_end_matches("...")`. -/
def trimEndDots (s : List Char) : List Char := (trimDots s.reverse).reverse

/-- `iter_mut().rev().find`, and what is done to what it finds. -/
def updateLast {α : Type} (p : α → Bool) (f : α → α) : List α → List α
  | [] => []
  | e :: es =>
      if es.any p then e :: updateLast p f es else if p e then f e :: es else e :: es

/-- The line of an initial balance. -/
def LogReader.push (reader : LogReader) (signer : EthAddress) (balance : Nat) : LogReader :=
  { reader with
    executions := reader.executions ++
      [⟨reader.currentHeight, reader.currentHeight, signer, balance, balance⟩] }

/-- The line of a final balance. -/
def LogReader.update (reader : LogReader) (signer : EthAddress) (balance : Nat) : LogReader :=
  { reader with
    executions := updateLast
      (fun e => decide (e.height = reader.currentHeight ∧ e.signer = signer))
      (fun e => { e with finalBalance := balance }) reader.executions }

/-- `verify_block_logs`, its loop over the lines.  The address of a balance is not read. -/
def LogReader.readLine [EthText] (reader : LogReader) (line : List Char) : LogReader :=
  if contains line "Executing block" then
    match ((words isWhitespace line)[2]?).bind fun s => parseU64 (trimEndDots s) with
    | some height => { reader with currentHeight := height }
    | none => reader
  else if contains line "Transaction signer:" then
    match (words isWhitespace line).getLast?.bind EthText.addressFromStr with
    | some signer => { reader with currentSigner := some signer }
    | none => reader
  else if contains line "balance for" then
    match reader.currentSigner with
    | none => reader
    | some signer =>
        let parts := words isWhitespace line
        if 2 ≤ parts.length then
          match EthText.u256FromStr (parts.getLast?.getD ['0']) with
          | none => reader
          | some balance =>
              if startsWith line "Initial" then reader.push signer balance
              else if startsWith line "Final" then reader.update signer balance
              else reader
        else reader
  else reader

/-- The records that `verify_block_logs` reads from a file. -/
def readLog [EthText] (text : List Char) : List BlockExecution :=
  ((lines text).foldl LogReader.readLine LogReader.start).executions

/-! ## The words of a line -/

/-- The words of the line of a balance, behind its first. -/
def balanceParts (signer : EthAddress) (balance : Nat) : List (List Char) :=
  ["balance".toList, "for".toList, (Reth.display signer).toList ++ [':'], Nat.toDigits 10 balance]

/-- The words of a line that is printed. -/
def Printed.parts : Printed → List (List Char)
  | .executingBlock number =>
      ["Executing".toList, "block".toList, Nat.toDigits 10 number.toNat ++ "...".toList]
  | .transactionSigner signer =>
      ["Transaction".toList, "signer:".toList, (Reth.display signer).toList]
  | .initialBalance signer balance => "Initial".toList :: balanceParts signer balance
  | .finalBalance signer balance => "Final".toList :: balanceParts signer balance

/-- The line itself. -/
def Printed.line (e : Printed) : List Char := [' '].intercalate e.parts

/-- The line of a block comes behind an empty one. -/
theorem Printed.text_toList (e : Printed) :
    e.text.toList = match e with
      | .executingBlock _ => '\n' :: e.line
      | _ => e.line := by
  cases e with
  | executingBlock number =>
      show (s!"\nExecuting block {number}...").toList = '\n' :: line _
      simp [line, parts, List.intercalate, toString]
  | transactionSigner signer =>
      let address := Reth.display signer
      show (s!"Transaction signer: {address}").toList = line _
      simp [line, parts, List.intercalate, toString, address]
  | initialBalance signer balance =>
      let address := Reth.display signer
      show (s!"Initial balance for {address}: {balance}").toList = line _
      simp [line, parts, balanceParts, List.intercalate, toString, address]
  | finalBalance signer balance =>
      let address := Reth.display signer
      show (s!"Final balance for {address}: {balance}").toList = line _
      simp [line, parts, balanceParts, List.intercalate, toString, address]

omit [Reth] in
theorem isWhitespace_of_isDigit {c : Char} (h : c.isDigit = true) : isWhitespace c = false := by
  have hbounds : 48 ≤ c.toNat ∧ c.toNat ≤ 57 := by
    simp only [Char.isDigit, Bool.and_eq_true, decide_eq_true_eq] at h
    exact ⟨UInt32.le_iff_toNat_le.mp h.1, UInt32.le_iff_toNat_le.mp h.2⟩
  simp only [isWhitespace, Bool.or_eq_false_iff, Bool.and_eq_false_iff, decide_eq_false_iff_not]
  omega

omit [Reth] in
theorem toDigits_isWord (n : Nat) : IsWord isWhitespace (Nat.toDigits 10 n) where
  ne_nil := Nat.toDigits_ne_nil
  letters _ hc := isWhitespace_of_isDigit (Nat.isDigit_of_mem_toDigits (by omega) (by omega) hc)

omit [Reth] in
theorem letters_of_all {w : List Char} (h : (w.all fun c => !isWhitespace c) = true) :
    ∀ c ∈ w, isWhitespace c = false := by
  intro c hc
  simpa using List.all_eq_true.mp h c hc

omit [Reth] in
/-- A word with letters behind it. -/
theorem isWord_append {w v : List Char} (h : IsWord isWhitespace w)
    (hv : ∀ c ∈ v, isWhitespace c = false) : IsWord isWhitespace (w ++ v) where
  ne_nil := List.append_ne_nil_of_left_ne_nil h.ne_nil v
  letters := List.forall_mem_append.mpr ⟨h.letters, hv⟩

theorem Printed.isWord_parts [EthText] (e : Printed) :
    ∀ w ∈ e.parts, IsWord isWhitespace w := by
  have hword : ∀ w ∈ ["Executing".toList, "block".toList, "Transaction".toList,
      "signer:".toList, "Initial".toList, "Final".toList, "balance".toList, "for".toList],
      IsWord isWhitespace w := by
    have hall : ∀ w ∈ ["Executing".toList, "block".toList, "Transaction".toList,
        "signer:".toList, "Initial".toList, "Final".toList, "balance".toList, "for".toList],
        w ≠ [] ∧ (w.all fun c => !isWhitespace c) = true := by decide
    exact fun w hw => ⟨(hall w hw).1, letters_of_all (hall w hw).2⟩
  have hdisplay : ∀ address, IsWord isWhitespace (Reth.display address).toList :=
    EthText.display_isWord
  have hbalance : ∀ signer balance, ∀ w ∈ balanceParts signer balance,
      IsWord isWhitespace w := by
    intro signer balance
    simp only [balanceParts, List.forall_mem_cons]
    exact ⟨hword _ (by simp), hword _ (by simp),
      isWord_append (hdisplay signer) (letters_of_all rfl), toDigits_isWord balance, nofun⟩
  cases e with
  | executingBlock number =>
      simp only [parts, List.forall_mem_cons]
      exact ⟨hword _ (by simp), hword _ (by simp),
        isWord_append (toDigits_isWord _) (letters_of_all rfl), nofun⟩
  | transactionSigner signer =>
      simp only [parts, List.forall_mem_cons]
      exact ⟨hword _ (by simp), hword _ (by simp), hdisplay signer, nofun⟩
  | initialBalance signer balance =>
      exact List.forall_mem_cons.mpr ⟨hword _ (by simp), hbalance signer balance⟩
  | finalBalance signer balance =>
      exact List.forall_mem_cons.mpr ⟨hword _ (by simp), hbalance signer balance⟩

theorem Printed.words_line [EthText] (e : Printed) : words isWhitespace e.line = e.parts :=
  words_intercalate (by decide) e.isWord_parts

/-- Printed lines are read as lines. -/
theorem Printed.isLine [EthText] (e : Printed) : IsLine e.line := by
  have hmem : ∀ c ∈ e.line, c = ' ' ∨ isWhitespace c = false := by
    intro c hc
    rcases eq_or_exists_mem_of_mem_intercalate hc with hspace | ⟨w, hw, hcw⟩
    · exact Or.inl hspace
    · exact Or.inr ((e.isWord_parts w hw).letters c hcw)
  constructor
  · intro c hc
    rw [beq_eq_false_iff_ne]
    rintro rfl
    exact absurd (hmem _ hc) (by decide)
  · intro hreturn
    exact absurd (hmem _ (List.mem_of_getLast? hreturn)) (by decide)

/-- What no word before the last one ends with is not found before a space. -/
theorem Printed.not_infix_line [EthText] (e : Printed) {u v : List Char}
    (hu : ∀ c ∈ u, isWhitespace c = false) (h : ∀ w ∈ e.parts.dropLast, ¬ u <:+ w) :
    ¬ u ++ ' ' :: v <:+: e.line := by
  intro hinfix
  obtain ⟨w, hw, hsuffix⟩ := exists_suffix_of_infix (by decide) hu e.isWord_parts hinfix
  exact h w hw hsuffix

/-! ## What a line contains -/

theorem Printed.contains_executingBlock (number : UInt64) :
    contains (executingBlock number).line "Executing block" = true :=
  decide_eq_true ⟨[], ' ' :: (Nat.toDigits 10 number.toNat ++ "...".toList), by
    simp [line, parts, List.intercalate]⟩

theorem Printed.contains_transactionSigner (signer : EthAddress) :
    contains (transactionSigner signer).line "Transaction signer:" = true :=
  decide_eq_true ⟨[], ' ' :: (Reth.display signer).toList, by
    simp [line, parts, List.intercalate]⟩

theorem Printed.not_contains_transactionSigner [EthText] (signer : EthAddress) :
    contains (transactionSigner signer).line "Executing block" = false := by
  have hword : ∀ c ∈ "Executing".toList, isWhitespace c = false := letters_of_all rfl
  refine decide_eq_false (not_infix_line (transactionSigner signer) hword ?_)
  show ∀ w ∈ ["Transaction".toList, "signer:".toList], _
  decide

theorem Printed.startsWith_initialBalance (signer : EthAddress) (balance : Nat) :
    startsWith (initialBalance signer balance).line "Initial" = true :=
  decide_eq_true ⟨' ' :: [' '].intercalate (balanceParts signer balance), by
    simp [line, parts, balanceParts, List.intercalate]⟩

theorem Printed.startsWith_finalBalance (signer : EthAddress) (balance : Nat) :
    startsWith (finalBalance signer balance).line "Final" = true :=
  decide_eq_true ⟨' ' :: [' '].intercalate (balanceParts signer balance), by
    simp [line, parts, balanceParts, List.intercalate]⟩

theorem Printed.not_startsWith_finalBalance (signer : EthAddress) (balance : Nat) :
    startsWith (finalBalance signer balance).line "Initial" = false := by
  refine decide_eq_false ?_
  rintro ⟨rest, hrest⟩
  exact absurd (List.cons.inj hrest).1 (by decide)

section Balance

variable {e : Printed} {first : List Char} {signer : EthAddress} {balance : Nat}
  (he : e.parts = first :: balanceParts signer balance)

include he

theorem Printed.contains_balance : contains e.line "balance for" = true := by
  refine decide_eq_true ⟨first ++ [' '], ' ' :: ((Reth.display signer).toList ++ ':' :: ' ' ::
    Nat.toDigits 10 balance), ?_⟩
  rw [line, he]
  simp [balanceParts, List.intercalate]

/-- The address is followed by a colon, and so does not end as the word that is looked for. -/
theorem Printed.not_infix_line_balance [EthText] {u v : List Char}
    (hu : u ∈ ["Executing".toList, "Transaction".toList]) (hfirst : ¬ u <:+ first) :
    ¬ u ++ ' ' :: v <:+: e.line := by
  have hletters : ∀ u ∈ ["Executing".toList, "Transaction".toList],
      (u.all fun c => !isWhitespace c) = true ∧ ¬ u <:+ "balance".toList ∧
        ¬ u <:+ "for".toList ∧ u ≠ [] ∧ u.getLast? ≠ some ':' := by decide
  obtain ⟨hword, hbalance, hfor, hne, hlast⟩ := hletters u hu
  refine e.not_infix_line (letters_of_all hword) ?_
  rw [he]
  show ∀ w ∈ [first, "balance".toList, "for".toList, _ ++ [':']], _
  simp only [List.forall_mem_cons]
  refine ⟨hfirst, hbalance, hfor, fun hsuffix => ?_, nofun⟩
  have hcolon := hsuffix.getLast hne
  rw [List.getLast_append_singleton] at hcolon
  exact hlast (by rw [List.getLast?_eq_some_getLast hne, hcolon])

end Balance

/-! ## Numbers -/

omit [Reth] in
theorem trimEndDots_digits {digits : List Char} (h : ∀ c ∈ digits, c.isDigit = true) :
    trimEndDots (digits ++ "...".toList) = digits := by
  have hnot : ∀ s : List Char, (∀ c ∈ s, c.isDigit = true) → trimDots s = s := by
    intro s hs
    rw [trimDots.eq_def]
    split
    · exact absurd (hs '.' (by simp)) (by decide)
    · rfl
  have hdots : trimDots ('.' :: '.' :: '.' :: digits.reverse) = trimDots digits.reverse := rfl
  rw [trimEndDots, List.reverse_append]
  show (trimDots ('.' :: '.' :: '.' :: digits.reverse)).reverse = digits
  rw [hdots, hnot _ fun c hc => h c (List.mem_reverse.mp hc), List.reverse_reverse]

omit [Reth] in
/-- The number of a block is read back. -/
theorem parseU64_toDigits (n : UInt64) : parseU64 (Nat.toDigits 10 n.toNat) = some n := by
  have hdigits : ∀ c ∈ Nat.toDigits 10 n.toNat, c.isDigit = true := fun c hc =>
    Nat.isDigit_of_mem_toDigits (by omega) (by omega) hc
  have hplus : dropPlus (Nat.toDigits 10 n.toNat) = Nat.toDigits 10 n.toNat := by
    rw [dropPlus.eq_def]
    split
    · rename_i rest h
      rw [h] at hdigits
      exact absurd (hdigits '+' List.mem_cons_self) (by decide)
    · rfl
  have hall : ((Nat.toDigits 10 n.toNat).isEmpty || !(Nat.toDigits 10 n.toNat).all Char.isDigit)
      = false := by
    rw [Bool.or_eq_false_iff, List.isEmpty_eq_false_iff, Bool.not_eq_false', List.all_eq_true]
    exact ⟨Nat.toDigits_ne_nil, hdigits⟩
  rw [parseU64, hplus, hall, if_neg Bool.false_ne_true, Nat.ofDigitChars_ten_toDigits,
    if_pos n.toNat_lt, UInt64.ofNat_toNat]

/-! ## Reading what was printed -/

/-- What the reader does with a line of `next_block`: it keeps the number of the block and
the signer of the first transaction, and gives every balance to that signer. -/
def LogReader.see (reader : LogReader) : Printed → LogReader
  | .executingBlock number => { reader with currentHeight := number }
  | .transactionSigner signer => { reader with currentSigner := some signer }
  | .initialBalance _ balance =>
      match reader.currentSigner with
      | none => reader
      | some signer => reader.push signer balance
  | .finalBalance _ balance =>
      match reader.currentSigner with
      | none => reader
      | some signer => reader.update signer balance

/-- The balance on a line, if it has one, has 256 bits. -/
def Printed.Fits : Printed → Prop
  | .initialBalance _ balance => balance < 2 ^ 256
  | .finalBalance _ balance => balance < 2 ^ 256
  | _ => True

section ReadLine

variable [EthText] (reader : LogReader)

theorem readLine_balance {e : Printed} {first : List Char} {signer : EthAddress} {balance : Nat}
    (he : e.parts = first :: balanceParts signer balance)
    (hexecuting : ¬ "Executing".toList <:+ first)
    (htransaction : ¬ "Transaction".toList <:+ first) (hfits : balance < 2 ^ 256) :
    reader.readLine e.line =
      match reader.currentSigner with
      | none => reader
      | some signer =>
          if startsWith e.line "Initial" then reader.push signer balance
          else if startsWith e.line "Final" then reader.update signer balance
          else reader := by
  have hblock : contains e.line "Executing block" = false :=
    decide_eq_false (Printed.not_infix_line_balance he (List.mem_cons_self) hexecuting)
  have hsigner : contains e.line "Transaction signer:" = false :=
    decide_eq_false (Printed.not_infix_line_balance he (by simp) htransaction)
  have hlast : e.parts.getLast?.getD ['0'] = Nat.toDigits 10 balance := by
    rw [he]
    rfl
  have hlength : 2 ≤ e.parts.length := by
    rw [he]
    exact Nat.le_add_left 2 3
  rw [LogReader.readLine, hblock, if_neg Bool.false_ne_true, hsigner, if_neg Bool.false_ne_true,
    if_pos (Printed.contains_balance he), e.words_line]
  cases reader.currentSigner with
  | none => rfl
  | some signer =>
      dsimp only
      rw [if_pos hlength, hlast, EthText.u256FromStr_toDigits balance hfits]

/-- **The line of a balance, a signer or a block is read as what it says**, but for the
address of a balance. -/
theorem readLine_line {e : Printed} (hfits : e.Fits) : reader.readLine e.line = reader.see e := by
  cases e with
  | executingBlock number =>
      have hdigits : ∀ c ∈ Nat.toDigits 10 number.toNat, c.isDigit = true := fun c hc =>
        Nat.isDigit_of_mem_toDigits (by omega) (by omega) hc
      have hword : (Printed.executingBlock number).parts[2]? =
          some (Nat.toDigits 10 number.toNat ++ "...".toList) := rfl
      rw [LogReader.readLine, if_pos (Printed.contains_executingBlock number),
        Printed.words_line, hword, Option.bind_some, trimEndDots_digits hdigits,
        parseU64_toDigits]
      rfl
  | transactionSigner signer =>
      have hlast : (Printed.transactionSigner signer).parts.getLast? =
          some (Reth.display signer).toList := rfl
      rw [LogReader.readLine, Printed.not_contains_transactionSigner,
        if_neg Bool.false_ne_true, if_pos (Printed.contains_transactionSigner signer),
        Printed.words_line, hlast, Option.bind_some, EthText.addressFromStr_display]
      rfl
  | initialBalance signer balance =>
      rw [readLine_balance reader (e := .initialBalance signer balance) rfl (by decide)
        (by decide) hfits, Printed.startsWith_initialBalance]
      rfl
  | finalBalance signer balance =>
      rw [readLine_balance reader (e := .finalBalance signer balance) rfl (by decide)
        (by decide) hfits, Printed.startsWith_finalBalance, Printed.not_startsWith_finalBalance]
      rfl

/-- **The log is read as the lines that were printed.** -/
theorem foldl_readLine_logText {es : List Printed} (hfits : ∀ e ∈ es, e.Fits) :
    (lines (logText es)).foldl LogReader.readLine reader = es.foldl LogReader.see reader := by
  induction es generalizing reader with
  | nil => rfl
  | cons e es ih =>
      rw [List.forall_mem_cons] at hfits
      have hcons : logText (e :: es) = e.text.toList ++ '\n' :: logText es := by
        rw [logText, logText, List.flatMap_cons, List.append_assoc, List.singleton_append]
      have hline := lines_append e.isLine (logText es)
      have hrest : (lines (e.line ++ '\n' :: logText es)).foldl LogReader.readLine reader =
          (e :: es).foldl LogReader.see reader := by
        rw [hline, List.foldl_cons, List.foldl_cons, readLine_line reader hfits.1]
        exact ih (reader.see e) hfits.2
      rw [hcons, Printed.text_toList]
      cases e with
      | executingBlock number =>
          -- the empty line before it is no line that is looked for
          have hempty : IsLine [] := ⟨nofun, nofun⟩
          exact (congrArg (List.foldl LogReader.readLine reader)
            (lines_append hempty _)).trans hrest
      | transactionSigner signer => exact hrest
      | initialBalance signer balance => exact hrest
      | finalBalance signer balance => exact hrest

end ReadLine

end BlockLog
end MalakethTurbo
