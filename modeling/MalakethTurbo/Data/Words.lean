import Mathlib.Data.List.Infix
import Mathlib.Tactic.Common

/-!
# Words and lines

A text is a list of characters.  Its words are the longest runs without a break, and words
that are joined by single breaks are read back (`words_intercalate`).  A pattern with a break
in it can only be found across the end of a word, so a text is searched word by word
(`exists_suffix_of_infix`).  Lines that are written one after the other, each behind the last
one's line break, are read back as they are (`lines_append`).
-/

namespace MalakethTurbo
namespace Text

variable {α : Type} {isBreak : α → Bool} {sep : α}

/-! ## Words -/

/-- The longest runs of characters that are no breaks. -/
def words (isBreak : α → Bool) (text : List α) : List (List α) :=
  (text.splitOnP isBreak).filter fun w => !w.isEmpty

/-- A word is not empty and has no break. -/
structure IsWord (isBreak : α → Bool) (w : List α) : Prop where
  ne_nil : w ≠ []
  letters : ∀ c ∈ w, isBreak c = false

@[simp] theorem words_nil : words isBreak [] = [] := by
  simp [words]

/-- What is joined by a break is split at it. -/
theorem splitOnP_intercalate (hsep : isBreak sep = true) {ws : List (List α)} (hne : ws ≠ [])
    (h : ∀ w ∈ ws, ∀ c ∈ w, isBreak c = false) :
    ([sep].intercalate ws).splitOnP isBreak = ws := by
  induction ws with
  | nil => exact absurd rfl hne
  | cons w ws ih =>
      rw [List.forall_mem_cons] at h
      cases ws with
      | nil => rw [List.intercalate_singleton, List.splitOnP_eq_singleton h.1]
      | cons w' ws =>
          rw [List.intercalate_cons_cons, List.append_assoc, List.singleton_append,
            List.splitOnP_append_cons _ _ hsep, List.splitOnP_eq_singleton h.1,
            ih (List.cons_ne_nil _ _) h.2, List.singleton_append]

/-- **Words that are joined by a break are read back.** -/
theorem words_intercalate (hsep : isBreak sep = true) {ws : List (List α)}
    (h : ∀ w ∈ ws, IsWord isBreak w) : words isBreak ([sep].intercalate ws) = ws := by
  by_cases hne : ws = []
  · rw [hne]
    exact words_nil
  · rw [words, splitOnP_intercalate hsep hne fun w hw => (h w hw).letters]
    refine List.filter_eq_self.mpr fun w hw => ?_
    simpa using (h w hw).ne_nil

/-- What is joined is of the words and the breaks between them. -/
theorem eq_or_exists_mem_of_mem_intercalate {ws : List (List α)} {c : α}
    (h : c ∈ [sep].intercalate ws) : c = sep ∨ ∃ w ∈ ws, c ∈ w := by
  induction ws with
  | nil => cases h
  | cons w ws ih =>
      cases ws with
      | nil =>
          rw [List.intercalate_singleton] at h
          exact Or.inr ⟨w, List.mem_cons_self, h⟩
      | cons w' ws =>
          rw [List.intercalate_cons_cons, List.append_assoc, List.mem_append] at h
          rcases h with hw | hrest
          · exact Or.inr ⟨w, List.mem_cons_self, hw⟩
          · rcases List.mem_cons.mp hrest with hsep | hrest
            · exact Or.inl hsep
            · rcases ih hrest with hsep | ⟨v, hv, hc⟩
              · exact Or.inl hsep
              · exact Or.inr ⟨v, List.mem_cons_of_mem _ hv, hc⟩

/-! ## Searching -/

/-- The piece that a break ends. -/
theorem exists_splitOnP_append {u : List α} (hu : ∀ c ∈ u, isBreak c = false) (s : List α) :
    ∃ ws w, (s ++ u).splitOnP isBreak = ws ++ [w] ∧ u <:+ w := by
  induction s with
  | nil =>
      refine ⟨[], u, ?_, List.suffix_rfl⟩
      rw [List.nil_append, List.splitOnP_eq_singleton hu, List.nil_append]
  | cons c s ih =>
      obtain ⟨ws, w, hsplit, hsuffix⟩ := ih
      rw [List.cons_append, List.splitOnP_cons_eq_if_modifyHead, hsplit]
      by_cases hc : isBreak c = true
      · exact ⟨[] :: ws, w, by rw [if_pos hc]; rfl, hsuffix⟩
      · rw [if_neg hc]
        cases ws with
        | nil => exact ⟨[], c :: w, rfl, hsuffix.trans (List.suffix_cons c w)⟩
        | cons w' ws => exact ⟨(c :: w') :: ws, w, rfl, hsuffix⟩

/-- **A pattern with a break in it** is found only where a word that is not the last one ends
as the pattern does before the break. -/
theorem exists_suffix_of_infix (hsep : isBreak sep = true) {u v : List α}
    (hu : ∀ c ∈ u, isBreak c = false) {ws : List (List α)} (hws : ∀ w ∈ ws, IsWord isBreak w)
    (h : u ++ sep :: v <:+: [sep].intercalate ws) : ∃ w ∈ ws.dropLast, u <:+ w := by
  obtain ⟨s, t, hst⟩ := h
  have hne : ws ≠ [] := by
    rintro rfl
    simp at hst
  have hsplit := splitOnP_intercalate hsep hne fun w hw => (hws w hw).letters
  obtain ⟨ws', w, hleft, hsuffix⟩ := exists_splitOnP_append hu s
  rw [← hst, List.append_assoc, List.append_assoc, ← List.append_assoc s,
    List.cons_append, List.splitOnP_append_cons _ _ hsep, hleft] at hsplit
  refine ⟨w, ?_, hsuffix⟩
  rw [← hsplit, List.dropLast_append_of_ne_nil (List.splitOnP_ne_nil _ _)]
  exact List.mem_append_left _ (List.mem_append_right _ List.mem_cons_self)

/-! ## Lines -/

/-- A line without the carriage return at its end. -/
def stripReturn (line : List Char) : List Char :=
  if line.getLast? = some '\r' then line.dropLast else line

/-- `BufRead::lines`: what comes before each line break, and what is left after the last one
if that is anything. -/
def lines (text : List Char) : List (List Char) :=
  let pieces := text.splitOnP (· == '\n')
  pieces.dropLast.map stripReturn ++ pieces.getLast?.toList.filter fun rest => !rest.isEmpty

/-- A line as it is printed. -/
structure IsLine (line : List Char) : Prop where
  one : ∀ c ∈ line, (c == '\n') = false
  ending : line.getLast? ≠ some '\r'

/-- **A line behind its line break is read first.** -/
theorem lines_append {line : List Char} (h : IsLine line) (rest : List Char) :
    lines (line ++ '\n' :: rest) = line :: lines rest := by
  have hpieces := List.splitOnP_ne_nil (· == '\n') rest
  rw [lines, List.splitOnP_append_cons _ _ (by decide), List.splitOnP_eq_singleton h.one,
    List.singleton_append, List.dropLast_cons_of_ne_nil hpieces,
    List.getLast?_cons_of_ne_nil hpieces, List.map_cons, stripReturn, if_neg h.ending]
  rfl

end Text
end MalakethTurbo
