import FiniteDomain.Text.Split
import Mathlib.Data.List.DropRight
/-!
# Words and lines

A blank character divides the words of a text and belongs to none of them, so that blank ends can
be trimmed. Lines that are each ended by a line feed are read back as they are.
-/
namespace FiniteDomain.Text

def trim (cs : List Char) : List Char := (cs.dropWhile isBlank).rdropWhile isBlank

variable {isSeparator : Char → Bool} {cs ds token : List Char} {c s : Char}

theorem split_append (hs : isSeparator s = true) (cs ds : List Char) :
    split isSeparator (cs ++ s :: ds) = split isSeparator cs ++ split isSeparator ds := by
  induction cs with
  | nil => simp [split, hs]
  | cons c cs ih =>
    rw [List.cons_append, split, split, ih]
    by_cases hc : isSeparator c = true
    · rw [if_pos hc, if_pos hc, List.cons_append]
    · rw [if_neg hc, if_neg hc]
      cases hsplit : split isSeparator cs with
      | nil => exact absurd hsplit (split_ne_nil isSeparator cs)
      | cons piece pieces => rfl

theorem words_append (hs : isBlank s = true) (cs ds : List Char) :
    words (cs ++ s :: ds) = words cs ++ words ds := by
  rw [words, split_append hs, List.filter_append]
  rfl

theorem words_cons_of_blank (hs : isBlank s = true) (cs : List Char) : words (s :: cs) = words cs :=
  words_append hs [] cs

theorem words_concat_of_blank (hs : isBlank s = true) (cs : List Char) :
    words (cs ++ [s]) = words cs := by
  rw [words_append hs]
  exact List.append_nil _

theorem words_of_all (hne : token ≠ []) (h : ∀ c ∈ token, isBlank c = false) :
    words token = [token] := by
  rw [words, split_of_all h, List.filter_cons_of_pos (by simpa using hne), List.filter_nil]

theorem exists_words_cons (hc : isBlank c = false) (cs : List Char) :
    ∃ word rest, words (c :: cs) = (c :: word) :: rest := by
  have hnot : ¬isBlank c = true := by simp [hc]
  rw [words, split, if_neg hnot]
  cases split isBlank cs with
  | nil => exact ⟨[], [], rfl⟩
  | cons piece pieces => exact ⟨piece, pieces.filter (!·.isEmpty), rfl⟩

theorem words_dropWhile (cs : List Char) : words (cs.dropWhile isBlank) = words cs := by
  induction cs with
  | nil => rfl
  | cons c cs ih =>
    by_cases hc : isBlank c = true
    · rw [List.dropWhile_cons_of_pos hc, ih, words_cons_of_blank hc]
    · rw [List.dropWhile_cons_of_neg hc]

theorem words_rdropWhile (cs : List Char) : words (cs.rdropWhile isBlank) = words cs := by
  induction cs using List.reverseRecOn with
  | nil => rfl
  | append_singleton cs c ih =>
    by_cases hc : isBlank c = true
    · rw [List.rdropWhile_concat_pos _ _ _ hc, ih, words_concat_of_blank hc]
    · rw [List.rdropWhile_concat_neg _ _ _ hc]

@[simp] theorem words_trim (cs : List Char) : words (trim cs) = words cs := by
  rw [trim, words_rdropWhile, words_dropWhile]

theorem not_isBlank_of_trim (h : trim cs = c :: ds) : isBlank c = false := by
  have hpre : trim cs <+: cs.dropWhile isBlank := List.rdropWhile_prefix _ _
  rw [h] at hpre
  obtain ⟨rest, hrest⟩ := hpre
  have hhead := List.head?_dropWhile_not isBlank cs
  rw [← hrest] at hhead
  simpa using hhead

/-- Lines that are each ended by a line feed are the lines of the text. -/
theorem lines_flatMap {ls : List (List Char)} (h : ∀ l ∈ ls, ∀ c ∈ l, c ≠ '\n' ∧ c ≠ '\r') :
    lines (ls.flatMap (· ++ ['\n'])) = ls := by
  induction ls with
  | nil => rfl
  | cons l ls ih =>
    rw [List.flatMap_cons, List.append_assoc, List.singleton_append,
      lines_append_cons (h l (List.mem_cons_self ..)),
      ih fun l' hl' => h l' (List.mem_cons_of_mem _ hl')]

end FiniteDomain.Text
