import Mathlib.Data.List.DropRight
import XGame3.ForStd.FixedInt

/-!
# Positions in a `std::string`

A string is the list of its characters, shorter than `npos`.  A search answers with a position, or
with `npos`, the largest `size_t`; `substr` throws, `none`, when it is asked to start beyond the
end. The lemmas give each search on a string that has been cut where the search stops.
-/

namespace CxxString

open FixedInt

universe u

variable {α : Type u}

/-- `std::string::npos`. -/
def npos (w : SizeT) : Nat := w.modulus - 1

/-- The first position from `pos` on whose character does not satisfy `p`. -/
def firstNot (w : SizeT) (p : α → Bool) (s : List α) (pos : Nat) : Nat :=
  if pos + ((s.drop pos).takeWhile p).length < s.length then
    pos + ((s.drop pos).takeWhile p).length
  else npos w

/-- The last position whose character does not satisfy `p`. -/
def lastNot (w : SizeT) (p : α → Bool) (s : List α) : Nat :=
  if s.rdropWhile p = [] then npos w else (s.rdropWhile p).length - 1

/-- `substr`. -/
def substr (s : List α) (pos n : Nat) : Option (List α) :=
  if pos ≤ s.length then some ((s.drop pos).take n) else none

section Search

variable [DecidableEq α]

/-- `find` of one character. -/
def find (w : SizeT) (c : α) (s : List α) : Nat := firstNot w (· ≠ c) s 0

/-- `find_first_not_of`. -/
def findFirstNotOf (w : SizeT) (set s : List α) (pos : Nat) : Nat :=
  firstNot w (· ∈ set) s pos

/-- `find_last_not_of`. -/
def findLastNotOf (w : SizeT) (set s : List α) : Nat := lastNot w (· ∈ set) s

end Search

/-! ### Cut strings -/

/-- What is dropped from the end of two lists. -/
theorem rdropWhile_append {p : α → Bool} (a b : List α) :
    (a ++ b).rdropWhile p =
      if b.rdropWhile p = [] then a.rdropWhile p else a ++ b.rdropWhile p := by
  induction b using List.reverseRecOn with
  | nil => simp
  | append_singleton b c ih =>
    rw [← List.append_assoc]
    by_cases hc : p c
    -- the last character goes from both sides, or from none
    · rw [List.rdropWhile_concat_pos _ _ _ hc, List.rdropWhile_concat_pos _ _ _ hc, ih]
    · rw [List.rdropWhile_concat_neg _ _ _ hc, List.rdropWhile_concat_neg _ _ _ hc]
      simp

/-- The first element of the second list that fails the test, from where it begins. -/
theorem firstNot_append (w : SizeT) (p : α → Bool) (a b : List α) :
    firstNot w p (a ++ b) a.length =
      if b.dropWhile p = [] then npos w else a.length + (b.takeWhile p).length := by
  have hcut : b.length = (b.takeWhile p).length + (b.dropWhile p).length := by
    rw [← List.length_append, List.takeWhile_append_dropWhile]
  unfold firstNot
  rw [List.drop_left, List.length_append]
  by_cases hnil : b.dropWhile p = []
  · -- every character of `b` satisfies `p`, so the search runs to the end
    rw [if_pos hnil, if_neg]
    rw [hnil] at hcut
    simp at hcut
    omega
  · have := List.length_pos_iff.2 hnil
    rw [if_neg hnil, if_pos (by omega)]

/-- Asking for a substring at `npos` throws. -/
theorem substr_npos {w : SizeT} {s : List α} (h : s.length < npos w) (n : Nat) :
    substr s (npos w) n = none :=
  if_neg (by omega)

/-- The part of two lists that begins with the second. -/
theorem substr_append (a b : List α) (n : Nat) :
    substr (a ++ b) a.length n = some (b.take n) := by
  unfold substr
  rw [if_pos (by simp), List.drop_left]

variable [DecidableEq α]

/-- A character that does not occur is not found. -/
theorem find_of_not_mem (w : SizeT) {c : α} {s : List α} (h : c ∉ s) : find w c s = npos w := by
  -- the search of the whole string, behind an empty front part
  have hcut := firstNot_append w (· ≠ c) [] s
  have hnil : s.dropWhile (· ≠ c) = [] := List.dropWhile_eq_nil_iff.2 fun b hb => by
    simpa using fun hbc : b = c => h (hbc ▸ hb)
  rw [if_pos hnil] at hcut
  exact hcut

/-- A character is found where it first occurs. -/
theorem find_append_cons (w : SizeT) {c : α} {a : List α} (h : c ∉ a) (b : List α) :
    find w c (a ++ c :: b) = a.length := by
  have hall : ∀ x ∈ a, decide (x ≠ c) = true := fun x hx => by
    simpa using fun hxc : x = c => h (hxc ▸ hx)
  have hcut := firstNot_append w (· ≠ c) [] (a ++ c :: b)
  rw [List.dropWhile_append_of_pos hall, List.takeWhile_append_of_pos hall] at hcut
  simpa [find] using hcut

end CxxString
