import Mathlib.Algebra.Group.Nat.Defs
import Mathlib.Data.List.Infix
import Mathlib.Data.List.TakeWhile

/-!
# Formatted input from a buffer of bytes

The extractions of a `std::istream` in the "C" locale, on a buffer that holds a list of
bytes.  Each gives what it read and what it left, or `none` where the stream fails.

Key results:
- `getline_append`, `word_append`, `number_append`: what is read off a buffer with a known front
- `getline_length`: a line that was read has made the buffer shorter
- `infix_line`: a delimiter of two line ends behind a line of text
- `getline_more`, `word_more`, `number_more`: what is read does not change when more arrives
-/

namespace IStream

/-- Carriage return. -/
abbrev cr : UInt8 := 13

/-- Line feed. -/
abbrev lf : UInt8 := 10

/-- The bytes of an ASCII string. -/
def ascii (s : String) : List UInt8 := s.toList.map fun c => c.toNat.toUInt8

/-- `isspace`. -/
def isSpace (b : UInt8) : Bool := b == 32 || (9 ≤ b && b ≤ 13)

/-- `isdigit`. -/
def isDigit (b : UInt8) : Bool := 48 ≤ b && b ≤ 57

/-- `std::getline`: a line without its line feed.  It fails only on an empty buffer. -/
def getline (buf : List UInt8) : Option (List UInt8 × List UInt8) :=
  if buf = [] then none
  else some (buf.takeWhile (· ≠ lf), (buf.dropWhile (· ≠ lf)).drop 1)

/-- `operator>>` for a string: the next word. -/
def word (buf : List UInt8) : Option (List UInt8 × List UInt8) :=
  let buf := buf.dropWhile isSpace
  if buf.takeWhile (!isSpace ·) = [] then none
  else some (buf.takeWhile (!isSpace ·), buf.dropWhile (!isSpace ·))

/-- The sign of a number, and what stands behind it. -/
def sign : List UInt8 → Bool × List UInt8
  | 45 :: buf => (true, buf)
  | 43 :: buf => (false, buf)
  | buf => (false, buf)

/-- The value of a list of decimal digits. -/
def decimal (digits : List UInt8) : Nat :=
  digits.foldl (fun n b => 10 * n + (b.toNat - 48)) 0

/-- `operator>>` for an unsigned number of `bits` bits. -/
def number (bits : Nat) (buf : List UInt8) : Option (Nat × List UInt8) :=
  let (negative, buf) := sign (buf.dropWhile isSpace)
  let digits := buf.takeWhile isDigit
  if digits = [] ∨ 2 ^ bits ≤ decimal digits then none
  else
    some (if negative then (2 ^ bits - decimal digits) % 2 ^ bits else decimal digits,
      buf.dropWhile isDigit)

/-! ### What is read off a buffer -/

/-- A line, when its line feed is there. -/
theorem getline_append {line : List UInt8} (rest : List UInt8) (hline : lf ∉ line) :
    getline (line ++ lf :: rest) = some (line, rest) := by
  have hpos : ∀ b ∈ line, (decide (b ≠ lf)) = true := by
    intro b hb
    have hne : b ≠ lf := fun h => hline (h ▸ hb)
    simpa using hne
  have htake := @List.takeWhile_append_of_pos _ _ _ (lf :: rest) hpos
  have hdrop := @List.dropWhile_append_of_pos _ _ _ (lf :: rest) hpos
  simp only [getline, htake, hdrop]
  simp

/-- A line that was read was there. -/
theorem getline_length {buf line rest : List UInt8} (h : getline buf = some (line, rest)) :
    rest.length < buf.length := by
  unfold getline at h
  split at h
  · cases h
  · rename_i hne
    simp only [Option.some.injEq, Prod.mk.injEq] at h
    obtain ⟨-, rfl⟩ := h
    have hpos : 0 < buf.length := List.length_pos_iff.2 hne
    have hle := (List.dropWhile_sublist (p := (· ≠ lf)) (l := buf)).length_le
    simp only [List.length_drop]
    omega

/-- A word that ends in a space. -/
theorem word_append {w : List UInt8} (rest : List UInt8) {b : UInt8} (hne : w ≠ [])
    (hw : ∀ b ∈ w, isSpace b = false) (hb : isSpace b = true) :
    word (w ++ b :: rest) = some (w, b :: rest) := by
  have hskip : (w ++ b :: rest).dropWhile isSpace = w ++ b :: rest := by
    cases w with
    | nil => exact absurd rfl hne
    | cons c w => simp [hw c (by simp)]
  have hpos : ∀ b ∈ w, (!isSpace b) = true := fun b hb => by simp [hw b hb]
  have htake := @List.takeWhile_append_of_pos _ _ _ (b :: rest) hpos
  have hdrop := @List.dropWhile_append_of_pos _ _ _ (b :: rest) hpos
  simp only [word, hskip, htake, hdrop]
  simp [hb, hne]

/-- Digits behind one space, up to a byte that is none. -/
theorem number_append {bits : Nat} {digits : List UInt8} (rest : List UInt8) {b : UInt8}
    (hne : digits ≠ []) (hdigits : ∀ b ∈ digits, isDigit b = true) (hb : isDigit b = false)
    (hfit : decimal digits < 2 ^ bits) :
    number bits (32 :: digits ++ b :: rest) = some (decimal digits, b :: rest) := by
  have hspace : isSpace 32 = true := by decide
  obtain ⟨d, ds, rfl⟩ := List.exists_cons_of_ne_nil hne
  have hd := hdigits d (by simp)
  -- a digit is neither a blank nor a sign, so both scans stop at the first one
  have hrange : 48 ≤ d ∧ d ≤ 57 := by simpa [isDigit] using hd
  have hnospace : isSpace d = false := by
    simp only [isSpace, Bool.or_eq_false_iff, beq_eq_false_iff_ne, Bool.and_eq_false_iff,
      decide_eq_false_iff_not]
    constructor
    · rintro rfl
      exact absurd hrange.1 (by decide)
    · right
      intro hle
      exact absurd (UInt8.le_trans hrange.1 hle) (by decide)
  have hskip : (32 :: (d :: ds) ++ b :: rest).dropWhile isSpace = d :: ds ++ b :: rest := by
    simp [hspace, hnospace]
  have hsign : sign (d :: ds ++ b :: rest) = (false, d :: ds ++ b :: rest) := by
    have h45 : d ≠ 45 := by rintro rfl; exact absurd hrange.1 (by decide)
    have h43 : d ≠ 43 := by rintro rfl; exact absurd hrange.1 (by decide)
    simp [sign, h45, h43]
  -- the digits end where the other byte stands
  have htake := @List.takeWhile_append_of_pos _ _ _ (b :: rest) hdigits
  have hdrop := @List.dropWhile_append_of_pos _ _ _ (b :: rest) hdigits
  have hstop : List.takeWhile isDigit (b :: rest) = [] := by simp [hb]
  have hleave : List.dropWhile isDigit (b :: rest) = b :: rest := by simp [hb]
  rw [number, hskip, hsign]
  simp only [htake, hdrop, hstop, hleave, List.append_nil]
  rw [if_neg (by simpa using hfit)]
  simp

/-! ### Delimiters -/

/-- One line end. -/
abbrev crlf : List UInt8 := [cr, lf]

/-- A line end and a blank line. -/
abbrev crlf2 : List UInt8 := [cr, lf, cr, lf]

/-- A line end cannot begin inside a text without carriage returns. -/
theorem infix_text {text delim : List UInt8} (rest : List UInt8) (htext : cr ∉ text) :
    cr :: delim <:+: text ++ rest ↔ cr :: delim <:+: rest := by
  induction text with
  | nil => rfl
  | cons b text ih =>
    have hb : cr ≠ b := fun h => htext (by simp [h])
    have ih := ih fun h => htext (List.mem_cons_of_mem b h)
    rw [List.cons_append, List.infix_cons_iff, List.cons_prefix_cons, ih]
    simp [hb]

/-- Two line ends in a row behind a line of text: the first of them is the line's own, or both are
    behind it. -/
theorem infix_line {text : List UInt8} (rest : List UInt8) (htext : cr ∉ text) :
    crlf2 <:+: text ++ crlf ++ rest ↔ crlf <+: rest ∨ crlf2 <:+: rest := by
  have hne : cr ≠ lf := by decide
  rw [List.append_assoc, infix_text _ htext]
  -- one step over each byte of the line end
  simp [hne, List.infix_cons_iff, List.cons_prefix_cons]

/-- A part of a front either has all of a shorter front, or lies in it before its end. -/
theorem prefix_or_prefix_dropLast {p front rest : List UInt8} (h : p <+: front ++ rest) :
    front <+: p ∨ p <+: front.dropLast := by
  by_cases hle : front.length ≤ p.length
  · exact .inl (List.prefix_of_prefix_length_le (List.prefix_append ..) h hle)
  · right
    have hp : p <+: front :=
      List.prefix_of_prefix_length_le h (List.prefix_append ..) (by omega)
    exact List.prefix_of_prefix_length_le hp (List.dropLast_prefix front) (by
      rw [List.length_dropLast]; omega)

/-! ### More input -/

section More

variable {p : UInt8 → Bool} {buf rest more : List UInt8} {b : UInt8}

/-- A front that stops before the end stops there whatever follows. -/
theorem takeWhile_more (h : buf.dropWhile p ≠ []) (more : List UInt8) :
    (buf ++ more).takeWhile p = buf.takeWhile p ∧
      (buf ++ more).dropWhile p = buf.dropWhile p ++ more := by
  constructor
  · rw [List.takeWhile_append, if_neg]
    intro hall
    have hsplit := congrArg List.length (List.takeWhile_append_dropWhile (p := p) (l := buf))
    rw [List.length_append] at hsplit
    have hpos := List.length_pos_iff.2 h
    omega
  · rw [List.dropWhile_append, if_neg (by simpa using h)]

/-- What is left of a buffer ends as the buffer does. -/
theorem last_of_suffix (hbuf : [b] <:+ buf) (hrest : rest <:+ buf) (hne : rest ≠ []) :
    [b] <:+ rest :=
  List.suffix_of_suffix_length_le hbuf hrest (List.length_pos_iff.2 hne)

/-- What stops at the last byte leaves that byte. -/
theorem last_dropWhile (hbuf : [b] <:+ buf) (hb : p b = false) : [b] <:+ buf.dropWhile p := by
  refine last_of_suffix hbuf (List.dropWhile_suffix p) fun hnil => ?_
  have hall := List.dropWhile_eq_nil_iff.1 hnil b (hbuf.subset (List.mem_singleton_self b))
  rw [hb] at hall
  cases hall

theorem getline_more (h : lf ∈ buf) (more : List UInt8) :
    getline (buf ++ more) = (getline buf).map fun r => (r.1, r.2 ++ more) := by
  have hne : buf ≠ [] := List.ne_nil_of_mem h
  have hdrop : buf.dropWhile (· ≠ lf) ≠ [] := fun hnil => by
    simpa using List.dropWhile_eq_nil_iff.1 hnil lf h
  obtain ⟨htake, hleft⟩ := takeWhile_more hdrop more
  have hpos := List.length_pos_iff.2 hdrop
  simp only [getline, if_neg hne, if_neg (List.append_ne_nil_of_left_ne_nil hne more), htake, hleft,
    Option.map_some]
  rw [List.drop_append_of_le_length hpos]

/-- A word from a buffer that ends in a space. -/
theorem word_more (hb : isSpace b = true) (hlast : [b] <:+ buf) {w : List UInt8}
    (h : word buf = some (w, rest)) (more : List UInt8) :
    word (buf ++ more) = some (w, rest ++ more) ∧ [b] <:+ rest := by
  simp only [word] at h
  split at h
  · cases h
  · rename_i hne
    obtain ⟨rfl, rfl⟩ := Prod.mk.inj (Option.some.inj h)
    have hskip : buf.dropWhile isSpace ≠ [] := fun hnil => hne (by rw [hnil]; rfl)
    have hlast' := last_of_suffix hlast (List.dropWhile_suffix isSpace) hskip
    have hend := last_dropWhile hlast' (p := (!isSpace ·)) (by simp [hb])
    have hend' : (buf.dropWhile isSpace).dropWhile (!isSpace ·) ≠ [] := fun hnil => by
      simp [hnil] at hend
    obtain ⟨-, hleft⟩ := takeWhile_more hskip more
    obtain ⟨htake, hleft'⟩ := takeWhile_more hend' more
    refine ⟨?_, hend⟩
    simp only [word, hleft, htake, hleft', if_neg hne]

theorem sign_more (hne : buf ≠ []) (more : List UInt8) :
    sign (buf ++ more) = ((sign buf).1, (sign buf).2 ++ more) := by
  obtain ⟨c, buf, rfl⟩ := List.exists_cons_of_ne_nil hne
  rw [List.cons_append]
  unfold sign
  split <;> split <;> simp_all

theorem sign_suffix (buf : List UInt8) : (sign buf).2 <:+ buf := by
  unfold sign
  split
  · exact List.suffix_cons _ _
  · exact List.suffix_cons _ _
  · exact List.suffix_refl _

/-- A number from a buffer that ends in what is no digit. -/
theorem number_more {bits n : Nat} (hb : isDigit b = false) (hlast : [b] <:+ buf)
    (h : number bits buf = some (n, rest)) (more : List UInt8) :
    number bits (buf ++ more) = some (n, rest ++ more) ∧ [b] <:+ rest := by
  simp only [number] at h
  split at h
  · cases h
  · rename_i hdigits
    rw [not_or] at hdigits
    obtain ⟨hsome, hfit⟩ := hdigits
    obtain ⟨rfl, rfl⟩ := Prod.mk.inj (Option.some.inj h)
    -- what is scanned is not empty, since some digit is read
    have hnil : ∀ l : List UInt8, l.takeWhile isDigit ≠ [] → l ≠ [] := fun l hl hnil =>
      hl (by rw [hnil]; rfl)
    have hsigned := hnil _ hsome
    have hskip : buf.dropWhile isSpace ≠ [] := fun hnil => hsigned (by rw [hnil]; rfl)
    -- the last byte stays last through each scan
    have hlast' := last_of_suffix hlast (List.dropWhile_suffix isSpace) hskip
    have hlast'' := last_of_suffix hlast' (sign_suffix _) hsigned
    have hend := last_dropWhile hlast'' hb
    have hend' : (sign (buf.dropWhile isSpace)).2.dropWhile isDigit ≠ [] := fun hnil => by
      simp [hnil] at hend
    obtain ⟨-, hleft⟩ := takeWhile_more hskip more
    obtain ⟨htake, hleft'⟩ := takeWhile_more hend' more
    refine ⟨?_, hend⟩
    simp only [number, hleft, sign_more hskip, htake, hleft', if_neg (not_or.2 ⟨hsome, hfit⟩)]

end More

end IStream
