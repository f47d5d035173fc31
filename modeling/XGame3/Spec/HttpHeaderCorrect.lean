import XGame3.Native.HttpHeader

/-!
# The content type of a response

`HeaderFunction` cuts two bytes too many off the end of the value, and the length it cuts to is
an unsigned difference that wraps for a value of less than two bytes.  Only a value of one byte
at the very end of the line comes out right; after a value of blanks alone the start is `npos`
and `substr` throws.

## Key results

- `headerFunction_colon` / `headerFunction_no_colon`: what a line does
- `stored_eq_trimmed_iff`: the values that come out right
- `headerHandled_iff`: the lines that are handled as they should be
-/

namespace XGame3.Http

open FixedInt CxxString

variable {w : SizeT} {key text header : List UInt8}

/-! ### What a line says -/

/-- The text before the first colon. -/
def headerKey (header : List UInt8) : List UInt8 := header.takeWhile (· ≠ colon)

/-- The text after the first colon. -/
def headerText (header : List UInt8) : List UInt8 := (header.dropWhile (· ≠ colon)).tail

/-- A text without leading blanks and without trailing blanks and line ends. -/
def trimmed (text : List UInt8) : List UInt8 :=
  (text.dropWhile (· ∈ blanks)).rdropWhile (· ∈ lineEnds)

/-- The line gives a content type. -/
def GivesContentType (header : List UInt8) : Prop :=
  colon ∈ header ∧ (headerKey header).map toLower = contentTypeKey.map toLower

/-- What the callback should do with a line: it returns, says that all bytes are taken, and stores
    the content type if the line gives one. -/
def HeaderHandled (w : SizeT) (header : List UInt8) : Prop :=
  ∀ (blob : ResponseBlob) (size nmemb : Nat), size * nmemb = header.length →
    ∃ blob', headerFunction w blob header size nmemb = some (size * nmemb, blob') ∧
      (GivesContentType header → blob' = blob.setContentType (trimmed (headerText header))) ∧
      (¬ GivesContentType header → blob' = blob)

/-- Blanks and then one byte that is not cut off. -/
def OneByte (text : List UInt8) : Prop :=
  ∃ (n : Nat) (c : UInt8), text = List.replicate n 32 ++ [c] ∧ c ∉ lineEnds

/-- A line is its key, the colon and its text. -/
theorem header_eq (h : colon ∈ header) :
    header = headerKey header ++ colon :: headerText header := by
  have hne : header.dropWhile (· ≠ colon) ≠ [] := fun hnil => by
    simpa using List.dropWhile_eq_nil_iff.1 hnil colon h
  have hhead := List.head_dropWhile_not (· ≠ colon) hne
  have hcut := List.takeWhile_append_dropWhile (p := (· ≠ colon)) (l := header)
  rw [← List.cons_head_tail hne, show (header.dropWhile (· ≠ colon)).head hne = colon by
    simpa using hhead] at hcut
  exact hcut.symm

theorem not_mem_headerKey (header : List UInt8) : colon ∉ headerKey header := fun h => by
  simpa using List.mem_takeWhile_imp h

/-! ### The callback -/

/-- What the callback stores for a text, `none` when `substr` throws. -/
def stored (text : List UInt8) : Option (List UInt8) :=
  if text.dropWhile (· ∈ blanks) = [] then none
  else if (trimmed text).length < 2 then some (text.dropWhile (· ∈ blanks))
  else some ((trimmed text).take ((trimmed text).length - 2))

/-- The first byte of the value, searched from behind the colon. -/
private theorem startPos_eq (w : SizeT) (key text : List UInt8) :
    findFirstNotOf w blanks (key ++ colon :: text) (key.length + 1) =
      if text.dropWhile (· ∈ blanks) = [] then npos w
      else key.length + 1 + (text.takeWhile (· ∈ blanks)).length := by
  have h := firstNot_append w (· ∈ blanks) (key ++ [colon]) text
  simpa [findFirstNotOf] using h

/-- The last byte of the value, or the colon when there is none. -/
private theorem endPos_eq (w : SizeT) (key text : List UInt8) :
    findLastNotOf w lineEnds (key ++ colon :: text) =
      if trimmed text = [] then key.length
      else key.length + (text.takeWhile (· ∈ blanks)).length + (trimmed text).length := by
  -- the blanks before the value are no line ends
  have hblanks : (text.takeWhile (· ∈ blanks)).rdropWhile (· ∈ lineEnds) = [] := by
    rw [List.rdropWhile_eq_nil_iff]
    intro b hb
    have := List.mem_takeWhile_imp hb
    simp [blanks] at this
    simp [this, lineEnds]
  have htext : text.rdropWhile (· ∈ lineEnds) =
      if trimmed text = [] then [] else text.takeWhile (· ∈ blanks) ++ trimmed text := by
    conv_lhs => rw [← List.takeWhile_append_dropWhile (p := (· ∈ blanks)) (l := text)]
    rw [rdropWhile_append, hblanks]
    rfl
  have hkey : (key ++ [colon]).rdropWhile (· ∈ lineEnds) = key ++ [colon] :=
    List.rdropWhile_concat_neg _ _ _ (by decide)
  unfold findLastNotOf lastNot
  rw [List.append_cons, rdropWhile_append, htext, hkey]
  -- the last byte is the colon, or the last of the trimmed value
  by_cases hnil : trimmed text = []
  · simp [hnil]
  · have := List.length_pos_iff.2 hnil
    simp [hnil]
    omega

/-- A length that wraps takes all there is. -/
private theorem take_wrap_neg {l : List UInt8} {n : Nat} (hpos : 0 < n)
    (hfit : n + l.length ≤ w.modulus) : l.take (w.wrap (-(n : Int))) = l := by
  apply List.take_of_length_le
  rw [SizeT.wrap_neg hpos (by omega)]
  omega

/-- The `substr` that cuts the value out. -/
private theorem substr_value (hlen : (key ++ colon :: text).length < npos w) :
    substr (key ++ colon :: text) (findFirstNotOf w blanks (key ++ colon :: text) (key.length + 1))
      (w.wrap ((findLastNotOf w lineEnds (key ++ colon :: text) : Int) -
        findFirstNotOf w blanks (key ++ colon :: text) (key.length + 1) - 1)) = stored text := by
  unfold stored
  rw [startPos_eq, endPos_eq]
  by_cases hrest : text.dropWhile (· ∈ blanks) = []
  · rw [if_pos hrest, if_pos hrest, substr_npos hlen]
  have hcut := List.takeWhile_append_dropWhile (p := (· ∈ blanks)) (l := text)
  have hprefix : trimmed text <+: text.dropWhile (· ∈ blanks) := List.rdropWhile_prefix _ _
  rw [if_neg hrest, if_neg hrest]
  generalize text.takeWhile (· ∈ blanks) = lead at *
  generalize text.dropWhile (· ∈ blanks) = rest at *
  generalize trimmed text = value at *
  subst hcut
  have hstart := substr_append (key ++ colon :: lead) rest
  simp only [List.length_append, List.length_cons, List.append_assoc, List.cons_append]
    at hstart hlen
  rw [show key.length + 1 + lead.length = key.length + (lead.length + 1) by omega, hstart]
  unfold npos at hlen
  by_cases hshort : value.length < 2
  · -- the unsigned length wraps
    rw [if_pos hshort]
    congr 1
    by_cases hnil : value = []
    · rw [if_pos hnil, show (key.length : Int) - (key.length + (lead.length + 1) : Nat) - 1 =
        -((lead.length + 2 : Nat) : Int) by omega]
      exact take_wrap_neg (by omega) (by omega)
    · have := List.length_pos_iff.2 hnil
      rw [if_neg hnil, show ((key.length + lead.length + value.length : Nat) : Int) -
        (key.length + (lead.length + 1) : Nat) - 1 = -((1 : Nat) : Int) by omega]
      exact take_wrap_neg (by omega) (by omega)
  · obtain ⟨rest', rfl⟩ := hprefix
    have hnil : value ≠ [] := by
      rintro rfl
      exact hshort (by simp)
    rw [List.length_append] at hlen
    rw [if_neg hshort, if_neg hnil, show ((key.length + lead.length + value.length : Nat) : Int) -
      (key.length + (lead.length + 1) : Nat) - 1 = ((value.length - 2 : Nat) : Int) by omega,
      SizeT.wrap_natCast (by omega), List.take_append_of_le_length (by omega)]

/-- The product of the sizes is the length of the line, and does not wrap. -/
theorem wrap_lineSize {size nmemb : Nat} (hlen : header.length < npos w)
    (hsize : size * nmemb = header.length) : w.wrap ((size : Int) * nmemb) = size * nmemb := by
  have hmod : npos w < w.modulus := by cases w <;> decide
  rw [← Int.natCast_mul]
  exact SizeT.wrap_natCast (by omega)

/-- What a line of a key, a colon and a text does. -/
theorem headerFunction_line {size nmemb : Nat} (hkey : colon ∉ key)
    (hlen : (key ++ colon :: text).length < npos w)
    (hsize : size * nmemb = (key ++ colon :: text).length) (blob : ResponseBlob) :
    headerFunction w blob (key ++ colon :: text) size nmemb =
      if strcaseEq key contentTypeKey then
        (stored text).map fun value => (size * nmemb, blob.setContentType value)
      else some (size * nmemb, blob) := by
  have hmod : npos w < w.modulus := by cases w <;> decide
  have hwrap := wrap_lineSize hlen hsize
  have hfound : find w colon (key ++ colon :: text) = key.length := find_append_cons w hkey text
  have hbehind : w.wrap ((key.length : Int) + 1) = key.length + 1 :=
    SizeT.wrap_natCast (n := key.length + 1) (by simp at hlen; omega)
  have hsub : substr (key ++ colon :: text) 0 key.length = some key := by
    have := substr_append [] (key ++ colon :: text) key.length
    rwa [List.nil_append, List.take_left] at this
  -- all bytes are taken, and the key is what stands before the colon
  unfold headerFunction
  simp only [hwrap, hsize, List.take_length, hfound, hsub, hbehind]
  rw [if_pos (by simp at hlen; omega)]
  by_cases hmatch : strcaseEq key contentTypeKey
  · -- the one branch that is left of the callback
    rw [if_pos hmatch, if_pos hmatch, SizeT.wrap_wrap_sub, substr_value hlen]
    cases stored text <;> rfl
  · rw [if_neg hmatch, if_neg hmatch]

/-- What a line with a colon does. -/
theorem headerFunction_colon {size nmemb : Nat} (hcolon : colon ∈ header)
    (hlen : header.length < npos w) (hsize : size * nmemb = header.length) (blob : ResponseBlob) :
    headerFunction w blob header size nmemb =
      if strcaseEq (headerKey header) contentTypeKey then
        (stored (headerText header)).map fun value => (size * nmemb, blob.setContentType value)
      else some (size * nmemb, blob) := by
  have heq := header_eq hcolon
  conv_lhs => rw [heq]
  exact headerFunction_line (not_mem_headerKey header) (heq ▸ hlen) (heq ▸ hsize) blob

/-- What a line without a colon does. -/
theorem headerFunction_no_colon {size nmemb : Nat} (hcolon : colon ∉ header)
    (hlen : header.length < npos w) (hsize : size * nmemb = header.length) (blob : ResponseBlob) :
    headerFunction w blob header size nmemb = some (size * nmemb, blob) := by
  unfold headerFunction
  simp only [wrap_lineSize hlen hsize, hsize, List.take_length]
  rw [if_neg (not_not_intro (find_of_not_mem w hcolon))]

/-! ### The lines that are handled as they should be -/

/-- The value is stored as it should be exactly when it is one byte at the end of the line. -/
theorem stored_eq_trimmed_iff (text : List UInt8) :
    stored text = some (trimmed text) ↔ OneByte text := by
  constructor
  · intro h
    unfold stored at h
    split at h
    · cases h
    · rename_i hrest
      split at h
      · -- everything behind the blanks is stored, so nothing of it may be a line end
        have hvalue : text.dropWhile (· ∈ blanks) = trimmed text := Option.some.inj h
        obtain ⟨c, hc⟩ : ∃ c, text.dropWhile (· ∈ blanks) = [c] := by
          have := List.length_pos_iff.2 hrest
          exact List.length_eq_one_iff.1 (by rw [hvalue] at *; omega)
        have hlead : text.takeWhile (· ∈ blanks) =
            List.replicate (text.takeWhile (· ∈ blanks)).length 32 :=
          List.eq_replicate_of_mem fun b hb => by
            simpa [blanks] using List.mem_takeWhile_imp hb
        refine ⟨(text.takeWhile (· ∈ blanks)).length, c, ?_, ?_⟩
        · rw [← hlead, ← hc, List.takeWhile_append_dropWhile]
        · intro hmem
          unfold trimmed at hvalue
          rw [hc, List.rdropWhile_singleton, if_pos (by simpa using hmem)] at hvalue
          cases hvalue
      · -- two bytes are missing
        have hlen := congrArg List.length (Option.some.inj h)
        rw [List.length_take] at hlen
        omega
  · rintro ⟨n, c, rfl, hc⟩
    have hrest : (List.replicate n 32 ++ [c]).dropWhile (· ∈ blanks) = [c] := by
      rw [List.dropWhile_append_of_pos fun b hb => by
        simpa [blanks] using List.eq_of_mem_replicate hb]
      have : c ∉ blanks := fun h => hc (by simp [blanks] at h; simp [h, lineEnds])
      simp [this]
    have hvalue : trimmed (List.replicate n 32 ++ [c]) = [c] := by
      unfold trimmed
      rw [hrest, List.rdropWhile_singleton, if_neg (by simpa using hc)]
    unfold stored
    rw [hrest, hvalue, if_neg (by simp), if_pos (by simp)]

/-- `strcasecmp` stops at a zero byte, equality does not. -/
theorem givesContentType_iff (hcolon : colon ∈ header) : GivesContentType header ↔
    strcaseEq (headerKey header) contentTypeKey = true ∧ 0 ∉ headerKey header := by
  have hcStr : cStr contentTypeKey = contentTypeKey := by decide
  have hself : 0 ∉ headerKey header → cStr (headerKey header) = headerKey header := fun h =>
    List.takeWhile_eq_self_iff.2 fun b hb => by simpa using fun hb0 : b = 0 => h (hb0 ▸ hb)
  unfold GivesContentType strcaseEq
  rw [hcStr, beq_iff_eq]
  constructor
  · rintro ⟨-, hkey⟩
    have hzero : 0 ∉ headerKey header := fun h => by
      have hmem : toLower 0 ∈ contentTypeKey.map toLower := hkey ▸ List.mem_map_of_mem h
      exact absurd hmem (by decide)
    exact ⟨by rw [hself hzero, hkey], hzero⟩
  · rintro ⟨hkey, hzero⟩
    rw [hself hzero] at hkey
    exact ⟨hcolon, hkey⟩

/-- A line with a matching key that is handled as it should be has no zero byte in the key, and
    its value is stored as it should be. -/
theorem HeaderHandled.matched (h : HeaderHandled w header) (hcolon : colon ∈ header)
    (hlen : header.length < npos w)
    (hmatch : strcaseEq (headerKey header) contentTypeKey = true) :
    0 ∉ headerKey header ∧ stored (headerText header) = some (trimmed (headerText header)) := by
  have hgives := givesContentType_iff hcolon
  -- a blob that does not hold yet what the callback stores
  let old := 0 :: (stored (headerText header)).getD []
  obtain ⟨blob', hrun, hset, hkeep⟩ :=
    h ((ResponseBlob.new fun _ => 0).setContentType old) header.length 1 (Nat.mul_one _)
  rw [headerFunction_colon hcolon hlen (Nat.mul_one _), if_pos hmatch] at hrun
  obtain ⟨value, hvalue, hrun⟩ := Option.map_eq_some_iff.1 hrun
  have hblob := (congrArg Prod.snd hrun).symm
  have hzero : 0 ∉ headerKey header := fun hzero => by
    -- such a line gives no content type, but one is stored
    have hsame := hkeep fun hg => (hgives.1 hg).2 hzero
    have : value = old := congrArg ResponseBlob.contentType (hblob.symm.trans hsame)
    rw [show old = 0 :: value by simp [old, hvalue]] at this
    exact absurd (congrArg List.length this) (by simp)
  have hsame := hset (hgives.2 ⟨hmatch, hzero⟩)
  rw [hvalue]
  exact ⟨hzero, congrArg some (congrArg ResponseBlob.contentType (hblob.symm.trans hsame))⟩

/-- A line is handled as it should be exactly when it has no colon, or its key up to a zero byte is
    another one, or the key has no zero byte and the text is blanks and one byte that is not cut
    off. -/
theorem headerHandled_iff (w : SizeT) (header : List UInt8) (hlen : header.length < npos w) :
    HeaderHandled w header ↔
      (colon ∈ header → strcaseEq (headerKey header) contentTypeKey = true →
        0 ∉ headerKey header ∧ OneByte (headerText header)) := by
  -- without a colon nothing is looked up
  by_cases hcolon : colon ∈ header
  case neg =>
    refine iff_of_true (fun blob size nmemb hsize =>
      ⟨blob, headerFunction_no_colon hcolon hlen hsize blob, fun h => absurd h.1 hcolon,
        fun _ => rfl⟩) fun h => absurd h hcolon
  constructor
  · intro h _ hmatch
    obtain ⟨hzero, hvalue⟩ := h.matched hcolon hlen hmatch
    exact ⟨hzero, (stored_eq_trimmed_iff _).1 hvalue⟩
  · intro h blob size nmemb hsize
    have hgives := givesContentType_iff hcolon
    rw [headerFunction_colon hcolon hlen hsize]
    -- with one the key decides, and then the value has to be one byte
    by_cases hmatch : strcaseEq (headerKey header) contentTypeKey = true
    · obtain ⟨hzero, hone⟩ := h hcolon hmatch
      rw [if_pos hmatch, (stored_eq_trimmed_iff _).2 hone]
      exact ⟨_, rfl, fun _ => rfl, fun hno => absurd (hgives.2 ⟨hmatch, hzero⟩) hno⟩
    · rw [if_neg hmatch]
      exact ⟨blob, rfl, fun hg => absurd (hgives.1 hg).1 hmatch, fun _ => rfl⟩

/-- `"Content-Type: "` and a value. -/
def lineWith (value : List UInt8) : List UInt8 := contentTypeKey ++ colon :: 32 :: value

/-- A value of one byte without a line end is stored. -/
theorem headerHandled_oneByte : HeaderHandled .eight (lineWith [120]) :=
  (headerHandled_iff .eight (lineWith [120]) (by decide +kernel)).2 fun _ _ =>
    ⟨by decide, 1, 120, by decide, by decide⟩

/-- `"Content-Type: text/html\r\n"` stores `"text/ht"`. -/
theorem headerHandled_html :
    ¬ HeaderHandled .eight (lineWith [116, 101, 120, 116, 47, 104, 116, 109, 108, 13, 10]) := by
  intro h
  obtain ⟨blob', hrun, hset, -⟩ := h (ResponseBlob.new fun _ => 0) 25 1 (by decide)
  have hstored := congrArg (Option.map fun r => r.2.contentType) hrun
  rw [hset ⟨by decide, by decide⟩] at hstored
  exact absurd hstored (by decide +kernel)

end XGame3.Http
