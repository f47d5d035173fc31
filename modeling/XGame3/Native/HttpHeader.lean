import XGame3.ForStd.CxxString
import XGame3.Native.HttpRequest
import XGame3.Native.ResponseBlob

/-!
# Header lines (`http_request.cpp`)

libcurl hands every line of the header to `HeaderFunction`, byte for byte and with its line end.
`strcasecmp` compares up to the first zero byte, in the C locale.  An exception is a fault, `none`.
-/

namespace XGame3.Http

open FixedInt CxxString

/-- `tolower` in the C locale. -/
def toLower (b : UInt8) : UInt8 := if 65 ≤ b ∧ b ≤ 90 then b + 32 else b

/-- `strcasecmp(a, b) == 0`. -/
def strcaseEq (a b : List UInt8) : Bool := (cStr a).map toLower == (cStr b).map toLower

/-- `"Content-Type"`. -/
def contentTypeKey : List UInt8 :=
  ['C', 'o', 'n', 't', 'e', 'n', 't', '-', 'T', 'y', 'p', 'e'].map fun c => c.toNat.toUInt8

/-- `':'`. -/
def colon : UInt8 := 58

/-- `" "`. -/
def blanks : List UInt8 := [32]

/-- `" \r\n"`. -/
def lineEnds : List UInt8 := [32, 13, 10]

/-- `HeaderFunction`, with the memory from `data` on. -/
def headerFunction (w : SizeT) (blob : ResponseBlob) (data : List UInt8) (size nmemb : Nat) :
    Option (Nat × ResponseBlob) :=
  let header := data.take (w.wrap (size * nmemb))
  let found := find w colon header
  if found ≠ npos w then
    match substr header 0 found with
    | none => none
    | some headerKey =>
      if strcaseEq headerKey contentTypeKey then
        -- `endPos` is the last position to keep; the length is an unsigned difference
        let startPos := findFirstNotOf w blanks header (w.wrap (found + 1))
        let endPos := findLastNotOf w lineEnds header
        match substr header startPos (w.wrap (w.wrap (endPos - startPos) - 1)) with
        | none => none
        | some headerData =>
          some (w.wrap (size * nmemb), blob.setContentType headerData)
      else some (w.wrap (size * nmemb), blob)
  else some (w.wrap (size * nmemb), blob)

end XGame3.Http
