import OxidizedWall.Lib.Regex
import OxidizedWall.Unicode

/-!
# Data leakage prevention (`waf/dlp.rs`)

Email addresses lose their local part, and digit runs of the length of a card number are blanked.
-/

namespace OxidizedWall.Dlp

open Regex

def isLetter (c : Char) : Bool := ('a' ≤ c && c ≤ 'z') || ('A' ≤ c && c ≤ 'Z')

/-- `[a-zA-Z0-9._%+-]`. -/
def isLocal (c : Char) : Bool := isLetter c || c.isDigit || "._%+-".toList.contains c

/-- `[a-zA-Z0-9.-]`. -/
def isDomain (c : Char) : Bool := isLetter c || c.isDigit || ".-".toList.contains c

/-- `[a-zA-Z0-9._%+-]+@[a-zA-Z0-9.-]+\.[a-zA-Z]{2,}`. -/
def emailRe : Regex :=
  cat (plus (set isLocal)) (cat (chr '@') (cat (plus (set isDomain)) (cat (chr '.')
    (times (set isLetter) (star true (set isLetter)) 2))))

/-- `\b(?:\d[ -]*?){13,16}\b`. -/
def cardRe (unicode : Unicode) : Regex :=
  let digit := cat (set unicode.isDecimal) (star false (set " -".toList.contains))
  cat boundary (times digit (cat (atMost digit 3) boundary) 13)

def maskEmail (full : Str) : Str :=
  if '@' ∈ full then "****".toList ++ full.dropWhile (· ≠ '@') else full

def maskSensitiveInfo (unicode : Unicode) (input : Str) : Str :=
  let masked := replaceAll unicode.isWord emailRe maskEmail input
  replaceAll unicode.isWord (cardRe unicode) (fun _ => "****-****-****-****".toList) masked

/-- Text without an email address or a card number stays as it is. -/
theorem maskSensitiveInfo_of_no_match {unicode : Unicode} {input : Str}
    (hemail : isMatch unicode.isWord emailRe input = false)
    (hcard : isMatch unicode.isWord (cardRe unicode) input = false) :
    maskSensitiveInfo unicode input = input := by
  unfold maskSensitiveInfo
  rw [replaceAll_of_not_isMatch _ _ hemail]
  exact replaceAll_of_not_isMatch _ _ hcard

example : maskSensitiveInfo .ascii "a.b@x.org 4000 0000 0000 0002".toList =
    "****@x.org ****-****-****-****".toList := by decide +kernel

end OxidizedWall.Dlp
