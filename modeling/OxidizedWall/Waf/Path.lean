import OxidizedWall.Unicode

/-!
# Request targets (`waf/path.rs`)

Percent-decoding as the code does it, byte by byte into characters, and the fixed patterns of a
directory traversal.
-/

namespace OxidizedWall.Path

/-- `u8::from_str_radix(hex, 16)`, for at most two characters: a plus sign may come first. -/
def fromStrRadix (hex : Str) : Option ℕ :=
  let digits := match hex with
    | '+' :: rest => rest
    | _ => hex
  if digits ≠ [] ∧ digits.all fun c => (IpAddr.toDigit 16 c).isSome
    then some (IpAddr.ofDigits 16 digits) else none

def normalizeUrl : Str → Str
  | [] => []
  | '%' :: h1 :: h2 :: rest =>
    match fromStrRadix [h1, h2] with
    | some byte => Char.ofNat byte :: normalizeUrl rest
    | none => '%' :: h1 :: h2 :: normalizeUrl rest
  | ['%', h1] =>
    match fromStrRadix [h1] with
    | some byte => [Char.ofNat byte]
    | none => ['%', h1]
  | c :: rest => c :: normalizeUrl rest

def IsHexDigit (c : Char) : Prop := (IpAddr.toDigit 16 c).isSome = true

instance (c : Char) : Decidable (IsHexDigit c) :=
  inferInstanceAs (Decidable ((IpAddr.toDigit 16 c).isSome = true))

/-- An escape stands for the character with its value. -/
theorem normalizeUrl_escape {h1 h2 : Char} (hd1 : IsHexDigit h1) (hd2 : IsHexDigit h2)
    (rest : Str) : normalizeUrl ('%' :: h1 :: h2 :: rest) =
      Char.ofNat (IpAddr.ofDigits 16 [h1, h2]) :: normalizeUrl rest := by
  have hplus : h1 ≠ '+' := by
    rintro rfl
    revert hd1
    decide
  have hradix : fromStrRadix [h1, h2] = some (IpAddr.ofDigits 16 [h1, h2]) := by
    unfold fromStrRadix
    split
    · rename_i heq
      obtain ⟨rfl, -⟩ := List.cons.inj heq
      exact absurd rfl hplus
    · unfold IsHexDigit at hd1 hd2
      simp [hd1, hd2]
  rw [normalizeUrl, hradix]

/-- Every character but the percent sign stands for itself. -/
theorem normalizeUrl_cons {c : Char} (hc : c ≠ '%') (rest : Str) :
    normalizeUrl (c :: rest) = c :: normalizeUrl rest := by
  rw [normalizeUrl]
  · rintro h1 h2 rest' rfl
    exact absurd rfl hc
  · rintro h1 rfl
    exact absurd rfl hc

def traversalPatterns : List Str :=
  ["../", "..\\", "/etc/passwd", "windows/system32", "boot.ini", "%2e%2e%2f", "%2e%2e%5c"].map
    String.toList

/-- `is_traversal`: a search that ignores the case of ASCII letters. -/
def isTraversal (input : Str) : Bool :=
  traversalPatterns.any fun pat => contains (input.map Char.toLower) pat

example : isTraversal (normalizeUrl "/a/%2E%2e/b".toList) = true := by decide

end OxidizedWall.Path
