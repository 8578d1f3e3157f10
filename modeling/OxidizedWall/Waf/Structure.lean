import OxidizedWall.Unicode

/-!
# Structural checks (`waf/structure.rs`)

Nesting depth, payload density, repeated parameter keys, and the user agents of attack tools.
-/

namespace OxidizedWall.Structure

def depthFrom (maxDepth : ℕ) : (currentDepth : ℕ) → Str → Bool
  | _, [] => true
  | currentDepth, c :: rest =>
    if c = '{' ∨ c = '[' then
      if currentDepth + 1 > maxDepth then false else depthFrom maxDepth (currentDepth + 1) rest
    else if c = '}' ∨ c = ']' then depthFrom maxDepth (currentDepth - 1) rest
    else depthFrom maxDepth currentDepth rest

def checkJsonDepth (input : Str) (maxDepth : ℕ) : Bool := depthFrom maxDepth 0 input

def isMaliciousBot (userAgent : Str) : Bool :=
  let ua := toLowercase userAgent
  ["sqlmap", "nikto", "nmap", "masscan", "dirbuster", "gobuster"].any fun s => contains ua s.toList

/-- `is_high_density`. The counts become numbers of the type `F`, which is `f32` in the code. -/
def isHighDensity {F : Type} [NatCast F] [Div F] [LT F] [DecidableLT F] (unicode : Unicode)
    (input : Str) (threshold : F) : Bool :=
  if input = [] then false
  else
    let specialChars := (input.filter fun c => !unicode.isAlphanumeric c && !isWhitespace c).length
    let density : F := (specialChars : F) / (utf8Len input : F)
    density > threshold

def pairKey (pair : Str) : Str := pair.takeWhile (· ≠ '=')

def repeatsKey : (seenKeys : List Str) → List Str → Bool
  | _, [] => false
  | seenKeys, pair :: rest =>
    let key := pairKey pair
    if key = [] then repeatsKey seenKeys rest
    else if key ∈ seenKeys then true
    else repeatsKey (key :: seenKeys) rest

def hasParameterPollution (input : Str) : Bool := repeatsKey [] (input.splitOn '&')

/-- Two segments between ampersands have the same key, and it is not empty. -/
def RepeatsKey (input : Str) : Prop :=
  ∃ i j : ℕ, i < j ∧ ∃ pair pair', (input.splitOn '&')[i]? = some pair ∧
    (input.splitOn '&')[j]? = some pair' ∧ pairKey pair = pairKey pair' ∧ pairKey pair ≠ []

/-- The loop finds no key that was seen before, and no key twice. -/
theorem repeatsKey_eq_false_iff {seenKeys pairs : List Str} : repeatsKey seenKeys pairs = false ↔
    (∀ pair ∈ pairs, pairKey pair ≠ [] → pairKey pair ∉ seenKeys) ∧
      pairs.Pairwise fun pair pair' => pairKey pair ≠ [] → pairKey pair ≠ pairKey pair' := by
  induction pairs generalizing seenKeys with
  | nil => simp [repeatsKey]
  | cons pair pairs ih =>
    rw [repeatsKey, List.pairwise_cons, List.forall_mem_cons]
    by_cases hempty : pairKey pair = []
    · rw [if_pos hempty, ih]
      simp [hempty]
    · rw [if_neg hempty]
      by_cases hseen : pairKey pair ∈ seenKeys
      · rw [if_pos hseen]
        simp [hempty, hseen]
      · rw [if_neg hseen, ih]
        constructor
        · rintro ⟨hfresh, hpairs⟩
          refine ⟨⟨fun _ => hseen, fun p hp hne hmem => ?_⟩, fun p hp _ heq => ?_, hpairs⟩
          · exact hfresh p hp hne (List.mem_cons_of_mem _ hmem)
          · exact hfresh p hp (heq ▸ hempty) (heq ▸ List.mem_cons_self)
        · rintro ⟨⟨-, hfresh⟩, hother, hpairs⟩
          refine ⟨fun p hp hne hmem => ?_, hpairs⟩
          rcases List.mem_cons.mp hmem with heq | hmem
          · exact hother p hp hempty heq.symm
          · exact hfresh p hp hne hmem

theorem hasParameterPollution_iff (input : Str) :
    hasParameterPollution input = true ↔ RepeatsKey input := by
  unfold hasParameterPollution RepeatsKey
  rw [← Bool.not_eq_false, repeatsKey_eq_false_iff, List.pairwise_iff_getElem]
  constructor
  · intro h
    by_contra hno
    refine h ⟨fun _ _ _ => List.not_mem_nil, fun i j hi hj hij hne heq => hno ?_⟩
    exact ⟨i, j, hij, _, _, List.getElem?_eq_getElem hi, List.getElem?_eq_getElem hj, heq, hne⟩
  · rintro ⟨i, j, hij, pair, pair', hi, hj, heq, hne⟩ ⟨-, hpairs⟩
    obtain ⟨hi', rfl⟩ := List.getElem?_eq_some_iff.mp hi
    obtain ⟨hj', rfl⟩ := List.getElem?_eq_some_iff.mp hj
    exact hpairs i j hi' hj' hij hne heq

example : hasParameterPollution "a=1&b=2&a=3".toList = true := by decide

end OxidizedWall.Structure
