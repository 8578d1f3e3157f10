import OxidizedWall.Lib.Cut
import OxidizedWall.Waf.Structure

/-!
# The pollution scanner

`has_parameter_pollution` goes through the segments of a text in their order, and stops at the first
key that it has seen before. So what it looks for is a key that two segments share, wherever they
stand: `hasParameterPollution_iff_sharesKey`.
-/

namespace OxidizedWall.Structure

/-- The key of a segment stands before its first `=`, or is all of it if there is none. -/
def IsKey (pair key : Str) : Prop :=
  '=' ∉ key ∧ (pair = key ∨ ∃ value, pair = key ++ '=' :: value)

/-- Two different segments have the same key, and it is not empty. -/
def SharesKey (pairs : List Str) : Prop :=
  ∃ i j : ℕ, i ≠ j ∧ ∃ pair pair' key, pairs[i]? = some pair ∧ pairs[j]? = some pair' ∧
    IsKey pair key ∧ IsKey pair' key ∧ key ≠ []

/-- The keys that the scanner compares: those of all segments, without the empty ones. -/
def comparedKeys (pairs : List Str) : List Str := (pairs.map pairKey).filter (· ≠ [])

variable {input input' pair key : Str} {pairs pairs' : List Str}

/-! ## Keys -/

theorem isKey_pairKey (pair : Str) : IsKey pair (pairKey pair) := by
  have hsplit : pairKey pair ++ pair.dropWhile (· ≠ '=') = pair := List.takeWhile_append_dropWhile
  refine ⟨not_mem_takeWhile_ne '=' pair, ?_⟩
  rcases dropWhile_ne_cases '=' pair with hrest | ⟨value, hrest⟩
  · rw [hrest, List.append_nil] at hsplit
    exact .inl hsplit.symm
  · rw [hrest] at hsplit
    exact .inr ⟨value, hsplit.symm⟩

/-- A segment has one key. -/
theorem isKey_iff : IsKey pair key ↔ pairKey pair = key := by
  constructor
  · rintro ⟨hno, rfl | ⟨value, rfl⟩⟩
    · exact takeWhile_ne_of_not_mem hno
    · exact takeWhile_ne_append_cons hno value
  · rintro rfl
    exact isKey_pairKey pair

theorem sharesKey_iff : SharesKey (input.splitOn '&') ↔ RepeatsKey input := by
  unfold SharesKey RepeatsKey
  simp only [isKey_iff]
  constructor
  · rintro ⟨i, j, hij, pair, pair', key, hi, hj, rfl, hkey', hne⟩
    rcases Nat.lt_or_gt_of_ne hij with hlt | hgt
    · exact ⟨i, j, hlt, pair, pair', hi, hj, hkey'.symm, hne⟩
    · exact ⟨j, i, hgt, pair', pair, hj, hi, hkey', hkey' ▸ hne⟩
  · rintro ⟨i, j, hlt, pair, pair', hi, hj, hkey, hne⟩
    exact ⟨i, j, Nat.ne_of_lt hlt, pair, pair', pairKey pair, hi, hj, rfl, hkey.symm, hne⟩

/-! ## What the answer depends on -/

/-- The scanner compares the keys of the segments, and nothing else. -/
theorem hasParameterPollution_eq_false_iff :
    hasParameterPollution input = false ↔ (comparedKeys (input.splitOn '&')).Nodup := by
  unfold hasParameterPollution comparedKeys List.Nodup
  rw [repeatsKey_eq_false_iff, List.pairwise_filter, List.pairwise_map]
  constructor
  · rintro ⟨-, hpairs⟩
    refine hpairs.imp fun hdiff hkey _ => hdiff ?_
    simpa using hkey
  · intro hpairs
    refine ⟨fun _ _ _ => List.not_mem_nil, hpairs.imp fun hdiff hkey heq => ?_⟩
    exact hdiff (decide_eq_true hkey) (decide_eq_true (heq ▸ hkey)) heq

theorem hasParameterPollution_congr
    (h : (comparedKeys (input'.splitOn '&')).Perm (comparedKeys (input.splitOn '&'))) :
    hasParameterPollution input' = hasParameterPollution input := by
  rw [Bool.eq_iff_iff, ← not_iff_not, Bool.not_eq_true, Bool.not_eq_true,
    hasParameterPollution_eq_false_iff, hasParameterPollution_eq_false_iff]
  exact h.nodup_iff

theorem comparedKeys_perm (h : pairs'.Perm pairs) :
    (comparedKeys pairs').Perm (comparedKeys pairs) := (h.map pairKey).filter _

theorem comparedKeys_filter (pairs : List Str) :
    comparedKeys (pairs.filter fun pair => pairKey pair ≠ []) = comparedKeys pairs := by
  unfold comparedKeys
  rw [List.filter_map, List.filter_map, List.filter_filter]
  congr 2
  funext pair
  exact Bool.and_self _

/-- **The meaning of the scanner.** It finds pollution exactly if two different segments between
ampersands have the same nonempty key. So neither the order of the segments matters, nor what
stands behind their keys, nor the segments whose key is empty. -/
theorem hasParameterPollution_iff_sharesKey (input : Str) :
    (hasParameterPollution input = true ↔ SharesKey (input.splitOn '&')) ∧
    (∀ input' : Str, (input'.splitOn '&').Perm (input.splitOn '&') →
      hasParameterPollution input' = hasParameterPollution input) ∧
    (∀ input' : Str, (input'.splitOn '&').map pairKey = (input.splitOn '&').map pairKey →
      hasParameterPollution input' = hasParameterPollution input) ∧
    ∀ input' : Str, ((input'.splitOn '&').filter fun pair => pairKey pair ≠ []) =
        ((input.splitOn '&').filter fun pair => pairKey pair ≠ []) →
      hasParameterPollution input' = hasParameterPollution input := by
  refine ⟨?_, fun input' horder => ?_, fun input' hvalues => ?_, fun input' hempty => ?_⟩
  · rw [hasParameterPollution_iff, sharesKey_iff]
  · exact hasParameterPollution_congr (comparedKeys_perm horder)
  · apply hasParameterPollution_congr
    unfold comparedKeys
    rw [hvalues]
  · apply hasParameterPollution_congr
    rw [← comparedKeys_filter, hempty, comparedKeys_filter]

theorem pollution_reordered : hasParameterPollution "b=2&a=3&a=1".toList =
    hasParameterPollution "a=1&b=2&a=3".toList :=
  (hasParameterPollution_iff_sharesKey _).2.1 _ (by decide)

end OxidizedWall.Structure
