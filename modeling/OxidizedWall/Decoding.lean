import OxidizedWall.Waf.Path

/-!
# Percent-decoding

`percentDecode` is the decoding that the inspection means to make: an escape stands for the
character with its value, and every other character for itself. The loop of `normalize_url` takes
the two characters after a percent sign before it knows whether they are digits, leaves it to a
number parser that also takes a plus sign or a single digit, and does not look at them again.
`normalizeUrl_eq_iff` says on which texts this makes no difference.
-/

namespace OxidizedWall.Path

/-- The text starts with a percent sign and two hexadecimal digits. -/
def StartsEscape (s : Str) : Prop :=
  ∃ h1 h2 rest, s = '%' :: h1 :: h2 :: rest ∧ IsHexDigit h1 ∧ IsHexDigit h2

theorem startsEscape_iff {h1 h2 : Char} {rest : Str} :
    StartsEscape ('%' :: h1 :: h2 :: rest) ↔ IsHexDigit h1 ∧ IsHexDigit h2 := by
  constructor
  · rintro ⟨a, b, rest', heq, hd⟩
    simp only [List.cons.injEq, true_and] at heq
    obtain ⟨rfl, rfl, rfl⟩ := heq
    exact hd
  · rintro hd
    exact ⟨h1, h2, rest, rfl, hd⟩

theorem not_startsEscape_cons {c : Char} (hc : c ≠ '%') (rest : Str) :
    ¬ StartsEscape (c :: rest) := by
  rintro ⟨h1, h2, rest', heq, -⟩
  exact hc (List.cons.inj heq).1

/-- Every escape, from left to right, stands for the character with its value. -/
def percentDecode : Str → Str
  | [] => []
  | '%' :: h1 :: h2 :: rest =>
    if IsHexDigit h1 ∧ IsHexDigit h2 then
      Char.ofNat (IpAddr.ofDigits 16 [h1, h2]) :: percentDecode rest
    else '%' :: percentDecode (h1 :: h2 :: rest)
  | c :: rest => c :: percentDecode rest

theorem percentDecode_escape {h1 h2 : Char} (hd1 : IsHexDigit h1) (hd2 : IsHexDigit h2)
    (rest : Str) : percentDecode ('%' :: h1 :: h2 :: rest) =
      Char.ofNat (IpAddr.ofDigits 16 [h1, h2]) :: percentDecode rest := by
  rw [percentDecode, if_pos ⟨hd1, hd2⟩]

theorem percentDecode_cons {c : Char} {rest : Str} (h : ¬ StartsEscape (c :: rest)) :
    percentDecode (c :: rest) = c :: percentDecode rest := by
  by_cases hlong : ∃ h1 h2 rest', c = '%' ∧ rest = h1 :: h2 :: rest'
  · obtain ⟨h1, h2, rest, rfl, rfl⟩ := hlong
    rw [percentDecode, if_neg fun hd => h ⟨h1, h2, rest, rfl, hd⟩]
  · rw [percentDecode]
    rintro h1 h2 rest' hc hrest
    exact hlong ⟨h1, h2, rest', hc, hrest⟩

/-! ## What the loop makes of a percent sign -/

theorem IsHexDigit.ne_percent {c : Char} (h : IsHexDigit c) : c ≠ '%' := by
  rintro rfl
  revert h
  decide

theorem not_isHexDigit_plus : ¬ IsHexDigit '+' := by decide

theorem decide_isHexDigit (c : Char) :
    decide (IsHexDigit c) = (IpAddr.toDigit 16 c).isSome := by
  rw [Bool.eq_iff_iff, decide_eq_true_eq]
  rfl

/-- The parser reads hexadecimal digits. -/
theorem fromStrRadix_of_ne {h : Char} (hplus : h ≠ '+') (digits : Str) :
    fromStrRadix (h :: digits) =
      if ((h :: digits).all fun c => decide (IsHexDigit c)) = true
        then some (IpAddr.ofDigits 16 (h :: digits)) else none := by
  unfold fromStrRadix
  split
  · rename_i heq
    exact absurd (List.cons.inj heq).1 hplus
  · simp only [ne_eq, reduceCtorEq, not_false_eq_true, true_and, decide_isHexDigit]

theorem fromStrRadix_plus (h : Char) : fromStrRadix ['+', h] =
    if IsHexDigit h then some (IpAddr.ofDigits 16 [h]) else none := by
  unfold fromStrRadix
  simp [← decide_isHexDigit]

theorem fromStrRadix_pair (h1 h2 : Char) : fromStrRadix [h1, h2] =
    if IsHexDigit h1 ∧ IsHexDigit h2 then some (IpAddr.ofDigits 16 [h1, h2])
    else if h1 = '+' ∧ IsHexDigit h2 then some (IpAddr.ofDigits 16 [h2])
    else none := by
  by_cases hplus : h1 = '+'
  · subst hplus
    rw [fromStrRadix_plus, if_neg (c := IsHexDigit '+' ∧ _) fun h => not_isHexDigit_plus h.1]
    simp
  · rw [fromStrRadix_of_ne hplus]
    simp [hplus]

theorem fromStrRadix_single (h : Char) : fromStrRadix [h] =
    if IsHexDigit h then some (IpAddr.ofDigits 16 [h]) else none := by
  by_cases hplus : h = '+'
  · subst hplus
    rfl
  · rw [fromStrRadix_of_ne hplus]
    simp

theorem normalizeUrl_plus {h : Char} (hd : IsHexDigit h) (rest : Str) :
    normalizeUrl ('%' :: '+' :: h :: rest) =
      Char.ofNat (IpAddr.ofDigits 16 [h]) :: normalizeUrl rest := by
  rw [normalizeUrl, fromStrRadix_pair, if_neg fun h => not_isHexDigit_plus h.1,
    if_pos ⟨rfl, hd⟩]

/-- Two characters that are no number are kept, whatever they begin. -/
theorem normalizeUrl_stray {h1 h2 : Char} (hpair : ¬ (IsHexDigit h1 ∧ IsHexDigit h2))
    (hplus : ¬ (h1 = '+' ∧ IsHexDigit h2)) (rest : Str) :
    normalizeUrl ('%' :: h1 :: h2 :: rest) = '%' :: h1 :: h2 :: normalizeUrl rest := by
  rw [normalizeUrl, fromStrRadix_pair, if_neg hpair, if_neg hplus]

/-- The value of one digit is no percent sign. -/
theorem ofNat_digit_ne_percent {h : Char} (hd : IsHexDigit h) :
    Char.ofNat (IpAddr.ofDigits 16 [h]) ≠ '%' := by
  obtain ⟨d, hvalue⟩ := Option.isSome_iff_exists.mp hd
  have hlt : d < 16 := by
    unfold IpAddr.toDigit at hvalue
    simp only [Option.ite_none_right_eq_some, Option.some.injEq] at hvalue
    omega
  have hdigits : IpAddr.ofDigits 16 [h] = d := by
    simp [IpAddr.ofDigits, hvalue]
  have hall : ∀ d < 16, Char.ofNat d ≠ '%' := by decide
  rw [hdigits]
  exact hall d hlt

/-- Once two characters are ahead of the decoding, the loop stays ahead of it. -/
theorem percentDecode_ne {x y : Char} (hx : x ≠ '%') (hy : y ≠ '%') (s : Str) :
    percentDecode s ≠ x :: y :: normalizeUrl s := by
  intro heq
  induction s using percentDecode.induct generalizing x y with
  | case1 => simp [percentDecode] at heq
  | case2 h1 h2 rest hd ih =>
    rw [percentDecode_escape hd.1 hd.2, normalizeUrl_escape hd.1 hd.2] at heq
    obtain ⟨rfl, hrest⟩ := List.cons.inj heq
    exact ih hy hx hrest
  | case3 h1 h2 rest hd ih =>
    rw [percentDecode, if_neg hd] at heq
    exact hx (List.cons.inj heq).1.symm
  | case4 c rest hshort ih =>
    rw [percentDecode] at heq
    · obtain ⟨rfl, hrest⟩ := List.cons.inj heq
      rw [normalizeUrl_cons hx] at hrest
      exact ih hy hx hrest
    · exact hshort

/-- On this text the loop goes wrong nowhere: what it takes after a percent sign is neither a
plus sign with a digit, nor the beginning of an escape, nor a last single digit. -/
def Scans : Str → Prop
  | [] => True
  | '%' :: h1 :: h2 :: rest =>
    ¬ (h1 = '+' ∧ IsHexDigit h2) ∧ ¬ StartsEscape (h1 :: h2 :: rest) ∧
      ¬ StartsEscape (h2 :: rest) ∧ Scans rest
  | ['%', h1] => ¬ IsHexDigit h1
  | _ :: rest => Scans rest

/-- After a percent sign that starts no escape, the loop may go wrong in the two characters that it
does not look at. -/
theorem percentDecode_stray_iff {h1 h2 : Char} {rest : Str}
    (h : ¬ StartsEscape ('%' :: h1 :: h2 :: rest)) :
    '%' :: h1 :: h2 :: normalizeUrl rest = percentDecode ('%' :: h1 :: h2 :: rest) ↔
      ¬ StartsEscape (h1 :: h2 :: rest) ∧ ¬ StartsEscape (h2 :: rest) ∧
        normalizeUrl rest = percentDecode rest := by
  rw [percentDecode_cons h, List.cons_inj_right]
  by_cases hfirst : StartsEscape (h1 :: h2 :: rest)
  · obtain ⟨a, b, rest', hsplit, ha, hb⟩ := id hfirst
    simp only [List.cons.injEq] at hsplit
    obtain ⟨rfl, rfl, rfl⟩ := hsplit
    refine ⟨fun heq => ?_, fun h' => absurd hfirst h'.1⟩
    rw [percentDecode_escape ha hb, normalizeUrl_cons hb.ne_percent] at heq
    exact absurd (List.cons.inj heq).2.symm (percentDecode_ne ha.ne_percent hb.ne_percent rest')
  · rw [percentDecode_cons hfirst, List.cons_inj_right]
    by_cases hsecond : StartsEscape (h2 :: rest)
    · obtain ⟨a, b, rest', hsplit, ha, hb⟩ := id hsecond
      simp only [List.cons.injEq] at hsplit
      obtain ⟨rfl, rfl⟩ := hsplit
      refine ⟨fun heq => ?_, fun h' => absurd hsecond h'.2.1⟩
      rw [percentDecode_escape ha hb, normalizeUrl_cons ha.ne_percent,
        normalizeUrl_cons hb.ne_percent] at heq
      exact absurd (List.cons.inj heq).2.symm (percentDecode_ne ha.ne_percent hb.ne_percent rest')
    · rw [percentDecode_cons hsecond, List.cons_inj_right]
      exact ⟨fun heq => ⟨hfirst, hsecond, heq⟩, fun h' => h'.2.2⟩

/-- **The loop decodes a text** if and only if it goes wrong nowhere on it. -/
theorem normalizeUrl_eq_iff (s : Str) : normalizeUrl s = percentDecode s ↔ Scans s := by
  induction s using Scans.induct with
  | case1 => exact ⟨fun _ => trivial, fun _ => rfl⟩
  | case2 h1 h2 rest ih =>
    unfold Scans
    by_cases hpair : IsHexDigit h1 ∧ IsHexDigit h2
    · have hplus : ¬ (h1 = '+' ∧ IsHexDigit h2) := by
        rintro ⟨rfl, -⟩
        exact not_isHexDigit_plus hpair.1
      have hfirst := not_startsEscape_cons hpair.1.ne_percent (h2 :: rest)
      have hsecond := not_startsEscape_cons hpair.2.ne_percent rest
      rw [normalizeUrl_escape hpair.1 hpair.2, percentDecode_escape hpair.1 hpair.2,
        List.cons_inj_right, ih]
      exact ⟨fun h => ⟨hplus, hfirst, hsecond, h⟩, fun h => h.2.2.2⟩
    · have hstray : ¬ StartsEscape ('%' :: h1 :: h2 :: rest) := startsEscape_iff.not.mpr hpair
      by_cases hplus : h1 = '+' ∧ IsHexDigit h2
      · refine ⟨fun heq => ?_, fun h => absurd hplus h.1⟩
        obtain ⟨rfl, hd⟩ := hplus
        rw [normalizeUrl_plus hd, percentDecode_cons hstray] at heq
        exact absurd (List.cons.inj heq).1 (ofNat_digit_ne_percent hd)
      · rw [normalizeUrl_stray hpair hplus, percentDecode_stray_iff hstray, ih]
        exact ⟨fun h => ⟨hplus, h⟩, fun h => h.2⟩
  | case3 h1 =>
    have hstray : ¬ StartsEscape ['%', h1] := by
      rintro ⟨a, b, rest', heq, -⟩
      simp at heq
    have hlast : ¬ StartsEscape [h1] := by
      rintro ⟨a, b, rest', heq, -⟩
      simp at heq
    rw [normalizeUrl, fromStrRadix_single, percentDecode_cons hstray, percentDecode_cons hlast]
    unfold Scans
    by_cases hd : IsHexDigit h1
    · simp [hd]
    · simp [hd, percentDecode]
  | case4 c rest hlong hshort ih =>
    have hstray : ¬ StartsEscape (c :: rest) := by
      rintro ⟨a, b, rest', heq, -⟩
      obtain ⟨rfl, rfl⟩ := List.cons.inj heq
      exact hlong a b rest' rfl rfl
    rw [normalizeUrl, percentDecode_cons hstray, Scans, List.cons_inj_right, ih]
    · exact hlong
    · exact hshort
    · exact hlong
    · exact hshort

/-- An escape behind a stray percent sign, a sign in place of a digit, and a single digit. -/
theorem normalizeUrl_ne_percentDecode :
    normalizeUrl "/%%41".toList ≠ percentDecode "/%%41".toList ∧
    normalizeUrl "/%+a".toList ≠ percentDecode "/%+a".toList ∧
    normalizeUrl "/%a".toList ≠ percentDecode "/%a".toList := by
  decide

end OxidizedWall.Path
