import OxidizedWall.Decoding
import OxidizedWall.Evasion

/-!
# Directory traversals

What is dangerous in a path is a segment `..`, wherever it stands. The inspection looks for `..`
with a separator behind it, so the last segment of a path escapes it
(`header_refuses_dotDot_iff`).
-/

namespace OxidizedWall

namespace Path

/-! ## Well-formed escapes -/

/-- Every percent sign starts an escape. -/
def WellEscaped (s : Str) : Prop := ∀ a b, s = a ++ '%' :: b → StartsEscape ('%' :: b)

theorem WellEscaped.of_append {a s : Str} (h : WellEscaped (a ++ s)) : WellEscaped s := by
  rintro b c rfl
  exact h (a ++ b) c (by rw [List.append_assoc])

theorem wellEscaped_of_no_escape {s : Str} (h : '%' ∉ s) : WellEscaped s := by
  rintro a b rfl
  simp at h

/-- Where every percent sign starts an escape, the loop decodes. -/
theorem WellEscaped.normalizeUrl_eq {s : Str} (h : WellEscaped s) :
    normalizeUrl s = percentDecode s := by
  induction s using percentDecode.induct with
  | case1 => rfl
  | case2 h1 h2 rest hd ih =>
    rw [normalizeUrl_escape hd.1 hd.2, percentDecode_escape hd.1 hd.2,
      ih (WellEscaped.of_append (a := ['%', h1, h2]) h)]
  | case3 h1 h2 rest hd ih =>
    exact absurd (startsEscape_iff.mp (h [] (h1 :: h2 :: rest) rfl)) hd
  | case4 c rest hshort ih =>
    have hc : c ≠ '%' := by
      rintro rfl
      obtain ⟨h1, h2, rest', heq, -⟩ := h [] rest rfl
      exact hshort h1 h2 rest' rfl (List.cons.inj heq).2
    rw [normalizeUrl_cons hc, percentDecode_cons (not_startsEscape_cons hc rest),
      ih (WellEscaped.of_append (a := [c]) h)]

/-- A text may be decoded in two parts where the second starts with no digit. -/
theorem percentDecode_append {c : Char} (hc : ¬ IsHexDigit c) (s t : Str) :
    percentDecode (s ++ c :: t) = percentDecode s ++ percentDecode (c :: t) := by
  induction s using percentDecode.induct with
  | case1 => rfl
  | case2 h1 h2 rest hd ih =>
    rw [percentDecode_escape hd.1 hd.2, List.cons_append, List.cons_append, List.cons_append,
      percentDecode_escape hd.1 hd.2, ih, List.cons_append]
  | case3 h1 h2 rest hd ih =>
    rw [percentDecode_cons (startsEscape_iff.not.mpr hd), List.cons_append, List.cons_append,
      List.cons_append, percentDecode_cons (startsEscape_iff.not.mpr hd), List.cons_append, ← ih]
    rfl
  | case4 x rest hshort ih =>
    have hstray : ¬ StartsEscape (x :: rest) := by
      rintro ⟨h1, h2, rest', heq, -⟩
      obtain ⟨rfl, rfl⟩ := List.cons.inj heq
      exact hshort h1 h2 rest' rfl rfl
    have hstray' : ¬ StartsEscape (x :: (rest ++ c :: t)) := by
      rintro ⟨h1, h2, rest', heq, hd1, hd2⟩
      obtain ⟨rfl, hrest⟩ := List.cons.inj heq
      -- the text before `c` has at most one character after the percent sign
      rcases rest with _ | ⟨a, _ | ⟨b, rest⟩⟩
      · exact hc ((List.cons.inj hrest).1 ▸ hd1)
      · exact hc ((List.cons.inj (List.cons.inj hrest).2).1 ▸ hd2)
      · exact hshort a b rest rfl rfl
    rw [percentDecode_cons hstray, List.cons_append, percentDecode_cons hstray', ih,
      List.cons_append]

/-! ## Segments -/

/-- A separator of path segments. -/
def IsSep (c : Char) : Prop := c = '/' ∨ c = '\\'

instance (c : Char) : Decidable (IsSep c) := inferInstanceAs (Decidable (c = '/' ∨ c = '\\'))

/-- Between separators, or an end of the path, stands `..`. -/
def DotDotSegment (p : Str) : Prop :=
  ∃ a b, p = a ++ '.' :: '.' :: b ∧ (∀ c ∈ a.getLast?, IsSep c) ∧ ∀ c ∈ b.head?, IsSep c

/-- The last segment of the path is `..`. -/
def EndsInDotDot (p : Str) : Prop := ∃ a, p = a ++ ['.', '.'] ∧ ∀ c ∈ a.getLast?, IsSep c

/-- Somewhere a separator follows two dots. -/
def DotsBeforeSeparator (s : Str) : Prop := ∃ a c b, s = a ++ '.' :: '.' :: c :: b ∧ IsSep c

/-- A segment `..` is the last one, or has a separator behind it. -/
theorem DotDotSegment.cases {p : Str} (h : DotDotSegment p) :
    EndsInDotDot p ∨ DotsBeforeSeparator p := by
  obtain ⟨a, b, rfl, ha, hb⟩ := h
  cases b with
  | nil => exact .inl ⟨a, rfl, ha⟩
  | cons c b => exact .inr ⟨a, c, b, rfl, hb c rfl⟩

theorem DotsBeforeSeparator.three_le {s : Str} (h : DotsBeforeSeparator s) : 3 ≤ s.length := by
  obtain ⟨a, c, b, rfl, -⟩ := h
  simp only [List.length_append, List.length_cons]
  omega

theorem DotsBeforeSeparator.append {s : Str} (h : DotsBeforeSeparator s) (t : Str) :
    DotsBeforeSeparator (s ++ t) := by
  obtain ⟨a, c, b, rfl, hc⟩ := h
  exact ⟨a, c, b ++ t, by simp, hc⟩

/-! ## The patterns -/

theorem contains_iff (s pat : Str) : contains s pat = true ↔ pat <:+: s := by
  unfold contains
  rw [List.any_eq_true, List.infix_iff_prefix_suffix]
  simp only [List.mem_tails, List.isPrefixOf_iff_prefix, and_comm]

/-- Between and below the letters, lowering case changes nothing. -/
theorem toLower_eq_iff {c d : Char} (hd : d.toNat < 65 ∨ 90 < d.toNat ∧ d.toNat < 97) :
    c.toLower = d ↔ c = d := by
  unfold Char.toLower
  split
  · rename_i hupper
    have hlo : 65 ≤ c.toNat := UInt32.le_iff_toNat_le.mp hupper.1
    have hhi : c.toNat ≤ 90 := UInt32.le_iff_toNat_le.mp hupper.2
    have hval : (c.val + ('a'.val - 'A'.val)).toNat = c.toNat + 32 := by
      rw [UInt32.toNat_add]
      show (c.toNat + 32) % 2 ^ 32 = c.toNat + 32
      omega
    constructor
    · rintro rfl
      have hlower : (c.val + ('a'.val - 'A'.val)).toNat < 65 ∨
          90 < (c.val + ('a'.val - 'A'.val)).toNat ∧
            (c.val + ('a'.val - 'A'.val)).toNat < 97 := hd
      omega
    · rintro rfl
      omega
  · rfl

theorem dots_infix_map_toLower {c : Char} (hc : c.toNat < 65 ∨ 90 < c.toNat ∧ c.toNat < 97)
    (s : Str) : ['.', '.', c] <:+: s.map Char.toLower ↔ ['.', '.', c] <:+: s := by
  rw [List.infix_map_iff]
  constructor
  · rintro ⟨l, hl, hmap⟩
    obtain ⟨d, l, rfl, hd, hmap⟩ := List.map_eq_cons_iff.mp hmap.symm
    obtain ⟨d', l, rfl, hd', hmap⟩ := List.map_eq_cons_iff.mp hmap
    obtain ⟨d'', l, rfl, hd'', hmap⟩ := List.map_eq_cons_iff.mp hmap
    obtain rfl := List.map_eq_nil_iff.mp hmap
    rw [(toLower_eq_iff (by decide)).mp hd, (toLower_eq_iff (by decide)).mp hd',
      (toLower_eq_iff hc).mp hd''] at hl
    exact hl
  · intro hl
    refine ⟨_, hl, ?_⟩
    simp [(toLower_eq_iff hc).mpr rfl]

theorem dotsBeforeSeparator_iff (s : Str) :
    DotsBeforeSeparator s ↔ ['.', '.', '/'] <:+: s ∨ ['.', '.', '\\'] <:+: s := by
  constructor
  · rintro ⟨a, c, b, rfl, rfl | rfl⟩
    · exact .inl ⟨a, b, by simp⟩
    · exact .inr ⟨a, b, by simp⟩
  · rintro (⟨a, b, rfl⟩ | ⟨a, b, rfl⟩)
    · exact ⟨a, '/', b, by simp, .inl rfl⟩
    · exact ⟨a, '\\', b, by simp, .inr rfl⟩

/-- The text names one of the files that the matcher knows, or an encoded traversal. -/
def NamesTarget (s : Str) : Prop :=
  ∃ pat ∈ traversalPatterns.drop 2, contains (s.map Char.toLower) pat = true

theorem isTraversal_iff (s : Str) :
    isTraversal s = true ↔ DotsBeforeSeparator s ∨ NamesTarget s := by
  have hsplit : traversalPatterns =
      ['.', '.', '/'] :: ['.', '.', '\\'] :: traversalPatterns.drop 2 := rfl
  unfold isTraversal NamesTarget
  rw [hsplit, List.any_cons, List.any_cons, Bool.or_eq_true, Bool.or_eq_true, contains_iff,
    contains_iff, dots_infix_map_toLower (by decide), dots_infix_map_toLower (by decide),
    dotsBeforeSeparator_iff, List.any_eq_true, or_assoc]
  rfl

end Path

/-! ## Requests -/

open OxidizedWall.Path

theorem PathAndQuery.asStr_eq {pq : PathAndQuery} (h : pq.path ≠ []) :
    pq.asStr = pq.path ++ pq.query.elim [] ('?' :: ·) := by
  unfold PathAndQuery.asStr
  rw [if_neg fun hnil => h (List.append_eq_nil_iff.mp hnil).1]
  cases pq.query <;> rfl

/-- The decoded target starts with the decoded path. -/
theorem Uri.decoded_target {u : Uri} (h : DotsBeforeSeparator (percentDecode u.path)) :
    DotsBeforeSeparator (percentDecode u.target) := by
  have hlong := h.three_le
  unfold Uri.path at h hlong
  unfold Uri.target
  cases hpq : u.pathAndQuery with
  | none =>
    rw [hpq] at hlong
    simp [percentDecode] at hlong
  | some pq =>
    rw [hpq] at h hlong
    by_cases hpath : pq.path = []
    · simp [hpath, percentDecode] at hlong
    · simp only [if_neg hpath] at h
      rw [Option.map_some, Option.getD_some, PathAndQuery.asStr_eq hpath]
      cases pq.query with
      | none => rwa [Option.elim_none, List.append_nil]
      | some q =>
        rw [Option.elim_some, percentDecode_append (by decide)]
        exact h.append _

/-- The request is refused for something else in its decoded target, for its keys, or for its
user agent. -/
def RefusedOtherwise (u : Uri) (headers : HeaderMap) : Prop :=
  NamesTarget (percentDecode u.target) ∨
    Core.isAttack (Utf8.encode (percentDecode u.target)) = true ∨ QueryRepeats u ∨
      Waf.fromBot headers = true

/-- **A path with a segment `..` is refused** if and only if two dots stand before a separator, or
the request is refused for another reason. Only a last segment can fail to. -/
theorem header_refuses_dotDot_iff {u : Uri} (hwf : WellEscaped u.target)
    (hdots : DotDotSegment (percentDecode u.path)) (method : Method) (headers : HeaderMap) :
    (Waf.header u method headers ≠ .ok () ↔
      DotsBeforeSeparator (percentDecode u.target) ∨ RefusedOtherwise u headers) ∧
    (¬ DotsBeforeSeparator (percentDecode u.target) → EndsInDotDot (percentDecode u.path)) := by
  constructor
  · rw [Ne, Waf.header_eq_ok_iff, hwf.normalizeUrl_eq, isTraversal_iff, any_pollution_iff]
    unfold RefusedOtherwise
    tauto
  · intro hno
    exact hdots.cases.resolve_right fun h => hno (Uri.decoded_target h)

/-- A target without a query. -/
def pathOnly (path : Str) : Uri := ⟨none, some ⟨path, none⟩⟩

theorem header_refuses_dotDot_middle :
    Waf.header (pathOnly "/a/../b".toList) .GET .new ≠ .ok () := by
  have hwf : WellEscaped (pathOnly "/a/../b".toList).target :=
    wellEscaped_of_no_escape (by decide)
  have hdots : DotDotSegment (percentDecode (pathOnly "/a/../b".toList).path) :=
    ⟨"/a/".toList, "/b".toList, by decide, fun c hc => .inl (Option.some.inj hc).symm,
      fun c hc => .inl (Option.some.inj hc).symm⟩
  exact (header_refuses_dotDot_iff hwf hdots .GET .new).1.mpr
    (.inl ⟨"/a/".toList, '/', ['b'], by decide, .inl rfl⟩)

/-- The last segment of the path is `..`, and the request passes. -/
theorem last_dotDot_passes : WellEscaped (pathOnly "/a/..".toList).target ∧
    DotDotSegment (percentDecode (pathOnly "/a/..".toList).path) ∧
    Waf.header (pathOnly "/a/..".toList) .GET .new = .ok () :=
  ⟨wellEscaped_of_no_escape (by decide),
    ⟨"/a/".toList, [], by decide, fun c hc => .inl (Option.some.inj hc).symm,
      fun c hc => (nomatch hc)⟩,
    by decide +kernel⟩

end OxidizedWall
