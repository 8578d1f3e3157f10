import OxidizedWall.Lib.Checks
import OxidizedWall.Waf

/-!
# The firewall and encodings

A target may be spelled in many ways: every character may stand as a percent-escape. The checks
of `waf::header` look at the decoded target, but for the one on the keys of the query; those of
`waf::body` look at the bytes as they come.

1. `header_eq_ok_iff`, `body_eq_ok_iff`: what the two inspections let through.
2. `header_reencoded`: when the spelling of a target does not matter.
3. `form_inspected_alike`: when an attack that the target would show is found in a body.
-/

namespace OxidizedWall

/-! ## Verdicts -/

namespace Waf

/-- The user agent is that of an attack tool. -/
def fromBot (headers : HeaderMap) : Bool :=
  ((headers.get USER_AGENT).bind HeaderValue.toStr).any Structure.isMaliciousBot

theorem header_eq_ok_iff {uri : Uri} {method : Method} {headers : HeaderMap} :
    header uri method headers = .ok () ↔
      ¬ Path.isTraversal (Path.normalizeUrl uri.target) = true ∧
      ¬ Core.isAttack (Utf8.encode (Path.normalizeUrl uri.target)) = true ∧
      ¬ uri.query.any Structure.hasParameterPollution = true ∧ ¬ fromBot headers = true := by
  unfold header
  simp only [Checks.check_eq_ok, Checks.check_last_eq_ok]
  rfl

theorem body_eq_ok_iff {unicode : Unicode} {headers : HeaderMap} {bodyBytes : Bytes} :
    body unicode headers bodyBytes = .ok () ↔
      File.checkMagicNumber bodyBytes = .ok () ∧
      ¬ ((headers.get CONTENT_TYPE).bind HeaderValue.toStr).any (fun ct =>
        !File.isAllowedFileType ct bodyBytes) = true ∧
      ¬ (!Structure.checkJsonDepth (Utf8.decodeLossy bodyBytes) 10) = true ∧
      ¬ Structure.isHighDensity unicode (Utf8.decodeLossy bodyBytes) (0.4 : Float32) = true ∧
      ¬ Structure.hasParameterPollution (Utf8.decodeLossy bodyBytes) = true ∧
      ¬ Core.isAttack bodyBytes = true := by
  unfold body
  simp only [Checks.andThen_eq_ok, Checks.check_eq_ok, Checks.check_last_eq_ok]

end Waf

/-! ## Spellings of a target -/

/-- The characters that need no escape and may always have one. -/
def Unreserved (c : Char) : Prop := c.isAlphanum = true ∨ c ∈ "-._~".toList

/-- Every percent sign of the first text starts an escape, and the second text is the first with
some of its unreserved characters percent-encoded, in either case of the digits. -/
inductive Encodes : Str → Str → Prop
  | nil : Encodes [] []
  | escape {h1 h2 : Char} {s t : Str} : Path.IsHexDigit h1 → Path.IsHexDigit h2 → Encodes s t →
    Encodes ('%' :: h1 :: h2 :: s) ('%' :: h1 :: h2 :: t)
  | keep {c : Char} {s t : Str} : c ≠ '%' → Encodes s t → Encodes (c :: s) (c :: t)
  | encode {c h1 h2 : Char} {s t : Str} : Unreserved c → Path.IsHexDigit h1 →
    Path.IsHexDigit h2 → IpAddr.ofDigits 16 [h1, h2] = c.toNat → Encodes s t →
    Encodes (c :: s) ('%' :: h1 :: h2 :: t)

namespace Encodes

variable {s s' t t' : Str}

/-- Both decode to the same text. -/
theorem normalizeUrl_eq (h : Encodes s t) : Path.normalizeUrl s = Path.normalizeUrl t := by
  induction h with
  | nil => rfl
  | escape hd1 hd2 _ ih =>
    rw [Path.normalizeUrl_escape hd1 hd2, Path.normalizeUrl_escape hd1 hd2, ih]
  | keep hc _ ih => rw [Path.normalizeUrl_cons hc, Path.normalizeUrl_cons hc, ih]
  | @encode c h1 h2 s t hc hd1 hd2 hvalue _ ih =>
    have hpercent : c ≠ '%' := by
      rintro rfl
      revert hc
      unfold Unreserved
      decide
    rw [Path.normalizeUrl_cons hpercent, Path.normalizeUrl_escape hd1 hd2, hvalue, ih,
      Char.ofNat_toNat]

theorem append (h : Encodes s t) (h' : Encodes s' t') : Encodes (s ++ s') (t ++ t') := by
  induction h with
  | nil => exact h'
  | escape hd1 hd2 _ ih => exact .escape hd1 hd2 ih
  | keep hc _ ih => exact .keep hc ih
  | encode hc hd1 hd2 hvalue _ ih => exact .encode hc hd1 hd2 hvalue ih

theorem eq_nil_iff (h : Encodes s t) : s = [] ↔ t = [] := by
  cases h <;> simp

end Encodes

/-- The path and the query of the second are those of the first, percent-encoded further. -/
structure PathAndQuery.Reencoded (pq pq' : PathAndQuery) : Prop where
  path : Encodes pq.path pq'.path
  query : Option.Rel Encodes pq.query pq'.query

/-- The target of the second URI is that of the first, percent-encoded further. -/
def Uri.Reencoded (u u' : Uri) : Prop :=
  Option.Rel PathAndQuery.Reencoded u.pathAndQuery u'.pathAndQuery

theorem PathAndQuery.Reencoded.asStr {pq pq' : PathAndQuery} (h : pq.Reencoded pq') :
    Encodes pq.asStr pq'.asStr := by
  have hslash : ∀ {s t : Str}, Encodes s t →
      Encodes (if s = [] then ['/'] else s) (if t = [] then ['/'] else t) := by
    intro s t hst
    by_cases hs : s = []
    · rw [if_pos hs, if_pos (hst.eq_nil_iff.mp hs)]
      exact .keep (by decide) .nil
    · rw [if_neg hs, if_neg (hst.eq_nil_iff.not.mp hs)]
      exact hst
  obtain ⟨path, query⟩ := pq
  obtain ⟨path', query'⟩ := pq'
  apply hslash
  have hquery : Option.Rel Encodes query query' := h.query
  cases hquery with
  | some hq => exact h.path.append (.keep (show '?' ≠ '%' by decide) hq)
  | none => exact h.path.append .nil

theorem Uri.Reencoded.target {u u' : Uri} (h : u.Reencoded u') : Encodes u.target u'.target := by
  unfold Uri.target
  unfold Uri.Reencoded at h
  cases hpq : u.pathAndQuery <;> cases hpq' : u'.pathAndQuery <;> rw [hpq, hpq'] at h
  · exact .keep (by decide) .nil
  · cases h
  · cases h
  · cases h with
    | some h => exact h.asStr

/-- A key stands twice in the query, spelled alike. -/
def QueryRepeats (u : Uri) : Prop := ∃ q, u.query = some q ∧ Structure.RepeatsKey q

theorem any_pollution_iff (u : Uri) :
    u.query.any Structure.hasParameterPollution = true ↔ QueryRepeats u := by
  unfold QueryRepeats
  rw [Option.any_eq_true]
  simp only [Structure.hasParameterPollution_iff]

/-- What `waf::header` finds in the decoded target, and in the user agent. -/
def CaughtDecoded (u : Uri) (headers : HeaderMap) : Prop :=
  Path.isTraversal (Path.normalizeUrl u.target) = true ∨
    Core.isAttack (Utf8.encode (Path.normalizeUrl u.target)) = true ∨ Waf.fromBot headers = true

/-- **The spelling of a target does not matter** if the request is refused anyway, for its decoded
target or for its user agent, or if the two queries both repeat a key, as they are spelled, or
neither does: only the keys are compared before they are decoded. -/
theorem header_reencoded {u u' : Uri} (h : u.Reencoded u') (method : Method)
    (headers : HeaderMap) :
    (Waf.header u method headers = .ok () ↔ Waf.header u' method headers = .ok ()) ↔
      CaughtDecoded u headers ∨ (QueryRepeats u ↔ QueryRepeats u') := by
  rw [Waf.header_eq_ok_iff, Waf.header_eq_ok_iff, ← h.target.normalizeUrl_eq, any_pollution_iff,
    any_pollution_iff]
  unfold CaughtDecoded
  tauto

/-- The root with the query `q`. -/
def rootWith (q : Str) : Uri := ⟨none, some ⟨['/'], some q⟩⟩

/-- A text without a percent sign is a spelling of itself. -/
theorem encodes_refl {s : Str} (h : '%' ∉ s) : Encodes s s := by
  induction s with
  | nil => exact .nil
  | cons c s ih =>
    rw [List.mem_cons, not_or] at h
    exact .keep (Ne.symm h.1) (ih h.2)

/-- One `a` of a query, between texts without a percent sign, encoded. -/
theorem encodes_a {s t : Str} (hs : '%' ∉ s) (ht : '%' ∉ t) :
    Encodes (s ++ 'a' :: t) (s ++ '%' :: '6' :: '1' :: t) :=
  (encodes_refl hs).append
    (.encode (.inl rfl) (by decide) (by decide) (by decide) (encodes_refl ht))

/-- The second of two equal keys is hidden behind an escape. -/
theorem escape_hides_key : (rootWith "a=1&a=2".toList).Reencoded (rootWith "a=1&%61=2".toList) ∧
    Waf.header (rootWith "a=1&a=2".toList) .GET .new ≠ .ok () ∧
    Waf.header (rootWith "a=1&%61=2".toList) .GET .new = .ok () := by
  have hquery := encodes_a (s := "a=1&".toList) (t := "=2".toList) (by decide) (by decide)
  exact ⟨.some ⟨encodes_refl (by decide), .some hquery⟩, by decide +kernel, by decide +kernel⟩

/-- A query without a repeated key. -/
theorem header_reencoded_once :
    Waf.header (rootWith "a=1&b=2".toList) .GET .new = .ok () ↔
      Waf.header (rootWith "%61=1&b=2".toList) .GET .new = .ok () := by
  have hquery := encodes_a (s := []) (t := "=1&b=2".toList) (by decide) (by decide)
  have huri : (rootWith "a=1&b=2".toList).Reencoded (rootWith "%61=1&b=2".toList) :=
    .some ⟨encodes_refl (by decide), .some hquery⟩
  refine (header_reencoded huri .GET .new).mpr (.inr ?_)
  rw [← any_pollution_iff, ← any_pollution_iff]
  decide

/-! ## Forms -/

/-- The characters that the query of a URI may have. -/
def IsQueryChar (c : Char) : Prop :=
  c = '!' ∨ ('$' ≤ c ∧ c ≤ ';') ∨ c = '=' ∨ '?' ≤ c

instance (c : Char) : Decidable (IsQueryChar c) :=
  inferInstanceAs (Decidable (c = '!' ∨ ('$' ≤ c ∧ c ≤ ';') ∨ c = '=' ∨ '?' ≤ c))

/-- A text in query-string syntax. -/
def FormString (q : Str) : Prop := ∀ c ∈ q, IsQueryChar c

instance (q : Str) : Decidable (FormString q) := List.decidableBAll IsQueryChar q

/-- The content type of a form. -/
def FORM_URLENCODED : Str := "application/x-www-form-urlencoded".toList

theorem isAllowedFileType_form (bytes : Bytes) :
    File.isAllowedFileType FORM_URLENCODED bytes = true := by
  unfold File.isAllowedFileType
  split
  · rfl
  · rw [if_neg (by decide), if_neg (by decide), if_neg (by decide), if_neg (by decide),
      if_neg (by decide)]

/-- The bytes start an executable. -/
def Executable (q : Str) : Prop :=
  4 ≤ utf8Len q ∧ ("MZ".toList <+: q ∨ "\x7fELF".toList <+: q)

theorem not_isPrefix_of_formString {q p : Str} (hform : FormString q) {c : Char} (hmem : c ∈ p)
    (hc : ¬ IsQueryChar c) : ¬ p <+: q := by
  rintro ⟨rest, rfl⟩
  exact hc (hform c (List.mem_append_left rest hmem))

/-- Of the signatures of scripts none is in query-string syntax. -/
theorem checkMagicNumber_form {q : Str} (hform : FormString q) :
    File.checkMagicNumber (Utf8.encode q) = .ok () ↔ ¬ Executable q := by
  have hstarts : ∀ (s : Str) (bytes : Bytes), bytes = Utf8.encode s →
      (bytes.isPrefixOf (Utf8.encode q) = true ↔ s <+: q) := by
    rintro s _ rfl
    rw [List.isPrefixOf_iff_prefix, Utf8.encode_isPrefix_iff]
  have hmz := hstarts "MZ".toList (File.bytesOf "MZ") (by decide)
  have helf := hstarts "\x7fELF".toList [0x7F, 0x45, 0x4C, 0x46] (by decide)
  have hhash := (hstarts "#!/".toList (File.bytesOf "#!/") (by decide)).not.mpr
    (not_isPrefix_of_formString hform (c := '#') (by decide) (by decide))
  have hphp := (hstarts "<?php".toList (File.bytesOf "<?php") (by decide)).not.mpr
    (not_isPrefix_of_formString hform (c := '<') (by decide) (by decide))
  have hscript : ¬ ((File.bytesOf "#!/").isPrefixOf (Utf8.encode q) ||
      (File.bytesOf "<?php").isPrefixOf (Utf8.encode q)) = true := by
    rw [Bool.or_eq_true]
    exact fun h => h.elim hhash hphp
  have hlen : (Utf8.encode q).length = utf8Len q := Utf8.length_encode q
  unfold File.checkMagicNumber Executable
  rw [hlen, ← hmz, ← helf]
  by_cases hshort : utf8Len q < 4
  · rw [if_pos hshort]
    exact ⟨fun _ h => absurd h.1 (Nat.not_le.mpr hshort), fun _ => rfl⟩
  · rw [if_neg hshort, if_neg hscript]
    have hlong : 4 ≤ utf8Len q := Nat.not_lt.mp hshort
    by_cases h1 : (File.bytesOf "MZ").isPrefixOf (Utf8.encode q) = true
    · rw [if_pos h1]
      exact ⟨fun h => (nomatch h), fun h => absurd ⟨hlong, .inl h1⟩ h⟩
    · rw [if_neg h1]
      by_cases h2 : [0x7F, 0x45, 0x4C, 0x46].isPrefixOf (Utf8.encode q) = true
      · rw [if_pos h2]
        exact ⟨fun h => (nomatch h), fun h => absurd ⟨hlong, .inr h2⟩ h⟩
      · rw [if_neg h2]
        exact ⟨fun _ h => h.2.elim h1 h2, fun _ => rfl⟩

/-- What `waf::body` finds in a form: a signature in the text as it stands, an executable,
brackets more than ten deep, a density of special characters above `0.4f32`, or a repeated key. -/
def FoundInForm (unicode : Unicode) (q : Str) : Prop :=
  Core.isAttack (Utf8.encode q) = true ∨ Executable q ∨ Structure.checkJsonDepth q 10 = false ∨
    Structure.isHighDensity unicode q (0.4 : Float32) = true ∨ Structure.RepeatsKey q

theorem body_form_eq_ok_iff {unicode : Unicode} {headers : HeaderMap} {q : Str}
    (hform : FormString q)
    (hct : (headers.get CONTENT_TYPE).bind HeaderValue.toStr = some FORM_URLENCODED) :
    Waf.body unicode headers (Utf8.encode q) = .ok () ↔ ¬ FoundInForm unicode q := by
  rw [Waf.body_eq_ok_iff, checkMagicNumber_form hform, hct, Utf8.decodeLossy_encode,
    Option.any_some, isAllowedFileType_form, Structure.hasParameterPollution_iff]
  unfold FoundInForm
  simp only [Bool.not_true, Bool.false_eq_true, not_false_eq_true, true_and, Bool.not_eq_true',
    not_or]
  tauto

/-- A query that shows an attack once it is decoded is refused. -/
theorem header_refuses {q : Str}
    (hattack : Core.isAttack (Utf8.encode (Path.normalizeUrl q)) = true) (method : Method)
    (headers : HeaderMap) : Waf.header (rootWith q) method headers ≠ .ok () := by
  intro hok
  have htarget : Path.normalizeUrl (rootWith q).target = "/?".toList ++ Path.normalizeUrl q := by
    show Path.normalizeUrl ('/' :: '?' :: q) = '/' :: '?' :: Path.normalizeUrl q
    rw [Path.normalizeUrl_cons (by decide), Path.normalizeUrl_cons (by decide)]
  refine (Waf.header_eq_ok_iff.mp hok).2.1 ?_
  rw [htarget, Utf8.encode_append]
  unfold Core.isAttack at hattack ⊢
  obtain ⟨r, hr, hmatch⟩ := List.any_eq_true.mp hattack
  exact List.any_eq_true.mpr ⟨r, hr, Regex.isMatchBytes_append hmatch _⟩

theorem normalizeUrl_of_no_escape {q : Str} (h : '%' ∉ q) : Path.normalizeUrl q = q := by
  induction q with
  | nil => rfl
  | cons c q ih =>
    rw [List.mem_cons, not_or] at h
    rw [Path.normalizeUrl_cons (Ne.symm h.1), ih h.2]

/-- Without escapes there is nothing to decode. -/
theorem foundInForm_of_no_escape (unicode : Unicode) {q : Str} (h : '%' ∉ q)
    (hattack : Core.isAttack (Utf8.encode (Path.normalizeUrl q)) = true) :
    FoundInForm unicode q := by
  rw [normalizeUrl_of_no_escape h] at hattack
  exact .inl hattack

/-- **The two inspections agree on a form** in which the decoded text shows an attack, if it is
found as it stands, or if the form is refused for another reason: a body is not decoded. -/
theorem form_inspected_alike (unicode : Unicode) {q : Str} (hform : FormString q)
    (hattack : Core.isAttack (Utf8.encode (Path.normalizeUrl q)) = true) {headers : HeaderMap}
    (hct : (headers.get CONTENT_TYPE).bind HeaderValue.toStr = some FORM_URLENCODED) :
    (∀ method headers', Waf.header (rootWith q) method headers' ≠ .ok ()) ∧
      (Waf.body unicode headers (Utf8.encode q) ≠ .ok () ↔ FoundInForm unicode q) := by
  refine ⟨header_refuses hattack, ?_⟩
  rw [Ne, body_form_eq_ok_iff hform hct, not_not]

/-- The headers of a form. -/
def formHeaders : HeaderMap :=
  ⟨[(CONTENT_TYPE, HeaderValue.fromStatic "application/x-www-form-urlencoded")]⟩

/-- An attack without escapes. -/
theorem form_inspected_alike_plain :
    Waf.body .ascii formHeaders (Utf8.encode "javascript:alert(1)".toList) ≠ .ok () := by
  have hform : FormString "javascript:alert(1)".toList := by decide
  have hattack : Core.isAttack (Utf8.encode (Path.normalizeUrl "javascript:alert(1)".toList)) =
      true := by decide +kernel
  have hct : (formHeaders.get CONTENT_TYPE).bind HeaderValue.toStr = some FORM_URLENCODED := by
    decide
  exact (form_inspected_alike .ascii hform hattack hct).2.mpr
    (foundInForm_of_no_escape .ascii (by decide) hattack)

/-- The space between two keywords is encoded. -/
theorem encoded_form_passes : FormString "union%20select".toList ∧
    Waf.header (rootWith "union%20select".toList) .GET .new =
      .error "Malicious pattern detected in URI" ∧
    Core.isAttack (Utf8.encode (Path.normalizeUrl "union%20select".toList)) = true ∧
    Waf.body .ascii formHeaders (Utf8.encode "union%20select".toList) = .ok () := by
  refine ⟨by decide, ?_, ?_, ?_⟩ <;> decide +kernel

end OxidizedWall
