import OxidizedWall.Evasion
import Mathlib.Data.List.DropRight

/-!
# What the payload checks measure

1. `declared_type_enforced_iff`: a declared file type is compared as it is spelled, so another
   spelling of the same media type declares nothing.
2. `density_counts_characters_iff`: the special characters are counted as characters, and the text
   as bytes.
-/

namespace OxidizedWall

/-! ## Declared file types -/

def isOws (b : UInt8) : Bool := b == 32 || b == 9

def lowerByte (b : UInt8) : UInt8 := if 65 ≤ b ∧ b ≤ 90 then b + 32 else b

/-- The media type that a `Content-Type` value declares: what stands before the parameters, without
the whitespace around it, in lower case. -/
def mediaType (v : HeaderValue) : Bytes :=
  (((v.takeWhile (· ≠ 59)).dropWhile isOws).rdropWhile isOws).map lowerByte

namespace File

/-- The types whose signature is known. -/
def signatures : List (String × Bytes) :=
  [("image/jpeg", [0xFF, 0xD8, 0xFF]), ("image/png", [0x89, 0x50, 0x4E, 0x47]),
    ("image/gif", bytesOf "GIF8"), ("application/pdf", bytesOf "%PDF"),
    ("application/zip", [0x50, 0x4B, 0x03, 0x04])]

/-- A type is refused if it is one of the five, as it stands, and the body begins otherwise. -/
theorem isAllowedFileType_eq_false_iff {ct : Str} {body : Bytes} :
    isAllowedFileType ct body = false ↔
      4 ≤ body.length ∧ ∃ s ∈ signatures, ct = s.1.toList ∧ ¬ s.2 <+: body := by
  have hprefix {sig : Bytes} : sig.isPrefixOf body = false ↔ ¬ sig <+: body := by
    rw [← List.isPrefixOf_iff_prefix, Bool.not_eq_true]
  constructor
  · intro h
    unfold isAllowedFileType at h
    split_ifs at h with hshort hjpeg hpng hgif hpdf hzip
    · exact ⟨Nat.not_lt.mp hshort, _, .head _, hjpeg, hprefix.mp h⟩
    · exact ⟨Nat.not_lt.mp hshort, _, .tail _ (.head _), hpng, hprefix.mp h⟩
    · exact ⟨Nat.not_lt.mp hshort, _, .tail _ (.tail _ (.head _)), hgif, hprefix.mp h⟩
    · exact ⟨Nat.not_lt.mp hshort, _, .tail _ (.tail _ (.tail _ (.head _))), hpdf, hprefix.mp h⟩
    · exact ⟨Nat.not_lt.mp hshort, _, .tail _ (.tail _ (.tail _ (.tail _ (.head _)))), hzip,
        hprefix.mp h⟩
  · rintro ⟨hlong, s, hs, rfl, hno⟩
    have hshort : ¬ body.length < 4 := Nat.not_lt.mpr hlong
    rw [← hprefix] at hno
    unfold isAllowedFileType
    rw [if_neg hshort]
    unfold signatures at hs
    simp only [List.mem_cons, List.not_mem_nil, or_false] at hs
    rcases hs with rfl | rfl | rfl | rfl | rfl
    · rw [if_pos rfl, hno]
    · rw [if_neg (by decide), if_pos rfl, hno]
    · rw [if_neg (by decide), if_neg (by decide), if_pos rfl, hno]
    · rw [if_neg (by decide), if_neg (by decide), if_neg (by decide), if_pos rfl, hno]
    · rw [if_neg (by decide), if_neg (by decide), if_neg (by decide), if_neg (by decide),
        if_pos rfl, hno]

/-- Each of the five is its own media type, and can be read. -/
theorem canonical {s : String × Bytes} (hs : s ∈ signatures) :
    mediaType (HeaderValue.fromStatic s.1) = HeaderValue.fromStatic s.1 ∧
      (HeaderValue.fromStatic s.1).toStr = some s.1.toList := by
  unfold signatures at hs
  simp only [List.mem_cons, List.not_mem_nil, or_false] at hs
  rcases hs with rfl | rfl | rfl | rfl | rfl <;> decide

end File

/-- A value that is read as a literal is the literal. -/
theorem HeaderValue.toStr_eq_toList {v : HeaderValue} {s : String} (h : v.toStr = some s.toList) :
    v = fromStatic s := by
  have htext : v.map (fun b => Char.ofNat b.toNat) = s.toList := by
    unfold toStr at h
    split at h
    · exact Option.some.inj h
    · cases h
  have hbyte : ∀ n < 256, UInt8.ofNat (Char.ofNat n).toNat = UInt8.ofNat n := by
    decide +kernel
  unfold fromStatic
  rw [← htext, List.map_map]
  refine (List.map_id' v).symm.trans (List.map_congr_left fun b _ => ?_)
  exact ((hbyte b.toNat b.toNat_lt).trans UInt8.ofNat_toNat).symm

namespace Waf

variable {unicode : Unicode} {headers : HeaderMap} {bytes : Bytes}

/-- What is refused whatever its type. -/
def RefusedUntyped (unicode : Unicode) (bytes : Bytes) : Prop :=
  File.checkMagicNumber bytes ≠ .ok () ∨
    Structure.checkJsonDepth (Utf8.decodeLossy bytes) 10 = false ∨
    Structure.isHighDensity unicode (Utf8.decodeLossy bytes) (0.4 : Float32) = true ∨
    Structure.hasParameterPollution (Utf8.decodeLossy bytes) = true ∨
    Core.isAttack bytes = true

theorem body_error_iff : (∃ e, body unicode headers bytes = .error e) ↔
    (∃ ct, (headers.get CONTENT_TYPE).bind HeaderValue.toStr = some ct ∧
      File.isAllowedFileType ct bytes = false) ∨ RefusedUntyped unicode bytes := by
  have herror : (∃ e, body unicode headers bytes = .error e) ↔
      ¬ body unicode headers bytes = .ok () := by
    cases body unicode headers bytes <;> simp
  rw [herror, body_eq_ok_iff]
  unfold RefusedUntyped
  simp only [Option.any_eq_true, Bool.not_eq_true', not_and_or, not_not, Bool.not_eq_true,
    Bool.not_eq_false, ne_eq]
  exact or_left_comm

/-- **When a declared type is enforced.** Of a body that does not begin like the type it declares,
every one is refused if the type is spelled exactly as in the table, without parameters; in any
other spelling, only one that is refused without its type. -/
theorem declared_type_enforced_iff {v : HeaderValue} {s : String × Bytes}
    (hget : headers.get CONTENT_TYPE = some v) (hs : s ∈ File.signatures)
    (htype : mediaType v = HeaderValue.fromStatic s.1) (hlen : 4 ≤ bytes.length) (hsig : ¬ s.2 <+: bytes) :
    (∃ e, body unicode headers bytes = .error e) ↔
      v = .fromStatic s.1 ∨ RefusedUntyped unicode bytes := by
  rw [body_error_iff, hget, Option.bind_some]
  refine or_congr_left ?_
  constructor
  · rintro ⟨ct, hct, hrefused⟩
    obtain ⟨-, s', hs', rfl, -⟩ := File.isAllowedFileType_eq_false_iff.mp hrefused
    obtain rfl := HeaderValue.toStr_eq_toList hct
    rw [← (File.canonical hs').1, htype]
  · rintro rfl
    refine ⟨s.1.toList, (File.canonical hs).2, ?_⟩
    exact File.isAllowedFileType_eq_false_iff.mpr ⟨hlen, s, hs, rfl, hsig⟩

def declaring (ct : String) : HeaderMap := ⟨[(CONTENT_TYPE, .fromStatic ct)]⟩

/-- A text that says it is an image, with a capital letter. -/
theorem undeclared_png :
    (declaring "image/PNG").get CONTENT_TYPE = some (.fromStatic "image/PNG") ∧
    mediaType (HeaderValue.fromStatic "image/PNG") = HeaderValue.fromStatic "image/png" ∧
    ("image/png", [0x89, 0x50, 0x4E, 0x47]) ∈ File.signatures ∧
    4 ≤ (File.bytesOf "text").length ∧ ¬ [0x89, 0x50, 0x4E, 0x47] <+: File.bytesOf "text" ∧
    ¬ ∃ e, body .ascii (declaring "image/PNG") (File.bytesOf "text") = .error e := by
  have hbody : body .ascii (declaring "image/PNG") (File.bytesOf "text") = .ok () := by
    decide +kernel
  refine ⟨rfl, by decide, .tail _ (.head _), by decide, by decide, ?_⟩
  rintro ⟨e, he⟩
  rw [hbody] at he
  cases he

theorem declared_type_enforced_png : ∃ e,
    body .ascii (declaring "image/png") (File.bytesOf "text") = .error e := by
  have hs : ("image/png", [0x89, 0x50, 0x4E, 0x47]) ∈ File.signatures := .tail _ (.head _)
  exact (declared_type_enforced_iff rfl hs (by decide) (by decide) (by decide)).mpr (.inl rfl)

end Waf

/-! ## Density -/

namespace Structure

def specials (unicode : Unicode) (input : Str) : ℕ :=
  (input.filter fun c => !unicode.isAlphanumeric c && !isWhitespace c).length

/-- The share of the special characters in the bytes. -/
def density {F : Type} [NatCast F] [Div F] (unicode : Unicode) (input : Str) : F :=
  (specials unicode input : F) / (utf8Len input : F)

/-- More than the part `threshold` of the characters are special. -/
def Dense (unicode : Unicode) (input : Str) (threshold : ℚ) : Prop :=
  input ≠ [] ∧ threshold < specials unicode input / input.length

/-- No character is longer than its byte. -/
theorem length_le_utf8Len (s : Str) : s.length ≤ utf8Len s := by
  unfold utf8Len
  induction s with
  | nil => exact Nat.le_refl _
  | cons c s ih =>
    have := c.utf8Size_pos
    rw [List.map_cons, List.sum_cons, List.length_cons]
    omega

variable {unicode : Unicode} {input : Str} {threshold : ℚ}

theorem isHighDensity_iff : isHighDensity unicode input threshold = true ↔
    input ≠ [] ∧ threshold * utf8Len input < specials unicode input := by
  unfold isHighDensity specials
  by_cases hempty : input = []
  · rw [if_pos hempty]
    simp [hempty]
  · rw [if_neg hempty]
    have hpos : 0 < (utf8Len input : ℚ) := by
      have := length_le_utf8Len input
      have := List.length_pos_iff.mpr hempty
      exact_mod_cast (by omega : 0 < utf8Len input)
    simp only [gt_iff_lt, decide_eq_true_eq, lt_div_iff₀ hpos, hempty, ne_eq, not_false_eq_true,
      true_and]

theorem dense_iff : Dense unicode input threshold ↔
    input ≠ [] ∧ threshold * input.length < specials unicode input := by
  unfold Dense
  refine and_congr_right fun hempty => lt_div_iff₀ ?_
  exact_mod_cast List.length_pos_iff.mpr hempty

/-- The shares are on the same side of a threshold unless it lies between them. -/
theorem isHighDensity_iff_dense_iff :
    (isHighDensity unicode input threshold = true ↔ Dense unicode input threshold) ↔
      ¬ (threshold * input.length < specials unicode input ∧
        specials unicode input ≤ threshold * utf8Len input) := by
  rw [isHighDensity_iff, dense_iff]
  by_cases hempty : input = []
  · subst hempty
    simp [specials]
  have hlen : (input.length : ℚ) ≤ utf8Len input := by exact_mod_cast length_le_utf8Len input
  have hpos : 0 < (input.length : ℚ) := by exact_mod_cast List.length_pos_iff.mpr hempty
  have hspecials : 0 ≤ (specials unicode input : ℚ) := by positivity
  simp only [hempty, ne_eq, not_false_eq_true, true_and, not_and, not_le]
  constructor
  · exact fun h => h.mpr
  · refine fun h => ⟨fun hbytes => ?_, h⟩
    rcases lt_or_ge threshold 0 with hneg | hnonneg
    · exact (mul_neg_of_neg_of_pos hneg hpos).trans_le hspecials
    · exact (mul_le_mul_of_nonneg_left hlen hnonneg).trans_lt hbytes

/-- **When density counts characters.** The answer is right at a threshold unless it lies between the
share of the special characters in the bytes and their share in the characters. So a text gets the
right answer at every threshold if it is ASCII or has no special character, and no other does. -/
theorem density_counts_characters_iff (unicode : Unicode) (input : Str) :
    (∀ threshold, (isHighDensity unicode input threshold = true ↔
        Dense unicode input threshold) ↔
      ¬ (threshold * input.length < specials unicode input ∧
        specials unicode input ≤ threshold * utf8Len input)) ∧
    ((∀ threshold, isHighDensity unicode input threshold = true ↔ Dense unicode input threshold) ↔
      specials unicode input = 0 ∨ utf8Len input = input.length) := by
  refine ⟨fun threshold => isHighDensity_iff_dense_iff, ?_⟩
  simp only [isHighDensity_iff_dense_iff, not_and, not_le]
  constructor
  · intro h
    by_contra hno
    obtain ⟨hsome, hwide⟩ := not_or.mp hno
    have hspecials : 0 < (specials unicode input : ℚ) := by
      exact_mod_cast Nat.pos_of_ne_zero hsome
    have hlen : (input.length : ℚ) < utf8Len input := by
      exact_mod_cast lt_of_le_of_ne (length_le_utf8Len input) (Ne.symm hwide)
    have hbytes : (0 : ℚ) < utf8Len input := lt_of_le_of_lt (Nat.cast_nonneg _) hlen
    -- the share in the bytes is a threshold between the two
    have hshare : specials unicode input / utf8Len input * utf8Len input =
        (specials unicode input : ℚ) := div_mul_cancel₀ _ hbytes.ne'
    refine (h (specials unicode input / utf8Len input) ?_).ne hshare
    exact (mul_lt_mul_of_pos_left hlen (div_pos hspecials hbytes)).trans_eq hshare
  · rintro (hnone | hnarrow) threshold hchars
    · rw [hnone, Nat.cast_zero] at hchars ⊢
      have hneg : threshold < 0 := by
        by_contra hnonneg
        exact absurd hchars (not_lt.mpr (mul_nonneg (not_lt.mp hnonneg) (Nat.cast_nonneg _)))
      have hpos : 0 < (input.length : ℚ) := by
        by_contra hzero
        rw [le_antisymm (not_lt.mp hzero) (Nat.cast_nonneg _), mul_zero] at hchars
        exact lt_irrefl _ hchars
      have hlen : (input.length : ℚ) ≤ utf8Len input := by exact_mod_cast length_le_utf8Len input
      exact mul_neg_of_neg_of_pos hneg (hpos.trans_le hlen)
    · rw [hnarrow]
      exact hchars

/-- Half of the two characters are special, but a quarter of the four bytes. -/
theorem not_dense_bytes : Dense .ascii "a€".toList (2 / 5) ∧
    isHighDensity .ascii "a€".toList (2 / 5 : ℚ) = false := by
  have hspecials : specials .ascii "a€".toList = 1 := by decide
  have hlen : "a€".toList.length = 2 := by decide
  have hbytes : utf8Len "a€".toList = 4 := by decide
  refine ⟨dense_iff.mpr ⟨by decide, ?_⟩, ?_⟩
  · rw [hspecials, hlen]
    norm_num
  · rw [← Bool.not_eq_true, isHighDensity_iff, hspecials, hbytes]
    norm_num

end Structure

end OxidizedWall
