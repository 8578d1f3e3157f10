import OxidizedWall.Lib.Separator
import OxidizedWall.Matches

/-!
# Masking a document

A document is lines, fields or string literals between characters that are written in no address
and no card number. Masking goes through it part by part (`mask_fields`), and leaves every character
where it is that neither it nor anything that it masks is written with (`mask_structure`).
-/

namespace OxidizedWall.Dlp

open Regex

variable {unicode : Unicode} {c : Char} {t : Str}

/-- A character that neither an address nor a card number reaches across. -/
def isBreak (unicode : Unicode) (c : Char) : Bool :=
  !(isLocal c || "@ ".toList.contains c || unicode.isDecimal c || unicode.isWord c)

theorem isBreak_iff : isBreak unicode c = true ↔ isLocal c = false ∧ c ≠ '@' ∧ c ≠ ' ' ∧
    unicode.isDecimal c = false ∧ unicode.isWord c = false := by
  simp [isBreak, and_assoc]

theorem isLocal_of_isDomain (h : isDomain c = true) : isLocal c = true := by
  unfold isDomain at h
  unfold isLocal
  rcases Bool.or_eq_true_iff.mp h with h | h
  · rw [h, Bool.true_or]
  · have hall : ∀ c ∈ ".-".toList, "._%+-".toList.contains c = true :=
      List.all_iff_forall_prop.mp (by decide)
    rw [hall c (List.contains_iff_mem.mp h), Bool.or_true]

theorem isLocal_of_isLetter (h : isLetter c = true) : isLocal c = true := by
  unfold isLocal
  rw [h, Bool.true_or, Bool.true_or]

theorem separates_emailRe (h : isBreak unicode c = true) :
    Separates unicode.isWord emailRe c := by
  obtain ⟨hlocal, hat, -, -, hword⟩ := isBreak_iff.mp h
  have hdomain : isDomain c = false := by
    by_contra hd
    rw [isLocal_of_isDomain (by simpa using hd)] at hlocal
    cases hlocal
  have hletter : isLetter c = false := by
    by_contra hl
    rw [isLocal_of_isLetter (by simpa using hl)] at hlocal
    cases hlocal
  have hdot : c ≠ '.' := by
    rintro rfl
    revert hlocal
    decide
  refine ⟨hword, ?_⟩
  simp [emailRe, plus, chr, times, avoids, hlocal, hdomain, hletter, hat, hdot]

theorem separates_cardRe (h : isBreak unicode c = true) :
    Separates unicode.isWord (cardRe unicode) c := by
  obtain ⟨hlocal, -, hblank, hdecimal, hword⟩ := isBreak_iff.mp h
  have hdash : c ≠ '-' := by
    rintro rfl
    revert hlocal
    decide
  refine ⟨hword, ?_⟩
  simp [cardRe, times, atMost, avoids, hdecimal, hblank, hdash]

/-- **Masking goes field by field**: whatever the separator, what is made of a document is made of
its fields, each of them masked by itself. -/
theorem mask_fields (h : isBreak unicode c = true) (t : Str) :
    maskSensitiveInfo unicode t =
      [c].intercalate ((t.splitOn c).map (maskSensitiveInfo unicode)) := by
  have hparts := replaceAll_intercalate (separates_emailRe h) maskEmail (t.splitOn c)
  rw [List.intercalate_splitOn] at hparts
  unfold maskSensitiveInfo
  simp only
  rw [hparts, replaceAll_intercalate (separates_cardRe h), List.map_map]
  rfl

/-- Three lines: an address, a card number, and one that is cut by the end of its line. -/
theorem mask_fields_lines :
    maskSensitiveInfo .ascii "a@b.org\n4000 0000 0000 0002\n4000 0000".toList =
      "****@b.org\n****-****-****-****\n4000 0000".toList := by
  rw [mask_fields (c := '\n') (by decide)]
  decide +kernel

/-! ## What stays where it is -/

/-- A character that is written in no address, no card number and no mask. -/
def isStructural (unicode : Unicode) (c : Char) : Bool :=
  !(isLocal c || "@* ".toList.contains c || unicode.isDecimal c)

/-- A replacement without these characters, of matches without them, leaves them as they are. -/
theorem filter_render {p : Char → Bool} {f : Str → Str} {ps : List Piece}
    (h : ∀ m, .found m ∈ ps → (f m).filter p = m.filter p) :
    (render f ps).filter p = (render id ps).filter p := by
  induction ps with
  | nil => rfl
  | cons piece ps ih =>
    have hps := ih fun m hm => h m (List.mem_cons_of_mem _ hm)
    cases piece with
    | kept c => rw [render_kept, render_kept, List.filter_cons, List.filter_cons, hps]
    | found m =>
      rw [render_found, render_found, List.filter_append, List.filter_append, hps,
        h m List.mem_cons_self]
      rfl

theorem filter_structural_eq_nil {m : Str} (h : ∀ c ∈ m, isStructural unicode c = false) :
    m.filter (isStructural unicode) = [] := by
  rw [List.filter_eq_nil_iff]
  intro c hc
  rw [h c hc]
  exact Bool.false_ne_true

theorem not_structural_of_isLocal (h : isLocal c = true) : isStructural unicode c = false := by
  unfold isStructural
  rw [h, Bool.true_or, Bool.true_or]
  rfl

theorem not_structural_of_isCardChar (h : isCardChar unicode c = true) :
    isStructural unicode c = false := by
  unfold isCardChar isSeparator at h
  rcases Bool.or_eq_true_iff.mp h with h | h
  · unfold isStructural
    rw [h, Bool.or_true]
    rfl
  · rcases (by simpa using h : c = ' ' ∨ c = '-') with rfl | rfl
    · simp [isStructural]
    · exact not_structural_of_isLocal (by decide)

/-- Nothing that is written in an address, or left of it, is structural. -/
theorem Parts.not_structural {m l rest : Str} (h : Parts m l rest) :
    (∀ c ∈ m, isStructural unicode c = false) ∧
      ∀ c ∈ maskEmail m, isStructural unicode c = false := by
  have hrest : ∀ c ∈ '@' :: rest, isStructural unicode c = false := by
    intro c hc
    rcases List.mem_cons.mp hc with rfl | hc
    · simp [isStructural]
    · exact not_structural_of_isLocal (isLocal_of_isDomain (h.isDomain c hc))
  constructor
  · intro c hc
    rw [h.eq] at hc
    rcases List.mem_append.mp hc with hc | hc
    · exact not_structural_of_isLocal (h.isLocal c hc)
    · exact hrest c hc
  · intro c hc
    rw [h.maskEmail_eq] at hc
    rcases List.mem_append.mp hc with hc | hc
    · obtain rfl : c = '*' := by simpa using hc
      simp [isStructural]
    · exact hrest c hc

theorem filter_maskEmails (t : Str) : (maskEmails unicode t).filter (isStructural unicode) =
    t.filter (isStructural unicode) := by
  have hscan := scan_emailPieces unicode t
  rw [maskEmails_eq, filter_render (fun m hm => ?_), hscan.render_id]
  obtain ⟨l, rest, hparts⟩ := exists_parts_of_found hscan hm
  rw [filter_structural_eq_nil hparts.not_structural.1,
    filter_structural_eq_nil hparts.not_structural.2]

/-- **Masking keeps the structure of a document**: all brackets, quotes, commas, colons and line
breaks, and whatever else is written in no address, card number or mask, in their order. -/
theorem mask_structure (unicode : Unicode) (t : Str) :
    (maskSensitiveInfo unicode t).filter (isStructural unicode) =
      t.filter (isStructural unicode) := by
  have hscan := scan_cardPieces unicode t
  rw [maskSensitiveInfo_eq, filter_render (fun m hm => ?_), hscan.render_id, filter_maskEmails]
  obtain ⟨A, B, hpieces⟩ := List.append_of_mem hm
  rw [hpieces] at hscan
  obtain ⟨n, -, -, hgroups, -⟩ := fits_cardRe_iff.mp hscan.fits
  have hmask : ∀ c ∈ cardMask, isStructural unicode c = false := by
    intro c hc
    have hstars : ∀ c ∈ cardMask, "*-".toList.contains c = true := List.all_eq_true.mp (by decide)
    rcases (by simpa using hstars c hc : c = '*' ∨ c = '-') with rfl | rfl
    · simp [isStructural]
    · exact not_structural_of_isLocal (by decide)
  rw [filter_structural_eq_nil hmask, filter_structural_eq_nil fun c hc =>
    not_structural_of_isCardChar (hgroups.isCardChar c hc)]

example : "\n\r\t\"\\,:;<>[]()/&=?!|".toList.all (isStructural .ascii) = true := by decide

end OxidizedWall.Dlp
