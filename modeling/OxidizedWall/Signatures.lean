import OxidizedWall.Lib.Matcher
import OxidizedWall.Waf.Core

/-!
# What the signatures catch

The texts that the signatures describe, in their own terms, and the bytes that contain one of them
(`Core.isAttack_iff`). A wildcard stands for characters other than the line feed, so it stops at a
line break and at bytes that are not UTF-8 (`Core.isAttack_payload_iff`).
-/

namespace OxidizedWall.Core

open Regex

/-! ## The texts of the signatures -/

/-- The word `w`, in letters of any case. -/
def Spelled (w : String) (t : Str) : Prop :=
  List.Forall₂ (fun c d => sameLetter c d = true) w.toList t

/-- White space, or nothing. -/
def Blank (t : Str) : Prop := ∀ c ∈ t, isWhitespace c = true

/-- On one line, `first`, anything and `last`. -/
def Framed (first last : String) (t : Str) : Prop :=
  ∃ u m v, Spelled first u ∧ '\n' ∉ m ∧ Spelled last v ∧ t = u ++ (m ++ v)

/-- `select … from`, with white space behind the one word and before the other. -/
def Selects (t : Str) : Prop :=
  ∃ u w m v k, Spelled "select" u ∧ (w ≠ [] ∧ Blank w) ∧ '\n' ∉ m ∧ (v ≠ [] ∧ Blank v) ∧
    Spelled "from" k ∧ t = u ++ (w ++ (m ++ (v ++ k)))

/-- Two words with white space between them. -/
def Spaced (first second : String) (t : Str) : Prop :=
  ∃ u w v, Spelled first u ∧ (w ≠ [] ∧ Blank w) ∧ Spelled second v ∧ t = u ++ (w ++ v)

/-- Two words that may have white space between them. -/
def Loose (first second : String) (t : Str) : Prop :=
  ∃ u w v, Spelled first u ∧ Blank w ∧ Spelled second v ∧ t = u ++ (w ++ v)

/-- The texts of the signatures with a wildcard. -/
def Wildcard (t : Str) : Prop := Framed "<script" ">" t ∨ Selects t ∨ Framed "$(" ")" t

/-- The texts of the other signatures. -/
def Fixed (t : Str) : Prop :=
  (∃ w ∈ ["' OR '1'='1'", "--", "javascript:", "alert(", "<iframe>", "&&", "||", "|"],
    Spelled w t) ∨
  (∃ w ∈ [("union", "select"), ("insert", "into"), ("drop", "table")], Spaced w.1 w.2 t) ∨
  (∃ w ∈ ["onerror", "onload"], Loose w "=" t) ∨
  ∃ w ∈ ["ls", "rm", "cat", "id", "whoami", "pwd", "wget", "curl"], Loose ";" w t

theorem describes_word_iff {w : String} {t : Str} : Describes (word w) t ↔ Spelled w t :=
  describes_lit_iff

theorem describes_spaces_iff {t : Str} : Describes (star true space) t ↔ Blank t :=
  describes_star_set_iff

theorem describes_plus_space_iff {t : Str} : Describes (plus space) t ↔ t ≠ [] ∧ Blank t :=
  describes_plus_set_iff

theorem describes_star_any_iff {greedy : Bool} {t : Str} :
    Describes (star greedy any) t ↔ '\n' ∉ t := by
  unfold any
  rw [describes_star_set_iff]
  constructor
  · intro h hmem
    simpa using h _ hmem
  · intro h c hc
    have hne : c ≠ '\n' := by
      rintro rfl
      exact h hc
    simpa using hne

theorem describes_framed_iff {greedy : Bool} {first last : String} {t : Str} :
    Describes (cat (word first) (cat (star greedy any) (word last))) t ↔ Framed first last t := by
  simp only [describes_cat_cat_iff, describes_word_iff, describes_star_any_iff, Framed]

theorem describes_spaced_iff {first second : String} {t : Str} :
    Describes (cat (word first) (cat (plus space) (word second))) t ↔ Spaced first second t := by
  simp only [describes_cat_cat_iff, describes_word_iff, describes_plus_space_iff, Spaced]

theorem describes_loose_iff {first second : String} {t : Str} :
    Describes (cat (word first) (cat (star true space) (word second))) t ↔
      Loose first second t := by
  simp only [describes_cat_cat_iff, describes_word_iff, describes_spaces_iff, Loose]

theorem describes_selects_iff {t : Str} :
    Describes (cat (word "select") (cat (plus space) (cat (star true any)
      (cat (plus space) (word "from"))))) t ↔ Selects t := by
  rw [describes_cat_cat_iff]
  simp only [describes_cat_cat_iff, describes_word_iff, describes_plus_space_iff,
    describes_star_any_iff]
  constructor
  · rintro ⟨u, w, _, hu, hw, ⟨m, v, k, hm, hv, hk, rfl⟩, rfl⟩
    exact ⟨u, w, m, v, k, hu, hw, hm, hv, hk, rfl⟩
  · rintro ⟨u, w, m, v, k, hu, hw, hm, hv, hk, rfl⟩
    exact ⟨u, w, _, hu, hw, ⟨m, v, k, hm, hv, hk, rfl⟩, rfl⟩

/-- One of several commands behind a semicolon. -/
theorem describes_run_iff (ws : List String) (t : Str) :
    Describes (cat (word ";") (cat (star true space) (alts (ws.map word)))) t ↔
      ∃ w ∈ ws, Loose ";" w t := by
  simp only [← describes_loose_iff, describes_cat_cat_iff, describes_alts_iff, List.mem_map]
  constructor
  · rintro ⟨u, s, v, hu, hs, ⟨_, ⟨w, hw, rfl⟩, hv⟩, rfl⟩
    exact ⟨w, hw, u, s, v, hu, hs, hv, rfl⟩
  · rintro ⟨w, hw, u, s, v, hu, hs, hv, rfl⟩
    exact ⟨u, s, v, hu, hs, ⟨_, ⟨w, hw, rfl⟩, hv⟩, rfl⟩

/-- What the three patterns describe. -/
theorem describes_patterns_iff {t : Str} :
    (∃ r ∈ getPatterns, Describes r t) ↔ Wildcard t ∨ Fixed t := by
  have hrun := describes_run_iff ["ls", "rm", "cat", "id", "whoami", "pwd", "wget", "curl"] t
  simp only [List.map_cons, List.map_nil] at hrun
  simp only [getPatterns, sql, xss, command, List.exists_mem_cons_iff, List.not_mem_nil,
    false_and, exists_false, or_false, describes_alts_iff, describes_framed_iff,
    describes_spaced_iff, describes_loose_iff, describes_selects_iff, describes_word_iff, hrun,
    Wildcard, Fixed]
  -- the same texts in another order
  exact iff_of_eq (by ac_rfl)

theorem boundaryless_patterns : ∀ r ∈ getPatterns, r.boundaryless = true := by decide

/-- A pattern is found in the bytes that contain one of its texts. -/
theorem isMatch_iff {r : Regex} (hr : r ∈ getPatterns) (x : Bytes) :
    isMatchBytes Utf8.decodeChar (fun _ => false) r x = true ↔
      ∃ t, Describes r t ∧ Utf8.encode t <:+: x :=
  isMatchBytes_iff (fun _ _ _ => Utf8.decodeChar_eq_some_iff) Utf8.encodeChar_ne_nil
    (boundaryless_patterns r hr) x

/-- **What is an attack**: bytes that contain a text of a signature. -/
theorem isAttack_iff (x : Bytes) :
    isAttack x = true ↔ ∃ t, (Wildcard t ∨ Fixed t) ∧ Utf8.encode t <:+: x := by
  unfold isAttack
  rw [List.any_eq_true]
  constructor
  · rintro ⟨r, hr, hmatch⟩
    obtain ⟨t, ht, hx⟩ := (isMatch_iff hr x).mp hmatch
    exact ⟨t, describes_patterns_iff.mp ⟨r, hr, ht⟩, hx⟩
  · rintro ⟨t, ht, hx⟩
    obtain ⟨r, hr, hdesc⟩ := describes_patterns_iff.mpr ht
    exact ⟨r, hr, (isMatch_iff hr x).mpr ⟨t, hdesc, hx⟩⟩

/-! ## Payloads -/

/-- `w` in ASCII letters of any case. -/
def InCase (w : String) (t : Str) : Prop := t.map Char.toLower = w.toList

/-- ASCII white space, at least one character of it. -/
def AsciiBlank (t : Str) : Prop := t ≠ [] ∧ ∀ c ∈ t, c.toNat < 128 ∧ isWhitespace c = true

/-- Bytes with the shape of a wildcard signature: `s` stands where the wildcard does. -/
inductive Payload (s : Bytes) : Bytes → Prop
  | script (a b : Bytes) {u : Str} : InCase "<script" u →
    Payload s (a ++ Utf8.encode u ++ s ++ Utf8.encode ['>'] ++ b)
  | select (a b : Bytes) {u w v k : Str} : InCase "select" u → AsciiBlank w → AsciiBlank v →
    InCase "from" k →
    Payload s (a ++ Utf8.encode u ++ Utf8.encode w ++ s ++ Utf8.encode v ++ Utf8.encode k ++ b)
  | substitution (a b : Bytes) : Payload s (a ++ Utf8.encode ['$', '('] ++ s ++
    Utf8.encode [')'] ++ b)

theorem spelled_of_inCase {w : String} {t : Str} (hw : w.toList.map Char.toLower = w.toList)
    (h : InCase w t) : Spelled w t := by
  unfold InCase at h
  unfold Spelled
  rw [← h, List.map_map, List.map_inj_left] at hw
  rw [← h, List.forall₂_map_left_iff, List.forall₂_same]
  intro c hc
  have hlower : c.toLower.toLower = c.toLower := hw c hc
  simp [sameLetter, hlower]

/-- A payload with one line of text in its middle shows a signature. -/
theorem Payload.shows {s x : Bytes} (h : Payload s x) {m : Str} (hm : '\n' ∉ m)
    (hs : s = Utf8.encode m) : ∃ t, Wildcard t ∧ Utf8.encode t <:+: x := by
  subst hs
  cases h with
  | @script a b u hu =>
    refine ⟨u ++ (m ++ ['>']), .inl ⟨u, m, ['>'], ?_, hm, ?_, rfl⟩, a, b, ?_⟩
    · exact spelled_of_inCase (by decide) hu
    · exact spelled_of_inCase (by decide) rfl
    · simp only [Utf8.encode_append, List.append_assoc]
  | @select a b u w v k hu hw hv hk =>
    have hblank {t : Str} (ht : AsciiBlank t) : t ≠ [] ∧ Blank t :=
      ⟨ht.1, fun c hc => (ht.2 c hc).2⟩
    refine ⟨u ++ (w ++ (m ++ (v ++ k))), .inr (.inl ⟨u, w, m, v, k, ?_, hblank hw, hm, hblank hv,
      ?_, rfl⟩), a, b, ?_⟩
    · exact spelled_of_inCase (by decide) hu
    · exact spelled_of_inCase (by decide) hk
    · simp only [Utf8.encode_append, List.append_assoc]
  | substitution a b =>
    refine ⟨['$', '('] ++ (m ++ [')']), .inr (.inr ⟨['$', '('], m, [')'], ?_, hm, ?_, rfl⟩), a, b,
      ?_⟩
    · exact spelled_of_inCase (by decide) rfl
    · exact spelled_of_inCase (by decide) rfl
    · simp only [Utf8.encode_append, List.append_assoc]

/-- **The wildcards stop at line breaks and at bytes that are no text.** A payload is caught
exactly if it contains the bytes of a text that a signature describes, which has no line feed
where the signature has a wildcard; one line of text in its middle is enough for that. -/
theorem isAttack_payload_iff {s x : Bytes} (h : Payload s x) :
    (isAttack x = true ↔
      (∃ t, Wildcard t ∧ Utf8.encode t <:+: x) ∨ ∃ t, Fixed t ∧ Utf8.encode t <:+: x) ∧
    ((∃ m, '\n' ∉ m ∧ s = Utf8.encode m) → ∃ t, Wildcard t ∧ Utf8.encode t <:+: x) := by
  constructor
  · rw [isAttack_iff]
    simp only [or_and_right, exists_or]
  · rintro ⟨m, hm, hs⟩
    exact h.shows hm hs

/-- `$(ls)`, in which the wildcard stands for one line of text. -/
theorem isAttack_payload_iff_ls : isAttack (Utf8.encode "$(ls)".toList) = true := by
  have h : Payload (Utf8.encode "ls".toList) (Utf8.encode "$(ls)".toList) := .substitution [] []
  exact (isAttack_payload_iff h).1.mpr (.inl ((isAttack_payload_iff h).2 ⟨_, by decide, rfl⟩))

/-- A line break inside the tag, or a byte that is no text between the parentheses. -/
theorem isAttack_misses_payload :
    isAttack (Utf8.encode "<script\n>".toList) = false ∧ isAttack [0x24, 0x28, 0xFF, 0x29] = false ∧
      ¬ ∀ s x, Payload s x → isAttack x = true := by
  have hscript : isAttack (Utf8.encode "<script\n>".toList) = false := by decide +kernel
  have hbyte : isAttack [0x24, 0x28, 0xFF, 0x29] = false := by decide +kernel
  refine ⟨hscript, hbyte, fun h => ?_⟩
  have hpayload : Payload [0x0A] (Utf8.encode "<script\n>".toList) :=
    .script [] [] (u := "<script".toList) rfl
  rw [h _ _ hpayload] at hscript
  cases hscript

end OxidizedWall.Core
