import OxidizedWall.Lib.Cut
import OxidizedWall.Lib.Search
import OxidizedWall.Waf.Dlp
import Mathlib.Data.Bool.AllAny
import Mathlib.Data.List.Induction

/-!
# What masking finds

The email addresses and the card numbers that `mask_sensitive_info` looks for, and what it puts in
the place of each.
-/

namespace OxidizedWall.Dlp

open Regex

/-! ## Addresses -/

section
variable {t : Str}

theorem describes_emailRe_iff : Describes emailRe t ↔ ∃ l d u : Str,
    t = l ++ '@' :: (d ++ '.' :: u) ∧ (l ≠ [] ∧ ∀ c ∈ l, isLocal c = true) ∧
      (d ≠ [] ∧ ∀ c ∈ d, isDomain c = true) ∧ 2 ≤ u.length ∧ ∀ c ∈ u, isLetter c = true := by
  have hletters {u : Str} : Describes (times (set isLetter) (star true (set isLetter)) 2) u ↔
      2 ≤ u.length ∧ ∀ c ∈ u, isLetter c = true := by
    simp only [times, describes_cat_iff, describes_set_iff, describes_star_set_iff]
    constructor
    · rintro ⟨_, _, ⟨x, hx, rfl⟩, ⟨_, v, ⟨y, hy, rfl⟩, hv, rfl⟩, rfl⟩
      refine ⟨by simp, ?_⟩
      simp only [List.singleton_append, List.forall_mem_cons]
      exact ⟨hx, hy, hv⟩
    · rintro ⟨hlen, hu⟩
      obtain ⟨x, u, rfl⟩ := List.exists_cons_of_length_pos (by omega : 0 < u.length)
      obtain ⟨y, v, rfl⟩ := List.exists_cons_of_length_pos (Nat.lt_of_succ_lt_succ hlen)
      simp only [List.forall_mem_cons] at hu
      exact ⟨[x], y :: v, ⟨x, hu.1, rfl⟩, ⟨[y], v, ⟨y, hu.2.1, rfl⟩, hu.2.2, rfl⟩, rfl⟩
  unfold emailRe chr
  simp only [describes_cat_iff, describes_plus_set_iff, describes_set_iff, hletters, beq_iff_eq]
  constructor
  · rintro ⟨l, _, hl, ⟨_, _, ⟨_, rfl, rfl⟩, ⟨d, _, hd, ⟨_, u, ⟨_, rfl, rfl⟩, hu, rfl⟩, rfl⟩, rfl⟩,
      rfl⟩
    exact ⟨l, d, u, rfl, hl, hd, hu⟩
  · rintro ⟨l, d, u, rfl, hl, hd, hu⟩
    exact ⟨l, _, hl, ⟨['@'], _, ⟨_, rfl, rfl⟩, ⟨d, _, hd, ⟨['.'], u, ⟨_, rfl, rfl⟩, hu, rfl⟩, rfl⟩,
      rfl⟩, rfl⟩

/-- The shortest parts of a text that make it an address. -/
def IsAddress (t : Str) : Prop := ∃ l d x y, t = l :: '@' :: (d ++ ['.', x, y]) ∧
  isLocal l = true ∧ (d ≠ [] ∧ ∀ c ∈ d, isDomain c = true) ∧ isLetter x = true ∧ isLetter y = true

theorem IsAddress.fits (h : IsAddress t) (word : Char → Bool) (prev : Option Char) (rest : Str) :
    Fits word emailRe prev t rest := by
  obtain ⟨l, d, x, y, rfl, hl, hd, hx, hy⟩ := h
  refine (fits_iff_describes rfl).mpr (describes_emailRe_iff.mpr ⟨[l], d, [x, y], rfl, ?_, hd, ?_⟩)
  · exact ⟨List.cons_ne_nil _ _, by simpa using hl⟩
  · exact ⟨Nat.le_refl _, by simpa using ⟨hx, hy⟩⟩

/-- An address is found in a text that has one at its shortest. -/
theorem isMatch_emailRe_iff {word : Char → Bool} {s : Str} : isMatch word emailRe s = true ↔
    ∃ before t after, s = before ++ (t ++ after) ∧ IsAddress t := by
  rw [isMatch_iff]
  constructor
  · rintro ⟨before, t, after, rfl, hfits⟩
    obtain ⟨l, d, u, rfl, ⟨hl, hlocal⟩, hd, hlen, hu⟩ :=
      describes_emailRe_iff.mp ((fits_iff_describes rfl).mp hfits)
    obtain ⟨x, u, rfl⟩ := List.exists_cons_of_length_pos (by omega : 0 < u.length)
    obtain ⟨y, u, rfl⟩ := List.exists_cons_of_length_pos (Nat.lt_of_succ_lt_succ hlen)
    simp only [List.forall_mem_cons] at hu
    rw [← List.dropLast_append_getLast hl]
    refine ⟨before ++ l.dropLast, l.getLast hl :: '@' :: (d ++ ['.', x, y]), u ++ after, ?_, _, d, x,
      y, rfl, hlocal _ (List.getLast_mem hl), hd, hu.1, hu.2.1⟩
    simp
  · rintro ⟨before, t, after, hs, ht⟩
    exact ⟨before, t, after, hs, ht.fits _ _ _⟩

theorem not_mem_of_forall {p : Char → Bool} {c : Char} (h : ∀ d ∈ t, p d = true)
    (hc : p c = false) : c ∉ t := by
  intro hmem
  rw [h c hmem] at hc
  cases hc

/-- The parts of an address, and what masking leaves of it. -/
structure Parts (m l rest : Str) : Prop where
  eq : m = l ++ '@' :: rest
  ne_nil : l ≠ []
  isLocal : ∀ c ∈ l, isLocal c = true
  isDomain : ∀ c ∈ rest, isDomain c = true
  getLast : ∃ z, rest.getLast? = some z ∧ isLetter z = true

theorem exists_parts {m : Str} (h : Describes emailRe m) : ∃ l rest, Parts m l rest := by
  obtain ⟨l, d, u, rfl, ⟨hl, hlocal⟩, ⟨-, hd⟩, hlen, hu⟩ := describes_emailRe_iff.mp h
  have hne : u ≠ [] := List.ne_nil_of_length_pos (by omega)
  refine ⟨l, _, rfl, hl, hlocal, fun c hc => ?_, u.getLast hne, ?_, hu _ (List.getLast_mem hne)⟩
  · rcases List.mem_append.mp hc with hc | hc
    · exact hd c hc
    · rcases List.mem_cons.mp hc with rfl | hc
      · decide
      · unfold isDomain
        rw [hu c hc, Bool.true_or, Bool.true_or]
  · rw [List.getLast?_append, List.getLast?_cons, List.getLast?_eq_some_getLast hne]
    rfl

section
variable {m l rest : Str}

theorem Parts.not_mem_local (h : Parts m l rest) : '@' ∉ l := not_mem_of_forall h.isLocal (by decide)

theorem Parts.not_mem_rest (h : Parts m l rest) : '@' ∉ rest :=
  not_mem_of_forall h.isDomain (by decide)

theorem Parts.maskEmail_eq (h : Parts m l rest) : maskEmail m = "****".toList ++ '@' :: rest := by
  have hmem : '@' ∈ m := by
    rw [h.eq]
    simp
  unfold maskEmail
  rw [if_pos hmem, h.eq, dropWhile_ne_append_cons h.not_mem_local]

theorem Parts.getLast?_eq (h : Parts m l rest) : m.getLast? = rest.getLast? := by
  obtain ⟨z, hz, -⟩ := h.getLast
  rw [h.eq, List.getLast?_append, List.getLast?_cons, hz]
  rfl

theorem Parts.getLast?_maskEmail (h : Parts m l rest) : (maskEmail m).getLast? = m.getLast? := by
  obtain ⟨z, hz, -⟩ := h.getLast
  rw [h.getLast?_eq, h.maskEmail_eq, List.getLast?_append, List.getLast?_cons, hz]
  rfl

end

end

/-- No address is empty. -/
theorem not_fits_emailRe_nil {word : Char → Bool} (prev : Option Char) (rest : Str) :
    ¬ Fits word emailRe prev [] rest := by
  intro h
  obtain ⟨l, d, u, heq, -⟩ := describes_emailRe_iff.mp ((fits_iff_describes rfl).mp h)
  simp at heq

/-! ## Card numbers -/

/-- `[ -]`. -/
def isSeparator (c : Char) : Bool := " -".toList.contains c

/-- This many digits, each with the separators behind it. -/
inductive Groups (unicode : Unicode) : ℕ → Str → Prop
  | nil : Groups unicode 0 []
  | cons {n : ℕ} {d : Char} {s t : Str} : unicode.isDecimal d = true →
    (∀ c ∈ s, isSeparator c = true) → Groups unicode n t → Groups unicode (n + 1) (d :: (s ++ t))

section
variable {unicode : Unicode} {n : ℕ} {prev : Option Char} {t rest : Str}

theorem groups_succ_iff : Groups unicode (n + 1) t ↔ ∃ d s u, t = d :: (s ++ u) ∧
    unicode.isDecimal d = true ∧ (∀ c ∈ s, isSeparator c = true) ∧ Groups unicode n u := by
  constructor
  · intro h
    cases h with
    | cons hd hs hu => exact ⟨_, _, _, rfl, hd, hs, hu⟩
  · rintro ⟨d, s, u, rfl, hd, hs, hu⟩
    exact .cons hd hs hu

theorem groups_zero_iff : Groups unicode 0 t ↔ t = [] := by
  constructor
  · rintro ⟨⟩
    rfl
  · rintro rfl
    exact .nil

theorem Groups.append {k : ℕ} {u : Str} (h : Groups unicode n t) (hu : Groups unicode k u) :
    Groups unicode (n + k) (t ++ u) := by
  induction h with
  | nil => rwa [Nat.zero_add]
  | @cons n d s t hd hs _ ih =>
    rw [Nat.add_right_comm, List.cons_append, List.append_assoc]
    exact .cons hd hs ih

theorem Groups.split {k : ℕ} (h : Groups unicode (n + k) t) :
    ∃ u v, t = u ++ v ∧ Groups unicode n u ∧ Groups unicode k v := by
  induction n generalizing t with
  | zero =>
    rw [Nat.zero_add] at h
    exact ⟨[], t, rfl, .nil, h⟩
  | succ n ih =>
    rw [Nat.add_right_comm] at h
    obtain ⟨d, s, u, rfl, hd, hs, hu⟩ := groups_succ_iff.mp h
    obtain ⟨v, w, rfl, hv, hw⟩ := ih hu
    exact ⟨d :: (s ++ v), w, by simp, .cons hd hs hv, hw⟩

theorem Groups.ne_nil (h : Groups unicode n t) (hn : 0 < n) : t ≠ [] := by
  cases h with
  | nil => exact absurd hn (Nat.lt_irrefl 0)
  | cons => exact List.cons_ne_nil _ _

/-- `\d[ -]*?`. -/
def digitRe (unicode : Unicode) : Regex :=
  cat (set unicode.isDecimal) (star false (set isSeparator))

theorem cardRe_eq (unicode : Unicode) : cardRe unicode =
    cat boundary (times (digitRe unicode) (cat (atMost (digitRe unicode) 3) boundary) 13) := rfl

theorem fits_digitRe_iff {word : Char → Bool} : Fits word (digitRe unicode) prev t rest ↔
    ∃ d s, t = d :: s ∧ unicode.isDecimal d = true ∧ ∀ c ∈ s, isSeparator c = true := by
  rw [fits_iff_describes rfl]
  unfold digitRe
  simp only [describes_cat_iff, describes_set_iff, describes_star_set_iff]
  constructor
  · rintro ⟨_, s, ⟨d, hd, rfl⟩, hs, rfl⟩
    exact ⟨d, s, rfl, hd, hs⟩
  · rintro ⟨d, s, rfl, hd, hs⟩
    exact ⟨[d], s, ⟨d, hd, rfl⟩, hs, rfl⟩

theorem fits_atMost_iff {word : Char → Bool} {k : ℕ} :
    Fits word (atMost (digitRe unicode) k) prev t rest ↔ ∃ n ≤ k, Groups unicode n t := by
  induction k generalizing prev t with
  | zero =>
    simp only [atMost, fits_eps_iff, Nat.le_zero, exists_eq_left, groups_zero_iff]
  | succ k ih =>
    simp only [atMost, fits_alt_iff, fits_cat_iff, fits_eps_iff, ih, fits_digitRe_iff]
    constructor
    · rintro (⟨_, v, rfl, ⟨d, s, rfl, hd, hs⟩, n, hn, hv⟩ | rfl)
      · exact ⟨n + 1, Nat.succ_le_succ hn, .cons hd hs hv⟩
      · exact ⟨0, Nat.zero_le _, .nil⟩
    · rintro ⟨n, hn, h⟩
      cases h with
      | nil => exact .inr rfl
      | @cons n d s v hd hs hv =>
        exact .inl ⟨d :: s, v, rfl, ⟨d, s, rfl, hd, hs⟩, n, Nat.le_of_succ_le_succ hn, hv⟩

theorem fits_times_iff {word : Char → Bool} {r : Regex} :
    Fits word (times (digitRe unicode) r n) prev t rest ↔ ∃ u v, t = u ++ v ∧ Groups unicode n u ∧
      Fits word r (u.getLast?.or prev) v rest := by
  induction n generalizing prev t with
  | zero =>
    rw [times]
    constructor
    · exact fun h => ⟨[], t, rfl, .nil, h⟩
    · rintro ⟨u, v, rfl, hu, h⟩
      obtain rfl := groups_zero_iff.mp hu
      exact h
  | succ n ih =>
    simp only [times, fits_cat_iff, fits_digitRe_iff, ih]
    constructor
    · rintro ⟨_, _, rfl, ⟨d, s, rfl, hd, hs⟩, u, v, rfl, hu, h⟩
      refine ⟨d :: (s ++ u), v, by simp, .cons hd hs hu, ?_⟩
      rw [← getLast?_append_or] at h
      exact h
    · rintro ⟨_, v, rfl, hu, h⟩
      obtain ⟨d, s, u, rfl, hd, hs, hu⟩ := groups_succ_iff.mp hu
      refine ⟨d :: s, u ++ v, by simp, ⟨d, s, rfl, hd, hs⟩, u, v, rfl, hu, ?_⟩
      rw [← getLast?_append_or]
      exact h

/-- A card number is 13 to 16 digits with their separators, between word boundaries. -/
theorem fits_cardRe_iff {word : Char → Bool} : Fits word (cardRe unicode) prev t rest ↔
    ∃ n, 13 ≤ n ∧ n ≤ 16 ∧ Groups unicode n t ∧ prev.any word ≠ t.head?.any word ∧
      t.getLast?.any word ≠ rest.head?.any word := by
  have hhead {v : Str} (hv : v ≠ []) : (v ++ rest).head? = v.head? := by
    rw [List.head?_append, List.head?_eq_some_head hv, Option.some_or]
  have hlast {v : Str} (hv : v ≠ []) : v.getLast?.or prev = v.getLast? := by
    rw [List.getLast?_eq_some_getLast hv, Option.some_or]
  rw [cardRe_eq]
  simp only [fits_cat_iff, fits_boundary_iff, fits_times_iff, fits_atMost_iff]
  constructor
  · rintro ⟨_, _, rfl, ⟨rfl, hbefore⟩, u, _, rfl, hu, v, _, rfl, ⟨n, hn, hv⟩, rfl, hafter⟩
    have hgroups := hu.append hv
    have hne := hgroups.ne_nil (Nat.add_pos_left (by decide) n)
    simp only [List.nil_append, List.append_nil] at hbefore hafter ⊢
    rw [hhead hne] at hbefore
    rw [← getLast?_append_or, List.getLast?_nil, Option.none_or, hlast hne] at hafter
    exact ⟨13 + n, Nat.le_add_right 13 n, Nat.add_le_add_left hn 13, hgroups, hbefore, hafter⟩
  · rintro ⟨n, hn, hn', hgroups, hbefore, hafter⟩
    obtain ⟨k, rfl⟩ := Nat.exists_eq_add_of_le hn
    have hne := hgroups.ne_nil (Nat.add_pos_left (by decide) k)
    obtain ⟨u, v, rfl, hu, hv⟩ := hgroups.split
    refine ⟨[], u ++ v, rfl, ⟨rfl, by rwa [hhead hne]⟩, u, v, rfl, hu, v, [],
      (List.append_nil v).symm, ⟨k, by omega, hv⟩, rfl, ?_⟩
    rwa [← getLast?_append_or, List.getLast?_nil, Option.none_or, hlast hne]

/-- Only the classes of the neighbours matter. -/
theorem fits_cardRe_congr {word : Char → Bool} {prev' : Option Char} {rest' : Str}
    (h : Fits word (cardRe unicode) prev t rest) (hprev : prev'.any word = prev.any word)
    (hrest : rest'.head?.any word = rest.head?.any word) :
    Fits word (cardRe unicode) prev' t rest' := by
  obtain ⟨n, hn, hn', hgroups, hbefore, hafter⟩ := fits_cardRe_iff.mp h
  refine fits_cardRe_iff.mpr ⟨n, hn, hn', hgroups, ?_, ?_⟩
  · rwa [hprev]
  · rwa [hrest]

/-- No card number is empty. -/
theorem not_fits_cardRe_nil {word : Char → Bool} (prev : Option Char) (rest : Str) :
    ¬ Fits word (cardRe unicode) prev [] rest := by
  intro h
  obtain ⟨n, hn, -, hgroups, -⟩ := fits_cardRe_iff.mp h
  exact hgroups.ne_nil (by omega) rfl

/-! ### The characters of a card number -/

/-- A digit or a separator. -/
def isCardChar (unicode : Unicode) (c : Char) : Bool := unicode.isDecimal c || isSeparator c

theorem Groups.isCardChar (h : Groups unicode n t) : ∀ c ∈ t, isCardChar unicode c = true := by
  unfold Dlp.isCardChar
  induction h with
  | nil => exact fun c hc => absurd hc List.not_mem_nil
  | cons hd hs _ ih =>
    rw [List.forall_mem_cons, List.forall_mem_append]
    refine ⟨by rw [hd, Bool.true_or], fun c hc => ?_, ih⟩
    rw [hs c hc, Bool.or_true]

theorem Groups.head (h : Groups unicode (n + 1) t) :
    ∃ d u, t = d :: u ∧ unicode.isDecimal d = true := by
  obtain ⟨d, s, u, rfl, hd, -⟩ := groups_succ_iff.mp h
  exact ⟨d, _, rfl, hd⟩

theorem isLetter_ascii {c : Char} (h : isLetter c = true) : c.toNat < 128 := by
  unfold isLetter at h
  simp only [Bool.or_eq_true, Bool.and_eq_true, decide_eq_true_eq, Char.le_def,
    UInt32.le_iff_toNat_le] at h
  have hz : ('z'.val).toNat = 122 := rfl
  have hZ : ('Z'.val).toNat = 90 := rfl
  show c.val.toNat < 128
  omega

/-- No letter is part of a card number. -/
theorem isCardChar_of_isLetter {c : Char} (h : isLetter c = true) : isCardChar unicode c = false := by
  have hall : ∀ n < 128, isLetter (Char.ofNat n) = true →
      ((Char.ofNat n).isDigit || isSeparator (Char.ofNat n)) = false := by decide +kernel
  have hascii := isLetter_ascii h
  have hc := hall c.toNat hascii
  rw [Char.ofNat_toNat] at hc
  unfold isCardChar
  rw [unicode.decimal_ascii c hascii]
  exact hc h

/-- The marks that addresses, card numbers and their masks are written with. -/
def isMark (c : Char) : Bool := isSeparator c || "@.*".toList.contains c

theorem isMark_of_isSeparator {c : Char} (h : isSeparator c = true) : isMark c = true := by
  unfold isMark
  rw [h, Bool.true_or]

theorem isMark_ascii {c : Char} (h : isMark c = true) :
    c.toNat < 128 ∧ c.isDigit = false ∧ (c.isAlphanum || c == '_') = false := by
  have hmem : c ∈ " -@.*".toList := by
    unfold isMark isSeparator at h
    simpa [or_assoc] using h
  have hall : ∀ c ∈ " -@.*".toList, c.toNat < 128 ∧ c.isDigit = false ∧
      (c.isAlphanum || c == '_') = false := List.all_iff_forall_prop.mp (by decide)
  exact hall c hmem

theorem isDecimal_of_isMark {c : Char} (h : isMark c = true) : unicode.isDecimal c = false :=
  (unicode.decimal_ascii c (isMark_ascii h).1).trans (isMark_ascii h).2.1

theorem isWord_of_isMark {c : Char} (h : isMark c = true) : unicode.isWord c = false :=
  (unicode.word_ascii c (isMark_ascii h).1).trans (isMark_ascii h).2.2

theorem isCardChar_of_isMark {c : Char} (h : isMark c = true) (hs : isSeparator c = false) :
    isCardChar unicode c = false := by
  unfold isCardChar
  rw [isDecimal_of_isMark h, hs, Bool.false_or]

end

/-- In ASCII, a digit is part of a word. -/
theorem ascii_word (c : Char) (hc : Unicode.ascii.isDecimal c = true) :
    Unicode.ascii.isWord c = true := by
  have hdigit : c.isDigit = true := hc
  show (c.isAlphanum || c == '_') = true
  unfold Char.isAlphanum
  rw [hdigit, Bool.or_true, Bool.true_or]

/-! ## The two passes -/

/-- What a card number is replaced by. -/
def cardMask : Str := "****-****-****-****".toList

theorem isDecimal_cardMask {unicode : Unicode} : ∀ c ∈ cardMask, unicode.isDecimal c = false := by
  have hmarks : ∀ c ∈ cardMask, isMark c = true := List.all_eq_true.mp (by decide)
  exact fun c hc => isDecimal_of_isMark (hmarks c hc)

/-- The text after the first pass. -/
def maskEmails (unicode : Unicode) (t : Str) : Str := replaceAll unicode.isWord emailRe maskEmail t

/-- The pieces of the first pass. -/
def emailPieces (unicode : Unicode) (t : Str) : List Piece := pieces unicode.isWord emailRe t

/-- The pieces of the second pass. -/
def cardPieces (unicode : Unicode) (t : Str) : List Piece :=
  pieces unicode.isWord (cardRe unicode) (maskEmails unicode t)

section
variable {unicode : Unicode} {t : Str} {ps : List Piece} {m : Str}

theorem maskEmails_eq : maskEmails unicode t = render maskEmail (emailPieces unicode t) :=
  replaceAll_eq_render

theorem maskSensitiveInfo_eq :
    maskSensitiveInfo unicode t = render (fun _ => cardMask) (cardPieces unicode t) :=
  replaceAll_eq_render

theorem scan_emailPieces (unicode : Unicode) (t : Str) :
    Scan unicode.isWord emailRe none t (emailPieces unicode t) :=
  scan_pieces not_fits_emailRe_nil

theorem scan_cardPieces (unicode : Unicode) (t : Str) :
    Scan unicode.isWord (cardRe unicode) none (maskEmails unicode t) (cardPieces unicode t) :=
  scan_pieces not_fits_cardRe_nil

/-- What is found is an address. -/
theorem exists_parts_of_found {prev : Option Char} (h : Scan unicode.isWord emailRe prev t ps)
    (hm : .found m ∈ ps) : ∃ l rest, Parts m l rest := by
  obtain ⟨A, B, rfl⟩ := List.append_of_mem hm
  exact exists_parts ((fits_iff_describes rfl).mp h.fits)

/-- What is left of an address begins with a star. -/
theorem head?_maskEmail {l rest : Str} (h : Parts m l rest) : (maskEmail m).head? = some '*' := by
  rw [h.maskEmail_eq]
  rfl

/-- The second pass keeps a character that begins no card number. -/
theorem kept_cons_of_not_decimal {prev : Option Char} {c : Char}
    (hc : unicode.isDecimal c = false)
    (hscan : Scan unicode.isWord (cardRe unicode) prev (c :: t) ps) :
    ∃ qs, ps = .kept c :: qs ∧ Scan unicode.isWord (cardRe unicode) (some c) t qs := by
  generalize hs : c :: t = s at hscan
  cases hscan with
  | nil => cases hs
  | kept _ hrest =>
    obtain ⟨rfl, rfl⟩ := List.cons.inj hs
    exact ⟨_, rfl, hrest⟩
  | found hne hmatch hrest =>
    obtain ⟨n, hn, -, hgroups, -⟩ :=
      fits_cardRe_iff.mp (Scan.found hne hmatch hrest).fits_head
    obtain ⟨k, rfl⟩ := Nat.exists_eq_add_of_le' (by omega : 1 ≤ n)
    obtain ⟨d, u, rfl, hd⟩ := hgroups.head
    obtain ⟨rfl, -⟩ := List.cons.inj hs
    rw [hc] at hd
    cases hd

end

end OxidizedWall.Dlp
