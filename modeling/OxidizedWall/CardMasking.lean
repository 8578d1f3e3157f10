import OxidizedWall.CardNumbers
import Mathlib.Data.List.DropRight

/-!
# When a card number is masked

The first pass may take the end of a card number as part of an address, and the second finds what is
left of it, or does not: `card_masked_iff`.
-/

namespace OxidizedWall.Dlp

open Regex

/-! ## The first pass -/

/-- Whether this position of the text is in the local part of an address that was found. -/
def inLocalPart : List Piece → ℕ → Bool
  | [], _ => false
  | .kept _ :: ps, i => i != 0 && inLocalPart ps (i - 1)
  | .found m :: ps, i =>
    if i < m.length then i < (m.takeWhile (· ≠ '@')).length else inLocalPart ps (i - m.length)

theorem inLocalPart_append (ps qs : List Piece) (i : ℕ) :
    inLocalPart (ps ++ qs) ((render id ps).length + i) = inLocalPart qs i := by
  induction ps with
  | nil => rw [List.nil_append, render_nil, List.length_nil, Nat.zero_add]
  | cons p ps ih =>
    cases p with
    | kept c =>
      rw [List.cons_append, render_kept, List.length_cons, inLocalPart, Nat.add_right_comm]
      exact ih
    | found m =>
      rw [List.cons_append, render_found, List.length_append, inLocalPart, if_neg, id, Nat.add_assoc,
        Nat.add_sub_cancel_left, ih]
      rw [id]
      omega

/-- What the first pass leaves of a card number `c` between `a` and `b`: all of it, unless an address
that is found has its end in its local part; then what stands before that. -/
def leftOf (unicode : Unicode) (a c b : Str) : Str :=
  if inLocalPart (emailPieces unicode (a ++ (c ++ b))) (a.length + (c.length - 1))
    then c.rdropWhile isLocal else c

/-- 13 to 16 digits, with separators between them. -/
structure IsCardNumber (unicode : Unicode) (c : Str) : Prop where
  chars : ∀ e ∈ c, isCardChar unicode e = true
  head : c.head?.any unicode.isDecimal = true
  last : c.getLast?.any unicode.isDecimal = true
  digits : 13 ≤ c.countP unicode.isDecimal ∧ c.countP unicode.isDecimal ≤ 16

section
variable {unicode : Unicode} {n : ℕ} {t a b c x k y u v rest : Str} {A B ps : List Piece} {m : Str}
  {z : Char}

/-- Digits and separators, from the first digit on. -/
theorem exists_groups (h : ∀ e ∈ t, isCardChar unicode e = true) :
    ∃ s u, t = s ++ u ∧ (∀ e ∈ s, isSeparator e = true) ∧
      Groups unicode (t.countP unicode.isDecimal) u := by
  induction t with
  | nil => exact ⟨[], [], rfl, by simp, .nil⟩
  | cons e t ih =>
    obtain ⟨he, ht⟩ := List.forall_mem_cons.mp h
    obtain ⟨s, u, hsplit, hs, hu⟩ := ih ht
    by_cases hdigit : unicode.isDecimal e = true
    · refine ⟨[], e :: t, rfl, by simp, ?_⟩
      rw [List.countP_cons_of_pos hdigit, hsplit]
      rw [hsplit] at hu
      exact .cons hdigit hs hu
    · unfold isCardChar at he
      rw [Bool.eq_false_of_not_eq_true hdigit, Bool.false_or] at he
      refine ⟨e :: s, u, by rw [hsplit]; rfl, List.forall_mem_cons.mpr ⟨he, hs⟩, ?_⟩
      rwa [List.countP_cons_of_neg hdigit]

theorem groups_of_head (h : ∀ e ∈ t, isCardChar unicode e = true)
    (hhead : t = [] ∨ t.head?.any unicode.isDecimal = true) :
    Groups unicode (t.countP unicode.isDecimal) t := by
  obtain ⟨s, u, hsplit, hs, hu⟩ := exists_groups h
  cases s with
  | nil =>
    obtain rfl : t = u := hsplit
    exact hu
  | cons e s =>
    rcases hhead with hnil | hhead
    · rw [hnil] at hsplit
      cases hsplit
    · rw [hsplit, List.cons_append, List.head?_cons, Option.any_some,
        isDecimal_of_isSeparator (hs e List.mem_cons_self)] at hhead
      cases hhead

/-- What is left of a card number is digits with their separators. -/
theorem IsCardNumber.exists_groups (h : IsCardNumber unicode c) (hk : k <+: c) :
    ∃ n ≤ 16, Groups unicode n k := by
  refine ⟨k.countP unicode.isDecimal, (hk.sublist.countP_le).trans h.digits.2, ?_⟩
  refine groups_of_head (fun e he => h.chars e (hk.subset he)) ?_
  obtain ⟨u, rfl⟩ := hk
  cases k with
  | nil => exact .inl rfl
  | cons e k => exact .inr h.head

theorem leftOf_begins (a c b : Str) : leftOf unicode a c b <+: c := by
  unfold leftOf
  split
  · exact List.rdropWhile_prefix isLocal c
  · exact List.prefix_rfl

/-! ### Around a card number -/

/-- `k` stands in `s` between texts without digits, and beside no part of a word. -/
def Stands (unicode : Unicode) (s k : Str) : Prop := ∃ x y, s = x ++ (k ++ y) ∧
  (∀ e ∈ x, unicode.isDecimal e = false) ∧ x.getLast?.any unicode.isWord = false ∧
  (∀ e ∈ y, unicode.isDecimal e = false) ∧ y.head?.any unicode.isWord = false

/-- All that is found are addresses. -/
def Addresses (ps : List Piece) : Prop := ∀ m, .found m ∈ ps → ∃ l rest, Parts m l rest

theorem Addresses.left {qs : List Piece} (h : Addresses (ps ++ qs)) : Addresses ps :=
  fun m hm => h m (List.mem_append_left qs hm)

theorem Addresses.right {qs : List Piece} (h : Addresses (ps ++ qs)) : Addresses qs :=
  fun m hm => h m (List.mem_append_right ps hm)

theorem Addresses.tail {p : Piece} (h : Addresses (p :: ps)) : Addresses ps :=
  fun m hm => h m (.tail p hm)

theorem Parts.mem_maskEmail {l : Str} (h : Parts m l rest) {e : Char} (he : e ∈ maskEmail m) :
    e = '*' ∨ e ∈ m := by
  rw [h.maskEmail_eq] at he
  rw [h.eq]
  rcases List.mem_append.mp he with he | he
  · exact .inl (by simpa using he)
  · exact .inr (List.mem_append_right l he)

/-- The first pass adds no digits. -/
theorem not_decimal_render (hparts : Addresses ps)
    (h : ∀ e ∈ render id ps, unicode.isDecimal e = false) :
    ∀ e ∈ render maskEmail ps, unicode.isDecimal e = false := by
  intro e he
  rcases mem_render.mp he with hkept | ⟨m, hm, he⟩
  · exact h e (mem_render.mpr (.inl hkept))
  · obtain ⟨l, rest, hm'⟩ := hparts m hm
    rcases hm'.mem_maskEmail he with rfl | he
    · exact isDecimal_cardMask '*' (by decide)
    · exact h e (mem_render.mpr (.inr ⟨m, hm, he⟩))

theorem head?_render_maskEmail (hparts : Addresses ps)
    (h : (render id ps).head?.any unicode.isWord = false) :
    (render maskEmail ps).head?.any unicode.isWord = false := by
  cases ps with
  | nil => rfl
  | cons p ps =>
    cases p with
    | kept e => exact h
    | found m =>
      obtain ⟨l, rest, hm⟩ := hparts m (.head _)
      rw [render_found, List.head?_append, head?_maskEmail hm]
      exact isWord_of_isMark (by decide)

theorem getLast?_render_maskEmail (hparts : Addresses ps) :
    (render maskEmail ps).getLast? = (render id ps).getLast? :=
  getLast?_render fun m hm => by
    obtain ⟨l, rest, hm'⟩ := hparts m hm
    exact hm'.getLast?_maskEmail

/-- Digits and separators before a place that is searched are kept: addresses end in letters. -/
theorem kept_before (hparts : Addresses ps)
    (hk : ∀ e ∈ k, isCardChar unicode e = true) (h : render id ps = a ++ k) :
    ∃ A, ps = A ++ k.map .kept ∧ render id A = a := by
  refine exists_kept_of_render_eq_append' h fun m hm => ?_
  obtain ⟨l, rest, hm'⟩ := hparts m hm
  obtain ⟨z, hz, hletter⟩ := hm'.getLast
  refine ⟨z, hm'.getLast?_eq.trans hz, fun hmem => ?_⟩
  have hchar := hk z hmem
  rw [isCardChar_of_isLetter hletter] at hchar
  cases hchar

/-- Kept digits and separators stand where they stood. -/
theorem stands_of_kept {qs : List Piece}
    (hparts : Addresses (A ++ qs))
    (ha : ∀ e ∈ a, unicode.isDecimal e = false) (hlast : a.getLast?.any unicode.isWord = false)
    (hA : render id A = a ++ k) (hk : ∀ e ∈ k, isCardChar unicode e = true)
    (hqs : ∀ e ∈ render maskEmail qs, unicode.isDecimal e = false)
    (hnext : (render maskEmail qs).head?.any unicode.isWord = false) :
    Stands unicode (render maskEmail (A ++ qs)) k := by
  obtain ⟨A, rfl, rfl⟩ := kept_before hparts.left hk hA
  have hbefore : Addresses A := hparts.left.left
  refine ⟨render maskEmail A, render maskEmail qs, ?_, not_decimal_render hbefore ha, ?_, hqs, hnext⟩
  · rw [render_append, render_append, render_map_kept, List.append_assoc]
  · rwa [getLast?_render_maskEmail hbefore]

theorem isDecimal_stars : ∀ e ∈ "****".toList, unicode.isDecimal e = false :=
  fun e he => isDecimal_cardMask e (List.mem_of_mem_take (i := 4) he)

/-- A card number in a domain stands where it stood. -/
theorem stands_of_domain {l d : Str}
    (hparts : Addresses (A ++ .found m :: B))
    (ha : ∀ e ∈ render id A ++ l ++ '@' :: d, unicode.isDecimal e = false)
    (hlast : (render id A ++ l ++ '@' :: d).getLast?.any unicode.isWord = false)
    (hb : ∀ e ∈ v ++ render id B, unicode.isDecimal e = false)
    (hhead : (v ++ render id B).head?.any unicode.isWord = false)
    (hm : Parts m l (d ++ (c ++ v))) (hv : v ≠ []) :
    Stands unicode (render maskEmail (A ++ .found m :: B)) c := by
  rw [List.forall_mem_append, List.forall_mem_append] at ha
  rw [List.forall_mem_append] at hb
  have hA := not_decimal_render hparts.left ha.1.1
  have hB := not_decimal_render hparts.right.tail hb.2
  refine ⟨render maskEmail A ++ "****".toList ++ '@' :: d, v ++ render maskEmail B, ?_, ?_, ?_, ?_, ?_⟩
  · rw [render_append, render_found, hm.maskEmail_eq]
    simp
  · rw [List.forall_mem_append, List.forall_mem_append]
    exact ⟨⟨hA, fun e he => isDecimal_stars e he⟩, ha.2⟩
  · rw [List.getLast?_append, List.getLast?_cons] at hlast ⊢
    exact hlast
  · rw [List.forall_mem_append]
    exact ⟨hb.1, hB⟩
  · rw [List.head?_append, List.head?_eq_some_head hv] at hhead ⊢
    exact hhead

/-- Nothing is left of a card number in a local part. -/
theorem stands_of_local {l d : Str}
    (hparts : Addresses (A ++ .found m :: B))
    (ha : ∀ e ∈ render id A, unicode.isDecimal e = false)
    (hb : ∀ e ∈ '@' :: d ++ render id B, unicode.isDecimal e = false) (hm : Parts m l d) :
    Stands unicode (render maskEmail (A ++ .found m :: B)) [] := by
  rw [List.forall_mem_append] at hb
  have hA := not_decimal_render hparts.left ha
  have hB := not_decimal_render hparts.right.tail hb.2
  refine ⟨render maskEmail A ++ "****".toList, '@' :: d ++ render maskEmail B, ?_, ?_, ?_, ?_, ?_⟩
  · rw [render_append, render_found, hm.maskEmail_eq]
    simp
  · rw [List.forall_mem_append]
    exact ⟨hA, isDecimal_stars⟩
  · rw [List.getLast?_append]
    exact isWord_of_isMark (c := '*') (by decide)
  · rw [List.forall_mem_append]
    exact ⟨hb.1, hB⟩
  · exact isWord_of_isMark (c := '@') (by decide)

/-- A found address begins at the first character that it can begin with. -/
theorem not_isLocal_before {prev : Option Char} {e : Char}
    (hscan : Scan unicode.isWord emailRe prev t (A ++ .kept e :: .found m :: B)) :
    isLocal e = false := by
  rw [← Bool.not_eq_true]
  intro he
  have hfound : Scan unicode.isWord emailRe prev t ((A ++ [.kept e]) ++ .found m :: B) := by
    rwa [List.append_assoc]
  obtain ⟨l, d, u, rfl, ⟨-, hl⟩, hrest⟩ :=
    describes_emailRe_iff.mp ((fits_iff_describes rfl).mp hfound.fits)
  refine hscan.not_fits (e :: (l ++ '@' :: (d ++ '.' :: u))) (render id B) rfl
    ((fits_iff_describes rfl).mpr (describes_emailRe_iff.mpr ⟨e :: l, d, u, rfl, ?_, hrest⟩))
  exact ⟨List.cons_ne_nil _ _, List.forall_mem_cons.mpr ⟨he, hl⟩⟩

/-- A position is in the local part of a found address if it is before the `@`. -/
theorem inLocalPart_found {l : Str} (hm : Parts m l rest) (hu : u.length < m.length) :
    inLocalPart (A ++ .found m :: B) (render id A ++ u).length = decide (u.length < l.length) := by
  have hlocal : m.takeWhile (· ≠ '@') = l := by
    rw [hm.eq, takeWhile_ne_append_cons hm.not_mem_local]
  rw [List.length_append, inLocalPart_append, inLocalPart, if_pos hu, hlocal]

theorem rdropWhile_isLocal_append {w : Str} (hw : ∀ e ∈ w, isLocal e = true) :
    (k ++ w).rdropWhile isLocal = k.rdropWhile isLocal := by
  unfold List.rdropWhile
  rw [List.reverse_append, List.dropWhile_append_of_pos]
  exact fun e he => hw e (List.mem_reverse.mp he)

section
variable (hchars : ∀ e ∈ c ++ [z], isCardChar unicode e = true)
  (ha : ∀ e ∈ a, unicode.isDecimal e = false) (hlast : a.getLast?.any unicode.isWord = false)
  (hb : ∀ e ∈ b, unicode.isDecimal e = false) (hhead : b.head?.any unicode.isWord = false)
include hchars ha hlast hb hhead

/-- The last digit is kept, and the others with it. -/
theorem stands_of_kept_last
    (hparts : Addresses (A ++ .kept z :: B))
    (hA : render id A = a ++ c) (hB : render id B = b) :
    Stands unicode (render maskEmail (A ++ .kept z :: B))
      (if inLocalPart (A ++ .kept z :: B) (a ++ c).length then (c ++ [z]).rdropWhile isLocal
        else c ++ [z]) := by
  have hlocal : inLocalPart (A ++ .kept z :: B) (a ++ c).length = false := by
    rw [← hA, ← Nat.add_zero (render id A).length, inLocalPart_append]
    rfl
  rw [hlocal, if_neg Bool.false_ne_true]
  rw [← List.singleton_append, ← List.append_assoc] at hparts ⊢
  have hafter : Addresses B := hparts.right
  subst hB
  refine stands_of_kept hparts ha hlast ?_ hchars (not_decimal_render hafter hb)
    (head?_render_maskEmail hafter hhead)
  rw [render_append, hA, List.append_assoc]
  rfl

/-- The last digit is in a domain, and the others before it. -/
theorem stands_of_last_in_domain {l d : Str}
    (hparts : Addresses (A ++ .found m :: B))
    (hm : Parts m l (d ++ z :: v)) (hA : a ++ c = render id A ++ (l ++ '@' :: d))
    (hB : b = v ++ render id B) :
    Stands unicode (render maskEmail (A ++ .found m :: B))
      (if inLocalPart (A ++ .found m :: B) (a ++ c).length then (c ++ [z]).rdropWhile isLocal
        else c ++ [z]) := by
  have hat : '@' ∉ c := fun hmem => by
    have hchar := hchars '@' (List.mem_append_left _ hmem)
    rw [isCardChar_of_isMark (by decide) (by decide)] at hchar
    cases hchar
  have hlocal : inLocalPart (A ++ .found m :: B) (a ++ c).length = false := by
    rw [hA, inLocalPart_found hm]
    · simp
    · rw [hm.eq]
      simp
  -- the @ is before the card number
  obtain ⟨d, rfl, rfl⟩ : ∃ d', a = render id A ++ l ++ '@' :: d' ∧ d = d' ++ c := by
    rw [← List.append_assoc] at hA
    rcases List.append_eq_append_iff.mp hA with ⟨w, -, rfl⟩ | ⟨w, ha', hw⟩
    · exact absurd (by simp) hat
    · cases w with
      | nil =>
        obtain rfl : '@' :: d = c := hw
        exact absurd (.head _) hat
      | cons e w =>
        obtain ⟨rfl, rfl⟩ := List.cons.inj hw
        exact ⟨w, ha', rfl⟩
  have hv : v ≠ [] := by
    rintro rfl
    obtain ⟨y, hy, hletter⟩ := hm.getLast
    rw [List.getLast?_concat] at hy
    obtain rfl := Option.some.inj hy
    have hchar := hchars z (by simp)
    rw [isCardChar_of_isLetter hletter] at hchar
    cases hchar
  rw [hlocal, if_neg Bool.false_ne_true]
  subst hB
  refine stands_of_domain (v := v) hparts ha hlast hb hhead ?_ hv
  simpa using hm

omit hhead in
/-- The last digit is in a local part, and as many before it as are written in its characters. -/
theorem stands_of_last_in_local {l : Str}
    (hscan : Scan unicode.isWord emailRe none t (A ++ .found m :: B))
    (hm : Parts m (u ++ z :: l) rest) (hA : a ++ c = render id A ++ u)
    (hB : b = l ++ '@' :: rest ++ render id B) :
    Stands unicode (render maskEmail (A ++ .found m :: B))
      (if inLocalPart (A ++ .found m :: B) (a ++ c).length then (c ++ [z]).rdropWhile isLocal
        else c ++ [z]) := by
  have hparts : Addresses (A ++ .found m :: B) := fun m hm => exists_parts_of_found hscan hm
  have hlocal : inLocalPart (A ++ .found m :: B) (a ++ c).length = true := by
    rw [hA, inLocalPart_found hm]
    · simp
    · rw [hm.eq]
      simp
  rw [hlocal, if_pos rfl]
  rw [hB, List.append_assoc, List.forall_mem_append] at hb
  have hu : ∀ e ∈ u, isLocal e = true := fun e he => hm.isLocal e (List.mem_append_left _ he)
  have hz : isLocal z = true := hm.isLocal z (by simp)
  rcases List.append_eq_append_iff.mp hA with ⟨k, hA', rfl⟩ | ⟨w, rfl, rfl⟩
  · -- it begins in the card number, behind what cannot be part of it
    have hk : ∀ e ∈ k, isCardChar unicode e = true := fun e he => hchars e (by simp [he])
    have hleft : (k ++ u ++ [z]).rdropWhile isLocal = k := by
      rw [List.append_assoc, rdropWhile_isLocal_append, List.rdropWhile_eq_self_iff]
      · intro hne hlastlocal
        obtain ⟨k, e, rfl⟩ := (List.eq_nil_or_concat k).resolve_left hne
        rw [List.concat_eq_append, ← List.append_assoc] at hA'
        obtain ⟨A, rfl, -⟩ := kept_before (k := [e]) hparts.left
          (fun e' he' => hk e' (by simp [List.mem_singleton.mp he'])) hA'
        rw [List.append_assoc] at hscan
        have := not_isLocal_before hscan
        simp [this] at hlastlocal
      · rw [List.forall_mem_append]
        exact ⟨hu, by simpa using hz⟩
    rw [hleft]
    refine stands_of_kept hparts ha hlast hA' hk ?_ ?_
    · rw [render_found, hm.maskEmail_eq, List.append_assoc, List.forall_mem_append]
      refine ⟨isDecimal_stars, ?_⟩
      rw [List.forall_mem_append] at hb ⊢
      exact ⟨hb.2.1, not_decimal_render hparts.right.tail hb.2.2⟩
    · rw [render_found, hm.maskEmail_eq]
      show unicode.isWord '*' = false
      exact isWord_of_isMark (by decide)
  · -- it takes the whole card number
    have hnil : (c ++ [z]).rdropWhile isLocal = [] := by
      rw [List.rdropWhile_eq_nil_iff, List.forall_mem_append]
      exact ⟨fun e he => hu e (List.mem_append_right w he), by simpa using hz⟩
    rw [hnil]
    rw [List.forall_mem_append] at ha
    exact stands_of_local hparts ha.1 hb.2 hm

end

/-- After the first pass, what is left of a card number stands between texts without digits. -/
theorem stands_leftOf (hc : IsCardNumber unicode c) (ha : ∀ e ∈ a, unicode.isDecimal e = false)
    (hlast : a.getLast?.any unicode.isWord = false) (hb : ∀ e ∈ b, unicode.isDecimal e = false)
    (hhead : b.head?.any unicode.isWord = false) :
    Stands unicode (maskEmails unicode (a ++ (c ++ b))) (leftOf unicode a c b) := by
  have hchars := hc.chars
  rcases List.eq_nil_or_concat c with rfl | ⟨c, z, rfl⟩
  · cases hc.last
  rw [List.concat_eq_append] at *
  have hz : unicode.isDecimal z = true := by
    have := hc.last
    rwa [List.getLast?_concat] at this
  have hat : z ≠ '@' := by
    rintro rfl
    rw [isDecimal_of_isMark (by decide)] at hz
    cases hz
  have hlen : a.length + ((c ++ [z]).length - 1) = (a ++ c).length := by simp
  have htext : a ++ (c ++ [z] ++ b) = (a ++ c) ++ z :: b := by simp
  unfold leftOf
  rw [maskEmails_eq, hlen, htext]
  have hscan := scan_emailPieces unicode ((a ++ c) ++ z :: b)
  generalize emailPieces unicode ((a ++ c) ++ z :: b) = ps at hscan ⊢
  have hparts : Addresses ps := fun m hm => exists_parts_of_found hscan hm
  rcases render_eq_append_cons hscan.render_id with
    ⟨A, B, rfl, hA, hB⟩ | ⟨A, m, B, u, v, rfl, hm, hA, hB⟩
  · exact stands_of_kept_last hchars ha hlast hb hhead hparts hA hB
  · obtain ⟨l, rest, hm'⟩ := hparts m (List.mem_append_right A (.head _))
    have hsplit : u ++ z :: v = l ++ '@' :: rest := hm.symm.trans hm'.eq
    rcases List.append_eq_append_iff.mp hsplit with ⟨w, rfl, hw⟩ | ⟨w, rfl, hw⟩
    · cases w with
      | nil => exact absurd (List.cons.inj hw).1 hat
      | cons e w =>
        obtain ⟨rfl, rfl⟩ := List.cons.inj hw
        refine stands_of_last_in_local hchars ha hlast hb hscan hm' hA ?_
        rw [hB]
        rfl
    · cases w with
      | nil => exact absurd (List.cons.inj hw).1.symm hat
      | cons e w =>
        obtain ⟨rfl, rfl⟩ := List.cons.inj hw
        exact stands_of_last_in_domain hchars ha hlast hb hhead hparts hm' hA hB

/-- **When a card number is masked.** No digit of a card number survives, whatever text without digits
stands around it, exactly if the first pass takes all of it; or what it leaves has at least thirteen
digits, and no separator between the thirteenth and the last. -/
theorem card_masked_iff (hword : ∀ c, unicode.isDecimal c = true → unicode.isWord c = true)
    (hc : IsCardNumber unicode c) (ha : ∀ e ∈ a, unicode.isDecimal e = false)
    (hlast : a.getLast?.any unicode.isWord = false) (hb : ∀ e ∈ b, unicode.isDecimal e = false)
    (hhead : b.head?.any unicode.isWord = false) :
    (∀ e ∈ maskSensitiveInfo unicode (a ++ c ++ b), unicode.isDecimal e = false) ↔
      leftOf unicode a c b = [] ∨ Whole unicode (leftOf unicode a c b) := by
  obtain ⟨x, y, htext, hx, hxlast, hy, hyhead⟩ := stands_leftOf hc ha hlast hb hhead
  obtain ⟨n, hn, hgroups⟩ := hc.exists_groups (leftOf_begins a c b)
  have hscan := scan_cardPieces unicode (a ++ (c ++ b))
  rw [htext] at hscan
  rw [List.append_assoc, maskSensitiveInfo_eq]
  exact no_digit_left_iff hword hx hxlast hy hyhead hgroups hn hscan

/-- Sixteen digits, of which the last three stand apart; and a number that runs into an address. -/
theorem card_survives :
    IsCardNumber .ascii "1234567890123 456".toList ∧
    (¬ ∀ e ∈ maskSensitiveInfo .ascii "1234567890123 456".toList,
      Unicode.ascii.isDecimal e = false) ∧
    IsCardNumber .ascii "4000 0000 0000 0002".toList ∧
    ("@x.org".toList.all fun e => !Unicode.ascii.isDecimal e) = true ∧
    "@x.org".toList.head?.any Unicode.ascii.isWord = false ∧
    ¬ ∀ e ∈ maskSensitiveInfo .ascii ("4000 0000 0000 0002".toList ++ "@x.org".toList),
      Unicode.ascii.isDecimal e = false := by
  have hsplit : maskSensitiveInfo .ascii "1234567890123 456".toList =
      "****-****-****-**** 456".toList := by decide +kernel
  have haddress : maskSensitiveInfo .ascii ("4000 0000 0000 0002".toList ++ "@x.org".toList) =
      "4000 0000 0000 ****@x.org".toList := by decide +kernel
  refine ⟨⟨List.all_eq_true.mp (by decide), by decide, by decide, by decide⟩, ?_,
    ⟨List.all_eq_true.mp (by decide), by decide, by decide, by decide⟩, by decide, by decide, ?_⟩
  · rw [hsplit]
    exact fun h => absurd (h '4' (by decide)) (by decide)
  · rw [haddress]
    exact fun h => absurd (h '4' (by decide)) (by decide)

/-- A card number in a sentence. -/
theorem card_masked_plain :
    ((maskSensitiveInfo .ascii "Card 4000 0000 0000 0002, please.".toList).all
      fun e => !Unicode.ascii.isDecimal e) = true := by
  have hcard : IsCardNumber .ascii "4000 0000 0000 0002".toList :=
    ⟨List.all_eq_true.mp (by decide), by decide, by decide, by decide⟩
  have hno : ∀ s : Str, (s.all fun e => !Unicode.ascii.isDecimal e) = true →
      ∀ e ∈ s, Unicode.ascii.isDecimal e = false := fun s hs e he => by
    simpa using List.all_eq_true.mp hs e he
  have hchars : ∀ e ∈ "4000 0000 0000 ".toList, isCardChar .ascii e = true :=
    List.all_eq_true.mp (by decide)
  have hlast : ∀ e ∈ "0002".toList, Unicode.ascii.isDecimal e = true :=
    List.all_eq_true.mp (by decide)
  have hu : Groups .ascii 12 "4000 0000 0000 ".toList := groups_of_head hchars (.inr rfl)
  have hleft : leftOf .ascii "Card ".toList "4000 0000 0000 0002".toList ", please.".toList =
      "4000 0000 0000 0002".toList := by decide +kernel
  have hmasked := (card_masked_iff ascii_word hcard (hno "Card ".toList (by decide)) (by decide)
    (hno ", please.".toList (by decide)) (by decide)).mpr
    (.inr (hleft.symm ▸ ⟨_, "0002".toList, [], rfl, hu, ⟨by decide, hlast⟩, by simp⟩))
  exact List.all_eq_true.mpr fun e he => by rw [hmasked e he, Bool.not_false]

end

end OxidizedWall.Dlp
