import OxidizedWall.Matches
import Mathlib.Data.List.Basic

/-!
# Masking what is masked

An address loses its local part to stars, so what is left of it is no address. Its last letters may
still be the local part of another one, which the search has passed: `masking_complete_iff`. The second
pass leaves no card number.
-/

namespace OxidizedWall.Dlp

open Regex

section
variable {unicode : Unicode} {t before after w : Str} {ps : List Piece}

theorem IsAddress.star_not_mem (h : IsAddress w) : '*' ∉ w := by
  obtain ⟨l, d, x, y, rfl, hl, ⟨-, hd⟩, hx, hy⟩ := h
  have hd' : '*' ∉ d := not_mem_of_forall hd (by decide)
  have hne {p : Char → Bool} {c : Char} (hc : p c = true) (hstar : p '*' = false) : '*' ≠ c := by
    rintro rfl
    rw [hstar] at hc
    cases hc
  simp only [List.mem_cons, List.mem_append, List.not_mem_nil, or_false, not_or]
  exact ⟨hne hl (by decide), by decide, hd', by decide, hne hx (by decide), hne hy (by decide)⟩

/-- An address in the result was there before the second pass. -/
theorem kept_of_address (h : render (fun _ => cardMask) ps = before ++ (w ++ after))
    (hw : IsAddress w) : ∃ A B, ps = A ++ (w.map .kept ++ B) := by
  have hstar := hw.star_not_mem
  obtain ⟨l, d, x, y, rfl, hl, -⟩ := hw
  rcases render_eq_append_cons h with ⟨A, B, rfl, -, hB⟩ | ⟨A, m, B, u, v, rfl, hm, -, hv⟩
  · obtain ⟨B, rfl, -⟩ := exists_kept_of_render_eq_append hB fun _ _ =>
      ⟨'*', rfl, fun hmem => hstar (.tail _ hmem)⟩
    exact ⟨A, B, rfl⟩
  · -- the mask has a star at its end, and no @
    cases v with
    | nil =>
      have hlast := congrArg List.getLast? hm
      rw [List.getLast?_concat] at hlast
      obtain rfl : '*' = l := Option.some.inj hlast
      exact absurd (.head _) hstar
    | cons c v =>
      obtain ⟨rfl, -⟩ := List.cons.inj hv
      have hat : '@' ∈ cardMask := by
        rw [hm]
        simp
      exact absurd hat (by decide)

/-- An address that the first pass leaves begins with the end of an address that it has found. -/
theorem found_of_address {prev : Option Char} (hscan : Scan unicode.isWord emailRe prev t ps)
    (h : render maskEmail ps = before ++ (w ++ after)) (hw : IsAddress w) :
    ∃ A m B, ps = A ++ .found m :: (w.tail.map .kept ++ B) := by
  have hstar := hw.star_not_mem
  have hfits := hw.fits unicode.isWord
  obtain ⟨l, d, x, y, rfl, hl, -⟩ := hw
  have hrun {qs : List Piece} (hqs : ∀ p ∈ qs, p ∈ ps)
      (hrender : render maskEmail qs = '@' :: (d ++ ['.', x, y]) ++ after) :
      ∃ B, qs = ('@' :: (d ++ ['.', x, y])).map .kept ++ B := by
    obtain ⟨B, hB, -⟩ := exists_kept_of_render_eq_append hrender fun m hm => by
      obtain ⟨l, rest, hparts⟩ := exists_parts_of_found hscan (hqs _ hm)
      exact ⟨'*', head?_maskEmail hparts, fun hmem => hstar (.tail _ hmem)⟩
    exact ⟨B, hB⟩
  rcases render_eq_append_cons h with ⟨A, B, rfl, -, hB⟩ | ⟨A, m, B, u, v, rfl, hm, -, hv⟩
  · -- the whole address is kept, but a match starts at its first character
    obtain ⟨B, rfl⟩ := hrun (fun _ hp => List.mem_append_right A (.tail _ hp)) hB
    refine absurd (hfits _ (render id B)) (hscan.not_fits _ _ ?_)
    rw [render_append, render_map_kept]
    rfl
  · obtain ⟨l', rest, hparts⟩ := exists_parts_of_found hscan (List.mem_append_right A (.head _))
    cases v with
    | nil =>
      obtain ⟨B, rfl⟩ := hrun (fun _ hp => List.mem_append_right A (.tail _ hp)) hv.symm
      exact ⟨A, m, B, rfl⟩
    | cons c v =>
      obtain ⟨rfl, -⟩ := List.cons.inj hv
      -- the first @ of what is left of an address stands behind the stars
      have hsplit : "****".toList ++ '@' :: rest = (u ++ [l]) ++ '@' :: v := by
        rw [← hparts.maskEmail_eq, hm, List.append_assoc]
        rfl
      obtain ⟨hu, -⟩ := (List.append_cons_inj_of_notMem (by decide) hparts.not_mem_rest).mp hsplit
      have hlast := congrArg List.getLast? hu
      rw [List.getLast?_concat] at hlast
      obtain rfl : '*' = l := Option.some.inj hlast
      exact absurd (.head _) hstar

/-- Neither the `@` before a domain nor the dot behind it changes the boundaries in it. -/
theorem fits_in_domain_iff {p k s : Str} :
    Fits unicode.isWord (cardRe unicode) (p.getLast?.or (some '@')) k (s ++ '.' :: after) ↔
      Fits unicode.isWord (cardRe unicode) p.getLast? k s := by
  have hat : unicode.isWord '@' = false := isWord_of_isMark (by decide)
  have hdot : unicode.isWord '.' = false := isWord_of_isMark (by decide)
  have hprev : (p.getLast?.or (some '@')).any unicode.isWord = p.getLast?.any unicode.isWord := by
    cases p.getLast? with
    | none => exact hat
    | some c => rfl
  have hrest : (s ++ '.' :: after).head?.any unicode.isWord = s.head?.any unicode.isWord := by
    cases s with
    | nil => exact hdot
    | cons c s => rfl
  exact ⟨fun h => fits_cardRe_congr h hprev.symm hrest.symm,
    fun h => fits_cardRe_congr h hprev hrest⟩

theorem isMatch_cardRe_of_kept {prev : Option Char} {d : Str} {A B : List Piece}
    (hscan : Scan unicode.isWord (cardRe unicode) prev t
      (A ++ .kept '@' :: (d.map .kept ++ .kept '.' :: B))) :
    isMatch unicode.isWord (cardRe unicode) d = false := by
  by_contra hmatch
  obtain ⟨p, k, s, rfl, hfits⟩ := isMatch_iff.mp (Bool.not_eq_false _ ▸ hmatch)
  cases k with
  | nil => exact not_fits_cardRe_nil _ _ hfits
  | cons c k =>
    have hpieces : A ++ .kept '@' :: ((p ++ (c :: k ++ s)).map .kept ++ .kept '.' :: B) =
        (A ++ .kept '@' :: p.map .kept) ++ .kept c :: ((k ++ s).map .kept ++ .kept '.' :: B) := by
      simp
    rw [hpieces] at hscan
    refine hscan.not_fits (c :: k) (s ++ '.' :: render id B) (by simp) ?_
    have hlast : (render id (A ++ .kept '@' :: p.map .kept)).getLast?.or prev =
        p.getLast?.or (some '@') := by
      rw [render_append, render_kept, render_map_kept, List.getLast?_append, List.getLast?_cons]
      cases p.getLast? <;> rfl
    rw [hlast]
    exact fits_in_domain_iff.mpr hfits

/-- The second pass keeps what cannot be part of a card number. -/
theorem kept_of_not_cardChar {prev : Option Char} {c : Char} (hc : isCardChar unicode c = false)
    (hscan : Scan unicode.isWord (cardRe unicode) prev (before ++ c :: after) ps) :
    ∃ A B, ps = A ++ .kept c :: B ∧ render id A = before ∧ render id B = after := by
  rcases render_eq_append_cons hscan.render_id with h | ⟨A, m, B, u, v, rfl, hm, -⟩
  · exact h
  · obtain ⟨n, -, -, hgroups, -⟩ := fits_cardRe_iff.mp hscan.fits
    have hm' : m = u ++ c :: v := hm
    have hmem : c ∈ m := by
      rw [hm']
      simp
    rw [hgroups.isCardChar c hmem] at hc
    cases hc

theorem kept_of_not_isMatch {d : Str} (hd : isMatch unicode.isWord (cardRe unicode) d = false)
    {p s : Str} (hsplit : d = p ++ s)
    (hscan : Scan unicode.isWord (cardRe unicode) (p.getLast?.or (some '@')) (s ++ '.' :: after) ps) :
    ∃ qs, ps = s.map .kept ++ .kept '.' :: qs ∧
      Scan unicode.isWord (cardRe unicode) (some '.') after qs := by
  induction s generalizing p ps with
  | nil =>
    exact kept_cons_of_not_decimal (isDecimal_of_isMark (by decide)) hscan
  | cons c s ih =>
    generalize ht : c :: s ++ '.' :: after = t at hscan
    cases hscan with
    | nil => cases ht
    | kept hnone hrest =>
      obtain ⟨rfl, rfl⟩ := List.cons.inj ht
      have hprev : (p ++ [c]).getLast?.or (some '@') = some c := by
        rw [List.getLast?_concat, Option.some_or]
      rw [← hprev] at hrest
      obtain ⟨qs, rfl, hqs⟩ := ih (by rw [hsplit, List.append_assoc]; rfl) hrest
      exact ⟨qs, rfl, hqs⟩
    | @found _ m s' _ hne hmatch hrest =>
      have hfits := (Scan.found hne hmatch hrest).fits_head
      rw [hrest.render_id] at hfits
      obtain ⟨n, -, -, hgroups, -⟩ := fits_cardRe_iff.mp hfits
      have hdot : '.' ∉ m := not_mem_of_forall hgroups.isCardChar
        (isCardChar_of_isMark (by decide) (by decide))
      -- so the match ends in the domain
      obtain ⟨s'', hs, hs'⟩ : ∃ s'', c :: s = m ++ s'' ∧ s' = s'' ++ '.' :: after := by
        rcases List.append_eq_append_iff.mp ht.symm with ⟨s'', hs, hs'⟩ | ⟨k, hm, hk⟩
        · exact ⟨s'', hs, hs'⟩
        · cases k with
          | nil => exact ⟨[], by rw [hm, List.append_nil, List.append_nil], hk.symm⟩
          | cons e k =>
            obtain ⟨rfl, -⟩ := List.cons.inj hk
            rw [hm] at hdot
            exact absurd (by simp) hdot
      rw [hs'] at hfits
      have hmatch' : isMatch unicode.isWord (cardRe unicode) d = true :=
        isMatch_iff.mpr ⟨p, m, s'', by rw [hsplit, hs], fits_in_domain_iff.mp hfits⟩
      rw [hd] at hmatch'
      cases hmatch'

/-! ## No card number is left -/

variable {A B : List Piece} {c : Char}

/-- The boundary behind kept text is one in the text if it is one in the result. -/
theorem head?_after_kept {s : Str} (hne : s ≠ [])
    (hscan : Scan unicode.isWord (cardRe unicode) none t (A ++ (s.map .kept ++ B)))
    (h : s.getLast?.any unicode.isWord ≠
      (render (fun _ => cardMask) B).head?.any unicode.isWord) :
    s.getLast?.any unicode.isWord ≠ (render id B).head?.any unicode.isWord := by
  cases B with
  | nil => exact h
  | cons p B =>
    cases p with
    | kept e => exact h
    | found m =>
      rw [← List.append_assoc] at hscan
      obtain ⟨n, hn, -, hgroups, hbefore, -⟩ := fits_cardRe_iff.mp hscan.fits
      rw [render_append, render_map_kept, List.getLast?_append,
        List.getLast?_eq_some_getLast hne, Option.some_or, Option.some_or] at hbefore
      rwa [render_found, id, List.head?_append, List.head?_eq_some_head (hgroups.ne_nil (by omega)),
        Option.some_or, ← List.head?_eq_some_head, List.getLast?_eq_some_getLast hne]

variable (hword : ∀ c, unicode.isDecimal c = true → unicode.isWord c = true)
include hword

/-- The boundary before a kept digit is one in the text if it is one in the result. -/
theorem getLast?_before_kept (hc : unicode.isDecimal c = true)
    (hscan : Scan unicode.isWord (cardRe unicode) none t (A ++ .kept c :: B))
    (h : (render (fun _ => cardMask) A).getLast?.any unicode.isWord = false) :
    (render id A).getLast?.any unicode.isWord = false := by
  rcases List.eq_nil_or_concat A with rfl | ⟨A, p, rfl⟩
  · rfl
  rw [List.concat_eq_append] at hscan h ⊢
  cases p with
  | kept e =>
    rw [render_append, render_kept, render_nil, List.getLast?_concat] at h ⊢
    exact h
  | found m =>
    rw [List.append_assoc, List.singleton_append] at hscan
    obtain ⟨n, hn, -, hgroups, -, hafter⟩ := fits_cardRe_iff.mp hscan.fits
    rw [render_kept, List.head?_cons, Option.any_some, hword c hc] at hafter
    rw [render_append, render_found, render_nil, List.append_nil, List.getLast?_append, id,
      List.getLast?_eq_some_getLast (hgroups.ne_nil (by omega)), Option.some_or]
    rw [List.getLast?_eq_some_getLast (hgroups.ne_nil (by omega))] at hafter
    exact Bool.eq_false_of_not_eq_true hafter

theorem isMatch_cardRe_render
    (hscan : Scan unicode.isWord (cardRe unicode) none t ps) :
    isMatch unicode.isWord (cardRe unicode) (render (fun _ => cardMask) ps) = false := by
  by_contra hmatch
  obtain ⟨α, k, β, hsplit, hfits⟩ := isMatch_iff.mp (Bool.not_eq_false _ ▸ hmatch)
  obtain ⟨n, hn, hn', hgroups, hbefore, hafter⟩ := fits_cardRe_iff.mp hfits
  have hstar : '*' ∉ k := not_mem_of_forall hgroups.isCardChar
    (isCardChar_of_isMark (by decide) (by decide))
  obtain ⟨i, rfl⟩ := Nat.exists_eq_add_of_le' (by omega : 1 ≤ n)
  obtain ⟨c, k, rfl, hc⟩ := hgroups.head
  rw [List.head?_cons, Option.any_some, hword c hc] at hbefore
  rcases render_eq_append_cons hsplit with ⟨A, B, rfl, rfl, hB⟩ | ⟨A, m, B, u, v, rfl, hm, -⟩
  · obtain ⟨B, rfl, rfl⟩ := exists_kept_of_render_eq_append hB fun _ _ =>
      ⟨'*', rfl, fun hmem => hstar (.tail _ hmem)⟩
    refine hscan.not_fits (c :: k) (render id B) (by simp) ?_
    refine fits_cardRe_iff.mpr ⟨i + 1, hn, hn', hgroups, ?_, ?_⟩
    · rw [Option.or_none, getLast?_before_kept hword hc hscan (Bool.eq_false_of_not_eq_true hbefore),
        List.head?_cons, Option.any_some, hword c hc]
      exact Bool.false_ne_true
    · exact head?_after_kept (s := c :: k) (List.cons_ne_nil c k) hscan hafter
  · have hmem : c ∈ cardMask := by
      rw [hm]
      simp
    rw [isDecimal_cardMask c hmem] at hc
    cases hc

end

/-! ## Addresses that are left -/

/-- Behind an address that the first pass finds, there is an `@`, a domain without a card number, and
the beginning of a top-level domain, and the search finds nothing in them. -/
def Chained (unicode : Unicode) (t : Str) : Prop :=
  ∃ A m d x y B, emailPieces unicode t =
      A ++ .found m :: (('@' :: (d ++ ['.', x, y])).map .kept ++ B) ∧
    (d ≠ [] ∧ ∀ c ∈ d, isDomain c = true) ∧ isLetter x = true ∧ isLetter y = true ∧
    isMatch unicode.isWord (cardRe unicode) d = false

section
variable {unicode : Unicode} {t : Str}

/-- An address that is left is the end of one that was found, and what is chained to it. -/
theorem chained_of_isMatch
    (h : isMatch unicode.isWord emailRe (maskSensitiveInfo unicode t) = true) :
    Chained unicode t := by
  obtain ⟨before, w, after, hsplit, hw⟩ := isMatch_emailRe_iff.mp h
  rw [maskSensitiveInfo_eq] at hsplit
  obtain ⟨A, B, hcards⟩ := kept_of_address hsplit hw
  have hscan := scan_cardPieces unicode t
  rw [hcards] at hscan
  have hmasked : render maskEmail (emailPieces unicode t) = render id A ++ (w ++ render id B) := by
    rw [← maskEmails_eq, ← hscan.render_id, render_append, render_append, render_map_kept]
  obtain ⟨A', m, B', hemails⟩ := found_of_address (scan_emailPieces unicode t) hmasked hw
  obtain ⟨l, d, x, y, rfl, -, hd, hx, hy⟩ := hw
  refine ⟨A', m, d, x, y, B', hemails, hd, hx, hy, ?_⟩
  have hpieces : A ++ ((l :: '@' :: (d ++ ['.', x, y])).map .kept ++ B) =
      (A ++ [.kept l]) ++ .kept '@' :: (d.map .kept ++ .kept '.' :: (.kept x :: .kept y :: B)) := by
    simp
  rw [hpieces] at hscan
  exact isMatch_cardRe_of_kept hscan

/-- What is chained to an address is left with its last letter. -/
theorem isMatch_of_chained (h : Chained unicode t) :
    isMatch unicode.isWord emailRe (maskSensitiveInfo unicode t) = true := by
  obtain ⟨A, m, d, x, y, B, hemails, hd, hx, hy, hcard⟩ := h
  have hscan := scan_emailPieces unicode t
  rw [hemails] at hscan
  obtain ⟨l, rest, hparts⟩ := exists_parts_of_found hscan (List.mem_append_right A (.head _))
  obtain ⟨z, hz, hzletter⟩ := hparts.getLast
  obtain ⟨rest, rfl⟩ := List.getLast?_eq_some_iff.mp hz
  have hletter {c : Char} (hc : isLetter c = true) : unicode.isDecimal c = false :=
    (Bool.or_eq_false_iff.mp (isCardChar_of_isLetter hc)).1
  have hat : unicode.isDecimal '@' = false := isDecimal_of_isMark (by decide)
  -- the text between the two passes
  have hmasked : maskEmails unicode t = (render maskEmail A ++ ("****".toList ++ '@' :: rest)) ++
      z :: ('@' :: (d ++ '.' :: x :: y :: render maskEmail B)) := by
    rw [maskEmails_eq, hemails, render_append, render_found, hparts.maskEmail_eq, render_append,
      render_map_kept]
    simp
  have hcards := scan_cardPieces unicode t
  rw [hmasked] at hcards
  obtain ⟨A', B', hpieces, -, hB'⟩ := kept_of_not_cardChar (isCardChar_of_isLetter hzletter) hcards
  rw [hpieces] at hcards
  have hrest := hcards.append
  rw [render_kept, hB'] at hrest
  obtain ⟨q₁, hq₁, hscan₁⟩ := kept_cons_of_not_decimal (hletter hzletter) hrest
  obtain ⟨q₂, rfl, hscan₂⟩ := kept_cons_of_not_decimal hat hscan₁
  obtain ⟨q₃, rfl, hscan₃⟩ := kept_of_not_isMatch hcard (p := []) (s := d) rfl hscan₂
  obtain ⟨q₄, rfl, hscan₄⟩ := kept_cons_of_not_decimal (hletter hx) hscan₃
  obtain ⟨q₅, rfl, -⟩ := kept_cons_of_not_decimal (hletter hy) hscan₄
  refine isMatch_emailRe_iff.mpr ⟨render (fun _ => cardMask) A', z :: '@' :: (d ++ ['.', x, y]),
    render (fun _ => cardMask) q₅, ?_, z, d, x, y, rfl, ?_, hd, hx, hy⟩
  · rw [maskSensitiveInfo_eq, hpieces, hq₁]
    simp
  · unfold isLocal
    rw [hzletter, Bool.true_or, Bool.true_or]

/-- **When masking is complete.** The result has no address and no card number, and is masked as it
stands, unless the text chains another address to one that is found. -/
theorem masking_complete_iff
    (hword : ∀ c, unicode.isDecimal c = true → unicode.isWord c = true) (t : Str) :
    (isMatch unicode.isWord emailRe (maskSensitiveInfo unicode t) = false ∧
      isMatch unicode.isWord (cardRe unicode) (maskSensitiveInfo unicode t) = false ∧
      maskSensitiveInfo unicode (maskSensitiveInfo unicode t) = maskSensitiveInfo unicode t) ↔
      ¬ Chained unicode t := by
  constructor
  · rintro ⟨hemail, -⟩ hchained
    rw [isMatch_of_chained hchained] at hemail
    cases hemail
  · intro hchained
    have hemail : isMatch unicode.isWord emailRe (maskSensitiveInfo unicode t) = false :=
      Bool.eq_false_of_not_eq_true fun h => hchained (chained_of_isMatch h)
    have hcard : isMatch unicode.isWord (cardRe unicode) (maskSensitiveInfo unicode t) = false := by
      rw [maskSensitiveInfo_eq]
      exact isMatch_cardRe_render hword (scan_cardPieces unicode t)
    exact ⟨hemail, hcard, maskSensitiveInfo_of_no_match hemail hcard⟩

/-- Two addresses that share their middle. -/
theorem chained_addresses_left :
    maskSensitiveInfo .ascii "a@b.cc@d.ee".toList = "****@b.cc@d.ee".toList ∧
    isMatch Unicode.ascii.isWord emailRe
      (maskSensitiveInfo .ascii "a@b.cc@d.ee".toList) = true ∧
    maskSensitiveInfo .ascii (maskSensitiveInfo .ascii "a@b.cc@d.ee".toList) ≠
      maskSensitiveInfo .ascii "a@b.cc@d.ee".toList := by
  decide +kernel

theorem masking_complete_one :
    maskSensitiveInfo .ascii (maskSensitiveInfo .ascii "a@b.cc 4000000000000002".toList) =
      maskSensitiveInfo .ascii "a@b.cc 4000000000000002".toList := by
  refine ((masking_complete_iff ascii_word _).mpr fun h => ?_).2.2
  exact absurd (isMatch_of_chained h) (by decide +kernel)

end

end OxidizedWall.Dlp
