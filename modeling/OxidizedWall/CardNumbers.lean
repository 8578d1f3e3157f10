import OxidizedWall.Matches
import Mathlib.Data.List.TakeWhile

/-!
# Card numbers in a text

A card number is found up to its thirteenth digit, and then as far as digits follow without a
separator between them (`matchAt_cardRe`). So the second pass masks all digits of a text that has
them in one place only if none stands apart behind the thirteenth: `no_digit_left_iff`.
-/

namespace OxidizedWall.Dlp

open Regex

section
variable {unicode : Unicode} {word : Char → Bool} {n k : ℕ} {prev : Option Char} {s t u v rest : Str}

/-! ## Where the match ends -/

theorem isDecimal_of_isSeparator {c : Char} (h : isSeparator c = true) :
    unicode.isDecimal c = false := isDecimal_of_isMark (isMark_of_isSeparator h)

theorem ends_digitRe_cons (r : Regex) {d : Char} (hd : unicode.isDecimal d = true) :
    ends nextChar word (cat (digitRe unicode) r) ⟨prev, d :: s⟩ =
      (ends nextChar word (star false (set isSeparator)) ⟨some d, s⟩).flatMap
        (ends nextChar word r) := by
  unfold digitRe
  rw [ends_cat, ends_cat, ends_set_cons hd, List.flatMap_singleton]

theorem ends_digitRe_eq_nil (r : Regex) (hs : s.head?.any unicode.isDecimal = false) :
    ends nextChar word (cat (digitRe unicode) r) ⟨prev, s⟩ = [] := by
  unfold digitRe
  rw [ends_cat, ends_cat, ends_set_eq_nil hs]
  rfl

/-- The digits that a pattern asks for are read with all their separators, if it wants another digit
behind them. -/
theorem ends_times_digitRe {r : Regex} (hu : Groups unicode n u)
    (hs : s.head?.any unicode.isDecimal = true)
    (hr : ∀ prev c s, unicode.isDecimal c = false → ends nextChar word r ⟨prev, c :: s⟩ = []) :
    ends nextChar word (times (digitRe unicode) r n) ⟨prev, u ++ s⟩ =
      ends nextChar word r ⟨u.getLast?.or prev, s⟩ := by
  induction hu generalizing prev with
  | nil => rfl
  | @cons n d seps u hd hseps hu ih =>
    have hhead : (u ++ s).head?.any unicode.isDecimal = true := by
      cases hu with
      | nil => exact hs
      | cons hd _ _ => exact hd
    have hsep : (u ++ s).head?.any isSeparator = false := by
      cases hcase : (u ++ s).head? with
      | none => rfl
      | some c =>
        rw [hcase, Option.any_some] at hhead
        rw [Option.any_some, ← Bool.not_eq_true]
        intro hsep
        rw [isDecimal_of_isSeparator hsep] at hhead
        cases hhead
    have hmore : ∀ prev c s, isSeparator c = true →
        ends nextChar word (times (digitRe unicode) r n) ⟨prev, c :: s⟩ = [] := by
      intro prev c s hc
      have hdigit : unicode.isDecimal c = false := isDecimal_of_isSeparator hc
      cases n with
      | zero => exact hr prev c s hdigit
      | succ n => exact ends_digitRe_eq_nil _ hdigit
    rw [times, List.cons_append, List.append_assoc, ends_digitRe_cons _ hd,
      ends_lazy_set_flatMap hseps hsep hmore, ih, ← List.singleton_append, getLast?_append_or,
      ← getLast?_append_or]
    rfl

/-- The end of a card number: up to `k` digits, and a word boundary. -/
def endRe (unicode : Unicode) (k : ℕ) : Regex := cat (atMost (digitRe unicode) k) boundary

theorem ends_endRe_zero (p : Pos Char) :
    ends nextChar word (endRe unicode 0) p = ends nextChar word boundary p := by
  unfold endRe
  rw [ends_cat]
  exact List.flatMap_singleton _ _

theorem ends_endRe_succ (p : Pos Char) : ends nextChar word (endRe unicode (k + 1)) p =
    ends nextChar word (cat (digitRe unicode) (endRe unicode k)) p ++
      ends nextChar word boundary p := by
  have halt : ends nextChar word (atMost (digitRe unicode) (k + 1)) p =
      ends nextChar word (cat (digitRe unicode) (atMost (digitRe unicode) k)) p ++ [p] := rfl
  unfold endRe
  rw [ends_cat, halt, List.flatMap_append, List.flatMap_singleton, ends_cat, List.flatMap_assoc]
  rfl

/-- What the first candidate of a step leads to comes first. -/
theorem head?_flatMap_of_head {α β : Type} {l : List α} {a : α} {b : β} {f : α → List β}
    (hl : l.head? = some a) (hf : (f a).head? = some b) : (l.flatMap f).head? = some b := by
  obtain ⟨l, rfl⟩ := List.head?_eq_some_iff.mp hl
  rw [List.flatMap_cons, List.head?_append, hf, Option.some_or]

section
variable (hword : ∀ c, unicode.isDecimal c = true → word c = true)
include hword

/-- No boundary stands between two digits, and one stands behind the last. -/
theorem ends_endRe_of_boundary {d : Char} (hd : unicode.isDecimal d = true)
    (hrest : rest.head?.any word = false) :
    ends nextChar word (endRe unicode k) ⟨some d, rest⟩ = [⟨some d, rest⟩] := by
  have hboundary : ends nextChar word boundary ⟨some d, rest⟩ = [⟨some d, rest⟩] := by
    rw [ends_boundary, if_pos]
    rw [Option.any_some, hword d hd, hrest]
    exact Bool.false_ne_true.symm
  have hdigit : rest.head?.any unicode.isDecimal = false := by
    cases rest with
    | nil => rfl
    | cons c rest =>
      rw [List.head?_cons, Option.any_some] at hrest ⊢
      rw [← Bool.not_eq_true]
      intro hc
      rw [hword c hc] at hrest
      cases hrest
  cases k with
  | zero => rw [ends_endRe_zero, hboundary]
  | succ k => rw [ends_endRe_succ, ends_digitRe_eq_nil _ hdigit, hboundary, List.nil_append]

/-- The last digits of a card number are read as far as they stand together, and no separator behind
them: the search prefers to stop at the first one. -/
theorem head?_ends_digits (hne : v ≠ []) (hv : ∀ c ∈ v, unicode.isDecimal c = true)
    (hlen : v.length ≤ k + 1) (hrest : rest.head?.any word = false) :
    (ends nextChar word (cat (digitRe unicode) (endRe unicode k)) ⟨prev, v ++ rest⟩).head? =
      some ⟨v.getLast?, rest⟩ := by
  induction v generalizing prev k with
  | nil => exact absurd rfl hne
  | cons d v ih =>
    obtain ⟨hd, hv⟩ := List.forall_mem_cons.mp hv
    obtain ⟨more, hmore⟩ := ends_lazy word (set isSeparator) ⟨some d, v ++ rest⟩
    rw [List.cons_append, ends_digitRe_cons _ hd, hmore]
    refine head?_flatMap_of_head rfl ?_
    cases v with
    | nil => rw [List.nil_append, ends_endRe_of_boundary hword hd hrest]; rfl
    | cons d' v =>
      have hk : 1 ≤ k := by
        simp only [List.length_cons] at hlen
        omega
      obtain ⟨k, rfl⟩ := Nat.exists_eq_add_of_le' hk
      rw [ends_endRe_succ, List.head?_append, ih (List.cons_ne_nil _ _) hv (by simpa using hlen),
        Option.some_or, List.getLast?_cons_cons]

/-- Where a card number is found: behind the digits that follow the twelfth without a separator between
them. -/
theorem matchAt_cardRe (hu : Groups unicode 12 u) (hne : v ≠ [])
    (hv : ∀ c ∈ v, unicode.isDecimal c = true) (hlen : v.length ≤ 4)
    (hprev : prev.any word = false) (hrest : rest.head?.any word = false) :
    matchAt word (cardRe unicode) ⟨prev, u ++ (v ++ rest)⟩ = some ⟨v.getLast?, rest⟩ := by
  have htimes : times (digitRe unicode) (cat (atMost (digitRe unicode) 3) boundary) 13 =
      times (digitRe unicode) (cat (digitRe unicode) (endRe unicode 3)) 12 := rfl
  obtain ⟨d, w, rfl, hd⟩ := hu.head
  obtain ⟨e, v, rfl⟩ := List.exists_cons_of_ne_nil hne
  have hhead : (e :: v ++ rest).head?.any unicode.isDecimal = true := hv e List.mem_cons_self
  unfold matchAt
  rw [cardRe_eq, ends_cat, ends_boundary, if_pos, List.flatMap_singleton, htimes,
    ends_times_digitRe hu hhead fun _ _ _ hc => ends_digitRe_eq_nil _ hc,
    head?_ends_digits hword hne hv hlen hrest]
  rw [hprev, List.cons_append, List.head?_cons, Option.any_some, hword d hd]
  exact Bool.false_ne_true

end

end

/-! ## The second pass -/

section
variable {unicode : Unicode} {n : ℕ} {prev : Option Char} {t x k y u v rest : Str}
  {ps : List Piece}

theorem countP_eq_zero (h : ∀ c ∈ t, unicode.isDecimal c = false) :
    t.countP unicode.isDecimal = 0 :=
  List.countP_eq_zero.mpr fun c hc => by rw [h c hc]; exact Bool.false_ne_true

theorem Groups.countP (h : Groups unicode n t) : t.countP unicode.isDecimal = n := by
  induction h with
  | nil => rfl
  | @cons n d s t hd hs _ ih =>
    have hseps : ∀ c ∈ s, unicode.isDecimal c = false :=
      fun c hc => isDecimal_of_isSeparator (hs c hc)
    rw [List.countP_cons_of_pos hd, List.countP_append, countP_eq_zero hseps, ih, Nat.zero_add]

/-- Text with too few digits is kept. -/
theorem pieces_eq_of_countP (hscan : Scan unicode.isWord (cardRe unicode) prev t ps)
    (h : t.countP unicode.isDecimal < 13) : ps = t.map .kept := by
  induction hscan with
  | nil => rfl
  | kept _ _ ih =>
    rw [List.map_cons, ih]
    exact Nat.lt_of_le_of_lt (List.Sublist.countP_le (List.sublist_cons_self _ _)) h
  | found hne hmatch hrest _ =>
    obtain ⟨n, hn, -, hgroups, -⟩ :=
      fits_cardRe_iff.mp (Scan.found hne hmatch hrest).fits_head
    rw [List.countP_append, hgroups.countP] at h
    omega

/-- Text without digits is kept. -/
theorem kept_of_not_decimal (hx : ∀ c ∈ x, unicode.isDecimal c = false)
    (hscan : Scan unicode.isWord (cardRe unicode) prev (x ++ rest) ps) :
    ∃ qs, ps = x.map .kept ++ qs ∧
      Scan unicode.isWord (cardRe unicode) (x.getLast?.or prev) rest qs := by
  induction x generalizing prev ps with
  | nil => exact ⟨ps, rfl, hscan⟩
  | cons c x ih =>
    obtain ⟨hc, hx⟩ := List.forall_mem_cons.mp hx
    obtain ⟨qs, rfl, hqs⟩ := kept_cons_of_not_decimal hc hscan
    obtain ⟨qs, rfl, hrest⟩ := ih hx hqs
    refine ⟨qs, rfl, ?_⟩
    rw [← List.singleton_append, getLast?_append_or]
    exact hrest

variable (hword : ∀ c, unicode.isDecimal c = true → unicode.isWord c = true)
include hword

/-- One card number is masked, and the rest is kept if it has too few digits for another. -/
theorem render_cards (hx : ∀ c ∈ x, unicode.isDecimal c = false)
    (hlast : x.getLast?.any unicode.isWord = false) (hu : Groups unicode 12 u) (hne : v ≠ [])
    (hv : ∀ c ∈ v, unicode.isDecimal c = true) (hlen : v.length ≤ 4)
    (hhead : rest.head?.any unicode.isWord = false) (hfew : rest.countP unicode.isDecimal < 13)
    (hscan : Scan unicode.isWord (cardRe unicode) none (x ++ (u ++ (v ++ rest))) ps) :
    render (fun _ => cardMask) ps = x ++ (cardMask ++ rest) := by
  obtain ⟨qs, rfl, hqs⟩ := kept_of_not_decimal hx hscan
  rw [Option.or_none] at hqs
  have hmatch := matchAt_cardRe hword hu hne hv hlen hlast hhead
  have htext : u ++ (v ++ rest) ≠ [] := by simp [hne]
  obtain ⟨m, qs, rfl, -, hrest⟩ := hqs.of_matchAt htext hmatch
  rw [pieces_eq_of_countP hrest hfew, render_append, render_map_kept, render_found, render_map_kept]

/-- The thirteenth digit and the digits behind it stand together. -/
def Whole (unicode : Unicode) (k : Str) : Prop := ∃ u v s, k = u ++ (v ++ s) ∧
  Groups unicode 12 u ∧ (v ≠ [] ∧ ∀ c ∈ v, unicode.isDecimal c = true) ∧
    ∀ c ∈ s, isSeparator c = true

omit hword in
/-- Separators, and text that begins with no part of a word. -/
theorem head?_append_of_separators {s : Str} (hs : s.head?.any isSeparator = true ∨ s = [])
    (hy : y.head?.any unicode.isWord = false) : (s ++ y).head?.any unicode.isWord = false := by
  rcases hs with hs | rfl
  · cases s with
    | nil => cases hs
    | cons c s => exact isWord_of_isMark (isMark_of_isSeparator hs)
  · exact hy

omit hword in
/-- The digits that a text begins with, and the rest, which begins with a separator. -/
theorem Groups.exists_digits (h : Groups unicode (n + 1) t) : ∃ v r, t = v ++ r ∧
    (v ≠ [] ∧ ∀ c ∈ v, unicode.isDecimal c = true) ∧ (r.head?.any isSeparator = true ∨ r = []) := by
  refine ⟨t.takeWhile unicode.isDecimal, t.dropWhile unicode.isDecimal,
    List.takeWhile_append_dropWhile.symm, ⟨?_, fun c hc => ?_⟩, ?_⟩
  · obtain ⟨d, u, rfl, hd⟩ := h.head
    rw [List.takeWhile_cons_of_pos hd]
    exact List.cons_ne_nil _ _
  · exact List.mem_takeWhile_imp hc
  · cases hr : t.dropWhile unicode.isDecimal with
    | nil => exact .inr rfl
    | cons c r =>
      have hc : unicode.isDecimal c = false := by
        have := List.head?_dropWhile_not unicode.isDecimal t
        rw [hr] at this
        exact this
      have hmem : c ∈ t := (List.dropWhile_suffix _).subset (by rw [hr]; exact List.mem_cons_self)
      have hchar := h.isCardChar c hmem
      unfold Dlp.isCardChar at hchar
      rw [hc, Bool.false_or] at hchar
      exact .inl hchar

omit hword in
/-- The first twelve digits, those that follow without a separator, and the rest. -/
theorem Groups.exists_last (h : Groups unicode n k) (hn : 13 ≤ n) : ∃ u v r, k = u ++ (v ++ r) ∧
    Groups unicode 12 u ∧ (v ≠ [] ∧ ∀ c ∈ v, unicode.isDecimal c = true) ∧
      (r.head?.any isSeparator = true ∨ r = []) := by
  obtain ⟨i, rfl⟩ := Nat.exists_eq_add_of_le hn
  have hcount : 13 + i = 12 + (i + 1) := by omega
  rw [hcount] at h
  obtain ⟨u, w, rfl, hu, hw⟩ := h.split
  obtain ⟨v, r, rfl, hv, hr⟩ := hw.exists_digits
  exact ⟨u, v, r, rfl, hu, hv, hr⟩

/-! ### Digits in one place -/

section
variable (hx : ∀ c ∈ x, unicode.isDecimal c = false) (hlast : x.getLast?.any unicode.isWord = false)
  (hy : ∀ c ∈ y, unicode.isDecimal c = false) (hhead : y.head?.any unicode.isWord = false)
include hx hy

omit hword in
/-- Too few digits are kept. -/
theorem render_few (hfew : k.countP unicode.isDecimal < 13)
    (hscan : Scan unicode.isWord (cardRe unicode) none (x ++ (k ++ y)) ps) :
    render (fun _ => cardMask) ps = x ++ (k ++ y) := by
  have hkept := pieces_eq_of_countP hscan (by
    rw [List.countP_append, countP_eq_zero hx, List.countP_append, countP_eq_zero hy]
    omega)
  rw [hkept, render_map_kept]

include hlast hhead

/-- The others are masked up to the first separator behind the thirteenth. -/
theorem render_many {s : Str} (hk : Groups unicode n (u ++ (v ++ s))) (hn : n ≤ 16)
    (hu : Groups unicode 12 u) (hne : v ≠ []) (hv : ∀ c ∈ v, unicode.isDecimal c = true)
    (hs : s.head?.any isSeparator = true ∨ s = [])
    (hscan : Scan unicode.isWord (cardRe unicode) none (x ++ ((u ++ (v ++ s)) ++ y)) ps) :
    render (fun _ => cardMask) ps = x ++ (cardMask ++ (s ++ y)) := by
  have hdigits := hk.countP
  rw [List.countP_append, hu.countP, List.countP_append, List.countP_eq_length.mpr hv] at hdigits
  rw [List.append_assoc, List.append_assoc] at hscan
  refine render_cards hword hx hlast hu hne hv (by omega) (head?_append_of_separators hs hhead) ?_
    hscan
  rw [List.countP_append, countP_eq_zero hy]
  omega

/-- What the second pass leaves of the digits of a text that has them all in one place. -/
theorem no_digit_left_iff (hk : Groups unicode n k) (hn : n ≤ 16)
    (hscan : Scan unicode.isWord (cardRe unicode) none (x ++ (k ++ y)) ps) :
    (∀ c ∈ render (fun _ => cardMask) ps, unicode.isDecimal c = false) ↔
      k = [] ∨ Whole unicode k := by
  constructor
  · intro hnone
    rcases Nat.lt_or_ge n 13 with hfew | hmany
    · left
      rw [render_few hx hy (hk.countP.trans_lt hfew) hscan] at hnone
      cases hk with
      | nil => rfl
      | @cons n d s t hd hs ht =>
        rw [hnone d (by simp)] at hd
        cases hd
    · right
      obtain ⟨u, v, r, rfl, hu, ⟨hne, hv⟩, hr⟩ := hk.exists_last hmany
      rw [render_many hword hx hlast hy hhead hk hn hu hne hv hr hscan] at hnone
      refine ⟨u, v, r, rfl, hu, ⟨hne, hv⟩, fun c hc => ?_⟩
      have hchar := hk.isCardChar c (by simp [hc])
      unfold isCardChar at hchar
      rwa [hnone c (by simp [hc]), Bool.false_or] at hchar
  · rintro (rfl | ⟨u, v, s, rfl, hu, ⟨hne, hv⟩, hs⟩)
    · have hnone : ([] : Str).countP unicode.isDecimal < 13 := Nat.succ_pos 12
      rw [render_few hx hy hnone hscan]
      exact List.forall_mem_append.mpr ⟨hx, hy⟩
    · have hr : s.head?.any isSeparator = true ∨ s = [] := by
        cases s with
        | nil => exact .inr rfl
        | cons c s => exact .inl (hs c List.mem_cons_self)
      rw [render_many hword hx hlast hy hhead hk hn hu hne hv hr hscan]
      intro c hc
      simp only [List.mem_append] at hc
      rcases hc with hc | hc | hc | hc
      · exact hx c hc
      · exact isDecimal_cardMask c hc
      · exact isDecimal_of_isSeparator (hs c hc)
      · exact hy c hc

end

end

end OxidizedWall.Dlp
