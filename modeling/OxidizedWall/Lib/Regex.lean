import Mathlib.Data.List.Forall2
import Mathlib.Data.List.Infix

/-!
# Leftmost-first regular expressions

Patterns over characters, read from any list of symbols by a decoder `next`: from a text one
character at a time, from bytes one UTF-8 sequence at a time. The matches that start at a position
are listed in the order in which a backtracking matcher tries them, so the first one is the match
that leftmost-first semantics reports.
-/

namespace OxidizedWall

/-- Patterns. A repetition is greedy or takes as few rounds as it can. -/
inductive Regex
  | eps
  | set (p : Char → Bool)
  | boundary
  | cat (r s : Regex)
  | alt (r s : Regex)
  | star (greedy : Bool) (r : Regex)

namespace Regex

/-! ## Derived patterns -/

/-- One given character. -/
def chr (c : Char) : Regex := set (· == c)

/-- The given characters, in this order, each by its class `cls`. -/
def lit (cls : Char → Char → Bool) : List Char → Regex
  | [] => eps
  | c :: s => cat (set (cls c)) (lit cls s)

/-- `r+`. -/
def plus (r : Regex) : Regex := cat r (star true r)

/-- `r{m,m+k}`, greedy. -/
def atMost (r : Regex) : ℕ → Regex
  | 0 => eps
  | k + 1 => alt (cat r (atMost r k)) eps

/-- `m` times `r`, then `s`. -/
def times (r : Regex) (s : Regex) : ℕ → Regex
  | 0 => s
  | m + 1 => cat r (times r s m)

/-- The alternatives, the first one first. -/
def alts : List Regex → Regex
  | [] => set fun _ => false
  | [r] => r
  | r :: rs => alt r (alts rs)

/-! ## Matching -/

variable {α : Type}

/-- A position: the character before it and the symbols after it. -/
structure Pos (α : Type) where
  prev : Option Char
  rest : List α

/-- The ends of the rounds of a repetition of `step`, with fuel for `fuel` rounds. A round must
move on. -/
def rounds (step : Pos α → List (Pos α)) (greedy : Bool) : ℕ → Pos α → List (Pos α)
  | 0, p => [p]
  | fuel + 1, p =>
    let more := ((step p).filter fun q => q.rest.length < p.rest.length).flatMap
      (rounds step greedy fuel)
    if greedy then more ++ [p] else p :: more

/-- The ends of the matches that start at a position, the preferred one first. `word` tells the
characters that `\b` counts as parts of words. -/
def ends (next : List α → Option (Char × List α)) (word : Char → Bool) :
    Regex → Pos α → List (Pos α)
  | eps, p => [p]
  | set f, p =>
    match next p.rest with
    | some (c, rest) => if f c then [⟨some c, rest⟩] else []
    | none => []
  | boundary, p =>
    let before := p.prev.any word
    let after := (next p.rest).any fun x => word x.1
    if before ≠ after then [p] else []
  | cat r s, p => (ends next word r p).flatMap (ends next word s)
  | alt r s, p => ends next word r p ++ ends next word s p
  | star greedy r, p => rounds (ends next word r) greedy p.rest.length p

/-! ## Searching a text -/

/-- The decoder of a text. -/
def nextChar : List Char → Option (Char × List Char)
  | [] => none
  | c :: s => some (c, s)

section
variable (word : Char → Bool) (r : Regex)

/-- The end of the match that starts at a position. -/
def matchAt (p : Pos Char) : Option (Pos Char) := (ends nextChar word r p).head?

/-- Whether a match starts at or after a position. -/
def matchFrom : Option Char → List Char → Bool
  | prev, [] => (matchAt word r ⟨prev, []⟩).isSome
  | prev, c :: s => (matchAt word r ⟨prev, c :: s⟩).isSome || matchFrom (some c) s

/-- `Regex::is_match`. -/
def isMatch (s : List Char) : Bool := matchFrom word r none s

/-- `replaceAll` from a position on, after `skip` characters that belong to the last match. The
patterns replaced are those that match no empty text; an empty match is passed over. -/
def replaceFrom (f : List Char → List Char) : ℕ → Option Char → List Char → List Char
  | _, _, [] => []
  | skip + 1, _, c :: s => replaceFrom f skip (some c) s
  | 0, prev, c :: s =>
    match matchAt word r ⟨prev, c :: s⟩ with
    | some q =>
      let len := (c :: s).length - q.rest.length
      if len = 0 then c :: replaceFrom f 0 (some c) s
      else f ((c :: s).take len) ++ replaceFrom f (len - 1) (some c) s
    | none => c :: replaceFrom f 0 (some c) s

/-- `Regex::replace_all`: each match, from left to right, by what `f` makes of its text. -/
def replaceAll (f : List Char → List Char) (s : List Char) : List Char :=
  replaceFrom word r f 0 none s

/-- A text without a match stays as it is. -/
theorem replaceAll_of_not_isMatch {f : List Char → List Char} {s : List Char}
    (h : isMatch word r s = false) : replaceAll word r f s = s := by
  have hfrom : ∀ prev, matchFrom word r prev s = false → replaceFrom word r f 0 prev s = s := by
    clear h
    induction s with
    | nil => intro _ _; rfl
    | cons c s ih =>
      intro prev h
      rw [matchFrom, Bool.or_eq_false_iff] at h
      have hnone : matchAt word r ⟨prev, c :: s⟩ = none := by simpa using h.1
      rw [replaceFrom, hnone]
      simp only
      rw [ih _ h.2]
  exact hfrom none h

end

/-! ## Searching bytes -/

/-- Whether a match starts anywhere in the bytes `bs`. -/
def isMatchBytes (next : List UInt8 → Option (Char × List UInt8)) (word : Char → Bool) (r : Regex)
    (bs : List UInt8) : Bool :=
  bs.tails.any fun rest => !(ends next word r ⟨none, rest⟩).isEmpty

/-- What matches in a part of the bytes that reaches to their end matches in all of them. -/
theorem isMatchBytes_append {next : List UInt8 → Option (Char × List UInt8)} {word : Char → Bool}
    {r : Regex} {bs : List UInt8} (h : isMatchBytes next word r bs = true) (before : List UInt8) :
    isMatchBytes next word r (before ++ bs) = true := by
  unfold isMatchBytes at h ⊢
  obtain ⟨rest, hrest, hends⟩ := List.any_eq_true.mp h
  have hsuffix : rest <:+ before ++ bs :=
    ((List.mem_tails _ _).mp hrest).trans (List.suffix_append before bs)
  exact List.any_eq_true.mpr ⟨rest, (List.mem_tails _ _).mpr hsuffix, hends⟩

/-! ## The texts of a pattern -/

/-- No part of the pattern looks at word boundaries. -/
def boundaryless : Regex → Bool
  | eps => true
  | set _ => true
  | boundary => false
  | cat r s => r.boundaryless && s.boundaryless
  | alt r s => r.boundaryless && s.boundaryless
  | star _ r => r.boundaryless

/-- The texts that a pattern without word boundaries describes. -/
inductive Describes : Regex → List Char → Prop
  | eps : Describes eps []
  | set {f : Char → Bool} {c : Char} : f c = true → Describes (set f) [c]
  | cat {r s : Regex} {t u : List Char} : Describes r t → Describes s u →
    Describes (cat r s) (t ++ u)
  | altLeft {r s : Regex} {t : List Char} : Describes r t → Describes (alt r s) t
  | altRight {r s : Regex} {t : List Char} : Describes s t → Describes (alt r s) t
  | stop {greedy : Bool} {r : Regex} : Describes (star greedy r) []
  | round {greedy : Bool} {r : Regex} {t u : List Char} : Describes r t → t ≠ [] →
    Describes (star greedy r) u → Describes (star greedy r) (t ++ u)

section
variable {r s : Regex} {f : Char → Bool} {t : List Char}

theorem describes_set_iff : Describes (set f) t ↔ ∃ c, f c = true ∧ t = [c] := by
  constructor
  · intro h
    cases h with
    | set hf => exact ⟨_, hf, rfl⟩
  · rintro ⟨c, hf, rfl⟩
    exact .set hf

theorem describes_cat_iff : Describes (cat r s) t ↔
    ∃ u v, Describes r u ∧ Describes s v ∧ t = u ++ v := by
  constructor
  · intro h
    cases h with
    | cat hr hs => exact ⟨_, _, hr, hs, rfl⟩
  · rintro ⟨u, v, hr, hs, rfl⟩
    exact .cat hr hs

/-- Three pieces, one after the other. -/
theorem describes_cat_cat_iff {q : Regex} : Describes (cat q (cat r s)) t ↔
    ∃ u m v, Describes q u ∧ Describes r m ∧ Describes s v ∧ t = u ++ (m ++ v) := by
  simp only [describes_cat_iff]
  constructor
  · rintro ⟨u, _, hu, ⟨m, v, hm, hv, rfl⟩, rfl⟩
    exact ⟨u, m, v, hu, hm, hv, rfl⟩
  · rintro ⟨u, m, v, hu, hm, hv, rfl⟩
    exact ⟨u, _, hu, ⟨m, v, hm, hv, rfl⟩, rfl⟩

theorem describes_alt_iff : Describes (alt r s) t ↔ Describes r t ∨ Describes s t := by
  constructor
  · intro h
    cases h with
    | altLeft h => exact .inl h
    | altRight h => exact .inr h
  · rintro (h | h)
    · exact .altLeft h
    · exact .altRight h

theorem describes_alts_iff {rs : List Regex} :
    Describes (alts rs) t ↔ ∃ r ∈ rs, Describes r t := by
  induction rs using alts.induct with
  | case1 => simp [alts, describes_set_iff]
  | case2 r => simp [alts]
  | case3 r rs hne ih =>
    rw [alts, describes_alt_iff, ih]
    · simp
    · exact hne

theorem describes_lit_iff {cls : Char → Char → Bool} {w : List Char} :
    Describes (lit cls w) t ↔ List.Forall₂ (fun c d => cls c d = true) w t := by
  induction w generalizing t with
  | nil =>
    rw [List.forall₂_nil_left_iff]
    constructor
    · rintro ⟨⟩
      rfl
    · rintro rfl
      exact .eps
  | cons c w ih =>
    rw [lit, describes_cat_iff, List.forall₂_cons_left_iff]
    simp only [ih, describes_set_iff]
    constructor
    · rintro ⟨_, v, ⟨d, hd, rfl⟩, hv, rfl⟩
      exact ⟨d, v, hd, hv, rfl⟩
    · rintro ⟨d, v, hd, hv, rfl⟩
      exact ⟨[d], v, ⟨d, hd, rfl⟩, hv, rfl⟩

/-- A repeated class describes the texts over the class. -/
theorem describes_star_set_iff {greedy : Bool} :
    Describes (star greedy (set f)) t ↔ ∀ c ∈ t, f c = true := by
  constructor
  · intro h
    generalize hr : star greedy (set f) = r at h
    induction h with
    | stop => simp
    | round hfirst _ _ _ ih =>
      obtain ⟨rfl, rfl⟩ := Regex.star.inj hr
      obtain ⟨c, hf, rfl⟩ := describes_set_iff.mp hfirst
      intro d hd
      rcases List.mem_cons.mp hd with rfl | hd
      · exact hf
      · exact ih rfl d hd
    | _ => cases hr
  · intro h
    induction t with
    | nil => exact .stop
    | cons c t ih =>
      exact .round (.set (h c List.mem_cons_self)) (List.cons_ne_nil c [])
        (ih fun d hd => h d (List.mem_cons_of_mem c hd))

theorem describes_plus_set_iff :
    Describes (plus (set f)) t ↔ t ≠ [] ∧ ∀ c ∈ t, f c = true := by
  unfold plus
  rw [describes_cat_iff]
  simp only [describes_set_iff, describes_star_set_iff]
  constructor
  · rintro ⟨_, u, ⟨c, hf, rfl⟩, hu, rfl⟩
    exact ⟨List.cons_ne_nil c u, List.forall_mem_cons.mpr ⟨hf, hu⟩⟩
  · rintro ⟨hne, h⟩
    obtain ⟨c, u, rfl⟩ := List.exists_cons_of_ne_nil hne
    obtain ⟨hf, hu⟩ := List.forall_mem_cons.mp h
    exact ⟨[c], u, ⟨c, hf, rfl⟩, hu, rfl⟩

end

theorem mem_rounds_succ {step : Pos α → List (Pos α)} {greedy : Bool} {fuel : ℕ} {q : Pos α} :
    q ∈ rounds step greedy (fuel + 1) p ↔
      q = p ∨ ∃ m ∈ step p, m.rest.length < p.rest.length ∧ q ∈ rounds step greedy fuel m := by
  rw [rounds]
  cases greedy <;> simp [and_assoc, or_comm]

end Regex

end OxidizedWall
