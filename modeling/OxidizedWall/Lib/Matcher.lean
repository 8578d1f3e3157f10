import OxidizedWall.Lib.Regex

/-!
# What the matcher finds

`Fits` says where a pattern matches, word boundaries included. The matcher finds these matches in
whatever symbols a decoder reads the text from, and no others: `mem_ends_iff`.
-/

namespace OxidizedWall.Regex

/-! ## Matches in their place -/

/-- The pattern matches `t` where `prev` stands before it and `rest` after it. -/
inductive Fits (word : Char → Bool) : Regex → Option Char → List Char → List Char → Prop
  | eps {prev : Option Char} {rest : List Char} : Fits word eps prev [] rest
  | set {f : Char → Bool} {c : Char} {prev : Option Char} {rest : List Char} : f c = true →
    Fits word (set f) prev [c] rest
  | boundary {prev : Option Char} {rest : List Char} : prev.any word ≠ rest.head?.any word →
    Fits word boundary prev [] rest
  | cat {r s : Regex} {prev : Option Char} {t u rest : List Char} : Fits word r prev t (u ++ rest) →
    Fits word s (t.getLast?.or prev) u rest → Fits word (cat r s) prev (t ++ u) rest
  | altLeft {r s : Regex} {prev : Option Char} {t rest : List Char} : Fits word r prev t rest →
    Fits word (alt r s) prev t rest
  | altRight {r s : Regex} {prev : Option Char} {t rest : List Char} : Fits word s prev t rest →
    Fits word (alt r s) prev t rest
  | stop {greedy : Bool} {r : Regex} {prev : Option Char} {rest : List Char} :
    Fits word (star greedy r) prev [] rest
  | round {greedy : Bool} {r : Regex} {prev : Option Char} {t u rest : List Char} :
    Fits word r prev t (u ++ rest) → t ≠ [] →
    Fits word (star greedy r) (t.getLast?.or prev) u rest →
    Fits word (star greedy r) prev (t ++ u) rest

section
variable {word : Char → Bool} {r s : Regex} {prev : Option Char} {t rest : List Char}

theorem fits_eps_iff : Fits word eps prev t rest ↔ t = [] := by
  constructor
  · rintro ⟨⟩
    rfl
  · rintro rfl
    exact .eps

theorem fits_set_iff {f : Char → Bool} :
    Fits word (set f) prev t rest ↔ ∃ c, f c = true ∧ t = [c] := by
  constructor
  · intro h
    cases h with
    | set hf => exact ⟨_, hf, rfl⟩
  · rintro ⟨c, hf, rfl⟩
    exact .set hf

theorem fits_boundary_iff :
    Fits word boundary prev t rest ↔ t = [] ∧ prev.any word ≠ rest.head?.any word := by
  constructor
  · intro h
    cases h with
    | boundary hne => exact ⟨rfl, hne⟩
  · rintro ⟨rfl, hne⟩
    exact .boundary hne

theorem fits_cat_iff : Fits word (cat r s) prev t rest ↔ ∃ u v, t = u ++ v ∧
    Fits word r prev u (v ++ rest) ∧ Fits word s (u.getLast?.or prev) v rest := by
  constructor
  · intro h
    cases h with
    | cat hr hs => exact ⟨_, _, rfl, hr, hs⟩
  · rintro ⟨u, v, rfl, hr, hs⟩
    exact .cat hr hs

theorem fits_alt_iff : Fits word (alt r s) prev t rest ↔
    Fits word r prev t rest ∨ Fits word s prev t rest := by
  constructor
  · intro h
    cases h with
    | altLeft h => exact .inl h
    | altRight h => exact .inr h
  · rintro (h | h)
    · exact .altLeft h
    · exact .altRight h

/-- The character before what follows two texts. -/
theorem getLast?_append_or (t u : List Char) (prev : Option Char) :
    (t ++ u).getLast?.or prev = u.getLast?.or (t.getLast?.or prev) := by
  rw [List.getLast?_append, Option.or_assoc]

/-- What comes behind a match matters by its first character alone. -/
theorem Fits.congr {rest' : List Char} (h : Fits word r prev t rest)
    (hhead : rest'.head? = rest.head?) : Fits word r prev t rest' := by
  induction h generalizing rest' with
  | eps => exact .eps
  | set hf => exact .set hf
  | boundary hne => exact .boundary (by rwa [hhead])
  | cat _ _ ihr ihs =>
    exact .cat (ihr (by rw [List.head?_append, List.head?_append, hhead])) (ihs hhead)
  | altLeft _ ih => exact .altLeft (ih hhead)
  | altRight _ ih => exact .altRight (ih hhead)
  | stop => exact .stop
  | round _ hne _ ihr ihs =>
    exact .round (ihr (by rw [List.head?_append, List.head?_append, hhead])) hne (ihs hhead)

/-- A pattern without word boundaries fits wherever its texts stand. -/
theorem fits_iff_describes (hr : r.boundaryless = true) :
    Fits word r prev t rest ↔ Describes r t := by
  constructor
  · intro h
    induction h with
    | eps => exact .eps
    | set hf => exact .set hf
    | boundary _ => cases hr
    | cat _ _ ihr ihs =>
      obtain ⟨hr, hs⟩ := Bool.and_eq_true_iff.mp hr
      exact .cat (ihr hr) (ihs hs)
    | altLeft _ ih => exact .altLeft (ih (Bool.and_eq_true_iff.mp hr).1)
    | altRight _ ih => exact .altRight (ih (Bool.and_eq_true_iff.mp hr).2)
    | stop => exact .stop
    | round _ hne _ ihr ihs => exact .round (ihr hr) hne (ihs hr)
  · intro h
    induction h generalizing prev rest with
    | eps => exact .eps
    | set hf => exact .set hf
    | cat _ _ ihr ihs =>
      obtain ⟨hr, hs⟩ := Bool.and_eq_true_iff.mp hr
      exact .cat (ihr hr) (ihs hs)
    | altLeft _ ih => exact .altLeft (ih (Bool.and_eq_true_iff.mp hr).1)
    | altRight _ ih => exact .altRight (ih (Bool.and_eq_true_iff.mp hr).2)
    | stop => exact .stop
    | round _ hne _ ihr ihs => exact .round (ihr hr) hne (ihs hr)

end

/-! ## What the matcher finds -/

attribute [ext] Pos

/-- The character that a decoder reads next, if there is one. -/
def upcoming {α : Type} (next : List α → Option (Char × List α)) (xs : List α) : List Char :=
  ((next xs).map Prod.fst).toList

section
variable {α : Type} {next : List α → Option (Char × List α)} {enc : Char → List α}
  {word : Char → Bool} {r : Regex} {p q : Pos α} {ys : List α}

theorem any_upcoming (xs : List α) :
    (upcoming next xs).head?.any word = (next xs).any fun x => word x.1 := by
  unfold upcoming
  cases next xs <;> rfl

-- the decoder reads the code of one character at a time
variable (hnext : ∀ xs c ys, next xs = some (c, ys) ↔ xs = enc c ++ ys)
include hnext

theorem head?_upcoming (t : List Char) (xs : List α) :
    (t ++ upcoming next xs).head? = (upcoming next (t.flatMap enc ++ xs)).head? := by
  cases t with
  | nil => rfl
  | cons c t =>
    have hread : next ((c :: t).flatMap enc ++ xs) = some (c, t.flatMap enc ++ xs) :=
      (hnext _ _ _).mpr (by rw [List.flatMap_cons, List.append_assoc])
    unfold upcoming
    rw [hread]
    rfl

variable (henc : ∀ c, enc c ≠ [])
include henc

/-- The rounds of a repetition, when there is fuel for as many as there are symbols. -/
theorem mem_rounds_iff {step : Pos α → List (Pos α)} {greedy : Bool}
    (hstep : ∀ p q, q ∈ step p ↔ ∃ t, p.rest = t.flatMap enc ++ q.rest ∧
      q.prev = t.getLast?.or p.prev ∧ Fits word r p.prev t (upcoming next q.rest))
    {fuel : ℕ} (hfuel : p.rest.length ≤ fuel) :
    q ∈ rounds step greedy fuel p ↔ ∃ t, p.rest = t.flatMap enc ++ q.rest ∧
      q.prev = t.getLast?.or p.prev ∧
      Fits word (star greedy r) p.prev t (upcoming next q.rest) := by
  induction fuel generalizing p with
  | zero =>
    have hempty : p.rest = [] := List.eq_nil_of_length_eq_zero (Nat.le_zero.mp hfuel)
    constructor
    · intro hq
      obtain rfl := List.mem_singleton.mp hq
      exact ⟨[], rfl, rfl, .stop⟩
    · rintro ⟨t, ht, hprev, -⟩
      cases t with
      | nil => exact List.mem_singleton.mpr (Pos.ext hprev ht.symm)
      | cons c t =>
        rw [hempty, List.flatMap_cons, List.append_assoc] at ht
        exact absurd (List.append_eq_nil_iff.mp ht.symm).1 (henc c)
  | succ fuel ih =>
    rw [mem_rounds_succ]
    constructor
    · rintro (rfl | ⟨m, hm, hlt, hq⟩)
      · exact ⟨[], rfl, rfl, .stop⟩
      · obtain ⟨t, ht, htprev, hfits⟩ := (hstep p m).mp hm
        obtain ⟨u, hu, huprev, hmore⟩ := (ih (by omega)).mp hq
        have hne : t ≠ [] := by
          rintro rfl
          exact Nat.ne_of_gt hlt (congrArg List.length ht)
        rw [htprev] at huprev hmore
        rw [hu] at hfits ht
        exact ⟨t ++ u, by rw [ht, List.flatMap_append, List.append_assoc],
          by rw [huprev, getLast?_append_or],
          .round (hfits.congr (head?_upcoming hnext u _)) hne hmore⟩
    · rintro ⟨t, ht, hprev, hfits⟩
      generalize hs : star greedy r = s at hfits
      cases hfits with
      | stop => exact .inl (Pos.ext hprev ht.symm)
      | @round _ _ _ t u _ hfirst hne hmore =>
        obtain ⟨rfl, rfl⟩ := Regex.star.inj hs
        right
        rw [List.flatMap_append, List.append_assoc] at ht
        rw [getLast?_append_or] at hprev
        have hlt : (u.flatMap enc ++ q.rest).length < p.rest.length := by
          obtain ⟨c, t, rfl⟩ := List.exists_cons_of_ne_nil hne
          have hpos := List.length_pos_iff.mpr (henc c)
          rw [ht, List.flatMap_cons]
          simp only [List.length_append]
          omega
        refine ⟨⟨t.getLast?.or p.prev, u.flatMap enc ++ q.rest⟩, ?_, hlt, ?_⟩
        · exact (hstep p _).mpr ⟨t, ht, rfl, hfirst.congr (head?_upcoming hnext u _).symm⟩
        · exact (ih (Nat.le_of_lt_succ (hlt.trans_le hfuel))).mpr ⟨u, rfl, hprev, hmore⟩
      | _ => cases hs

/-- **The matcher finds the matches.** From a position it reaches the ends of the texts that fit
there, and no others. -/
theorem mem_ends_iff : q ∈ ends next word r p ↔ ∃ t, p.rest = t.flatMap enc ++ q.rest ∧
    q.prev = t.getLast?.or p.prev ∧ Fits word r p.prev t (upcoming next q.rest) := by
  induction r generalizing p q with
  | eps =>
    simp only [fits_eps_iff, ends, List.mem_singleton]
    constructor
    · rintro rfl
      exact ⟨[], rfl, rfl, rfl⟩
    · rintro ⟨_, hrest, hprev, rfl⟩
      exact Pos.ext hprev hrest.symm
  | set f =>
    simp only [fits_set_iff]
    unfold ends
    constructor
    · intro hq
      cases hread : next p.rest with
      | none => simp [hread] at hq
      | some x =>
        simp only [hread] at hq
        split at hq
        · rename_i hf
          obtain rfl := List.mem_singleton.mp hq
          exact ⟨[x.1], by simpa using (hnext _ _ _).mp hread, rfl, x.1, hf, rfl⟩
        · exact absurd hq List.not_mem_nil
    · rintro ⟨_, hrest, hprev, c, hf, rfl⟩
      have hread : next p.rest = some (c, q.rest) := (hnext _ _ _).mpr (by simpa using hrest)
      rw [hread]
      simp only [hf, if_true, List.mem_singleton]
      exact Pos.ext hprev rfl
  | boundary =>
    have hends : ends next word boundary p =
        if p.prev.any word ≠ (next p.rest).any (fun x => word x.1) then [p] else [] := rfl
    simp only [fits_boundary_iff, any_upcoming]
    rw [hends]
    constructor
    · intro hq
      split at hq
      · rename_i hne
        obtain rfl := List.mem_singleton.mp hq
        exact ⟨[], rfl, rfl, rfl, hne⟩
      · exact absurd hq List.not_mem_nil
    · rintro ⟨_, hrest, hprev, rfl, hne⟩
      have hrest' : p.rest = q.rest := hrest
      rw [hrest', if_pos hne]
      exact List.mem_singleton.mpr (Pos.ext hprev hrest.symm)
  | cat r s ihr ihs =>
    simp only [fits_cat_iff, ends, List.mem_flatMap, ihr, ihs]
    constructor
    · rintro ⟨m, ⟨t, ht, htprev, hr⟩, u, hu, huprev, hs⟩
      rw [htprev] at huprev hs
      rw [hu] at ht hr
      exact ⟨t ++ u, by rw [ht, List.flatMap_append, List.append_assoc],
        by rw [huprev, getLast?_append_or], t, u, rfl, hr.congr (head?_upcoming hnext u _), hs⟩
    · rintro ⟨_, hrest, hprev, t, u, rfl, hr, hs⟩
      rw [List.flatMap_append, List.append_assoc] at hrest
      rw [getLast?_append_or] at hprev
      exact ⟨⟨_, u.flatMap enc ++ q.rest⟩,
        ⟨t, hrest, rfl, hr.congr (head?_upcoming hnext u _).symm⟩, u, rfl, hprev, hs⟩
  | alt r s ihr ihs =>
    simp only [fits_alt_iff, ends, List.mem_append, ihr, ihs]
    constructor
    · rintro (⟨t, ht, hprev, h⟩ | ⟨t, ht, hprev, h⟩)
      · exact ⟨t, ht, hprev, .inl h⟩
      · exact ⟨t, ht, hprev, .inr h⟩
    · rintro ⟨t, ht, hprev, h | h⟩
      · exact .inl ⟨t, ht, hprev, h⟩
      · exact .inr ⟨t, ht, hprev, h⟩
  | star greedy r ih => exact mem_rounds_iff hnext henc (fun p q => ih) (Nat.le_refl _)

/-- Without word boundaries it finds the texts that the pattern describes. -/
theorem exists_mem_ends_iff (hr : r.boundaryless = true) :
    (∃ q ∈ ends next word r p, q.rest = ys) ↔
      ∃ t, Describes r t ∧ p.rest = t.flatMap enc ++ ys := by
  constructor
  · rintro ⟨q, hq, rfl⟩
    obtain ⟨t, ht, -, hfits⟩ := (mem_ends_iff hnext henc).mp hq
    exact ⟨t, (fits_iff_describes hr).mp hfits, ht⟩
  · rintro ⟨t, ht, hp⟩
    exact ⟨⟨_, ys⟩, (mem_ends_iff hnext henc).mpr ⟨t, hp, rfl, (fits_iff_describes hr).mpr ht⟩, rfl⟩

end

/-- A pattern is found in the bytes if they contain the code of a text that it describes. -/
theorem isMatchBytes_iff {next : List UInt8 → Option (Char × List UInt8)}
    {enc : Char → List UInt8} {word : Char → Bool} {r : Regex}
    (hnext : ∀ xs c ys, next xs = some (c, ys) ↔ xs = enc c ++ ys) (henc : ∀ c, enc c ≠ [])
    (hr : r.boundaryless = true) (bs : List UInt8) :
    isMatchBytes next word r bs = true ↔ ∃ t, Describes r t ∧ t.flatMap enc <:+: bs := by
  unfold isMatchBytes
  rw [List.any_eq_true]
  constructor
  · rintro ⟨rest, hrest, hends⟩
    obtain ⟨before, rfl⟩ := (List.mem_tails _ _).mp hrest
    cases hmatches : ends next word r ⟨none, rest⟩ with
    | nil => simp [hmatches] at hends
    | cons q qs =>
      obtain ⟨t, ht, hp⟩ := (exists_mem_ends_iff hnext henc hr).mp
        ⟨q, hmatches ▸ List.mem_cons_self, rfl⟩
      exact ⟨t, ht, before, q.rest, by rw [List.append_assoc, ← hp]⟩
  · rintro ⟨t, ht, before, after, rfl⟩
    have hends : ∃ q ∈ ends next word r ⟨none, t.flatMap enc ++ after⟩, q.rest = after :=
      (exists_mem_ends_iff hnext henc hr).mpr ⟨t, ht, rfl⟩
    obtain ⟨q, hq, -⟩ := hends
    refine ⟨t.flatMap enc ++ after, (List.mem_tails _ _).mpr ⟨before, by simp⟩, ?_⟩
    simpa using List.ne_nil_of_mem hq

/-! ### In a text -/

section
variable {word : Char → Bool} {r : Regex} {p q : Pos Char}

theorem nextChar_eq_some_iff (xs : List Char) (c : Char) (ys : List Char) :
    nextChar xs = some (c, ys) ↔ xs = [c] ++ ys := by
  cases xs <;> simp [nextChar]

theorem mem_ends_nextChar_iff : q ∈ ends nextChar word r p ↔
    ∃ t, p.rest = t ++ q.rest ∧ q.prev = t.getLast?.or p.prev ∧ Fits word r p.prev t q.rest := by
  have hhead : (upcoming nextChar q.rest).head? = q.rest.head? := by
    cases q.rest <;> rfl
  rw [mem_ends_iff nextChar_eq_some_iff fun c => List.cons_ne_nil c []]
  refine exists_congr fun t => ?_
  rw [List.flatMap_singleton']
  exact and_congr_right fun _ => and_congr_right fun _ =>
    ⟨fun h => h.congr hhead.symm, fun h => h.congr hhead⟩

theorem matchAt_eq_none_iff : matchAt word r p = none ↔
    ∀ t rest, p.rest = t ++ rest → ¬ Fits word r p.prev t rest := by
  unfold matchAt
  rw [List.head?_eq_none_iff, List.eq_nil_iff_forall_not_mem]
  constructor
  · exact fun h t rest ht hfits => h ⟨_, rest⟩ (mem_ends_nextChar_iff.mpr ⟨t, ht, rfl, hfits⟩)
  · intro h q hq
    obtain ⟨t, ht, -, hfits⟩ := mem_ends_nextChar_iff.mp hq
    exact h t q.rest ht hfits

theorem fits_of_matchAt (h : matchAt word r p = some q) :
    ∃ t, p.rest = t ++ q.rest ∧ q.prev = t.getLast?.or p.prev ∧ Fits word r p.prev t q.rest :=
  mem_ends_nextChar_iff.mp (List.mem_of_head? h)

theorem matchFrom_iff {prev : Option Char} {s : List Char} : matchFrom word r prev s = true ↔
    ∃ before t after, s = before ++ (t ++ after) ∧
      Fits word r (before.getLast?.or prev) t after := by
  have hhere (prev : Option Char) (s : List Char) : (matchAt word r ⟨prev, s⟩).isSome = true ↔
      ∃ t after, s = t ++ after ∧ Fits word r prev t after := by
    rw [← Option.ne_none_iff_isSome, ne_eq, matchAt_eq_none_iff]
    simp only [not_forall, not_not, exists_prop]
  induction s generalizing prev with
  | nil =>
    rw [matchFrom, hhere]
    constructor
    · rintro ⟨t, after, hs, hfits⟩
      exact ⟨[], t, after, hs, hfits⟩
    · rintro ⟨before, t, after, hs, hfits⟩
      obtain ⟨rfl, hs'⟩ := List.append_eq_nil_iff.mp hs.symm
      exact ⟨t, after, hs'.symm, hfits⟩
  | cons c s ih =>
    have hlast (before : List Char) :
        (c :: before).getLast?.or prev = before.getLast?.or (some c) :=
      getLast?_append_or [c] before prev
    rw [matchFrom, Bool.or_eq_true, hhere]
    refine (or_congr_right ih).trans ⟨?_, ?_⟩
    · rintro (⟨t, after, hs, hfits⟩ | ⟨before, t, after, rfl, hfits⟩)
      · exact ⟨[], t, after, hs, hfits⟩
      · exact ⟨c :: before, t, after, rfl, (hlast before).symm ▸ hfits⟩
    · rintro ⟨before, t, after, hs, hfits⟩
      cases before with
      | nil => exact .inl ⟨t, after, hs, hfits⟩
      | cons d before =>
        obtain ⟨rfl, rfl⟩ := List.cons.inj hs
        exact .inr ⟨before, t, after, rfl, hlast before ▸ hfits⟩

/-- A match in a text. -/
theorem isMatch_iff {s : List Char} : isMatch word r s = true ↔
    ∃ before t after, s = before ++ (t ++ after) ∧ Fits word r before.getLast? t after := by
  unfold isMatch
  rw [matchFrom_iff]
  simp only [Option.or_none]

end

/-! ### The order of the matches -/

section
variable {word : Char → Bool} {f : Char → Bool} {prev : Option Char} {s t : List Char}

theorem ends_cat (r s : Regex) (p : Pos Char) : ends nextChar word (cat r s) p =
    (ends nextChar word r p).flatMap (ends nextChar word s) := rfl

theorem ends_set_cons {c : Char} (hc : f c = true) :
    ends nextChar word (set f) ⟨prev, c :: s⟩ = [⟨some c, s⟩] := if_pos hc

theorem ends_set_eq_nil (hs : s.head?.any f = false) :
    ends nextChar word (set f) ⟨prev, s⟩ = [] := by
  cases s with
  | nil => rfl
  | cons c s => exact if_neg (Bool.eq_false_iff.mp hs)

theorem ends_boundary (p : Pos Char) : ends nextChar word boundary p =
    if p.prev.any word ≠ p.rest.head?.any word then [p] else [] := by
  unfold ends
  cases p.rest <;> rfl

/-- A lazy repetition prefers to stop. -/
theorem ends_lazy (word : Char → Bool) (r : Regex) (p : Pos Char) :
    ∃ more, ends nextChar word (star false r) p = p :: more := by
  unfold ends
  cases p.rest.length with
  | zero => exact ⟨[], rfl⟩
  | succ fuel => exact ⟨_, rfl⟩

theorem ends_lazy_set_cons {c : Char} (hc : f c = true) :
    ends nextChar word (star false (set f)) ⟨prev, c :: s⟩ =
      ⟨prev, c :: s⟩ :: ends nextChar word (star false (set f)) ⟨some c, s⟩ := by
  rw [ends, List.length_cons, rounds]
  simp only [ends_set_cons hc, List.filter_cons, List.length_cons, Nat.lt_succ_self, decide_true,
    List.filter_nil, List.flatMap_cons, List.flatMap_nil, List.append_nil, if_true,
    Bool.false_eq_true, if_false]
  rfl

theorem ends_lazy_set_of_head {s : List Char} (hs : s.head?.any f = false) :
    ends nextChar word (star false (set f)) ⟨prev, s⟩ = [⟨prev, s⟩] := by
  cases s with
  | nil => rfl
  | cons c s =>
    rw [ends, List.length_cons, rounds]
    simp [ends_set_eq_nil hs]

/-- A lazy repetition of a class before a pattern that begins with no character of it takes all that
there are. -/
theorem ends_lazy_set_flatMap {r : Regex} (ht : ∀ c ∈ t, f c = true) (hs : s.head?.any f = false)
    (hr : ∀ prev c s, f c = true → ends nextChar word r ⟨prev, c :: s⟩ = []) :
    (ends nextChar word (star false (set f)) ⟨prev, t ++ s⟩).flatMap (ends nextChar word r) =
      ends nextChar word r ⟨t.getLast?.or prev, s⟩ := by
  induction t generalizing prev with
  | nil =>
    rw [List.nil_append, ends_lazy_set_of_head hs, List.flatMap_singleton]
    rfl
  | cons c t ih =>
    obtain ⟨hc, ht⟩ := List.forall_mem_cons.mp ht
    rw [List.cons_append, ends_lazy_set_cons hc, List.flatMap_cons, hr _ _ _ hc, List.nil_append,
      ih ht, ← List.singleton_append, getLast?_append_or]
    rfl

end

end OxidizedWall.Regex
