import OxidizedWall.Lib.Search

/-!
# Separators

No match reaches across a character that belongs to no class of the pattern and to no word. So a
text may be cut there, and what a replacement makes of it is put together again from what it makes
of the parts (`replaceAll_intercalate`).
-/

namespace OxidizedWall.Regex

/-- No class of the pattern has the character. -/
def avoids (c : Char) : Regex → Bool
  | eps => true
  | set f => !f c
  | boundary => true
  | cat r s => r.avoids c && s.avoids c
  | alt r s => r.avoids c && s.avoids c
  | star _ r => r.avoids c

/-- The character ends words and matches. -/
structure Separates (word : Char → Bool) (r : Regex) (c : Char) : Prop where
  not_word : word c = false
  avoids : r.avoids c = true

/-- `rest` is empty or begins with a separator. -/
def Sealed (word : Char → Bool) (r : Regex) (rest : List Char) : Prop :=
  ∀ c ∈ rest.head?, Separates word r c

/-- Two positions, the second of which has `rest` after all that the first has. -/
structure Extends (word : Char → Bool) (rest : List Char) (p p' : Pos Char) : Prop where
  rest_eq : p'.rest = p.rest ++ rest
  prev : p'.prev.any word = p.prev.any word

section
variable {α : Type} {step : Pos α → List (Pos α)} {greedy : Bool}

/-- Nothing is left to be repeated at the end. -/
theorem rounds_of_length_eq_zero {p : Pos α} (h : p.rest.length = 0) (fuel : ℕ) :
    rounds step greedy fuel p = [p] := by
  cases fuel with
  | zero => rfl
  | succ fuel =>
    rw [rounds, h]
    simp

/-- A repetition does not depend on its fuel if this is enough for the whole text. -/
theorem rounds_fuel {fuel fuel' : ℕ} {p : Pos α} (h : p.rest.length ≤ fuel)
    (h' : p.rest.length ≤ fuel') : rounds step greedy fuel p = rounds step greedy fuel' p := by
  induction fuel generalizing fuel' p with
  | zero =>
    have hlen : p.rest.length = 0 := Nat.le_zero.mp h
    rw [rounds_of_length_eq_zero hlen, rounds_of_length_eq_zero hlen]
  | succ fuel ih =>
    cases fuel' with
    | zero =>
      have hlen : p.rest.length = 0 := Nat.le_zero.mp h'
      rw [rounds_of_length_eq_zero hlen, rounds_of_length_eq_zero hlen]
    | succ fuel' =>
      have hmore : ((step p).filter fun q => q.rest.length < p.rest.length).flatMap
          (rounds step greedy fuel) =
          ((step p).filter fun q => q.rest.length < p.rest.length).flatMap
            (rounds step greedy fuel') := by
        apply List.flatMap_congr
        intro q hq
        have hlt : q.rest.length < p.rest.length := by simpa using (List.mem_filter.mp hq).2
        exact ih (by omega) (by omega)
      rw [rounds, rounds, hmore]

end

section
variable {word : Char → Bool} {r : Regex} {rest : List Char} {p p' : Pos Char}

theorem Extends.length (h : Extends word rest p p') :
    p'.rest.length = p.rest.length + rest.length := by
  rw [h.rest_eq, List.length_append]

theorem Extends.rounds {step : Pos Char → List (Pos Char)} {greedy : Bool}
    (hstep : ∀ {p p'}, Extends word rest p p' →
      List.Forall₂ (Extends word rest) (step p) (step p'))
    (h : Extends word rest p p') (fuel : ℕ) :
    List.Forall₂ (Extends word rest) (rounds step greedy fuel p) (rounds step greedy fuel p') := by
  induction fuel generalizing p p' with
  | zero => exact .cons h .nil
  | succ fuel ih =>
    have hless := List.rel_filter (R := Extends word rest)
      (p := fun q => decide (q.rest.length < p.rest.length))
      (q := fun q' => decide (q'.rest.length < p'.rest.length)) (fun q q' hq => by
        show decide _ = true ↔ decide _ = true
        rw [hq.length, h.length, decide_eq_true_eq, decide_eq_true_eq]
        exact (Nat.add_lt_add_iff_right).symm) (hstep h)
    have hmore := List.rel_flatMap hless fun q q' hq => ih hq
    rw [Regex.rounds, Regex.rounds]
    cases greedy with
    | true => exact List.rel_append hmore (.cons h .nil)
    | false => exact .cons h hmore

/-- What follows counts as the end of the text. -/
theorem Sealed.any_next (hrest : Sealed word r rest) (u : List Char) :
    ((nextChar (u ++ rest)).any fun x => word x.1) = (nextChar u).any fun x => word x.1 := by
  cases u with
  | cons d u => rfl
  | nil =>
    cases rest with
    | nil => rfl
    | cons c rest => exact (hrest c rfl).not_word

/-- A pattern matches the same, in the same order, whether a separator follows or nothing. -/
theorem Extends.ends (hrest : Sealed word r rest) (h : Extends word rest p p') :
    List.Forall₂ (Extends word rest) (ends nextChar word r p) (ends nextChar word r p') := by
  induction r generalizing p p' with
  | eps => exact .cons h .nil
  | set f =>
    obtain ⟨prev, u⟩ := p
    obtain ⟨prev', u'⟩ := p'
    obtain rfl : u' = u ++ rest := h.rest_eq
    cases u with
    | nil =>
      cases rest with
      | nil => exact .nil
      | cons c rest =>
        have hc : f c = false := by simpa [avoids] using (hrest c rfl).avoids
        simp only [Regex.ends, nextChar, List.nil_append, hc]
        exact .nil
    | cons d u =>
      simp only [Regex.ends, nextChar, List.cons_append]
      split
      · exact .cons ⟨rfl, rfl⟩ .nil
      · exact .nil
  | boundary =>
    have hafter := hrest.any_next p.rest
    rw [← h.rest_eq] at hafter
    simp only [Regex.ends, h.prev, hafter]
    split
    · exact .cons h .nil
    · exact .nil
  | cat r s ihr ihs =>
    have hr : Sealed word r rest := fun c hc =>
      ⟨(hrest c hc).not_word, (Bool.and_eq_true_iff.mp (hrest c hc).avoids).1⟩
    have hs : Sealed word s rest := fun c hc =>
      ⟨(hrest c hc).not_word, (Bool.and_eq_true_iff.mp (hrest c hc).avoids).2⟩
    exact List.rel_flatMap (ihr hr h) fun q q' hq => ihs hs hq
  | alt r s ihr ihs =>
    have hr : Sealed word r rest := fun c hc =>
      ⟨(hrest c hc).not_word, (Bool.and_eq_true_iff.mp (hrest c hc).avoids).1⟩
    have hs : Sealed word s rest := fun c hc =>
      ⟨(hrest c hc).not_word, (Bool.and_eq_true_iff.mp (hrest c hc).avoids).2⟩
    exact List.rel_append (ihr hr h) (ihs hs h)
  | star greedy r ih =>
    have hr : Sealed word r rest := fun c hc => ⟨(hrest c hc).not_word, (hrest c hc).avoids⟩
    have hlen : p.rest.length ≤ p'.rest.length := by
      rw [h.length]
      exact Nat.le_add_right _ _
    show List.Forall₂ _ (Regex.rounds _ greedy _ p) (Regex.rounds _ greedy _ p')
    rw [rounds_fuel (le_refl p.rest.length) hlen]
    exact h.rounds (fun h => ih hr h) _

theorem forall₂_head? {R : Pos Char → Pos Char → Prop} {l l' : List (Pos Char)}
    (h : List.Forall₂ R l l') : (l.head? = none ∧ l'.head? = none) ∨
      ∃ q q', l.head? = some q ∧ l'.head? = some q' ∧ R q q' := by
  cases h with
  | nil => exact .inl ⟨rfl, rfl⟩
  | cons hq _ => exact .inr ⟨_, _, rfl, rfl, hq⟩

/-- The match that is found is the same. -/
theorem Extends.matchAt (hrest : Sealed word r rest) (h : Extends word rest p p') :
    (matchAt word r p = none ∧ matchAt word r p' = none) ∨
      ∃ q q', matchAt word r p = some q ∧ matchAt word r p' = some q' ∧
        Extends word rest q q' :=
  forall₂_head? (h.ends hrest)

/-! ## Replacing -/

variable {f : List Char → List Char} {prev prev' : Option Char} {c : Char} {s t : List Char}

/-- A replacement in a text that goes on with `rest`, if `out` is made of `rest`. -/
theorem replaceFrom_append (hrest : Sealed word r rest) {out : List Char}
    (hout : ∀ prev, replaceFrom word r f 0 prev rest = out) {skip : ℕ} (hskip : skip ≤ s.length)
    (hprev : prev'.any word = prev.any word) :
    replaceFrom word r f skip prev' (s ++ rest) = replaceFrom word r f skip prev s ++ out := by
  induction s generalizing skip prev prev' with
  | nil =>
    obtain rfl := Nat.le_zero.mp hskip
    exact hout prev'
  | cons d s ih =>
    cases skip with
    | succ skip => exact ih (Nat.le_of_succ_le_succ hskip) rfl
    | zero =>
      have h : Extends word rest ⟨prev, d :: s⟩ ⟨prev', d :: (s ++ rest)⟩ := ⟨rfl, hprev⟩
      rw [List.cons_append, replaceFrom, replaceFrom]
      rcases h.matchAt hrest with ⟨hnone, hnone'⟩ | ⟨q, q', hq, hq', hext⟩
      · rw [hnone, hnone']
        exact congrArg (d :: ·) (ih (Nat.zero_le _) rfl)
      · have hlen : (d :: (s ++ rest)).length - q'.rest.length =
            (d :: s).length - q.rest.length := by
          rw [hext.length, List.length_cons, List.length_cons, List.length_append]
          omega
        have htake : (d :: (s ++ rest)).take ((d :: s).length - q.rest.length) =
            (d :: s).take ((d :: s).length - q.rest.length) := by
          rw [← List.cons_append]
          exact List.take_append_of_le_length (Nat.sub_le _ _)
        rw [hq, hq']
        simp only [hlen, htake]
        split
        · exact congrArg (d :: ·) (ih (Nat.zero_le _) rfl)
        · rw [List.append_assoc]
          refine congrArg (f _ ++ ·) (ih ?_ rfl)
          rw [List.length_cons]
          omega

/-- Across a separator there is nothing to replace. -/
theorem replaceFrom_separator (h : Separates word r c) (prev : Option Char) :
    replaceFrom word r f 0 prev (c :: t) = c :: replaceFrom word r f 0 none t := by
  have hrest : Sealed word r (c :: t) := fun d hd => Option.some.inj hd ▸ h
  have hnil : Sealed word r [] := fun d hd => nomatch hd
  -- what stands before a separator is no word either
  have hafter : replaceFrom word r f 0 (some c) t = replaceFrom word r f 0 none t := by
    have heq : replaceFrom word r f 0 (some c) (t ++ []) = replaceFrom word r f 0 none t ++ [] :=
      replaceFrom_append hnil (fun _ => rfl) (Nat.zero_le _) h.not_word
    rwa [List.append_nil, List.append_nil] at heq
  have hext : Extends word (c :: t) ⟨prev, []⟩ ⟨prev, c :: t⟩ := ⟨rfl, rfl⟩
  rw [replaceFrom, ← hafter]
  rcases hext.matchAt hrest with ⟨-, hnone⟩ | ⟨q, q', hq, hq', hext'⟩
  · rw [hnone]
  · -- a match here is empty
    obtain ⟨m, hm, -⟩ := fits_of_matchAt hq
    have hend : q.rest = [] := (List.append_eq_nil_iff.mp hm.symm).2
    have hlen : (c :: t).length - q'.rest.length = 0 := by
      rw [hext'.rest_eq, hend, List.nil_append, Nat.sub_self]
    rw [hq']
    simp only [hlen, if_pos]

/-- **A text may be cut at a separator**, and each part replaced by itself. -/
theorem replaceAll_append_cons (h : Separates word r c) (f : List Char → List Char)
    (s t : List Char) : replaceAll word r f (s ++ c :: t) =
      replaceAll word r f s ++ c :: replaceAll word r f t :=
  replaceFrom_append (fun _ hd => Option.some.inj hd ▸ h) (replaceFrom_separator h)
    (Nat.zero_le _) rfl

/-- The parts between separators are replaced one by one. -/
theorem replaceAll_intercalate (h : Separates word r c) (f : List Char → List Char)
    (parts : List (List Char)) : replaceAll word r f ([c].intercalate parts) =
      [c].intercalate (parts.map (replaceAll word r f)) := by
  induction parts with
  | nil => rfl
  | cons s parts ih =>
    cases parts with
    | nil => rw [List.map_singleton, List.intercalate_singleton, List.intercalate_singleton]
    | cons t parts =>
      rw [List.map_cons, List.map_cons, List.intercalate_cons_cons, List.intercalate_cons_cons,
        ← List.map_cons, ← ih, List.append_assoc, List.append_assoc, List.singleton_append,
        List.singleton_append, replaceAll_append_cons h]

end

end OxidizedWall.Regex
