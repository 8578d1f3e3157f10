import OxidizedWall.Lib.Matcher

/-!
# Searching and replacing

A search cuts a text into the characters that it keeps and the matches that it finds, and a
replacement puts these `pieces` together again.
-/

namespace OxidizedWall.Regex

/-! ## Pieces -/

/-- A part of a text that was searched: a character that is kept, or a match. -/
inductive Piece
  | kept (c : Char)
  | found (m : List Char)
  deriving DecidableEq

/-- What a replacement makes of a piece. -/
def Piece.replace (f : List Char → List Char) : Piece → List Char
  | kept c => [c]
  | found m => f m

/-- What a replacement makes of the pieces; `render id` is the text. -/
def render (f : List Char → List Char) (ps : List Piece) : List Char := ps.flatMap (Piece.replace f)

section
variable (word : Char → Bool) (r : Regex)

/-- The pieces from a position on, after `skip` characters that belong to the last match. -/
def piecesFrom : ℕ → Option Char → List Char → List Piece
  | _, _, [] => []
  | skip + 1, _, c :: s => piecesFrom skip (some c) s
  | 0, prev, c :: s =>
    match matchAt word r ⟨prev, c :: s⟩ with
    | some q =>
      let len := (c :: s).length - q.rest.length
      if len = 0 then .kept c :: piecesFrom 0 (some c) s
      else .found ((c :: s).take len) :: piecesFrom (len - 1) (some c) s
    | none => .kept c :: piecesFrom 0 (some c) s

/-- The pieces of a text. -/
def pieces (s : List Char) : List Piece := piecesFrom word r 0 none s

/-- Each match is found where the search has come to, and no match starts where a character is
kept. -/
inductive Scan : Option Char → List Char → List Piece → Prop
  | nil {prev : Option Char} : Scan prev [] []
  | kept {prev : Option Char} {c : Char} {s : List Char} {ps : List Piece} :
    matchAt word r ⟨prev, c :: s⟩ = none → Scan (some c) s ps → Scan prev (c :: s) (.kept c :: ps)
  | found {prev : Option Char} {m s : List Char} {ps : List Piece} : m ≠ [] →
    matchAt word r ⟨prev, m ++ s⟩ = some ⟨m.getLast?, s⟩ → Scan m.getLast? s ps →
    Scan prev (m ++ s) (.found m :: ps)

end

@[simp] theorem render_nil (f : List Char → List Char) : render f [] = [] := rfl

@[simp] theorem render_kept (f : List Char → List Char) (c : Char) (ps : List Piece) :
    render f (.kept c :: ps) = c :: render f ps := rfl

@[simp] theorem render_found (f : List Char → List Char) (m : List Char) (ps : List Piece) :
    render f (.found m :: ps) = f m ++ render f ps := rfl

@[simp] theorem render_append (f : List Char → List Char) (ps qs : List Piece) :
    render f (ps ++ qs) = render f ps ++ render f qs := List.flatMap_append

@[simp] theorem render_map_kept (f : List Char → List Char) (s : List Char) :
    render f (s.map .kept) = s := by
  induction s with
  | nil => rfl
  | cons c s ih => rw [List.map_cons, render_kept, ih]

section
variable {word : Char → Bool} {r : Regex} {f : List Char → List Char} {prev : Option Char}
  {s : List Char} {ps : List Piece}

theorem replaceFrom_eq_render (skip : ℕ) :
    replaceFrom word r f skip prev s = render f (piecesFrom word r skip prev s) := by
  induction s generalizing skip prev with
  | nil => cases skip <;> rfl
  | cons c s ih =>
    cases skip with
    | succ skip => exact ih skip
    | zero =>
      rw [replaceFrom, piecesFrom]
      cases matchAt word r ⟨prev, c :: s⟩ with
      | none => exact congrArg (c :: ·) (ih 0)
      | some q =>
        simp only
        split
        · exact congrArg (c :: ·) (ih 0)
        · exact congrArg (f _ ++ ·) (ih _)

/-- A replacement is made piece by piece. -/
theorem replaceAll_eq_render : replaceAll word r f s = render f (pieces word r s) :=
  replaceFrom_eq_render 0

theorem piecesFrom_skip (t s : List Char) :
    piecesFrom word r t.length prev (t ++ s) = piecesFrom word r 0 (t.getLast?.or prev) s := by
  induction t generalizing prev with
  | nil => rfl
  | cons c t ih =>
    have hlast : (c :: t).getLast?.or prev = t.getLast?.or (some c) :=
      getLast?_append_or [c] t prev
    rw [hlast]
    exact ih

/-- A pattern without empty matches scans the text into its pieces. -/
theorem scan_piecesFrom (hne : ∀ prev rest, ¬ Fits word r prev [] rest) :
    Scan word r prev s (piecesFrom word r 0 prev s) := by
  induction hlen : s.length using Nat.strongRecOn generalizing prev s with
  | ind n ih =>
    cases s with
    | nil => exact .nil
    | cons c s =>
      have hlt : s.length < n := hlen ▸ Nat.lt_succ_self _
      rw [piecesFrom]
      cases hmatch : matchAt word r ⟨prev, c :: s⟩ with
      | none => exact .kept hmatch (ih _ hlt rfl)
      | some q =>
        obtain ⟨m, hm, hprev, hfits⟩ := fits_of_matchAt hmatch
        cases m with
        | nil => exact absurd hfits (hne _ _)
        | cons d m =>
          have hsplit : c :: s = d :: (m ++ q.rest) := hm
          obtain ⟨rfl, rfl⟩ := List.cons.inj hsplit
          have hlast : (c :: m).getLast? = m.getLast?.or (some c) := by
            have := getLast?_append_or [c] m none
            rwa [Option.or_none] at this
          have hlen' : (c :: (m ++ q.rest)).length - q.rest.length = m.length + 1 := by
            rw [List.length_cons, List.length_append]
            omega
          have hq : q = ⟨(c :: m).getLast?, q.rest⟩ := by
            refine Pos.ext (hprev.trans ?_) rfl
            rw [hlast, Option.or_assoc]
            rfl
          simp only [hlen', Nat.add_sub_cancel, piecesFrom_skip, ← hlast]
          rw [if_neg (Nat.succ_ne_zero _), List.take_succ_cons, List.take_left]
          have hmore : q.rest.length < n := by
            rw [List.length_append] at hlt
            omega
          exact .found (List.cons_ne_nil c m) (hmatch.trans (congrArg some hq)) (ih _ hmore rfl)

theorem scan_pieces (hne : ∀ prev rest, ¬ Fits word r prev [] rest) :
    Scan word r none s (pieces word r s) := scan_piecesFrom hne

/-! ### What stands where -/

theorem Scan.render_id (h : Scan word r prev s ps) : render id ps = s := by
  induction h with
  | nil => rfl
  | kept _ _ ih => rw [render_kept, ih]
  | found _ _ _ ih => rw [render_found, ih, id]

/-- The rest of a scan scans the rest of the text. -/
theorem Scan.append {ps qs : List Piece} (h : Scan word r prev s (ps ++ qs)) :
    Scan word r ((render id ps).getLast?.or prev) (render id qs) qs := by
  induction ps generalizing prev s with
  | nil =>
    rw [List.nil_append] at h
    rw [h.render_id]
    exact h
  | cons p ps ih =>
    cases h with
    | kept _ h =>
      rw [render_kept, ← List.singleton_append, getLast?_append_or]
      exact ih h
    | @found m _ _ _ hne _ h =>
      rw [render_found, getLast?_append_or]
      obtain ⟨c, hc⟩ := Option.ne_none_iff_exists'.mp (mt List.getLast?_eq_none_iff.mp hne)
      rw [id, hc, Option.some_or, ← hc]
      exact ih h

theorem Scan.kept_cons {c : Char} (h : Scan word r prev s (.kept c :: ps)) :
    matchAt word r ⟨prev, c :: render id ps⟩ = none := by
  cases h with
  | kept hnone hrest => rwa [hrest.render_id]

theorem Scan.found_cons {m : List Char} (h : Scan word r prev s (.found m :: ps)) :
    m ≠ [] ∧ matchAt word r ⟨prev, m ++ render id ps⟩ = some ⟨m.getLast?, render id ps⟩ := by
  cases h with
  | found hne hmatch hrest =>
    rw [hrest.render_id]
    exact ⟨hne, hmatch⟩

/-- A match is found where one starts. -/
theorem Scan.of_matchAt {q : Pos Char} (h : Scan word r prev s ps) (hne : s ≠ [])
    (hmatch : matchAt word r ⟨prev, s⟩ = some q) :
    ∃ m qs, ps = .found m :: qs ∧ s = m ++ q.rest ∧ Scan word r m.getLast? q.rest qs := by
  cases h with
  | nil => exact absurd rfl hne
  | kept hnone _ =>
    rw [hnone] at hmatch
    cases hmatch
  | found _ hfound hrest =>
    obtain rfl := Option.some.inj (hfound.symm.trans hmatch)
    exact ⟨_, _, rfl, rfl, hrest⟩

/-- No match starts where a character is kept. -/
theorem Scan.not_fits {ps qs : List Piece} {c : Char}
    (h : Scan word r prev s (ps ++ .kept c :: qs)) (t rest : List Char)
    (ht : c :: render id qs = t ++ rest) :
    ¬ Fits word r ((render id ps).getLast?.or prev) t rest :=
  matchAt_eq_none_iff.mp h.append.kept_cons t rest ht

/-- A match that is found fits where it stands. -/
theorem Scan.fits {ps qs : List Piece} {m : List Char}
    (h : Scan word r prev s (ps ++ .found m :: qs)) :
    Fits word r ((render id ps).getLast?.or prev) m (render id qs) := by
  obtain ⟨t, ht, -, hfits⟩ := fits_of_matchAt h.append.found_cons.2
  obtain rfl := List.append_cancel_right ht
  exact hfits

theorem Scan.fits_head {m : List Char} (h : Scan word r prev s (.found m :: ps)) :
    Fits word r prev m (render id ps) := by
  have h' : Scan word r prev s ([] ++ .found m :: ps) := h
  exact h'.fits

/-- A character of the result is kept, or stands in what a match was replaced by. -/
theorem render_eq_append_cons {c : Char} {before after : List Char}
    (h : render f ps = before ++ c :: after) :
    (∃ A B, ps = A ++ .kept c :: B ∧ render f A = before ∧ render f B = after) ∨
      ∃ A m B u v, ps = A ++ .found m :: B ∧ f m = u ++ c :: v ∧ before = render f A ++ u ∧
        after = v ++ render f B := by
  induction ps generalizing before with
  | nil => simp at h
  | cons p ps ih =>
    have hlater (t : List Char) (hp : p.replace f = t)
        (hrest : ∃ before', before = t ++ before' ∧ render f ps = before' ++ c :: after) :
        (∃ A B, p :: ps = A ++ .kept c :: B ∧ render f A = before ∧ render f B = after) ∨
          ∃ A m B u v, p :: ps = A ++ .found m :: B ∧ f m = u ++ c :: v ∧
            before = render f A ++ u ∧ after = v ++ render f B := by
      obtain ⟨before', rfl, hrest⟩ := hrest
      rcases ih hrest with ⟨A, B, rfl, rfl, hB⟩ | ⟨A, m, B, u, v, rfl, hm, rfl, hv⟩
      · exact .inl ⟨p :: A, B, rfl, by rw [← hp]; rfl, hB⟩
      · exact .inr ⟨p :: A, m, B, u, v, rfl, hm, by rw [← hp, ← List.append_assoc]; rfl, hv⟩
    have hsplit : p.replace f ++ render f ps = before ++ c :: after := h
    rcases List.append_eq_append_iff.mp hsplit with ⟨before', hbefore, hrest⟩ | ⟨t, hp, hrest⟩
    · exact hlater _ rfl ⟨before', hbefore, hrest⟩
    · cases t with
      | nil => exact hlater _ rfl ⟨[], by rw [List.append_nil] at *; exact hp.symm, hrest.symm⟩
      | cons d v =>
        obtain ⟨rfl, hrest'⟩ := List.cons.inj hrest
        cases p with
        | kept e =>
          have he : [e] = before ++ c :: v := hp
          rcases List.cons_eq_append_iff.mp he with ⟨rfl, he'⟩ | ⟨before', -, he'⟩
          · obtain ⟨rfl, rfl⟩ := List.cons.inj he'
            exact .inl ⟨[], ps, rfl, rfl, hrest'.symm⟩
          · simp at he'
        | found m => exact .inr ⟨[], m, ps, before, v, rfl, hp, rfl, hrest'⟩

/-- Text that no replacement begins with stands in the result as it is kept. -/
theorem exists_kept_of_render_eq_append {w after : List Char} (h : render f ps = w ++ after)
    (hf : ∀ m, .found m ∈ ps → ∃ c, (f m).head? = some c ∧ c ∉ w) :
    ∃ B, ps = w.map .kept ++ B ∧ render f B = after := by
  induction w generalizing ps with
  | nil => exact ⟨ps, rfl, h⟩
  | cons c w ih =>
    cases ps with
    | nil => simp at h
    | cons p ps =>
      cases p with
      | kept d =>
        obtain ⟨rfl, hrest⟩ := List.cons.inj h
        obtain ⟨B, rfl, hB⟩ := ih hrest fun m hm => by
          obtain ⟨c', hc', hno⟩ := hf m (.tail _ hm)
          exact ⟨c', hc', fun hmem => hno (.tail _ hmem)⟩
        exact ⟨B, rfl, hB⟩
      | found m =>
        obtain ⟨c', hc', hno⟩ := hf m (.head _)
        obtain ⟨u, hu⟩ := List.head?_eq_some_iff.mp hc'
        rw [render_found, hu] at h
        obtain ⟨rfl, -⟩ := List.cons.inj h
        exact absurd (.head _) hno

/-- Text that no replacement ends with stands in the result as it is kept. -/
theorem exists_kept_of_render_eq_append' {before w : List Char} (h : render f ps = before ++ w)
    (hf : ∀ m, .found m ∈ ps → ∃ c, (f m).getLast? = some c ∧ c ∉ w) :
    ∃ A, ps = A ++ w.map .kept ∧ render f A = before := by
  induction w using List.reverseRecOn generalizing ps with
  | nil => exact ⟨ps, (List.append_nil ps).symm, by rw [h, List.append_nil]⟩
  | append_singleton w c ih =>
    rcases List.eq_nil_or_concat ps with rfl | ⟨qs, p, rfl⟩
    · simp at h
    rw [← List.append_assoc, List.concat_eq_append, render_append] at h
    cases p with
    | kept d =>
      obtain ⟨hrest, hd⟩ := List.append_inj' h rfl
      obtain rfl := List.head_eq_of_cons_eq hd
      obtain ⟨A, rfl, hA⟩ := ih hrest fun m hm => by
        obtain ⟨c', hc', hno⟩ := hf m (by simp [hm])
        exact ⟨c', hc', fun hmem => hno (List.mem_append_left _ hmem)⟩
      exact ⟨A, by simp, hA⟩
    | found m =>
      obtain ⟨c', hc', hno⟩ := hf m (by simp)
      have hlast := congrArg List.getLast? h
      rw [render_found, render_nil, List.append_nil, List.getLast?_append, hc', Option.some_or,
        List.getLast?_concat] at hlast
      exact absurd (Option.some.inj hlast ▸ by simp) hno

/-- A replacement that ends its matches as they end ends the text as it ends. -/
theorem getLast?_render (hf : ∀ m, .found m ∈ ps → (f m).getLast? = m.getLast?) :
    (render f ps).getLast? = (render id ps).getLast? := by
  induction ps with
  | nil => rfl
  | cons p ps ih =>
    have hps := ih fun m hm => hf m (.tail _ hm)
    have hp : (p.replace f).getLast? = (p.replace id).getLast? := by
      cases p with
      | kept c => rfl
      | found m => exact hf m (.head _)
    show (p.replace f ++ render f ps).getLast? = (p.replace id ++ render id ps).getLast?
    rw [List.getLast?_append, List.getLast?_append, hps, hp]

theorem mem_render {c : Char} : c ∈ render f ps ↔
    .kept c ∈ ps ∨ ∃ m, .found m ∈ ps ∧ c ∈ f m := by
  unfold render
  rw [List.mem_flatMap]
  constructor
  · rintro ⟨p, hp, hc⟩
    cases p with
    | kept d =>
      obtain rfl := List.mem_singleton.mp hc
      exact .inl hp
    | found m => exact .inr ⟨m, hp, hc⟩
  · rintro (hc | ⟨m, hm, hc⟩)
    · exact ⟨_, hc, List.mem_singleton_self c⟩
    · exact ⟨_, hm, hc⟩

end

end OxidizedWall.Regex
