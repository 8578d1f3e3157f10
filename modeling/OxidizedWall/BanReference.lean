import OxidizedWall.Ban

/-!
# The reference semantics of bans

What a check should say depends on the most recent ban of its address alone: at `x` the address
is banned if that ban ends at `x` or later. Checks and cleanups drop entries on the way.

1. `get_calls_of_noBan`: without a ban, an entry stays or is dropped.
2. `get_calls_until`: up to the end `T` of a ban only a cleanup at `T` drops its entry.
3. `follows_reference`: the runs in which every check says what it should.
-/

namespace OxidizedWall

/-- The state after the calls `cs`. -/
def BanManager.calls (m : BanManager) (cs : List (ℕ × BanCall)) : Option BanManager :=
  cs.foldlM (fun m c => m.call c.1 c.2) m

/-! ## The most recent ban -/

/-- No call bans `ip`. -/
def NoBan (ip : IpAddr) (cs : List (ℕ × BanCall)) : Prop := ∀ c ∈ cs, ∀ d, c.2 ≠ .ban ip d

/-- The most recent ban of `ip` ends at `T`, and `since` are the calls after it. -/
def LastBan (ip : IpAddr) (cs : List (ℕ × BanCall)) (T : ℕ) (since : List (ℕ × BanCall)) : Prop :=
  ∃ before t d, cs = before ++ (t, .ban ip d) :: since ∧ T = t + d ∧ NoBan ip since

section
variable {ip : IpAddr} {cs since since' : List (ℕ × BanCall)} {T T' x : ℕ} {m m' : BanManager}

theorem LastBan.unique (h : LastBan ip cs T since) (h' : LastBan ip cs T' since') :
    T = T' ∧ since = since' := by
  obtain ⟨before, t, d, rfl, rfl, hno⟩ := h
  obtain ⟨before', t', d', heq, rfl, hno'⟩ := h'
  rcases List.append_eq_append_iff.mp heq with ⟨as, -, has⟩ | ⟨as, -, has⟩
  · cases as with
    | nil =>
      cases has
      exact ⟨rfl, rfl⟩
    | cons c as =>
      obtain ⟨-, rfl⟩ := List.cons_eq_cons.mp has
      exact absurd rfl (hno (t', .ban ip d') (by simp) d')
  · cases as with
    | nil =>
      cases has
      exact ⟨rfl, rfl⟩
    | cons c as =>
      obtain ⟨-, rfl⟩ := List.cons_eq_cons.mp has
      exact absurd rfl (hno' (t, .ban ip d) (by simp) d)

theorem noBan_or_lastBan (ip : IpAddr) (cs : List (ℕ × BanCall)) :
    NoBan ip cs ∨ ∃ T since, LastBan ip cs T since := by
  induction cs with
  | nil => exact .inl fun _ hc => absurd hc List.not_mem_nil
  | cons c cs ih =>
    rcases ih with hno | ⟨T, since, before, t, d, rfl, hT, hno⟩
    · by_cases hc : ∃ d, c.2 = .ban ip d
      · obtain ⟨d, hd⟩ := hc
        exact .inr ⟨c.1 + d, cs, [], c.1, d, by rw [← hd]; rfl, rfl, hno⟩
      · left
        intro c' hc' d hd
        rcases List.mem_cons.mp hc' with rfl | hc'
        · exact hc ⟨d, hd⟩
        · exact hno c' hc' d hd
    · exact .inr ⟨T, since, c :: before, t, d, rfl, hT, hno⟩

/-! ## The entry after a run -/

theorem calls_cons (m : BanManager) (c : ℕ × BanCall) (cs : List (ℕ × BanCall)) :
    m.calls (c :: cs) = (m.call c.1 c.2).bind fun m => m.calls cs := rfl

theorem calls_append (m : BanManager) (cs cs' : List (ℕ × BanCall)) :
    m.calls (cs ++ cs') = (m.calls cs).bind fun m => m.calls cs' := List.foldlM_append

theorem get_calls_of_noBan (hno : NoBan ip cs) (h : m.calls cs = some m') :
    m'.bannedIps.get ip = m.bannedIps.get ip ∨ m'.bannedIps.get ip = none := by
  induction cs generalizing m with
  | nil =>
    obtain rfl := Option.some.inj h
    exact .inl rfl
  | cons c cs ih =>
    rw [calls_cons] at h
    obtain ⟨m₁, hc, h⟩ := Option.bind_eq_some_iff.mp h
    have hrest := ih (fun c' hc' => hno c' (List.mem_cons_of_mem _ hc')) h
    rcases get_call ip hc with ⟨d, hd, -⟩ | ⟨hdrop, -⟩ | ⟨-, hsame, -⟩
    · exact absurd hd (hno c List.mem_cons_self d)
    · exact .inr (hrest.elim (fun heq => heq.trans hdrop) id)
    · rwa [hsame] at hrest

/-- As long as a ban runs only a cleanup at its end drops its entry. -/
theorem get_calls_until (hno : NoBan ip cs) (hle : ∀ c ∈ cs, c.1 ≤ T)
    (hget : m.bannedIps.get ip = some ⟨T⟩) (h : m.calls cs = some m') :
    m'.bannedIps.get ip = if (T, .cleanup) ∈ cs then none else some ⟨T⟩ := by
  induction cs generalizing m with
  | nil =>
    obtain rfl := Option.some.inj h
    exact hget
  | cons c cs ih =>
    rw [calls_cons] at h
    obtain ⟨m₁, hc, h⟩ := Option.bind_eq_some_iff.mp h
    have hno' : NoBan ip cs := fun c' hc' => hno c' (List.mem_cons_of_mem _ hc')
    have hcT : c.1 ≤ T := hle c List.mem_cons_self
    rcases get_call ip hc with ⟨d, hd, -⟩ | ⟨hdrop, entry, hentry, hover⟩ | ⟨-, hsame, hlive⟩
    · exact absurd hd (hno c List.mem_cons_self d)
    · -- the entry goes, at the end of the ban, and none comes after it
      rw [hget] at hentry
      obtain rfl := Option.some.inj hentry
      have hcleanup : c = (T, .cleanup) := by
        rcases hover with ⟨-, hlt⟩ | ⟨hcall, hge⟩
        · exact absurd hlt (Nat.not_lt.mpr hcT)
        · exact Prod.ext (Nat.le_antisymm hcT hge) hcall
      rw [if_pos (hcleanup ▸ List.mem_cons_self)]
      exact (get_calls_of_noBan hno' h).elim (fun heq => heq.trans hdrop) id
    · have hcleanup : c ≠ (T, .cleanup) := by
        rintro rfl
        exact absurd (hlive rfl ⟨T⟩ hget) (Nat.lt_irrefl T)
      rw [ih hno' (fun c' hc' => hle c' (List.mem_cons_of_mem _ hc')) (hsame.trans hget) h]
      simp only [List.mem_cons, hcleanup.symm, false_or]

/-- The most recent ban leaves its entry, and the calls behind it start there. -/
theorem LastBan.exists_banned (h : LastBan ip cs T since)
    (hrun : BanManager.new.calls cs = some m) :
    ∃ m' : BanManager, m'.bannedIps.get ip = some ⟨T⟩ ∧ m'.calls since = some m := by
  obtain ⟨before, t, d, rfl, rfl, -⟩ := h
  rw [calls_append] at hrun
  obtain ⟨m₁, -, hrun⟩ := Option.bind_eq_some_iff.mp hrun
  rw [calls_cons] at hrun
  obtain ⟨m₂, hban, hrun⟩ := Option.bind_eq_some_iff.mp hrun
  refine ⟨m₂, ?_, hrun⟩
  rcases get_call ip hban with ⟨d', hd', hget⟩ | ⟨-, _, -, hover⟩ | ⟨hno', -⟩
  · cases hd'
    exact hget
  · simp at hover
  · exact absurd rfl (hno' d)

theorem LastBan.noBan (h : LastBan ip cs T since) : NoBan ip since := by
  obtain ⟨_, _, _, -, -, hno⟩ := h
  exact hno

theorem LastBan.subset (h : LastBan ip cs T since) : since ⊆ cs := by
  obtain ⟨before, t, d, rfl, -, -⟩ := h
  exact fun c hc => List.mem_append_right before (List.mem_cons_of_mem _ hc)

/-- The entry of an address whose most recent ban has not ended before `x`. -/
theorem LastBan.get (h : LastBan ip cs T since) (hx : x ≤ T) (hle : ∀ c ∈ cs, c.1 ≤ x)
    (hrun : BanManager.new.calls cs = some m) :
    m.bannedIps.get ip = if (T, .cleanup) ∈ since then none else some ⟨T⟩ := by
  obtain ⟨m', hget, hsince⟩ := h.exists_banned hrun
  exact get_calls_until h.noBan (fun c hc => (hle c (h.subset hc)).trans hx) hget hsince

/-- The entry of an address, if any, is that of its most recent ban. -/
theorem lastBan_of_get (hrun : BanManager.new.calls cs = some m) {entry : BanEntry}
    (hget : m.bannedIps.get ip = some entry) : ∃ since, LastBan ip cs entry.expireAt since := by
  rcases noBan_or_lastBan ip cs with hno | ⟨T, since, hlast⟩
  · rcases get_calls_of_noBan hno hrun with h | h <;> rw [h] at hget <;> cases hget
  · refine ⟨since, ?_⟩
    obtain ⟨m', hget', hsince⟩ := hlast.exists_banned hrun
    rcases get_calls_of_noBan hlast.noBan hsince with h | h
    · rw [h, hget'] at hget
      cases hget
      exact hlast
    · rw [h] at hget
      cases hget

/-! ## Checks -/

/-- A check at `x` says what it should, unless the address's ban ends at `x` and a cleanup has
run at `x` since. -/
theorem check_reference (hle : ∀ c ∈ cs, c.1 ≤ x) (hrun : BanManager.new.calls cs = some m) :
    (((BanManager.check ip).run (BanManager.handle x) m).1 = true ↔
      ∃ T since, LastBan ip cs T since ∧ x ≤ T) ↔
    ∀ since, LastBan ip cs x since → (x, .cleanup) ∉ since := by
  rw [BanManager.check_eq]
  show (m.isBanned x ip = true ↔ _) ↔ _
  unfold BanManager.isBanned
  constructor
  · intro hiff since hlast hcleanup
    have hget := hlast.get (le_refl x) hle hrun
    rw [if_pos hcleanup] at hget
    have := hiff.mpr ⟨x, since, hlast, le_refl x⟩
    rw [hget] at this
    cases this
  · intro hclean
    constructor
    · intro hbanned
      obtain ⟨entry, hget, hlive⟩ := (Option.any_eq_true _ _).mp hbanned
      obtain ⟨since, hlast⟩ := lastBan_of_get hrun hget
      exact ⟨entry.expireAt, since, hlast, of_decide_eq_true hlive⟩
    · rintro ⟨T, since, hlast, hx⟩
      have hcleanup : (T, .cleanup) ∉ since := by
        intro hmem
        have hT : T ≤ x := by
          obtain ⟨before, t, d, rfl, -, -⟩ := id hlast
          exact hle (T, .cleanup) (by simp [hmem])
        obtain rfl := Nat.le_antisymm hx hT
        exact hclean since hlast hmem
      rw [hlast.get hx hle hrun, if_neg hcleanup]
      exact decide_eq_true hx

end

/-- Every check in the run says whether its address has been banned, and its most recent ban has
not ended before the check. -/
def FollowsReference (cs : List (ℕ × BanCall)) : Prop :=
  ∀ before x ip after m, cs = before ++ (x, .check ip) :: after →
    BanManager.new.calls before = some m →
      (((BanManager.check ip).run (BanManager.handle x) m).1 = true ↔
        ∃ T since, LastBan ip before T since ∧ x ≤ T)

/-- **Checks follow the reference semantics** in exactly the runs in which no check comes at the
end of the most recent ban of its address and after a cleanup at that same instant: `check` takes
the end for a part of the ban, and the cleanup does not. -/
theorem follows_reference (cs : List (ℕ × BanCall))
    (hsorted : (cs.map Prod.fst).Pairwise (· ≤ ·)) (hrun : (BanManager.new.calls cs).isSome) :
    FollowsReference cs ↔ ∀ before x ip after since, cs = before ++ (x, .check ip) :: after →
      LastBan ip before x since → (x, .cleanup) ∉ since := by
  have hbefore : ∀ before x ip after, cs = before ++ (x, .check ip) :: after →
      (∀ c ∈ before, c.1 ≤ x) ∧ ∃ m, BanManager.new.calls before = some m := by
    rintro before x ip after rfl
    obtain ⟨-, -, hcross⟩ := times_append.mp hsorted
    refine ⟨fun c hc => hcross c hc _ (.head _), ?_⟩
    obtain ⟨m', hm'⟩ := Option.isSome_iff_exists.mp hrun
    rw [calls_append] at hm'
    obtain ⟨m, hm, -⟩ := Option.bind_eq_some_iff.mp hm'
    exact ⟨m, hm⟩
  constructor
  · intro h before x ip after since hcs
    obtain ⟨hle, m, hm⟩ := hbefore before x ip after hcs
    exact (check_reference hle hm).mp (h before x ip after m hcs hm) since
  · intro h before x ip after m hcs hm
    obtain ⟨hle, -⟩ := hbefore before x ip after hcs
    exact (check_reference hle hm).mpr fun since => h before x ip after since hcs

/-- A cleanup just before the end of a ban, and a check just at it. -/
theorem follows_reference_cleaned : FollowsReference
    [(0, .ban (.v4 1) 10), (9, .cleanup), (10, .check (.v4 1))] := by
  refine (follows_reference _ (by decide) rfl).mpr ?_
  rintro before x ip after since hcs ⟨before', t, d, rfl, -, -⟩ hmem
  have hcleanup : (x, .cleanup) ∈ ([(0, .ban (.v4 1) 10), (9, .cleanup), (10, .check (.v4 1))] :
      List (ℕ × BanCall)) := by
    rw [hcs]
    simp [hmem]
  have hcheck : (x, .check ip) ∈ ([(0, .ban (.v4 1) 10), (9, .cleanup), (10, .check (.v4 1))] :
      List (ℕ × BanCall)) := by
    rw [hcs]
    simp
  simp only [List.mem_cons, Prod.mk.injEq, reduceCtorEq, and_false, and_true, false_or,
    List.not_mem_nil, or_false] at hcleanup hcheck
  omega

/-- A ban of ten seconds, and a cleanup and a check at its end. -/
def cleanedAtExpiry : List (ℕ × BanCall) :=
  [(0, .ban (.v4 1) (fromSecs 10)), (fromSecs 10, .cleanup), (fromSecs 10, .check (.v4 1))]

theorem cleaned_at_expiry : ¬ FollowsReference cleanedAtExpiry := by
  intro h
  have hlast : LastBan (.v4 1) [(0, .ban (.v4 1) (fromSecs 10)), (fromSecs 10, .cleanup)]
      (fromSecs 10) [(fromSecs 10, .cleanup)] :=
    ⟨[], 0, fromSecs 10, rfl, (Nat.zero_add _).symm, by simp [NoBan]⟩
  have hbanned := (h _ (fromSecs 10) (.v4 1) [] _ rfl rfl).mpr ⟨_, _, hlast, le_refl _⟩
  revert hbanned
  decide

end OxidizedWall
