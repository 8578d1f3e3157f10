import OxidizedWall.Lib.Prefix
import OxidizedWall.Load
import OxidizedWall.Proxy

/-!
# Routes

The table that `Config::load` builds for a virtual host, and the loop of `https_proxy` over it.

1. `counted_loadRouters`: every route has a counter, and no other route has the same.
2. `find?_sortRouters`: the first match in the sorted table is the longest.
3. `bestMatch_longest`: what the loop finds, for every order in which the file's map is iterated.
-/

namespace OxidizedWall

/-! ## The table -/

/-- Every route has a counter of its own, numbered below `next`. -/
structure Counted (routers : List (Str × List Str)) (routersState : KeyMap Str AtomicUsize)
    (next : ℕ) : Prop where
  isSome : ∀ e ∈ routers, (routersState.get e.1).isSome
  below : ∀ route counter, routersState.get route = some counter → counter.addr < next
  injective : ∀ route route' counter, routersState.get route = some counter →
    routersState.get route' = some counter → route = route'

theorem Counted.insert {routers : List (Str × List Str)} {routersState : KeyMap Str AtomicUsize}
    {next : ℕ} (h : Counted routers routersState next) (e : Str × List Str) :
    Counted (routers ++ [e]) (routersState.insert e.1 ⟨next⟩) (next + 1) := by
  constructor
  · intro e' he'
    rw [KeyMap.get_insert]
    split
    · rfl
    · rcases List.mem_append.mp he' with he' | he'
      · exact h.isSome e' he'
      · obtain rfl := List.mem_singleton.mp he'
        contradiction
  · intro route counter hget
    rw [KeyMap.get_insert] at hget
    split at hget
    · obtain rfl := Option.some.inj hget
      exact Nat.lt_succ_self next
    · exact (h.below route counter hget).trans (Nat.lt_succ_self next)
  · intro route route' counter hget hget'
    rw [KeyMap.get_insert] at hget hget'
    split at hget <;> split at hget'
    · simp only [*]
    · obtain rfl := Option.some.inj hget
      exact absurd (h.below route' _ hget') (Nat.lt_irrefl next)
    · obtain rfl := Option.some.inj hget'
      exact absurd (h.below route _ hget) (Nat.lt_irrefl next)
    · exact h.injective route route' counter hget hget'

theorem loadRouters_concat (next : ℕ) (routers : List (Str × List Str)) (e : Str × List Str) :
    loadRouters next (routers ++ [e]) =
      let (sortedRouters, routersState, next) := loadRouters next routers
      (sortedRouters ++ [e], routersState.insert e.1 ⟨next⟩, next + 1) := by
  unfold loadRouters
  rw [List.foldl_append]
  rfl

/-- Before it is sorted, the table is the map in the order in which it is iterated. -/
theorem fst_loadRouters (next : ℕ) (routers : List (Str × List Str)) :
    (loadRouters next routers).1 = routers := by
  induction routers using List.reverseRecOn with
  | nil => rfl
  | append_singleton routers e ih =>
    rw [loadRouters_concat]
    show (loadRouters next routers).1 ++ [e] = routers ++ [e]
    rw [ih]

theorem counted_loadRouters (next : ℕ) (routers : List (Str × List Str)) :
    Counted routers (loadRouters next routers).2.1 (loadRouters next routers).2.2 := by
  induction routers using List.reverseRecOn with
  | nil => exact ⟨by simp, fun _ _ h => (nomatch h), fun _ _ _ h => (nomatch h)⟩
  | append_singleton routers e ih =>
    rw [loadRouters_concat]
    exact ih.insert e

theorem sortRouters_perm (routers : List (Str × List Str)) :
    (sortRouters routers).Perm routers := List.mergeSort_perm _ _

theorem sortRouters_sorted (routers : List (Str × List Str)) : (sortRouters routers).Pairwise
    fun e e' => weight Char.utf8Size e'.1 ≤ weight Char.utf8Size e.1 := by
  have h : (sortRouters routers).Pairwise fun e e' => decide (utf8Len e'.1 ≤ utf8Len e.1) := by
    apply List.pairwise_mergeSort
    · intro a b c hab hbc
      exact decide_eq_true ((of_decide_eq_true hbc).trans (of_decide_eq_true hab))
    · intro a b
      rcases Nat.le_total (utf8Len b.1) (utf8Len a.1) with hle | hle <;> simp [hle]
  exact h.imp fun hab => of_decide_eq_true hab

/-- The first route of the sorted table that begins the path. -/
theorem find?_sortRouters {routers : List (Str × List Str)}
    (hnodup : (routers.map Prod.fst).Nodup) {path : Str} {e : Str × List Str} :
    (sortRouters routers).find? (fun e => e.1.isPrefixOf path) = some e ↔
      LongestPrefix Char.utf8Size routers path e := by
  have hperm := sortRouters_perm routers
  have hfound : ∀ e, (sortRouters routers).find? (fun e => e.1.isPrefixOf path) = some e →
      LongestPrefix Char.utf8Size routers path e := fun e he =>
    (longestPrefix_of_find? Char.utf8Size_pos (sortRouters_sorted routers)
      ((hperm.map Prod.fst).nodup_iff.mpr hnodup) he).perm hperm
  constructor
  · exact hfound e
  · intro he
    cases hfind : (sortRouters routers).find? (fun e => e.1.isPrefixOf path) with
    | none =>
      have := List.find?_eq_none.mp hfind e (hperm.mem_iff.mpr he.mem)
      exact absurd (List.isPrefixOf_iff_prefix.mpr he.isPrefix) this
    | some e' => rw [(hfound e' hfind).unique he]

namespace Proxy

/-! ## The loop -/

/-- Where every route has a counter, the loop is a search for the first match. -/
theorem bestMatch_eq {vhost : VHostConfig}
    (h : ∀ e ∈ vhost.routers, (vhost.routersState.get e.1).isSome) (path : Str) :
    bestMatch vhost path = (vhost.routers.find? fun e => e.1.isPrefixOf path).bind fun e =>
      (vhost.routersState.get e.1).map fun counter => (e.2, counter) := by
  unfold bestMatch
  generalize vhost.routers = routers at h
  induction routers with
  | nil => rfl
  | cons e routers ih =>
    rw [List.findSome?_cons, List.find?_cons]
    by_cases hpre : e.1.isPrefixOf path = true
    · obtain ⟨counter, hcounter⟩ := Option.isSome_iff_exists.mp (h e List.mem_cons_self)
      simp [hpre, hcounter]
    · simp only [hpre]
      exact ih fun e' he' => h e' (List.mem_cons_of_mem _ he')

/-- The loop finds the longest route that begins the path, with its counter. -/
theorem bestMatch_load (rv : RawVHost) (next : ℕ) (path : Str) {m : List Str × AtomicUsize} :
    bestMatch (rv.load next).1 path = some m ↔
      ∃ route, LongestPrefix Char.utf8Size rv.routers path (route, m.1) ∧
        (rv.load next).1.routersState.get route = some m.2 := by
  have hcounted := counted_loadRouters next rv.routers
  have hrouters : (rv.load next).1.routers = sortRouters rv.routers :=
    congrArg sortRouters (fst_loadRouters next rv.routers)
  have hstate : ∀ e ∈ (rv.load next).1.routers,
      ((rv.load next).1.routersState.get e.1).isSome := by
    intro e he
    rw [hrouters] at he
    exact hcounted.isSome e ((sortRouters_perm _).mem_iff.mp he)
  rw [bestMatch_eq hstate, hrouters, Option.bind_eq_some_iff]
  simp only [find?_sortRouters rv.nodup, Option.map_eq_some_iff]
  constructor
  · rintro ⟨e, he, counter, hcounter, rfl⟩
    exact ⟨e.1, he, hcounter⟩
  · rintro ⟨route, hroute, hcounter⟩
    exact ⟨(route, m.1), hroute, m.2, hcounter, rfl⟩

/-- The loop finds nothing only if there is nothing to find. -/
theorem bestMatch_load_none (rv : RawVHost) (next : ℕ) (path : Str) :
    bestMatch (rv.load next).1 path = none ↔ ∀ e ∈ rv.routers, ¬ e.1 <+: path := by
  have hcounted := counted_loadRouters next rv.routers
  constructor
  · intro hnone e he hpre
    -- the first match of the sorted table is a match of the loop
    have hsome : ((sortRouters rv.routers).find? fun e => e.1.isPrefixOf path).isSome :=
      List.find?_isSome.mpr ⟨e, (sortRouters_perm _).mem_iff.mpr he,
        List.isPrefixOf_iff_prefix.mpr hpre⟩
    obtain ⟨e', he'⟩ := Option.isSome_iff_exists.mp hsome
    have hlongest := (find?_sortRouters rv.nodup).mp he'
    obtain ⟨counter, hcounter⟩ := Option.isSome_iff_exists.mp (hcounted.isSome e' hlongest.mem)
    have := (bestMatch_load rv next path (m := (e'.2, counter))).mpr ⟨e'.1, hlongest, hcounter⟩
    rw [hnone] at this
    cases this
  · intro hnone
    apply Option.eq_none_iff_forall_ne_some.mpr
    intro m hm
    obtain ⟨route, hroute, -⟩ := (bestMatch_load rv next path).mp hm
    exact hnone _ hroute.mem hroute.isPrefix

/-- The loop takes this route: it finds its upstreams and its counter. -/
def Chooses (vhost : VHostConfig) (path route : Str) (upstreams : List Str) : Prop :=
  ∃ counter, bestMatch vhost path = some (upstreams, counter) ∧
    vhost.routersState.get route = some counter

theorem chooses_load (rv : RawVHost) (next : ℕ) {path route : Str} {upstreams : List Str} :
    Chooses (rv.load next).1 path route upstreams ↔
      LongestPrefix Char.utf8Size rv.routers path (route, upstreams) := by
  have hcounted := counted_loadRouters next rv.routers
  constructor
  · rintro ⟨counter, hmatch, hcounter⟩
    obtain ⟨route', hroute', hcounter'⟩ := (bestMatch_load rv next path).mp hmatch
    rw [hcounted.injective route route' counter hcounter hcounter']
    exact hroute'
  · intro h
    obtain ⟨counter, hcounter⟩ := Option.isSome_iff_exists.mp (hcounted.isSome _ h.mem)
    exact ⟨counter, (bestMatch_load rv next path).mpr ⟨route, h, hcounter⟩, hcounter⟩

/-- **Longest-prefix routing.** Over the table that `Config::load` builds, the loop takes the
longest route of the file that begins the path, with its counter, and fails only if no route
does. The order in which the file's map is iterated changes nothing. -/
theorem bestMatch_longest (rv : RawVHost) (next : ℕ) (path : Str) :
    (∀ m, bestMatch (rv.load next).1 path = some m → ∃ route, (rv.load next).1.routersState.get
      route = some m.2 ∧ Chooses (rv.load next).1 path route m.1) ∧
    (∀ route upstreams, Chooses (rv.load next).1 path route upstreams ↔
      LongestPrefix Char.utf8Size rv.routers path (route, upstreams)) ∧
    (bestMatch (rv.load next).1 path = none ↔ ∀ e ∈ rv.routers, ¬ e.1 <+: path) ∧
    ∀ (rv' : RawVHost) (next' : ℕ), rv.routers.Perm rv'.routers → ∀ route upstreams,
      Chooses (rv.load next).1 path route upstreams ↔
        Chooses (rv'.load next').1 path route upstreams := by
  refine ⟨?_, fun _ _ => chooses_load rv next, bestMatch_load_none rv next path, ?_⟩
  · intro m hm
    obtain ⟨route, -, hcounter⟩ := (bestMatch_load rv next path).mp hm
    exact ⟨route, hcounter, m.2, hm, hcounter⟩
  · intro rv' next' hperm route upstreams
    rw [chooses_load, chooses_load]
    exact ⟨fun h => h.perm hperm, fun h => h.perm hperm.symm⟩

/-! ## Loaded configurations -/

/-- The last entry of a domain. -/
def lastEntry (vhosts : List RawVHost) (domain : Str) : Option RawVHost :=
  vhosts.reverse.find? fun rv => rv.domain = domain

theorem lastEntry_cons (rv : RawVHost) (rvs : List RawVHost) (domain : Str) :
    lastEntry (rv :: rvs) domain =
      (lastEntry rvs domain).or (if rv.domain = domain then some rv else none) := by
  unfold lastEntry
  rw [List.reverse_cons, List.find?_append, List.find?_singleton]
  simp only [decide_eq_true_eq]

theorem lastEntry_mem {rvs : List RawVHost} {domain : Str} {rv : RawVHost}
    (h : lastEntry rvs domain = some rv) : rv ∈ rvs ∧ rv.domain = domain :=
  ⟨List.mem_reverse.mp (List.mem_of_find?_eq_some h), by simpa using List.find?_some h⟩

/-- Under a domain the loop leaves what it made of the domain's last entry. -/
theorem loadVHosts_last (tls : Tls) {rvs : List RawVHost} {next : ℕ}
    {vhosts vhosts' : KeyMap Str VHostConfig} {resolver resolver' : tls.Resolver}
    (h : (loadVHosts tls rvs next vhosts resolver).Yields (some (vhosts', resolver')))
    (domain : Str) :
    (lastEntry rvs domain = none ∧ vhosts'.get domain = vhosts.get domain) ∨
      ∃ rv next, lastEntry rvs domain = some rv ∧
        vhosts'.get domain = some (rv.load next).1 := by
  induction rvs generalizing next vhosts resolver with
  | nil =>
    obtain ⟨rfl, -⟩ := Prod.mk.inj (Option.some.inj h)
    exact .inl ⟨rfl, rfl⟩
  | cons rv rvs ih =>
    obtain ⟨added, -, h⟩ := Prog.yields_bind.mp h
    cases added with
    | none => cases h
    | some resolver =>
      rw [lastEntry_cons]
      rcases ih h with ⟨hnone, hget⟩ | ⟨rv', next', hsome, hget⟩
      · rw [hnone, hget, KeyMap.get_insert, Option.none_or]
        by_cases hd : rv.domain = domain
        · right
          exact ⟨rv, next, if_pos hd, if_pos hd.symm⟩
        · left
          exact ⟨if_neg hd, if_neg (Ne.symm hd)⟩
      · right
        rw [hsome, Option.some_or]
        exact ⟨rv', next', rfl, hget⟩

theorem loadVHosts_get (tls : Tls) {rvs : List RawVHost} {next : ℕ}
    {vhosts vhosts' : KeyMap Str VHostConfig} {resolver resolver' : tls.Resolver}
    (h : (loadVHosts tls rvs next vhosts resolver).Yields (some (vhosts', resolver')))
    {domain : Str} {vhost : VHostConfig} (hget : vhosts'.get domain = some vhost) :
    vhosts.get domain = some vhost ∨
      ∃ rv ∈ rvs, rv.domain = domain ∧ ∃ next, vhost = (rv.load next).1 := by
  rcases loadVHosts_last tls h domain with ⟨-, hold⟩ | ⟨rv, next, hlast, hload⟩
  · exact .inl (hold.symm.trans hget)
  · obtain ⟨hmem, hdomain⟩ := lastEntry_mem hlast
    exact .inr ⟨rv, hmem, hdomain, next, Option.some.inj (hget.symm.trans hload)⟩

/-- In a loaded configuration a request takes the longest route of an entry for its host. -/
theorem route_load {tls : Tls} {raw : RawConfig} {config : Config} {resolver : tls.Resolver}
    (h : (Config.load tls raw).Yields (some (config, resolver))) {req : Request}
    {m : List Str × AtomicUsize} (hroute : route config req = some m) :
    ∃ rv ∈ raw.vhosts, rv.domain = getHost req ∧
      ∃ route, LongestPrefix Char.utf8Size rv.routers req.uri.path (route, m.1) := by
  obtain ⟨loaded, hloaded, h⟩ := Prog.yields_bind.mp h
  cases loaded with
  | none => cases h
  | some r =>
    obtain ⟨rfl, rfl⟩ := Prod.mk.inj (Option.some.inj h)
    obtain ⟨vhost, hvhost, hmatch⟩ := Option.bind_eq_some_iff.mp hroute
    rcases loadVHosts_get tls hloaded hvhost with hempty | ⟨rv, hrv, hdomain, next, rfl⟩
    · cases hempty
    · obtain ⟨route, hlongest, -⟩ := (bestMatch_load rv next _).mp hmatch
      exact ⟨rv, hrv, hdomain, route, hlongest⟩

end Proxy

end OxidizedWall
