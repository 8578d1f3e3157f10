import OxidizedWall.Reload
import OxidizedWall.Routing

/-!
# What is loaded of a file

The file names a domain in each entry of `vhosts`, and nothing keeps two entries from naming the
same one. `Config::load` then adds both certificates, reports both entries as loaded, and keeps
the table of the later one only.
-/

namespace OxidizedWall

namespace Proxy

variable {tls : Tls} {raw : RawConfig} {config : Config} {resolver : tls.Resolver}

/-- Every route of the file is in the table of its domain, with its upstreams and a counter, and
the tables hold nothing else. -/
structure LosesNoRoute (raw : RawConfig) (config : Config) : Prop where
  kept : ∀ rv ∈ raw.vhosts, ∀ e ∈ rv.routers, ∃ vhost,
    config.vhosts.get rv.domain = some vhost ∧ e ∈ vhost.routers ∧
      (vhost.routersState.get e.1).isSome
  nothingElse : ∀ domain vhost, config.vhosts.get domain = some vhost → ∀ e ∈ vhost.routers,
    ∃ rv ∈ raw.vhosts, rv.domain = domain ∧ e ∈ rv.routers

/-- The last entry of a domain has every route of the domain's entries, with the same upstreams. -/
def LastHasAll (raw : RawConfig) : Prop :=
  ∀ rv ∈ raw.vhosts, ∀ e ∈ rv.routers, ∀ last ∈ lastEntry raw.vhosts rv.domain, e ∈ last.routers

theorem mem_load_routers {rv : RawVHost} {next : ℕ} {e : Str × List Str} :
    e ∈ (rv.load next).1.routers ↔ e ∈ rv.routers := by
  show e ∈ sortRouters (loadRouters next rv.routers).1 ↔ e ∈ rv.routers
  rw [fst_loadRouters, (sortRouters_perm _).mem_iff]

/-- A loaded configuration holds, under each domain of the file, the last entry's table. -/
theorem load_get (h : (Config.load tls raw).Yields (some (config, resolver))) (domain : Str) :
    (lastEntry raw.vhosts domain = none ∧ config.vhosts.get domain = none) ∨
      ∃ rv next, lastEntry raw.vhosts domain = some rv ∧
        config.vhosts.get domain = some (rv.load next).1 := by
  obtain ⟨loaded, hloaded, h⟩ := Prog.yields_bind.mp h
  cases loaded with
  | none => cases h
  | some r =>
    obtain ⟨rfl, rfl⟩ := Prod.mk.inj (Option.some.inj h)
    exact loadVHosts_last tls hloaded domain

theorem lastEntry_isSome {rv : RawVHost} (h : rv ∈ raw.vhosts) :
    lastEntry raw.vhosts rv.domain ≠ none := by
  intro hnone
  have := List.find?_eq_none.mp hnone rv (List.mem_reverse.mpr h)
  simp at this

/-- **A loaded configuration has lost no route** if and only if no entry has a route that the last
entry of its domain has not. -/
theorem load_losesNoRoute_iff (h : (Config.load tls raw).Yields (some (config, resolver))) :
    LosesNoRoute raw config ↔ LastHasAll raw := by
  constructor
  · intro hno rv hrv e he last hlast
    obtain ⟨vhost, hvhost, hmem, -⟩ := hno.kept rv hrv e he
    rcases load_get h rv.domain with ⟨hnone, -⟩ | ⟨rv', next, hlast', hload⟩
    · exact absurd hnone (lastEntry_isSome hrv)
    · obtain rfl := Option.some.inj (hlast'.symm.trans hlast)
      obtain rfl := Option.some.inj (hvhost.symm.trans hload)
      exact mem_load_routers.mp hmem
  · intro hall
    refine ⟨fun rv hrv e he => ?_, fun domain vhost hvhost e he => ?_⟩
    · rcases load_get h rv.domain with ⟨hnone, -⟩ | ⟨last, next, hlast, hload⟩
      · exact absurd hnone (lastEntry_isSome hrv)
      · have hmem := hall rv hrv e he last hlast
        exact ⟨_, hload, mem_load_routers.mpr hmem,
          (counted_loadRouters next last.routers).isSome e hmem⟩
    · rcases load_get h domain with ⟨-, hnone⟩ | ⟨last, next, hlast, hload⟩
      · exact absurd (hvhost.symm.trans hnone) (by simp)
      · obtain rfl := Option.some.inj (hvhost.symm.trans hload)
        obtain ⟨hmem, hdomain⟩ := lastEntry_mem hlast
        exact ⟨last, hmem, hdomain, mem_load_routers.mp he⟩

/-- An entry for `a` with one route. -/
def entryFor (route upstream : Str) : RawVHost :=
  ⟨"a".toList, "certs/a.pem".toList, "certs/a.key".toList, [(route, [upstream])], by simp⟩

/-- An entry for `a` with two routes. -/
def fullEntry : RawVHost where
  domain := "a".toList
  certPath := "certs/a.pem".toList
  keyPath := "certs/a.key".toList
  routers := [("/api".toList, ["u2".toList]), ("/".toList, ["u1".toList])]
  nodup := by decide

def otherEntry : RawVHost where
  domain := "b".toList
  certPath := "certs/b.pem".toList
  keyPath := "certs/b.key".toList
  routers := [("/".toList, ["u3".toList]), ("/static".toList, ["u4".toList, "u5".toList])]
  nodup := by decide

def fileOf (vhosts : List RawVHost) : RawConfig :=
  ⟨⟨60, 5, 30, 600⟩, ⟨8192, 100, 1048576, 10, 0⟩, ⟨60, 300, 3600, 300⟩, vhosts⟩

/-- The second entry for `a` has the route of the first. -/
def wholeFile : RawConfig :=
  fileOf [entryFor "/".toList "u1".toList, otherEntry, fullEntry]

/-- A loaded configuration with these virtual hosts. -/
def loadedAs (vhosts : KeyMap Str VHostConfig) : Config :=
  ⟨wholeFile.timeout, wholeFile.limit, wholeFile.ban, vhosts⟩

/-- The virtual hosts once the first entry has been loaded. -/
def firstVHosts : KeyMap Str VHostConfig :=
  KeyMap.empty.insert "a".toList ((entryFor "/".toList "u1".toList).load 0).1

def wholeVHosts : KeyMap Str VHostConfig :=
  (firstVHosts.insert "b".toList (otherEntry.load 1).1).insert "a".toList (fullEntry.load 3).1

theorem load_losesNoRoute_whole : LosesNoRoute wholeFile (loadedAs wholeVHosts) := by
  have hload : (Config.load sampleTls wholeFile).Yields (some (loadedAs wholeVHosts,
      [("a".toList, ⟨[[1]], [9]⟩), ("b".toList, ⟨[[3]], [8]⟩), ("a".toList, ⟨[[2]], [9]⟩)])) :=
    ⟨some [1], some [9], some [3], some [8], some [2], some [9], rfl⟩
  refine (load_losesNoRoute_iff hload).mpr ?_
  intro rv hrv e he last hlast
  have hall : ∀ rv ∈ wholeFile.vhosts, ∀ e ∈ rv.routers,
      (lastEntry wholeFile.vhosts rv.domain).all (fun last => e ∈ last.routers) = true := by
    decide
  exact of_decide_eq_true ((Option.all_eq_true _ _).mp (hall rv hrv e he) last hlast)

/-- Two entries of one domain, with a route each. -/
def splitFile : RawConfig :=
  fileOf [entryFor "/".toList "u1".toList, entryFor "/api".toList "u2".toList]

def splitVHosts : KeyMap Str VHostConfig :=
  firstVHosts.insert "a".toList ((entryFor "/api".toList "u2".toList).load 1).1

/-- The file is loaded, and the route of its first entry is lost. -/
theorem load_splitFile : ∃ config resolver,
    (Config.load sampleTls splitFile).Yields (some (config, resolver)) ∧
      ¬ LosesNoRoute splitFile config := by
  have hload : (Config.load sampleTls splitFile).Yields (some (loadedAs splitVHosts,
      [("a".toList, ⟨[[1]], [9]⟩), ("a".toList, ⟨[[2]], [9]⟩)])) :=
    ⟨some [1], some [9], some [2], some [9], rfl⟩
  refine ⟨_, _, hload, fun hno => ?_⟩
  obtain ⟨vhost, hvhost, hmem, -⟩ :=
    hno.kept (entryFor "/".toList "u1".toList) List.mem_cons_self _ List.mem_cons_self
  obtain rfl := Option.some.inj hvhost
  have hlast : ("/".toList, ["u1".toList]) ∈ (entryFor "/api".toList "u2".toList).routers :=
    mem_load_routers.mp hmem
  exact absurd hlast (by decide)

end Proxy

end OxidizedWall
