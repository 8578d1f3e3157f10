import Mathlib.Logic.Basic

/-!
# Maps by key

A hash map seen from outside: which value, if any, each key holds. Iteration order is not part
of it; where an order matters the caller carries a list.
-/

namespace OxidizedWall

/-- A map holding at most one value per key. -/
@[ext] structure KeyMap (K V : Type) where
  get : K → Option V

namespace KeyMap

variable {K V : Type} [DecidableEq K]

omit [DecidableEq K] in
/-- The map without entries. -/
def empty : KeyMap K V := ⟨fun _ => none⟩

/-- Writes `v` under `k`, over any older value. -/
def insert (m : KeyMap K V) (k : K) (v : V) : KeyMap K V :=
  ⟨fun k' => if k' = k then some v else m.get k'⟩

/-- Drops the entry of `k`. -/
def remove (m : KeyMap K V) (k : K) : KeyMap K V :=
  ⟨fun k' => if k' = k then none else m.get k'⟩

omit [DecidableEq K] in
/-- Keeps the entries that satisfy `p`. -/
def retain (m : KeyMap K V) (p : K → V → Bool) : KeyMap K V :=
  ⟨fun k => (m.get k).filter (p k)⟩

omit [DecidableEq K] in
@[simp] theorem get_empty (k : K) : (empty : KeyMap K V).get k = none := rfl

@[simp] theorem get_insert_self (m : KeyMap K V) (k : K) (v : V) :
    (m.insert k v).get k = some v := if_pos rfl

theorem get_insert_of_ne {m : KeyMap K V} {k k' : K} (h : k' ≠ k) (v : V) :
    (m.insert k v).get k' = m.get k' := if_neg h

theorem get_insert (m : KeyMap K V) (k k' : K) (v : V) :
    (m.insert k v).get k' = if k' = k then some v else m.get k' := rfl

/-- Writing what is there already. -/
theorem insert_get {m : KeyMap K V} {k : K} {v : V} (h : m.get k = some v) : m.insert k v = m := by
  ext1
  funext k'
  rw [get_insert]
  by_cases hkk : k' = k
  · rw [if_pos hkk, hkk, h]
  · rw [if_neg hkk]

omit [DecidableEq K] in
/-- The map with `f` of every value. -/
def map {W : Type} (f : V → W) (m : KeyMap K V) : KeyMap K W := ⟨fun k => (m.get k).map f⟩

omit [DecidableEq K] in
@[simp] theorem get_map {W : Type} (f : V → W) (m : KeyMap K V) (k : K) :
    (m.map f).get k = (m.get k).map f := rfl

theorem map_insert {W : Type} (f : V → W) (m : KeyMap K V) (k : K) (v : V) :
    (m.insert k v).map f = (m.map f).insert k (f v) := by
  ext1
  funext k'
  rw [get_map, get_insert, get_insert]
  by_cases hkk : k' = k
  · rw [if_pos hkk, if_pos hkk]
    rfl
  · rw [if_neg hkk, if_neg hkk]
    rfl

@[simp] theorem get_remove_self (m : KeyMap K V) (k : K) : (m.remove k).get k = none := if_pos rfl

theorem get_remove_of_ne {m : KeyMap K V} {k k' : K} (h : k' ≠ k) :
    (m.remove k).get k' = m.get k' := if_neg h

omit [DecidableEq K] in
theorem get_retain (m : KeyMap K V) (p : K → V → Bool) (k : K) :
    (m.retain p).get k = (m.get k).filter (p k) := rfl

omit [DecidableEq K] in
/-- `es` holds each entry of the map once: an order in which it may be iterated. -/
structure IteratesAs (m : KeyMap K V) (es : List (K × V)) : Prop where
  nodup : (es.map Prod.fst).Nodup
  mem_iff : ∀ k v, (k, v) ∈ es ↔ m.get k = some v

omit [DecidableEq K] in
theorem iteratesAs_nil : (empty : KeyMap K V).IteratesAs [] :=
  ⟨List.nodup_nil, fun _ _ => by simp⟩

theorem IteratesAs.cons {m : KeyMap K V} {es : List (K × V)} (h : m.IteratesAs es) {k : K}
    (hk : m.get k = none) (v : V) : (m.insert k v).IteratesAs ((k, v) :: es) := by
  have hnew : ∀ w, (k, w) ∉ es := fun w hw =>
    absurd ((h.mem_iff k w).mp hw) (by simp [hk])
  refine ⟨List.nodup_cons.mpr ⟨fun hmem => ?_, h.nodup⟩, fun k' v' => ?_⟩
  · obtain ⟨⟨_, w⟩, hw, rfl⟩ := List.mem_map.mp hmem
    exact hnew w hw
  · rw [List.mem_cons, get_insert]
    by_cases hkk : k' = k
    · subst hkk
      rw [if_pos rfl]
      simp [hnew, eq_comm]
    · rw [if_neg hkk, ← h.mem_iff]
      simp [hkk]

omit [DecidableEq K] in
/-- A map may be iterated in any order. -/
theorem IteratesAs.perm {m : KeyMap K V} {es es' : List (K × V)} (h : m.IteratesAs es)
    (hperm : es.Perm es') : m.IteratesAs es' :=
  ⟨(hperm.map Prod.fst).nodup h.nodup, fun k v => (hperm.mem_iff).symm.trans (h.mem_iff k v)⟩

theorem IteratesAs.remove {m : KeyMap K V} {es : List (K × V)} (h : m.IteratesAs es) (k : K) :
    (m.remove k).IteratesAs (es.filter fun e => e.1 ≠ k) := by
  refine ⟨(List.filter_sublist.map Prod.fst).nodup h.nodup, fun k' v => ?_⟩
  rw [List.mem_filter, h.mem_iff]
  by_cases hkk : k' = k
  · subst hkk
    simp
  · rw [get_remove_of_ne hkk]
    simp [hkk]

theorem IteratesAs.insert {m : KeyMap K V} {es : List (K × V)} (h : m.IteratesAs es) (k : K)
    (v : V) : (m.insert k v).IteratesAs ((k, v) :: es.filter fun e => e.1 ≠ k) := by
  have hsame : (m.remove k).insert k v = m.insert k v := by
    ext1
    funext k'
    rw [get_insert, get_insert]
    by_cases hkk : k' = k
    · rw [if_pos hkk, if_pos hkk]
    · rw [if_neg hkk, if_neg hkk, get_remove_of_ne hkk]
  rw [← hsame]
  exact (h.remove k).cons (get_remove_self m k) v

omit [DecidableEq K] in
theorem IteratesAs.retain {m : KeyMap K V} {es : List (K × V)} (h : m.IteratesAs es)
    (p : K → V → Bool) : (m.retain p).IteratesAs (es.filter fun e => p e.1 e.2) := by
  refine ⟨(List.filter_sublist.map Prod.fst).nodup h.nodup, fun k v => ?_⟩
  rw [List.mem_filter, h.mem_iff, get_retain, Option.filter_eq_some_iff]

omit [DecidableEq K] in
/-- The keys of a map. -/
theorem IteratesAs.mem_keys {m : KeyMap K V} {es : List (K × V)} (h : m.IteratesAs es) {k : K} :
    k ∈ es.map Prod.fst ↔ ∃ v, m.get k = some v := by
  constructor
  · intro hk
    obtain ⟨⟨k, v⟩, hkv, rfl⟩ := List.mem_map.mp hk
    exact ⟨v, (h.mem_iff k v).mp hkv⟩
  · rintro ⟨v, hv⟩
    exact List.mem_map.mpr ⟨(k, v), (h.mem_iff k v).mpr hv, rfl⟩

end KeyMap

end OxidizedWall
