import Mathlib.Algebra.Ring.Nat
import Mathlib.Data.List.Infix

/-!
# Longest prefixes

A table of keys, searched from its start for a key that begins what is looked up. If the table
is sorted by decreasing length, the first such key is the longest, and the only one of its
length. Lengths are sums of positive weights.
-/

namespace OxidizedWall

variable {α V : Type} {w : α → ℕ}

/-- The length of a list whose elements count by their weights. -/
def weight (w : α → ℕ) (l : List α) : ℕ := (l.map w).sum

theorem weight_append (l l' : List α) : weight w (l ++ l') = weight w l + weight w l' := by
  unfold weight
  rw [List.map_append, List.sum_append]

theorem eq_nil_of_weight_eq_zero (hw : ∀ a, 0 < w a) {l : List α} (h : weight w l = 0) :
    l = [] := by
  cases l with
  | nil => rfl
  | cons a l =>
    have := hw a
    simp only [weight, List.map_cons, List.sum_cons] at h
    omega

/-- A prefix as long as the whole is the whole. -/
theorem eq_of_isPrefix_of_weight_le (hw : ∀ a, 0 < w a) {l l' : List α} (h : l <+: l')
    (hle : weight w l' ≤ weight w l) : l = l' := by
  obtain ⟨t, rfl⟩ := h
  rw [weight_append] at hle
  have ht : weight w t = 0 := by omega
  rw [eq_nil_of_weight_eq_zero hw ht, List.append_nil]

/-- Two prefixes of one list are equal or differ in length. -/
theorem eq_of_prefixes_of_weight_eq (hw : ∀ a, 0 < w a) {k k' l : List α} (hk : k <+: l)
    (hk' : k' <+: l) (h : weight w k = weight w k') : k = k' := by
  rcases List.prefix_or_prefix_of_prefix hk hk' with hpre | hpre
  · exact eq_of_isPrefix_of_weight_le hw hpre h.ge
  · exact (eq_of_isPrefix_of_weight_le hw hpre h.le).symm

/-- `e` is the row of the longest key that is a prefix of `l`, and every other such key is
shorter. -/
structure LongestPrefix (w : α → ℕ) (table : List (List α × V)) (l : List α) (e : List α × V) :
    Prop where
  mem : e ∈ table
  isPrefix : e.1 <+: l
  shorter : ∀ e' ∈ table, e'.1 <+: l → e' ≠ e → weight w e'.1 < weight w e.1

namespace LongestPrefix

variable {table table' : List (List α × V)} {l : List α} {e e' : List α × V}

theorem unique (h : LongestPrefix w table l e) (h' : LongestPrefix w table l e') : e = e' := by
  by_contra hne
  have hlt := h.shorter e' h'.mem h'.isPrefix (Ne.symm hne)
  have hlt' := h'.shorter e h.mem h.isPrefix hne
  omega

/-- The order of the table does not matter. -/
theorem perm (hperm : table.Perm table') (h : LongestPrefix w table l e) :
    LongestPrefix w table' l e :=
  ⟨hperm.mem_iff.mp h.mem, h.isPrefix, fun e' he' => h.shorter e' (hperm.mem_iff.mpr he')⟩

end LongestPrefix

/-- In a sorted table of distinct keys the first prefix is the longest. -/
theorem longestPrefix_of_find? [DecidableEq α] (hw : ∀ a, 0 < w a) {table : List (List α × V)}
    (hsorted : table.Pairwise fun e e' => weight w e'.1 ≤ weight w e.1)
    (hnodup : (table.map Prod.fst).Nodup) {l : List α} {e : List α × V}
    (h : table.find? (fun e => e.1.isPrefixOf l) = some e) : LongestPrefix w table l e := by
  obtain ⟨hpre, before, after, rfl, hbefore⟩ := List.find?_eq_some_iff_append.mp h
  have hprefix := List.isPrefixOf_iff_prefix.mp hpre
  refine ⟨by simp, hprefix, fun e' he' hpre' hne => ?_⟩
  -- what stands before `e` is no prefix, so `e'` comes after it
  have hafter : e' ∈ after := by
    rcases List.mem_append.mp he' with he' | he'
    · have := hbefore e' he'
      rw [List.isPrefixOf_iff_prefix.mpr hpre'] at this
      cases this
    · exact (List.mem_cons.mp he').resolve_left hne
  have hle : weight w e'.1 ≤ weight w e.1 :=
    (List.pairwise_cons.mp (List.pairwise_append.mp hsorted).2.1).1 e' hafter
  have hkey : e'.1 ≠ e.1 := by
    rw [List.map_append, List.map_cons, List.nodup_append] at hnodup
    intro heq
    exact (List.nodup_cons.mp hnodup.2.1).1 (heq ▸ List.mem_map_of_mem hafter)
  rcases Nat.lt_or_ge (weight w e'.1) (weight w e.1) with hlt | hge
  · exact hlt
  · exact absurd (eq_of_prefixes_of_weight_eq hw hpre' hprefix (Nat.le_antisymm hle hge)) hkey

end OxidizedWall
