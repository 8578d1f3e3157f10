import OxidizedWall.Lib.KeyMap
import Mathlib.Data.List.Induction
import Mathlib.Data.List.Pairwise

/-!
# Maps that forget

A map is written key by key, and swept now and then: a sweep drops the entries that are not fresh
any more. If a write takes a stale entry for a missing one, the sweeps have no other effect: an
entry is the one of a map that is never swept, for as long as every sweep takes it for fresh.
-/

namespace OxidizedWall

variable {K A S V : Type} [DecidableEq K]

inductive Visit (K A S : Type)
  | write (k : K) (a : A)
  | sweep (s : S)

/-- What a write makes of the old entry, and which entries a sweep keeps. -/
structure Expiring (K A S V : Type) where
  write : ℕ → A → Option V → V
  fresh : S → ℕ → K → V → Bool

namespace Expiring

omit [DecidableEq K] in
/-- A write leaves an entry that is fresh for all sweeps so far, and an entry that was stale in one
of them is as good as none. -/
structure Lawful (x : Expiring K A S V) : Prop where
  fresh_write : ∀ s c t k a o, c ≤ t → x.fresh s c k (x.write t a o) = true
  write_stale : ∀ s c t k a v, c ≤ t → x.fresh s c k v = false →
    x.write t a (some v) = x.write t a none

def step (x : Expiring K A S V) (m : KeyMap K V) : ℕ × Visit K A S → KeyMap K V
  | (t, .write k a) => m.insert k (x.write t a (m.get k))
  | (t, .sweep s) => m.retain (x.fresh s t)

/-- The map after the visits `evs`. -/
def run (x : Expiring K A S V) (evs : List (ℕ × Visit K A S)) : KeyMap K V :=
  evs.foldl x.step .empty

/-- What a visit makes of the entry of `k` if nothing is ever swept. -/
def rewrite (x : Expiring K A S V) (k : K) (o : Option V) : ℕ × Visit K A S → Option V
  | (t, .write k' a) => if k' = k then some (x.write t a o) else o
  | (_, .sweep _) => o

/-- The entry of `k` if nothing is ever swept. -/
def entry (x : Expiring K A S V) (k : K) (evs : List (ℕ × Visit K A S)) : Option V :=
  evs.foldl (x.rewrite k) none

/-- The visit is no sweep that drops `v`. -/
def keeps (x : Expiring K A S V) (k : K) (v : V) : ℕ × Visit K A S → Bool
  | (_, .write _ _) => true
  | (c, .sweep s) => x.fresh s c k v

variable {x : Expiring K A S V} {evs : List (ℕ × Visit K A S)} {k : K}

theorem run_concat (evs : List (ℕ × Visit K A S)) (e : ℕ × Visit K A S) :
    x.run (evs ++ [e]) = x.step (x.run evs) e := by
  unfold run
  rw [List.foldl_append]
  rfl

theorem entry_concat (evs : List (ℕ × Visit K A S)) (e : ℕ × Visit K A S) :
    x.entry k (evs ++ [e]) = x.rewrite k (x.entry k evs) e := by
  unfold entry
  rw [List.foldl_append]
  rfl

omit [DecidableEq K] in
theorem keeps_concat (evs : List (ℕ × Visit K A S)) (e : ℕ × Visit K A S) (v : V) :
    (evs ++ [e]).all (x.keeps k v) = (evs.all (x.keeps k v) && x.keeps k v e) := by
  rw [List.all_append, List.all_cons, List.all_nil, Bool.and_true]

omit [DecidableEq K] in
/-- A write sees no difference between an entry and what the sweeps have left of it. -/
theorem Lawful.write_filter (hx : x.Lawful) {t : ℕ} (hle : ∀ e ∈ evs, e.1 ≤ t) (a : A)
    (o : Option V) : x.write t a (o.filter fun v => evs.all (x.keeps k v)) = x.write t a o := by
  cases o with
  | none => rfl
  | some v =>
    rw [Option.filter_some]
    cases hkeep : evs.all (x.keeps k v) with
    | true => rw [if_pos rfl]
    | false =>
      rw [if_neg Bool.false_ne_true]
      obtain ⟨⟨c, e⟩, he, hdrop⟩ := List.all_eq_false.mp hkeep
      cases e with
      | write k' a' => exact absurd rfl hdrop
      | sweep s =>
        exact (hx.write_stale s c t k a v (hle _ he) (Bool.eq_false_iff.mpr hdrop)).symm

/-- **What is left.** After every run the entry of a key is that of a map that is never swept, if no
sweep of the run takes it for stale, and is gone otherwise. -/
theorem get_run (hx : x.Lawful) (hsorted : (evs.map Prod.fst).Pairwise (· ≤ ·)) :
    (x.run evs).get k = (x.entry k evs).filter fun v => evs.all (x.keeps k v) := by
  induction evs using List.reverseRecOn with
  | nil => rfl
  | append_singleton evs e ih =>
    obtain ⟨t, e⟩ := e
    rw [List.map_append, List.pairwise_append] at hsorted
    obtain ⟨hpre, -, hlast⟩ := hsorted
    have hle : ∀ e ∈ evs, e.1 ≤ t := fun e he =>
      hlast e.1 (List.mem_map_of_mem he) t (List.mem_singleton_self t)
    rw [run_concat, entry_concat]
    cases e with
    | write k' a =>
      simp only [keeps_concat, keeps, Bool.and_true]
      by_cases hk : k' = k
      · subst hk
        simp only [step, rewrite, if_true, KeyMap.get_insert_self]
        rw [ih hpre, hx.write_filter hle]
        rw [Option.filter_some, if_pos]
        rw [List.all_eq_true]
        rintro ⟨c, e⟩ he
        cases e with
        | write _ _ => rfl
        | sweep s => exact hx.fresh_write s c t k' a _ (hle _ he)
      · simp only [step, rewrite, if_neg hk]
        rw [KeyMap.get_insert_of_ne (Ne.symm hk), ih hpre]
    | sweep s =>
      simp only [step, rewrite, KeyMap.get_retain, keeps_concat, keeps]
      rw [ih hpre, Option.filter_filter]

/-- The map of a run has finitely many entries. -/
theorem exists_iteratesAs (x : Expiring K A S V) (evs : List (ℕ × Visit K A S)) :
    ∃ es, (x.run evs).IteratesAs es := by
  induction evs using List.reverseRecOn with
  | nil => exact ⟨[], KeyMap.iteratesAs_nil⟩
  | append_singleton evs e ih =>
    obtain ⟨es, hes⟩ := ih
    obtain ⟨t, e⟩ := e
    rw [run_concat]
    cases e with
    | write k a => exact ⟨_, hes.insert k _⟩
    | sweep s => exact ⟨_, hes.retain _⟩

end Expiring

end OxidizedWall
