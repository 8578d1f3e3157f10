import OxidizedWall.Lib.Future
import OxidizedWall.Http

/-!
# Reading a body to its end

`BodyExt::collect`, and the wrapper `Limited` that ends a body with an error at the frame that
takes it past its limit.
-/

namespace OxidizedWall.Body

/-- `Limited::new`, with `remaining` bytes to go. -/
def limitedFrom (finish : Option (ℕ × BodyEnd)) : (remaining : ℕ) → List (ℕ × Frame) → Body
  | _, [] => ⟨[], finish⟩
  | remaining, (t, f) :: rest =>
    let size := (f.dataRef.getD []).length
    if size > remaining then ⟨[], some (t, .error)⟩
    else
      let b := limitedFrom finish (remaining - size) rest
      ⟨(t, f) :: b.frames, b.finish⟩

def limited (b : Body) (limit : ℕ) : Body := limitedFrom b.finish limit b.frames

/-- `collect` and `to_bytes`. -/
def collect {ε : Type} (b : Body) : Future ε (Except HyperError Bytes) :=
  .wait <| b.finish.map fun e => (b.delay + e.1, match e.2 with
    | .endOfStream => .ok b.bytes
    | .error => .error ⟨⟩)

theorem limitedFrom_complete {finish : Option (ℕ × BodyEnd)} {frames : List (ℕ × Frame)}
    {remaining t : ℕ} (h : (limitedFrom finish remaining frames).finish = some (t, .endOfStream)) :
    limitedFrom finish remaining frames = ⟨frames, finish⟩ ∧
      (Body.mk frames finish).bytes.length ≤ remaining := by
  induction frames generalizing remaining with
  | nil => exact ⟨rfl, Nat.zero_le _⟩
  | cons f frames ih =>
    obtain ⟨t', f⟩ := f
    simp only [limitedFrom] at h ⊢
    by_cases hsize : (f.dataRef.getD []).length > remaining
    · rw [if_pos hsize] at h
      cases h
    · rw [if_neg hsize] at h ⊢
      obtain ⟨heq, hle⟩ := ih h
      rw [heq]
      refine ⟨rfl, ?_⟩
      simp only [bytes, List.flatMap_cons, List.length_append] at hle ⊢
      omega

theorem limitedFrom_of_le {finish : Option (ℕ × BodyEnd)} {frames : List (ℕ × Frame)}
    {remaining : ℕ} (h : (Body.mk frames finish).bytes.length ≤ remaining) :
    limitedFrom finish remaining frames = ⟨frames, finish⟩ := by
  induction frames generalizing remaining with
  | nil => rfl
  | cons f frames ih =>
    simp only [bytes, List.flatMap_cons, List.length_append] at h
    rw [limitedFrom, if_neg (by omega), ih (by simp only [bytes]; omega)]

theorem limitedFrom_of_lt {finish : Option (ℕ × BodyEnd)} {frames : List (ℕ × Frame)}
    {remaining : ℕ} (h : remaining < (Body.mk frames finish).bytes.length) :
    ∃ t, (limitedFrom finish remaining frames).finish = some (t, .error) := by
  induction frames generalizing remaining with
  | nil => exact absurd h (Nat.not_lt_zero _)
  | cons f frames ih =>
    simp only [bytes, List.flatMap_cons, List.length_append] at h
    simp only [limitedFrom]
    by_cases hsize : (f.2.dataRef.getD []).length > remaining
    · exact ⟨f.1, by rw [if_pos hsize]⟩
    · rw [if_neg hsize]
      exact ih (by simp only [bytes]; omega)

/-- A limit only brings the end forward. -/
theorem limitedFrom_delay_le {finish : Option (ℕ × BodyEnd)} (frames : List (ℕ × Frame))
    (remaining : ℕ) {t : ℕ} {e : BodyEnd} (hend : finish = some (t, e)) :
    ∃ t' e', (limitedFrom finish remaining frames).finish = some (t', e') ∧
      (limitedFrom finish remaining frames).delay + t' ≤ (Body.mk frames finish).delay + t := by
  induction frames generalizing remaining with
  | nil => exact ⟨t, e, hend, le_refl _⟩
  | cons f frames ih =>
    simp only [limitedFrom]
    by_cases hsize : (f.2.dataRef.getD []).length > remaining
    · rw [if_pos hsize]
      refine ⟨f.1, .error, rfl, ?_⟩
      simp only [delay, List.map_nil, List.sum_nil, List.map_cons, List.sum_cons]
      omega
    · rw [if_neg hsize]
      obtain ⟨t', e', hfinish, hle⟩ := ih (remaining - (f.2.dataRef.getD []).length)
      refine ⟨t', e', hfinish, ?_⟩
      simp only [delay, List.map_cons, List.sum_cons] at hle ⊢
      omega

/-- A limit does not make a body stall. -/
theorem limitedFrom_stalled {finish : Option (ℕ × BodyEnd)} {frames : List (ℕ × Frame)}
    {remaining : ℕ} (h : (limitedFrom finish remaining frames).finish = none) :
    finish = none := by
  induction frames generalizing remaining with
  | nil => exact h
  | cons f frames ih =>
    simp only [limitedFrom] at h
    split at h
    · cases h
    · exact ih h

/-- A body read to its end within the limit is the whole body. -/
theorem limited_complete {b : Body} {limit t : ℕ}
    (h : (b.limited limit).finish = some (t, .endOfStream)) :
    b.limited limit = b ∧ b.bytes.length ≤ limit := limitedFrom_complete h

section
variable {ε : Type}

theorem collect_ok {b : Body} {t : ℕ} {bytes : Bytes}
    (h : (b.collect : Future ε _).result = some (t, .ok bytes)) :
    bytes = b.bytes ∧ ∃ t', b.finish = some (t', .endOfStream) := by
  obtain ⟨⟨t', e⟩, he, heq⟩ := Option.map_eq_some_iff.mp h
  cases e with
  | endOfStream =>
    cases heq
    exact ⟨rfl, t', he⟩
  | error => cases heq

end

end OxidizedWall.Body
