import OxidizedWall.Lib.Json
import OxidizedWall.Waf.Structure

/-!
# The depth scanner

`check_json_depth` counts brackets without reading the text as JSON.

1. `checkJsonDepth_eq_false_iff_substring`: what it counts is the largest excess of opening
   brackets over a contiguous part of the text.
2. `checkJsonDepth_depth_iff`: that is the nesting depth as long as brackets inside string literals
   do not change it.
-/

namespace OxidizedWall.Structure

open Json (opens closes)

variable {v : Json} {t : Str}

/-- Some contiguous part has more opening brackets than closing ones, by more than `maxDepth`. -/
def TooDeep (maxDepth : ℕ) (t : Str) : Prop := Excess.Exceeds opens closes maxDepth t

theorem depthFrom_eq (maxDepth currentDepth : ℕ) (t : Str) :
    depthFrom maxDepth currentDepth t = Excess.stays opens closes maxDepth currentDepth t := by
  induction t generalizing currentDepth with
  | nil => rfl
  | cons c t ih =>
    rw [depthFrom, Excess.stays, ih, ih, ih]
    simp only [opens, closes, Bool.or_eq_true, beq_iff_eq]

theorem checkJsonDepth_eq_false_iff {maxDepth : ℕ} :
    checkJsonDepth t maxDepth = false ↔ TooDeep maxDepth t := by
  unfold checkJsonDepth TooDeep
  rw [depthFrom_eq]
  exact Excess.stays_eq_false_iff_exceeds fun _ hc => (Json.opens_ne hc).2

/-- **The meaning of the scanner.** It refuses a text exactly if some contiguous part of it has
more opening brackets than closing ones, by more than the limit. -/
theorem checkJsonDepth_eq_false_iff_substring (input : Str) (maxDepth : ℕ) :
    checkJsonDepth input maxDepth = false ↔
      ∃ w, w <:+: input ∧ maxDepth + w.countP closes < w.countP opens :=
  checkJsonDepth_eq_false_iff

/-! ## JSON texts -/

/-- The brackets outside string literals are too deep exactly if the value is. -/
theorem tooDeep_unquoted_iff (h : Json.WritesPadded v t) {maxDepth : ℕ} :
    TooDeep maxDepth (Json.unquoted t) ↔ maxDepth < v.depth := by
  obtain ⟨k, hk, hnested⟩ := h.nests
  rw [hk.unquoted_eq]
  exact hnested.exceeds_iff fun _ hc => (Json.opens_ne hc).2

/-- No bracket stands in a string literal. -/
def NoQuotedBracket (t : Str) : Prop :=
  t.filter (fun c => opens c || closes c) =
    (Json.unquoted t).filter fun c => opens c || closes c

theorem NoQuotedBracket.tooDeep_iff (h : NoQuotedBracket t) {maxDepth : ℕ} :
    TooDeep maxDepth t ↔ TooDeep maxDepth (Json.unquoted t) := by
  rw [← checkJsonDepth_eq_false_iff, ← checkJsonDepth_eq_false_iff]
  unfold checkJsonDepth
  rw [depthFrom_eq, depthFrom_eq, ← Excess.stays_filter, h, Excess.stays_filter]

/-- **The depth limit holds for a JSON text** if and only if the brackets in its string literals do
not decide whether some part of it is too deep; without brackets in string literals it holds. -/
theorem checkJsonDepth_depth_iff (h : Json.WritesPadded v t) (maxDepth : ℕ) :
    ((checkJsonDepth t maxDepth = true ↔ v.depth ≤ maxDepth) ↔
      (TooDeep maxDepth t ↔ TooDeep maxDepth (Json.unquoted t))) ∧
    (NoQuotedBracket t → (checkJsonDepth t maxDepth = true ↔ v.depth ≤ maxDepth)) := by
  have hcheck : (checkJsonDepth t maxDepth = true ↔ v.depth ≤ maxDepth) ↔
      (TooDeep maxDepth t ↔ TooDeep maxDepth (Json.unquoted t)) := by
    rw [tooDeep_unquoted_iff h, ← Bool.not_eq_false, checkJsonDepth_eq_false_iff, ← Nat.not_lt]
    exact not_iff_not
  exact ⟨hcheck, fun hno => hcheck.mpr hno.tooDeep_iff⟩

/-- The text `["a"]`. -/
theorem checkJsonDepth_depth_one :
    checkJsonDepth "[\"a\"]".toList 1 = true ↔ (Json.array [.string ['a']]).depth ≤ 1 := by
  have hchar : Json.WritesChar 'a' ['a'] := .plain (by decide) (by decide) (by decide)
  have hstring : Json.Writes (.string ['a']) "\"a\"".toList := .string (.intro (.cons hchar .nil))
  have hblank : Json.Blank [] := by simp [Json.Blank]
  have htext : Json.WritesPadded (.array [.string ['a']]) "[\"a\"]".toList :=
    .intro hblank (.array (.one (.intro hblank hstring hblank))) hblank
  exact (checkJsonDepth_depth_iff htext 1).2 (by unfold NoQuotedBracket; decide)

/-- A bracket in a string that is refused, and a bracket in a string that hides two arrays. -/
theorem checkJsonDepth_fooled :
    (∃ v t, Json.WritesPadded v t ∧ v.depth ≤ 0 ∧ checkJsonDepth t 0 = false) ∧
    ∃ v t, Json.WritesPadded v t ∧ ¬ v.depth ≤ 1 ∧ checkJsonDepth t 1 = true := by
  have hblank : Json.Blank [] := by simp [Json.Blank]
  have hopen : Json.WritesChar '[' ['['] := .plain (by decide) (by decide) (by decide)
  have hclose : Json.WritesChar ']' [']'] := .plain (by decide) (by decide) (by decide)
  refine ⟨⟨.string ['['], "\"[\"".toList, ?_, by decide, by decide⟩,
    ⟨.array [.string [']'], .array []], "[\"]\",[]]".toList, ?_, by decide, by decide⟩⟩
  · exact .intro hblank (.string (.intro (.cons hopen .nil))) hblank
  · have hfirst : Json.WritesPadded (.string [']']) "\"]\"".toList :=
      .intro hblank (.string (.intro (.cons hclose .nil))) hblank
    have hsecond : Json.WritesPadded (.array []) "[]".toList :=
      .intro hblank (.emptyArray hblank) hblank
    exact .intro hblank (.array (.cons hfirst (.one hsecond))) hblank

end OxidizedWall.Structure
