import OxidizedWall.Lib.Excess
import Mathlib.Algebra.Field.Rat
import Mathlib.Data.Bool.AllAny

/-!
# JSON texts

JSON values, the texts that the grammar allows for each of them, and the nesting depth. A text may
have white space around every token, and write a character of a string as itself or as an escape.

The brackets outside string literals nest to the depth of the value (`Writes.nested`). Those inside
are text, and need not nest at all.
-/

namespace OxidizedWall

inductive Json
  | null
  | bool (b : Bool)
  | number (q : ℚ)
  | string (s : List Char)
  | array (elems : List Json)
  | object (members : List (List Char × Json))

namespace Json

/-! ## Depth -/

mutual

/-- How many arrays and objects stand around the innermost value, itself included. -/
def depth : Json → ℕ
  | array elems => depthElems elems + 1
  | object members => depthMembers members + 1
  | _ => 0

def depthElems : List Json → ℕ
  | [] => 0
  | v :: elems => max v.depth (depthElems elems)

def depthMember : List Char × Json → ℕ
  | (_, v) => v.depth

def depthMembers : List (List Char × Json) → ℕ
  | [] => 0
  | m :: members => max (depthMember m) (depthMembers members)

end

/-! ## Texts -/

/-- White space. -/
def Blank (t : List Char) : Prop := ∀ c ∈ t, c ∈ [' ', '\t', '\n', '\r']

def IsDigits (ds : List Char) : Prop := ds ≠ [] ∧ ∀ c ∈ ds, c.isDigit = true

def digitsValue (ds : List Char) : ℕ := ds.foldl (fun n c => n * 10 + (c.toNat - 48)) 0

/-- The part of a number after the point, if there is one. -/
inductive Fraction : ℚ → List Char → Prop
  | none : Fraction 0 []
  | digits {ds : List Char} : IsDigits ds →
    Fraction (digitsValue ds / 10 ^ ds.length) ('.' :: ds)

/-- The power of ten of a number. -/
inductive Exponent : ℤ → List Char → Prop
  | none : Exponent 0 []
  | unsigned {e : Char} {ds : List Char} : e ∈ ['e', 'E'] → IsDigits ds →
    Exponent (digitsValue ds) (e :: ds)
  | plus {e : Char} {ds : List Char} : e ∈ ['e', 'E'] → IsDigits ds →
    Exponent (digitsValue ds) (e :: '+' :: ds)
  | minus {e : Char} {ds : List Char} : e ∈ ['e', 'E'] → IsDigits ds →
    Exponent (-digitsValue ds) (e :: '-' :: ds)

/-- A number without a sign. Only zero starts with a zero. -/
inductive Unsigned : ℚ → List Char → Prop
  | intro {ds f e : List Char} {x : ℚ} {n : ℤ} : IsDigits ds → (ds.head? = some '0' → ds = ['0']) →
    Fraction x f → Exponent n e → Unsigned ((digitsValue ds + x) * 10 ^ n) (ds ++ f ++ e)

def hexDigit (c : Char) : Option ℕ :=
  if c.isDigit then some (c.toNat - 48)
  else if 'a' ≤ c ∧ c ≤ 'f' then some (c.toNat - 87)
  else if 'A' ≤ c ∧ c ≤ 'F' then some (c.toNat - 55)
  else none

/-- Four hexadecimal digits. -/
def IsHex (n : ℕ) (h : List Char) : Prop :=
  h.length = 4 ∧ (∀ c ∈ h, (hexDigit c).isSome = true) ∧
    n = h.foldl (fun n c => n * 16 + (hexDigit c).getD 0) 0

/-- The escapes of one letter. -/
def shortEscapes : List (Char × Char) :=
  [('"', '"'), ('\\', '\\'), ('/', '/'), ('b', Char.ofNat 8), ('f', Char.ofNat 12), ('n', '\n'),
    ('r', '\r'), ('t', '\t')]

/-- A character in a string literal. -/
inductive WritesChar : Char → List Char → Prop
  | plain {c : Char} : c ≠ '"' → c ≠ '\\' → 0x20 ≤ c.toNat → WritesChar c [c]
  | short {e c : Char} : (e, c) ∈ shortEscapes → WritesChar c ['\\', e]
  | hex {c : Char} {h : List Char} : IsHex c.toNat h → WritesChar c ('\\' :: 'u' :: h)
  | surrogates {c : Char} {h l : List Char} : 0x10000 ≤ c.toNat →
    IsHex (0xD800 + (c.toNat - 0x10000) / 0x400) h →
    IsHex (0xDC00 + (c.toNat - 0x10000) % 0x400) l →
    WritesChar c ('\\' :: 'u' :: h ++ '\\' :: 'u' :: l)

/-- The inside of a string literal. -/
inductive WritesChars : List Char → List Char → Prop
  | nil : WritesChars [] []
  | cons {c : Char} {s t u : List Char} : WritesChar c t → WritesChars s u →
    WritesChars (c :: s) (t ++ u)

/-- A string literal. -/
inductive WritesString : List Char → List Char → Prop
  | intro {s t : List Char} : WritesChars s t → WritesString s ('"' :: (t ++ ['"']))

/-- The key of a member, with the colon behind it. -/
inductive WritesKey : List Char → List Char → Prop
  | intro {k w t v : List Char} : Blank w → WritesString k t → Blank v →
    WritesKey k (w ++ t ++ v ++ [':'])

mutual

/-- A value. -/
inductive Writes : Json → List Char → Prop
  | null : Writes null "null".toList
  | true : Writes (bool true) "true".toList
  | false : Writes (bool false) "false".toList
  | unsigned {q : ℚ} {t : List Char} : Unsigned q t → Writes (number q) t
  | negative {q : ℚ} {t : List Char} : Unsigned q t → Writes (number (-q)) ('-' :: t)
  | string {s t : List Char} : WritesString s t → Writes (string s) t
  | emptyArray {w : List Char} : Blank w → Writes (array []) ('[' :: (w ++ [']']))
  | array {elems : List Json} {t : List Char} : WritesElems elems t →
    Writes (array elems) ('[' :: (t ++ [']']))
  | emptyObject {w : List Char} : Blank w → Writes (object []) ('{' :: (w ++ ['}']))
  | object {members : List (List Char × Json)} {t : List Char} : WritesMembers members t →
    Writes (object members) ('{' :: (t ++ ['}']))

/-- A value with white space around it, which is also a whole text. -/
inductive WritesPadded : Json → List Char → Prop
  | intro {v : Json} {w t u : List Char} : Blank w → Writes v t → Blank u →
    WritesPadded v (w ++ t ++ u)

/-- Elements with commas between them. -/
inductive WritesElems : List Json → List Char → Prop
  | one {v : Json} {t : List Char} : WritesPadded v t → WritesElems [v] t
  | cons {v : Json} {elems : List Json} {t u : List Char} : WritesPadded v t →
    WritesElems elems u → WritesElems (v :: elems) (t ++ ',' :: u)

/-- Members with commas between them. -/
inductive WritesMembers : List (List Char × Json) → List Char → Prop
  | one {k t u : List Char} {v : Json} : WritesKey k t → WritesPadded v u →
    WritesMembers [(k, v)] (t ++ u)
  | cons {k t u x : List Char} {v : Json} {members : List (List Char × Json)} : WritesKey k t →
    WritesPadded v u → WritesMembers members x → WritesMembers ((k, v) :: members) (t ++ u ++ ',' :: x)

end

/-! ## Outside string literals -/

/-- Where a reader is: outside string literals, inside one, or behind a backslash in one. -/
inductive Quote
  | outside
  | inside
  | escaped
  deriving DecidableEq

def unquotedFrom : Quote → List Char → List Char
  | _, [] => []
  | .outside, c :: t => if c = '"' then unquotedFrom .inside t else c :: unquotedFrom .outside t
  | .inside, c :: t =>
    if c = '"' then unquotedFrom .outside t
    else if c = '\\' then unquotedFrom .escaped t
    else unquotedFrom .inside t
  | .escaped, _ :: t => unquotedFrom .inside t

/-- What stands outside string literals. -/
def unquoted (t : List Char) : List Char := unquotedFrom .outside t

/-- An opening bracket. -/
def opens (c : Char) : Bool := c == '{' || c == '['

/-- A closing bracket. -/
def closes (c : Char) : Bool := c == '}' || c == ']'

/-! ## Nesting -/

/-- Of a text that begins with `t` this stays of `t`. -/
def Leaves (t k : List Char) : Prop := ∀ rest, unquoted (t ++ rest) = k ++ unquoted rest

theorem Leaves.unquoted_eq {t k : List Char} (h : Leaves t k) : unquoted t = k := by
  have hnil := h []
  rwa [List.append_nil, show unquoted [] = [] from rfl, List.append_nil] at hnil

/-- A text whose brackets outside string literals nest to the depth `d`. -/
def Nests (d : ℕ) (t : List Char) : Prop := ∃ k, Leaves t k ∧ Excess.Nested opens closes d k

/-- A character that is no bracket and no quotation mark. -/
def Flat (c : Char) : Prop := c ≠ '"' ∧ opens c = false ∧ closes c = false

instance (c : Char) : Decidable (Flat c) :=
  inferInstanceAs (Decidable (c ≠ '"' ∧ opens c = false ∧ closes c = false))

theorem opens_ne {c : Char} (h : opens c = true) : c ≠ '"' ∧ closes c = false := by
  unfold opens at h
  rcases Bool.or_eq_true_iff.mp h with h | h <;> rw [beq_iff_eq.mp h] <;> decide

theorem unquoted_cons {c : Char} (hc : c ≠ '"') (t : List Char) :
    unquoted (c :: t) = c :: unquoted t := if_neg hc

namespace Nests

variable {d e : ℕ} {t u : List Char}

theorem append (ht : Nests d t) (hu : Nests e u) : Nests (max d e) (t ++ u) := by
  obtain ⟨k, hk, hnest⟩ := ht
  obtain ⟨k', hk', hnest'⟩ := hu
  refine ⟨k ++ k', fun rest => ?_, .append hnest hnest'⟩
  rw [List.append_assoc, hk, hk', List.append_assoc]

theorem flat (h : ∀ c ∈ t, Flat c) : Nests 0 t := by
  induction t with
  | nil => exact ⟨[], fun _ => rfl, .nil⟩
  | cons c t ih =>
    obtain ⟨⟨hquote, hopen, hclose⟩, ht⟩ := List.forall_mem_cons.mp h
    have hone : Nests 0 [c] :=
      ⟨[c], fun rest => unquoted_cons hquote rest, .flat hopen hclose⟩
    exact hone.append (ih ht)

/-- Flat text before and behind changes nothing. -/
theorem pad (hu : ∀ c ∈ u, Flat c) (ht : Nests d t) : Nests d (u ++ t) ∧ Nests d (t ++ u) := by
  have hbefore := (flat hu).append ht
  have hbehind := ht.append (flat hu)
  rw [Nat.zero_max] at hbefore
  rw [Nat.max_zero] at hbehind
  exact ⟨hbefore, hbehind⟩

theorem wrap {o c : Char} (ho : opens o = true) (hc : closes c = true) (hopen : opens c = false)
    (hquote : c ≠ '"') (ht : Nests d t) : Nests (d + 1) (o :: (t ++ [c])) := by
  obtain ⟨k, hk, hnest⟩ := ht
  refine ⟨o :: (k ++ [c]), fun rest => ?_, .wrap ho hopen hc hnest⟩
  rw [List.cons_append, unquoted_cons (opens_ne ho).1, List.append_assoc, hk, List.singleton_append,
    unquoted_cons hquote, List.cons_append, List.append_assoc, List.singleton_append]

end Nests

/-! ### Literals -/

theorem unquotedFrom_inside {t : List Char} (h : ∀ c ∈ t, c ≠ '"' ∧ c ≠ '\\') (rest : List Char) :
    unquotedFrom .inside (t ++ rest) = unquotedFrom .inside rest := by
  induction t with
  | nil => rfl
  | cons c t ih =>
    obtain ⟨⟨hquote, hback⟩, ht⟩ := List.forall_mem_cons.mp h
    rw [List.cons_append, unquotedFrom, if_neg hquote, if_neg hback, ih ht]

theorem unquotedFrom_escape (c : Char) (rest : List Char) :
    unquotedFrom .inside ('\\' :: c :: rest) = unquotedFrom .inside rest := rfl

theorem IsHex.no_quote {n : ℕ} {h : List Char} (hh : IsHex n h) : ∀ c ∈ h, c ≠ '"' ∧ c ≠ '\\' := by
  intro c hc
  have hdigit := hh.2.1 c hc
  constructor
  · rintro rfl
    revert hdigit
    decide
  · rintro rfl
    revert hdigit
    decide

theorem WritesChar.inside {c : Char} {t : List Char} (h : WritesChar c t) (rest : List Char) :
    unquotedFrom .inside (t ++ rest) = unquotedFrom .inside rest := by
  cases h with
  | plain hquote hback _ =>
    apply unquotedFrom_inside
    rintro d hd
    rw [List.mem_singleton.mp hd]
    exact ⟨hquote, hback⟩
  | short => exact unquotedFrom_escape _ rest
  | hex hh =>
    rw [List.cons_append, List.cons_append, unquotedFrom_escape]
    exact unquotedFrom_inside hh.no_quote rest
  | surrogates _ hh hl =>
    rw [List.append_assoc, List.cons_append, List.cons_append, unquotedFrom_escape,
      unquotedFrom_inside hh.no_quote, List.cons_append, List.cons_append, unquotedFrom_escape]
    exact unquotedFrom_inside hl.no_quote rest

theorem WritesChars.inside {s t : List Char} (h : WritesChars s t) (rest : List Char) :
    unquotedFrom .inside (t ++ rest) = unquotedFrom .inside rest := by
  induction h with
  | nil => rfl
  | cons hc _ ih => rw [List.append_assoc, hc.inside, ih]

theorem WritesString.nests {s t : List Char} (h : WritesString s t) : Nests 0 t := by
  obtain ⟨hs⟩ := h
  refine ⟨[], fun rest => ?_, .nil⟩
  show unquotedFrom .inside ((_ ++ ['"']) ++ rest) = _
  rw [List.append_assoc, hs.inside]
  rfl

theorem Blank.flat {w : List Char} (h : Blank w) : ∀ c ∈ w, Flat c := by
  have hall : ∀ c ∈ [' ', '\t', '\n', '\r'], Flat c := List.all_iff_forall_prop.mp (by decide)
  exact fun c hc => hall c (h c hc)

theorem flat_of_isDigit {c : Char} (h : c.isDigit = true) : Flat c := by
  have hno : ∀ d ∈ ['"', '{', '[', '}', ']'], d.isDigit = false :=
    List.all_iff_forall_prop.mp (by decide)
  have hne : ∀ d ∈ ['"', '{', '[', '}', ']'], c ≠ d := by
    rintro d hd rfl
    rw [hno c hd] at h
    cases h
  refine ⟨hne '"' (by decide), ?_, ?_⟩
  · simp [opens, hne '{' (by decide), hne '[' (by decide)]
  · simp [closes, hne '}' (by decide), hne ']' (by decide)]

theorem IsDigits.flat {ds : List Char} (h : IsDigits ds) : ∀ c ∈ ds, Flat c :=
  fun c hc => flat_of_isDigit (h.2 c hc)

theorem Fraction.flat {x : ℚ} {t : List Char} (h : Fraction x t) : ∀ c ∈ t, Flat c := by
  cases h with
  | none => simp
  | digits hds => exact List.forall_mem_cons.mpr ⟨by decide, hds.flat⟩

theorem Exponent.flat {n : ℤ} {t : List Char} (h : Exponent n t) : ∀ c ∈ t, Flat c := by
  have hall : ∀ e ∈ ['e', 'E'], Flat e := List.all_iff_forall_prop.mp (by decide)
  cases h with
  | none => simp
  | unsigned he hds => exact List.forall_mem_cons.mpr ⟨hall _ he, hds.flat⟩
  | plus he hds =>
    exact List.forall_mem_cons.mpr ⟨hall _ he, List.forall_mem_cons.mpr ⟨by decide, hds.flat⟩⟩
  | minus he hds =>
    exact List.forall_mem_cons.mpr ⟨hall _ he, List.forall_mem_cons.mpr ⟨by decide, hds.flat⟩⟩

theorem Unsigned.flat {q : ℚ} {t : List Char} (h : Unsigned q t) : ∀ c ∈ t, Flat c := by
  obtain ⟨hds, -, hf, he⟩ := h
  intro c hc
  rcases List.mem_append.mp hc with hc | hc
  · rcases List.mem_append.mp hc with hc | hc
    · exact hds.flat c hc
    · exact hf.flat c hc
  · exact he.flat c hc

theorem WritesKey.nests {k t : List Char} (h : WritesKey k t) : Nests 0 t := by
  obtain ⟨hw, ht, hv⟩ := h
  have hcolon : ∀ c ∈ [':'], Flat c := List.forall_mem_singleton.mpr (by decide)
  exact (Nests.pad hcolon (Nests.pad hv.flat (Nests.pad hw.flat ht.nests).1).2).2

/-! ### Values -/

mutual

/-- **The brackets outside string literals nest to the depth of the value.** -/
theorem Writes.nests {v : Json} {t : List Char} : Writes v t → Nests v.depth t
  | .null => Nests.flat (List.all_iff_forall_prop.mp (by decide))
  | .true => Nests.flat (List.all_iff_forall_prop.mp (by decide))
  | .false => Nests.flat (List.all_iff_forall_prop.mp (by decide))
  | .unsigned h => Nests.flat h.flat
  | .negative h => Nests.flat (List.forall_mem_cons.mpr ⟨by decide, h.flat⟩)
  | .string h => h.nests
  | .emptyArray h => Nests.wrap rfl rfl rfl (by decide) (Nests.flat h.flat)
  | .array h => Nests.wrap rfl rfl rfl (by decide) h.nests
  | .emptyObject h => Nests.wrap rfl rfl rfl (by decide) (Nests.flat h.flat)
  | .object h => Nests.wrap rfl rfl rfl (by decide) h.nests

theorem WritesPadded.nests {v : Json} {t : List Char} : WritesPadded v t → Nests v.depth t
  | .intro hw h hu => (Nests.pad hu.flat (Nests.pad hw.flat h.nests).1).2

theorem WritesElems.nests {elems : List Json} {t : List Char} :
    WritesElems elems t → Nests (depthElems elems) t
  | .one h => by
    rw [depthElems, depthElems, Nat.max_zero]
    exact h.nests
  | .cons h hrest => by
    have hcomma : ∀ c ∈ [','], Flat c := List.forall_mem_singleton.mpr (by decide)
    exact h.nests.append (Nests.pad hcomma hrest.nests).1

theorem WritesMembers.nests {members : List (List Char × Json)} {t : List Char} :
    WritesMembers members t → Nests (depthMembers members) t
  | .one hk h => by
    have hmember := hk.nests.append h.nests
    rwa [Nat.zero_max, ← Nat.max_zero (depth _)] at hmember
  | .cons hk h hrest => by
    have hcomma : ∀ c ∈ [','], Flat c := List.forall_mem_singleton.mpr (by decide)
    have hmember := hk.nests.append h.nests
    rw [Nat.zero_max] at hmember
    exact hmember.append (Nests.pad hcomma hrest.nests).1

end

end Json

end OxidizedWall
