import Mathlib.Algebra.Ring.Nat
import Mathlib.Data.List.Basic

/-!
# UTF-8 on byte lists

Encoding, decoding of one character, and the lossy decoding that puts U+FFFD in the place of each
ill-formed piece. A piece is the longest start of a well-formed sequence, or else one byte.

The encoding of a character and its inverse are those of core; here they are read on lists.
-/

namespace OxidizedWall

namespace Utf8

/-- The UTF-8 form of a text. -/
def encode (s : List Char) : List UInt8 := s.flatMap String.utf8EncodeChar

/-- The character at the start of `bs`, and what follows it. -/
def decodeChar (bs : List UInt8) : Option (Char × List UInt8) :=
  (bs.toByteArray.utf8DecodeChar? 0).map fun c => (c, bs.drop c.utf8Size)

/-- A continuation byte. -/
def isTail (b : UInt8) : Bool := 0x80 ≤ b && b ≤ 0xBF

/-- Whether `b₁` may follow `b₀`, the first byte of a three-byte sequence. -/
def second3 (b₀ b₁ : UInt8) : Bool :=
  (b₀ == 0xE0 && 0xA0 ≤ b₁ && b₁ ≤ 0xBF) || (0xE1 ≤ b₀ && b₀ ≤ 0xEC && isTail b₁) ||
    (b₀ == 0xED && 0x80 ≤ b₁ && b₁ ≤ 0x9F) || (0xEE ≤ b₀ && b₀ ≤ 0xEF && isTail b₁)

/-- Whether `b₁` may follow `b₀`, the first byte of a four-byte sequence. -/
def second4 (b₀ b₁ : UInt8) : Bool :=
  (b₀ == 0xF0 && 0x90 ≤ b₁ && b₁ ≤ 0xBF) || (0xF1 ≤ b₀ && b₀ ≤ 0xF3 && isTail b₁) ||
    (b₀ == 0xF4 && 0x80 ≤ b₁ && b₁ ≤ 0x8F)

/-- The length of the ill-formed piece that starts with `b₀` and goes on with `rest`. -/
def badLength (b₀ : UInt8) (rest : List UInt8) : ℕ :=
  match rest with
  | b₁ :: b₂ :: _ =>
    if second4 b₀ b₁ && isTail b₂ then 3 else if second3 b₀ b₁ || second4 b₀ b₁ then 2 else 1
  | [b₁] => if second3 b₀ b₁ || second4 b₀ b₁ then 2 else 1
  | [] => 1

/-- `decodeLossy` after `skip` bytes that were read already. -/
def lossyFrom : ℕ → List UInt8 → List Char
  | _, [] => []
  | skip + 1, _ :: rest => lossyFrom skip rest
  | 0, b :: rest =>
    match decodeChar (b :: rest) with
    | some (c, _) => c :: lossyFrom (c.utf8Size - 1) rest
    | none => Char.ofNat 0xFFFD :: lossyFrom (badLength b rest - 1) rest

/-- The text of `bs`, with U+FFFD for each ill-formed piece. -/
def decodeLossy (bs : List UInt8) : List Char := lossyFrom 0 bs

/-- Well-formed UTF-8. -/
def Valid (bs : List UInt8) : Prop := ∃ s, bs = encode s

@[simp] theorem encode_cons (c : Char) (s : List Char) :
    encode (c :: s) = String.utf8EncodeChar c ++ encode s := rfl

theorem decodeChar_encodeChar (c : Char) (rest : List UInt8) :
    decodeChar (String.utf8EncodeChar c ++ rest) = some (c, rest) := by
  unfold decodeChar
  rw [List.toByteArray_append, ByteArray.utf8DecodeChar?_utf8EncodeChar_append, Option.map_some,
    ← String.length_utf8EncodeChar, List.drop_left]

/-- What is decoded is the encoding of one character. -/
theorem decodeChar_eq_some_iff {bs : List UInt8} {c : Char} {rest : List UInt8} :
    decodeChar bs = some (c, rest) ↔ bs = String.utf8EncodeChar c ++ rest := by
  constructor
  · intro h
    obtain ⟨d, hd, heq⟩ := Option.map_eq_some_iff.mp h
    obtain ⟨rfl, rfl⟩ := Prod.mk.inj heq
    have hsplit := congrArg (fun b => b.data.toList) (ByteArray.eq_of_utf8DecodeChar?_eq_some hd)
    simp only [ByteArray.data_append, Array.toList_append, List.data_toByteArray] at hsplit
    have hcode : String.utf8EncodeChar d <+: bs := ⟨_, hsplit.symm⟩
    rw [← String.length_utf8EncodeChar]
    exact (List.prefix_iff_eq_append.mp hcode).symm
  · rintro rfl
    exact decodeChar_encodeChar c rest

theorem encodeChar_ne_nil (c : Char) : String.utf8EncodeChar c ≠ [] := by
  have hpos := c.utf8Size_pos
  rw [← String.length_utf8EncodeChar] at hpos
  exact List.ne_nil_of_length_pos hpos

/-- The bytes of a character beyond ASCII are beyond ASCII. -/
theorem encodeChar_cases (c : Char) :
    c.toNat < 128 ∧ String.utf8EncodeChar c = [UInt8.ofNat c.toNat] ∨
      ∀ b ∈ String.utf8EncodeChar c, 128 ≤ b := by
  have hmark (b mark : UInt8) (hmark : 128 ≤ mark) : 128 ≤ b ||| mark := by
    rw [UInt8.le_iff_toNat_le] at hmark ⊢
    rw [UInt8.toNat_or]
    exact Nat.le_trans hmark Nat.right_le_or
  rcases c.utf8Size_eq with h | h | h | h
  · left
    refine ⟨?_, ?_⟩
    · have := Char.utf8Size_eq_one_iff.mp h
      rw [UInt32.le_iff_toNat_le] at this
      exact Nat.lt_succ_of_le this
    · rw [String.utf8EncodeChar_eq_singleton h]
      rfl
  · right
    rw [String.utf8EncodeChar_eq_cons_cons h]
    simp only [List.forall_mem_cons]
    exact ⟨hmark _ _ (by decide), hmark _ _ (by decide), by simp⟩
  · right
    rw [String.utf8EncodeChar_eq_cons_cons_cons h]
    simp only [List.forall_mem_cons]
    exact ⟨hmark _ _ (by decide), hmark _ _ (by decide), hmark _ _ (by decide), by simp⟩
  · right
    rw [String.utf8EncodeChar_eq_cons_cons_cons_cons h]
    simp only [List.forall_mem_cons]
    exact ⟨hmark _ _ (by decide), hmark _ _ (by decide), hmark _ _ (by decide),
      hmark _ _ (by decide), by simp⟩

theorem lossyFrom_skip (pre rest : List UInt8) :
    lossyFrom pre.length (pre ++ rest) = lossyFrom 0 rest := by
  induction pre with
  | nil => rfl
  | cons b pre ih => exact ih

/-- Well-formed bytes are decoded as they are. -/
@[simp] theorem decodeLossy_encode (s : List Char) : decodeLossy (encode s) = s := by
  unfold decodeLossy
  induction s with
  | nil => rfl
  | cons c s ih =>
    have hlen := String.length_utf8EncodeChar c
    have hdec := decodeChar_encodeChar c (encode s)
    rw [encode_cons]
    cases hcs : String.utf8EncodeChar c with
    | nil =>
      rw [hcs, List.length_nil] at hlen
      exact absurd hlen.symm (Nat.ne_of_gt c.utf8Size_pos)
    | cons b tail =>
      rw [hcs] at hdec hlen
      rw [List.cons_append] at hdec ⊢
      rw [lossyFrom, hdec]
      simp only
      rw [← hlen, List.length_cons, Nat.add_sub_cancel, lossyFrom_skip, ih]

theorem encode_injective {s t : List Char} (h : encode s = encode t) : s = t := by
  rw [← decodeLossy_encode s, h, decodeLossy_encode]

theorem encode_append (s t : List Char) : encode (s ++ t) = encode s ++ encode t :=
  List.flatMap_append

theorem length_encode (s : List Char) : (encode s).length = (s.map Char.utf8Size).sum := by
  induction s with
  | nil => rfl
  | cons c s ih =>
    rw [encode_cons, List.length_append, String.length_utf8EncodeChar, ih, List.map_cons,
      List.sum_cons]

/-- One text is a prefix of another if its bytes are. -/
theorem encode_isPrefix_iff {s t : List Char} : encode s <+: encode t ↔ s <+: t := by
  constructor
  · intro h
    induction s generalizing t with
    | nil => exact List.nil_prefix
    | cons c s ih =>
      obtain ⟨rest, hrest⟩ := h
      rw [encode_cons, List.append_assoc] at hrest
      have hdec := decodeChar_encodeChar c (encode s ++ rest)
      cases t with
      | nil =>
        rw [hrest] at hdec
        cases hdec
      | cons d t =>
        rw [hrest, encode_cons, decodeChar_encodeChar] at hdec
        obtain ⟨rfl, htail⟩ := Prod.mk.inj (Option.some.inj hdec)
        exact (List.prefix_cons_inj d).mpr (ih ⟨rest, htail.symm⟩)
  · rintro ⟨rest, rfl⟩
    rw [encode_append]
    exact List.prefix_append _ _

/-- Lossy decoding keeps the bytes of a text, and of nothing else. -/
theorem encode_decodeLossy_iff {bs : List UInt8} : encode (decodeLossy bs) = bs ↔ Valid bs := by
  constructor
  · intro h
    exact ⟨_, h.symm⟩
  · rintro ⟨s, rfl⟩
    rw [decodeLossy_encode]

end Utf8

end OxidizedWall
