import OxidizedWall.Waf

/-!
# What masking does to a clean body

`apply_dlp` reads the body of a text as UTF-8, replacing what is not, before it looks for
anything to mask. So a body without anything to mask passes unchanged if it is not taken for text,
or if it is UTF-8, and not otherwise: `applyDlp_transparent`.
-/

namespace OxidizedWall.Waf

variable {ε : Type} {unicode : Unicode} {headers : HeaderMap} {body : Body}

theorem returns_applyDlp_of_not_text (h : isText headers = false) {out : Body} :
    (applyDlp unicode headers body : Future ε Body).Returns out ↔ body = out := by
  unfold applyDlp
  rw [h]
  exact Future.returns_pure

/-- The body that `apply_dlp` makes of a text that ends with `e`. -/
def maskedEnd (unicode : Unicode) (body : Body) : BodyEnd → Body
  | .endOfStream => maskedBody unicode body.bytes
  | .error => .empty

/-- A text is masked once all of it has come. -/
theorem returns_applyDlp_of_text (h : isText headers = true) {out : Body} :
    (applyDlp unicode headers body : Future ε Body).Returns out ↔
      ∃ t e, body.finish = some (t, e) ∧ maskedEnd unicode body e = out := by
  unfold applyDlp
  rw [h]
  simp only [Bool.not_true, Bool.false_eq_true, if_false, Future.returns_bind, Body.collect,
    Future.returns_wait, Option.map_eq_some_iff]
  constructor
  · rintro ⟨_, ⟨t, ⟨⟨t', e⟩, hend, heq⟩⟩, hout⟩
    cases heq
    refine ⟨t', e, hend, ?_⟩
    cases e <;> exact Future.returns_pure.mp hout
  · rintro ⟨t, e, hend, rfl⟩
    refine ⟨_, ⟨_, (t, e), hend, rfl⟩, ?_⟩
    cases e <;> exact Future.returns_pure.mpr rfl

/-- Clean text is encoded as it was decoded. -/
theorem bytes_maskedBody {bytes : Bytes}
    (hemail : Regex.isMatch unicode.isWord Dlp.emailRe (Utf8.decodeLossy bytes) = false)
    (hcard : Regex.isMatch unicode.isWord (Dlp.cardRe unicode) (Utf8.decodeLossy bytes) = false) :
    (maskedBody unicode bytes).bytes = Utf8.encode (Utf8.decodeLossy bytes) := by
  unfold maskedBody
  rw [Body.bytes_full, Dlp.maskSensitiveInfo_of_no_match hemail hcard]

/-- **Transparency.** The bytes of a clean body come out of `apply_dlp` as they went in, exactly
if the body is not taken for text or is UTF-8. -/
theorem applyDlp_transparent {t : ℕ} (hend : body.finish = some (t, .endOfStream))
    (hemail : Regex.isMatch unicode.isWord Dlp.emailRe (Utf8.decodeLossy body.bytes) = false)
    (hcard : Regex.isMatch unicode.isWord (Dlp.cardRe unicode)
      (Utf8.decodeLossy body.bytes) = false) :
    (∃ out, (applyDlp unicode headers body : Future ε Body).Returns out ∧
      out.bytes = body.bytes) ↔ isText headers = false ∨ Utf8.Valid body.bytes := by
  cases htext : isText headers with
  | false =>
    refine ⟨fun _ => .inl rfl, fun _ => ⟨body, ?_, rfl⟩⟩
    exact (returns_applyDlp_of_not_text htext).mpr rfl
  | true =>
    have hbytes := bytes_maskedBody hemail hcard
    constructor
    · rintro ⟨out, hout, heq⟩
      obtain ⟨t', e, hend', rfl⟩ := (returns_applyDlp_of_text htext).mp hout
      rw [hend] at hend'
      cases hend'
      exact .inr (Utf8.encode_decodeLossy_iff.mp (hbytes.symm.trans heq))
    · rintro (h | hvalid)
      · cases h
      · refine ⟨maskedBody unicode body.bytes, ?_,
          hbytes.trans (Utf8.encode_decodeLossy_iff.mpr hvalid)⟩
        exact (returns_applyDlp_of_text htext).mpr ⟨t, .endOfStream, hend, rfl⟩

def typed (ct : String) : HeaderMap := HeaderMap.new.insert CONTENT_TYPE (HeaderValue.fromStatic ct)

/-- The letter é in Latin-1, in a text: nothing to mask, but other bytes. -/
theorem applyDlp_latin1 :
    Regex.isMatch Unicode.ascii.isWord Dlp.emailRe (Utf8.decodeLossy [0xE9]) = false ∧
    Regex.isMatch Unicode.ascii.isWord (Dlp.cardRe .ascii) (Utf8.decodeLossy [0xE9]) = false ∧
    ¬ ∃ out, (applyDlp .ascii (typed "text/plain") (.full [0xE9]) : Future Empty Body).Returns out ∧
      out.bytes = (Body.full [0xE9]).bytes := by
  refine ⟨by decide +kernel, by decide +kernel, ?_⟩
  rintro ⟨out, hout, heq⟩
  obtain ⟨t, e, hend, rfl⟩ := (returns_applyDlp_of_text (by decide)).mp hout
  cases hend
  revert heq
  decide +kernel

/-- The same letter in UTF-8. -/
theorem applyDlp_transparent_utf8 : ∃ out,
    (applyDlp .ascii (typed "text/plain") (.full [0xC3, 0xA9]) : Future Empty Body).Returns out ∧
      out.bytes = (Body.full [0xC3, 0xA9]).bytes := by
  have hend : (Body.full [0xC3, 0xA9]).finish = some (0, .endOfStream) := rfl
  exact (applyDlp_transparent hend (by decide +kernel) (by decide +kernel)).mpr
    (.inr ⟨[Char.ofNat 0xE9], by decide⟩)

end OxidizedWall.Waf
