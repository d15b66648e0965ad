import TagMachine.Proofs.Builtin.Calls
import TagMachine.Proofs.Codec.Base64
import TagMachine.Proofs.Codec.Form

set_option autoImplicit false

/-! # Coding by calls

What the functions `url-encode` and `url-decode` return, whatever call their arguments come from,
and what `base64-encode` and `base64-decode` do. Base64 works on the bytes of a text; its symbols
are ASCII, so that nothing is replaced when they are made a text, and what is decoded are the bytes
that were there.
-/

namespace TagMachine.Builtin

open Codec

/-- The coded form of the text `s` is returned as `e`. -/
def UrlEncodes (s e : String) : Prop := ∀ c : Call, c.given.text "value" = s → c.ReturnsText 0x62 e

/-- The text of the coded form `t` is returned as `s`. -/
def UrlDecodes (t s : String) : Prop := ∀ c : Call, c.given.text "value" = t → c.ReturnsText 0x63 s

theorem urlEncodes_encode (s : String) : UrlEncodes s (Form.encode s) := by
  rintro c rfl
  exact Call.returnsText_of_give rfl rfl

theorem urlDecodes_decode (t : String) : UrlDecodes t (Form.decode t) := by
  rintro c rfl
  exact Call.returnsText_of_give rfl rfl

/-- Every text is got back from its coded form, which has nothing but letters, digits, four marks
and escapes. A text that has neither `%` nor `+` is left as it is, whatever separators of forms it
has. The coded form is a component of a form with `%20` for its spaces, and reading gives the first
name of the form that has escapes for the separators. -/
theorem url_coding_inverse :
    (∀ s : String, ∃ e, UrlEncodes s e ∧ UrlDecodes e s ∧ Form.Coded e.toList ∧
      e.toList = Text.replace ['+'] ['%', '2', '0'] (Form.serialize s).toList) ∧
    (∀ t : String, '%' ∉ t.toList → '+' ∉ t.toList → UrlDecodes t t) ∧
    ∀ t : String, UrlDecodes t (((Form.parse (Form.guarded t)).head?.map Prod.fst).getD "") := by
  refine ⟨fun s => ⟨_, urlEncodes_encode s, ?_, Form.coded_encode s, ?_⟩,
    fun t hpercent hplus => ?_, fun t => ?_⟩
  · have hdecode := urlDecodes_decode (Form.encode s)
    rwa [Form.decode_encode] at hdecode
  · rw [Form.encode_eq_serialize, String.toList_ofList]
  · have hdecode := urlDecodes_decode t
    rwa [Form.decode_of_notMem hpercent hplus] at hdecode
  · rw [← Form.decode_eq_firstName]
    exact urlDecodes_decode t

/-- A text that looks like an escape, and separators with nothing between them. -/
theorem url_coding_inverse_separators :
    (∃ e, (Call.passing [] [("value", .string "é %26+")]).ReturnsText 0x62 e ∧
      (Call.passing [] [("value", .string e)]).ReturnsText 0x63 "é %26+") ∧
    (Call.passing [] [("value", .string "&&=é==&")]).ReturnsText 0x63 "&&=é==&" ∧
    (Call.passing [] [("value", .string "%2&6=")]).ReturnsText 0x63
      (((Form.parse (Form.guarded "%2&6=")).head?.map Prod.fst).getD "") := by
  obtain ⟨hinverse, hself, hform⟩ := url_coding_inverse
  obtain ⟨e, hencode, hdecode, -⟩ := hinverse "é %26+"
  exact ⟨⟨e, hencode _ rfl, hdecode _ rfl⟩, hself "&&=é==&" (by decide) (by decide) _ rfl,
    hform "%2&6=" _ rfl⟩

/-! ## Base64 -/

/-- The call returns the Base64 form of the text `s`, which every call that gets it decodes to
`s`. -/
def Call.CodesBase64 (c : Call) (s : String) : Prop :=
  ∃ e, c.ReturnsText 0x60 e ∧ Base64.Writes (Text.toUtf8 s) e.toList ∧
    ∀ d : Call, d.given.text "value" = e → d.ReturnsText 0x61 s

theorem codesBase64_text (c : Call) : c.CodesBase64 (c.given.text "value") := by
  refine ⟨_, Call.returnsText_of_give rfl rfl, Base64.writes_encode _,
    fun d hd => Call.returnsText_of_give rfl ?_⟩
  have hbytes : bytes d.given "value" = Base64.encode (bytes c.given "value") := by
    rw [bytes, hd, Text.toUtf8_ofUtf8_ascii fun b hb => Base64.lt_of_mem_encode hb]
    rfl
  show base64Decode d.given = _
  rw [base64Decode, hbytes, Base64.decode_encode]
  exact congrArg giveText (Text.ofUtf8_toUtf8 _)

/-- Every argument is got back as text from its Base64 form: a string as it is, nothing as the empty
text, and any other value as it is written. -/
theorem base64_coding_inverse (c : Call) :
    (∀ s, c.given.value "value" = .string s → c.CodesBase64 s) ∧
    (c.given.value "value" = .nothing → c.CodesBase64 "") ∧
    ((c.given.value "value").kind ≠ .string → (c.given.value "value").kind ≠ .nothing →
      c.CodesBase64 (c.store.text (c.given.value "value"))) := by
  have hcodes := codesBase64_text c
  rw [Arguments.text] at hcodes
  refine ⟨fun s hs => ?_, fun hnothing => ?_, fun hstring hnothing => ?_⟩
  · rwa [hs] at hcodes
  · rwa [hnothing] at hcodes
  · cases hv : c.given.value "value" with
    | string s => exact absurd (congrArg Value.kind hv) hstring
    | nothing => exact absurd (congrArg Value.kind hv) hnothing
    | _ =>
      rw [hv] at hcodes
      exact hcodes

/-- Texts of seven and four bytes with characters of up to four bytes, no argument at all, and a
list. -/
theorem base64_coding_inverse_residues :
    (Call.passing [] [("value", .string "é€ü")]).CodesBase64 "é€ü" ∧
    (Call.passing [] [("value", .string "😀")]).CodesBase64 "😀" ∧
    (Call.passing [] []).CodesBase64 "" ∧
    (Call.passing [.integer 1, .nothing] [("value", .list ⟨0⟩)]).CodesBase64 "[1, nothing]" := by
  obtain ⟨hseven, -⟩ := base64_coding_inverse (Call.passing [] [("value", .string "é€ü")])
  obtain ⟨hfour, -⟩ := base64_coding_inverse (Call.passing [] [("value", .string "😀")])
  obtain ⟨-, hnone, -⟩ := base64_coding_inverse (Call.passing [] [])
  obtain ⟨-, -, hlist⟩ :=
    base64_coding_inverse (Call.passing [.integer 1, .nothing] [("value", .list ⟨0⟩)])
  exact ⟨hseven _ rfl, hfour _ rfl, hnone rfl, hlist (by decide) (by decide)⟩

end TagMachine.Builtin
