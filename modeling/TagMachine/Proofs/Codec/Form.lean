import Mathlib.Data.List.TakeWhile
import TagMachine.Proofs.Text.Pieces
import TagMachine.Proofs.Text.Utf8
import TagMachine.Codec.Form

set_option autoImplicit false

/-! # URL coding and forms

A coded form is read as the text it stands for (`decode_encode`), and a text without `%` and `+` as
itself (`decode_of_notMem`).

Both directions go with the encoding of forms: writing writes a component of a form, but for its
spaces (`encode_eq_serialize`), and reading reads the first name of a form whose separators were
written as escapes before (`decode_eq_firstName`). The escapes put in for separators neither
complete an escape that was there nor break one up. Among bytes, `%`, `&`, `+` and `=` are 37, 38,
43 and 61.
-/

namespace TagMachine.Codec.Form

variable {b : UInt8} {bs : List UInt8}

/-! ## What coded forms are made of -/

/-- Letters, digits, a few marks, and escapes. -/
inductive Coded : List Char → Prop
  | nil : Coded []
  | plain {c : Char} {rest : List Char}
      (hc : c.isAlphanum = true ∨ c ∈ ['*', '-', '.', '_']) (h : Coded rest) : Coded (c :: rest)
  | escape {high low : Char} {rest : List Char} (hhigh : high ∈ "0123456789ABCDEF".toList)
      (hlow : low ∈ "0123456789ABCDEF".toList) (h : Coded rest) : Coded ('%' :: high :: low :: rest)

theorem isPlain_spec : ∀ b : UInt8, isPlain b = true →
    ((Char.ofNat b.toNat).isAlphanum = true ∨ Char.ofNat b.toNat ∈ ['*', '-', '.', '_']) ∧
    String.utf8EncodeChar (Char.ofNat b.toNat) = [b] ∧ b ≠ 37 ∧ b ≠ 43 :=
  Text.forall_byte (by decide +kernel)

theorem upperDigit_spec : ∀ n < 16, upperDigit n ∈ "0123456789ABCDEF".toList ∧
    digitOf? (UInt8.ofNat (upperDigit n).toNat) = some n ∧
    String.utf8EncodeChar (upperDigit n) = [UInt8.ofNat (upperDigit n).toNat] := by
  decide +kernel

theorem Coded.encodeByte_append (b : UInt8) {rest : List Char} (h : Coded rest) :
    Coded (encodeByte b ++ rest) := by
  have hb : b.toNat < 256 := b.toNat_lt
  rw [encodeByte]
  by_cases hplain : isPlain b = true
  · rw [if_pos hplain]
    exact .plain (isPlain_spec b hplain).1 h
  · rw [if_neg hplain]
    exact .escape (upperDigit_spec _ (by omega)).1 (upperDigit_spec _ (by omega)).1 h

theorem coded_encode (s : String) : Coded (encode s).toList := by
  rw [encode, String.toList_ofList]
  induction Text.toUtf8 s with
  | nil => exact .nil
  | cons b bs ih => exact ih.encodeByte_append b

/-! ## Reading back -/

theorem decodeBytes_cons (hpercent : b ≠ 37) (hplus : b ≠ 43) (bs : List UInt8) :
    decodeBytes (b :: bs) = b :: decodeBytes bs := by
  rw [decodeBytes]
  · intro _ _ _ h
    exact absurd h hpercent
  · exact hplus

theorem decodeBytes_escape {high low : UInt8} {x y : Nat} (hhigh : digitOf? high = some x)
    (hlow : digitOf? low = some y) (bs : List UInt8) :
    decodeBytes (37 :: high :: low :: bs) = (16 * x + y).toUInt8 :: decodeBytes bs := by
  rw [decodeBytes, hhigh, hlow]

theorem decodeBytes_encodeByte (b : UInt8) (bs : List UInt8) :
    decodeBytes ((encodeByte b).flatMap String.utf8EncodeChar ++ bs) = b :: decodeBytes bs := by
  have hb : b.toNat < 256 := b.toNat_lt
  rw [encodeByte]
  by_cases hplain : isPlain b = true
  · obtain ⟨-, hbyte, hpercent, hplus⟩ := isPlain_spec b hplain
    rw [if_pos hplain, List.flatMap_singleton, hbyte]
    exact decodeBytes_cons hpercent hplus bs
  · obtain ⟨-, hhigh, hhighByte⟩ := upperDigit_spec (b.toNat / 16) (by omega)
    obtain ⟨-, hlow, hlowByte⟩ := upperDigit_spec (b.toNat % 16) (by omega)
    have hpercent : String.utf8EncodeChar '%' = [37] := by decide
    have hdigits : 16 * (b.toNat / 16) + b.toNat % 16 = b.toNat := Nat.div_add_mod ..
    rw [if_neg hplain]
    simp only [List.flatMap_cons, List.flatMap_nil, hpercent, hhighByte, hlowByte, List.append_nil,
      List.cons_append, List.nil_append]
    rw [decodeBytes_escape hhigh hlow, hdigits]
    exact congrArg (· :: decodeBytes bs) UInt8.ofNat_toNat

theorem decode_encode (s : String) : decode (encode s) = s := by
  have hbytes : ∀ bs : List UInt8,
      decodeBytes (bs.flatMap fun b => (encodeByte b).flatMap String.utf8EncodeChar) = bs := by
    intro bs
    induction bs with
    | nil => rfl
    | cons b bs ih => rw [List.flatMap_cons, decodeBytes_encodeByte, ih]
  rw [decode, encode, Text.toUtf8_ofList, List.flatMap_assoc, hbytes, Text.ofUtf8_toUtf8]

theorem decodeBytes_of_notMem (hpercent : 37 ∉ bs) (hplus : 43 ∉ bs) : decodeBytes bs = bs := by
  induction bs with
  | nil => rfl
  | cons b bs ih =>
    rw [List.mem_cons, not_or] at hpercent hplus
    rw [decodeBytes_cons (Ne.symm hpercent.1) (Ne.symm hplus.1), ih hpercent.2 hplus.2]

/-- Without escapes and spaces written as `+` there is nothing to read but the text. -/
theorem decode_of_notMem {t : String} (hpercent : '%' ∉ t.toList) (hplus : '+' ∉ t.toList) :
    decode t = t := by
  have hpercent' : 37 ∉ Text.toUtf8 t :=
    mt (Text.mem_toUtf8_iff (c := '%') (by decide) t).1 hpercent
  have hplus' : 43 ∉ Text.toUtf8 t := mt (Text.mem_toUtf8_iff (c := '+') (by decide) t).1 hplus
  rw [decode, decodeBytes_of_notMem hpercent' hplus', Text.ofUtf8_toUtf8]

/-! ## Writing forms -/

/-- A byte of a component of a form. -/
def serializeByte (b : UInt8) : List Char :=
  if b = 32 then ['+']
  else if isPlain b then [Char.ofNat b.toNat]
  else '%' :: (Text.hexUpper 2 b.toNat).toList

/-- A name or value as a form has it, with its spaces as `+`. -/
def serialize (s : String) : String := String.ofList ((Text.toUtf8 s).flatMap serializeByte)

theorem replace_serializeByte : ∀ b : UInt8,
    (serializeByte b).flatMap (fun c => if c = '+' then ['%', '2', '0'] else [c]) = encodeByte b :=
  Text.forall_byte (by decide +kernel)

theorem encode_eq_serialize (s : String) :
    encode s = String.ofList (Text.replace ['+'] ['%', '2', '0'] (serialize s).toList) := by
  rw [serialize, String.toList_ofList, Text.replace_singleton, List.flatMap_assoc, encode]
  simp only [replace_serializeByte]

/-! ## Reading forms -/

/-- The bytes with the escapes read. -/
def percentDecode : List UInt8 → List UInt8
  | 37 :: a :: b :: rest =>
    match digitOf? a, digitOf? b with
    | some x, some y => (16 * x + y).toUInt8 :: percentDecode rest
    | _, _ => 37 :: percentDecode (a :: b :: rest)
  | b :: rest => b :: percentDecode rest
  | [] => []

/-- A byte with `+` read as a space. -/
def plusAsSpace (b : UInt8) : UInt8 := if b = 43 then 32 else b

/-- The name or value that a component of a form stands for. -/
def component (bytes : List UInt8) : String := Text.ofUtf8 (percentDecode (bytes.map plusAsSpace))

/-- The names and values of a form: its parts between `&` that are not empty, cut at the first
`=`. -/
def parse (form : String) : List (String × String) :=
  (((Text.toUtf8 form).splitOn 38).filter fun part => !part.isEmpty).map fun part =>
    (component (part.takeWhile (· != 61)), component ((part.dropWhile (· != 61)).drop 1))

/-- The text with the separators of forms written as escapes. -/
def guarded (s : String) : String :=
  String.ofList (Text.replace ['='] ['%', '3', 'D'] (Text.replace ['&'] ['%', '2', '6'] s.toList))

theorem digitOf?_plusAsSpace (b : UInt8) : digitOf? (plusAsSpace b) = digitOf? b := by
  rw [plusAsSpace]
  split
  · rename_i h
    subst h
    decide
  · rfl

theorem plusAsSpace_of_ne (h : b ≠ 43) : plusAsSpace b = b := if_neg h

/-- Spaces may be read first: neither `+` nor a space is a digit of an escape. -/
theorem percentDecode_map_plusAsSpace (bs : List UInt8) :
    percentDecode (bs.map plusAsSpace) = decodeBytes bs := by
  fun_induction decodeBytes bs with
  | case1 a b rest x y hb ha ih =>
    simp only [List.map_cons, plusAsSpace_of_ne (b := 37) (by decide), percentDecode,
      digitOf?_plusAsSpace, ha, hb, ih]
  | case2 a b rest hnot ih =>
    simp only [List.map_cons, plusAsSpace_of_ne (b := 37) (by decide)] at ih ⊢
    rw [percentDecode]
    split
    · rename_i x y ha hb
      rw [digitOf?_plusAsSpace] at ha hb
      exact (hnot x y ha hb).elim
    · rw [ih]
  | case3 rest ih =>
    rw [List.map_cons, show plusAsSpace 43 = 32 from rfl, percentDecode, ih]
    exact fun _ _ _ h => absurd h (by decide)
  | case4 b rest hpercent hplus ih =>
    rw [List.map_cons, plusAsSpace_of_ne hplus, percentDecode, ih]
    intro _ _ _ hb hrest
    obtain ⟨a, _, rfl, -, hrest⟩ := List.map_eq_cons_iff.1 hrest
    obtain ⟨c, _, rfl, -, -⟩ := List.map_eq_cons_iff.1 hrest
    exact hpercent a c _ hb rfl
  | case5 => rfl

/-! ### Separators -/

/-- The bytes of a separator of forms as an escape, and every other byte as it is. -/
def guardByte (b : UInt8) : List UInt8 :=
  if b = 38 then [37, 50, 54] else if b = 61 then [37, 51, 68] else [b]

theorem guardByte_of_ne (hamp : b ≠ 38) (hequals : b ≠ 61) : guardByte b = [b] := by
  rw [guardByte, if_neg hamp, if_neg hequals]

theorem guardByte_of_digit {x : Nat} (h : digitOf? b = some x) : guardByte b = [b] := by
  refine guardByte_of_ne ?_ ?_
  · rintro rfl
    cases h
  · rintro rfl
    cases h

theorem utf8_guard (c : Char) :
    ((if c = '&' then ['%', '2', '6'] else [c]).flatMap fun d =>
      (if d = '=' then ['%', '3', 'D'] else [d]).flatMap String.utf8EncodeChar) =
      (String.utf8EncodeChar c).flatMap guardByte := by
  by_cases hamp : c = '&'
  · subst hamp
    decide
  by_cases hequals : c = '='
  · subst hequals
    decide
  -- no byte of another character is a separator
  have hsame : ∀ b ∈ String.utf8EncodeChar c, guardByte b = [b] := by
    intro b hb
    refine guardByte_of_ne ?_ ?_
    · rintro rfl
      exact hamp (Text.eq_of_mem_utf8EncodeChar (c := '&') (by decide) hb)
    · rintro rfl
      exact hequals (Text.eq_of_mem_utf8EncodeChar (c := '=') (by decide) hb)
  rw [if_neg hamp, List.flatMap_singleton, if_neg hequals, List.flatMap_singleton,
    List.flatMap_congr hsame]
  exact (List.flatMap_singleton' _).symm

theorem toUtf8_guarded (s : String) :
    Text.toUtf8 (guarded s) = (Text.toUtf8 s).flatMap guardByte := by
  rw [guarded, Text.toUtf8_ofList, Text.replace_singleton, Text.replace_singleton,
    List.flatMap_assoc, List.flatMap_assoc, Text.toUtf8_eq_flatMap, List.flatMap_assoc]
  simp only [utf8_guard]

theorem notMem_guard (bs : List UInt8) : 38 ∉ bs.flatMap guardByte ∧ 61 ∉ bs.flatMap guardByte := by
  have hbyte (b : UInt8) : 38 ∉ guardByte b ∧ 61 ∉ guardByte b := by
    rw [guardByte]
    split_ifs with hamp hequals
    · decide
    · decide
    · simp [Ne.symm hamp, Ne.symm hequals]
  simp [hbyte]

/-! ### Escapes -/

/-- Bytes that begin with the digits of an escape. -/
def Digits (bs : List UInt8) : Prop :=
  ∃ a b rest, bs = a :: b :: rest ∧ (digitOf? a).isSome ∧ (digitOf? b).isSome

theorem decodeBytes_stray (h : ¬Digits bs) : decodeBytes (37 :: bs) = 37 :: decodeBytes bs := by
  cases bs with
  | nil => rfl
  | cons a bs =>
    cases bs with
    | nil => rfl
    | cons b bs =>
      rw [decodeBytes]
      split
      · rename_i x y ha hb
        exact absurd ⟨a, b, bs, rfl, by rw [ha]; rfl, by rw [hb]; rfl⟩ h
      · rfl

/-- What stands for a separator does not begin with a digit. -/
theorem exists_cons_of_guard {a : UInt8} {rest : List UInt8} (h : bs.flatMap guardByte = a :: rest)
    (ha : (digitOf? a).isSome) : ∃ more, bs = a :: more ∧ rest = more.flatMap guardByte := by
  cases bs with
  | nil => cases h
  | cons b bs =>
    rw [List.flatMap_cons] at h
    by_cases hamp : b = 38
    · subst hamp
      obtain ⟨rfl, -⟩ := List.cons.inj h
      cases ha
    by_cases hequals : b = 61
    · subst hequals
      obtain ⟨rfl, -⟩ := List.cons.inj h
      cases ha
    rw [guardByte_of_ne hamp hequals] at h
    obtain ⟨rfl, rfl⟩ := List.cons.inj h
    exact ⟨bs, rfl, rfl⟩

theorem digits_of_guard (h : Digits (bs.flatMap guardByte)) : Digits bs := by
  obtain ⟨a, b, rest, hbytes, ha, hb⟩ := h
  obtain ⟨more, rfl, hmore⟩ := exists_cons_of_guard hbytes ha
  obtain ⟨more, rfl, -⟩ := exists_cons_of_guard hmore.symm hb
  exact ⟨a, b, more, rfl, ha, hb⟩

/-- Reading gives the separators back, and what was an escape before is one still, and nothing else
is. -/
theorem decodeBytes_guard (bs : List UInt8) :
    decodeBytes (bs.flatMap guardByte) = decodeBytes bs := by
  have hstray {bs : List UInt8} (h : ¬Digits bs) :
      decodeBytes (37 :: bs.flatMap guardByte) = 37 :: decodeBytes (bs.flatMap guardByte) :=
    decodeBytes_stray (mt digits_of_guard h)
  fun_induction decodeBytes bs with
  | case1 a b rest x y hb ha ih =>
    rw [List.flatMap_cons, List.flatMap_cons, List.flatMap_cons, guardByte_of_digit ha,
      guardByte_of_digit hb]
    exact (decodeBytes_escape ha hb _).trans (congrArg _ ih)
  | case2 a b rest hnot ih =>
    -- two bytes follow, not both of them digits
    refine (hstray ?_).trans (congrArg _ ih)
    rintro ⟨_, _, _, hrest, ha, hb⟩
    cases hrest
    obtain ⟨x, hx⟩ := Option.isSome_iff_exists.1 ha
    obtain ⟨y, hy⟩ := Option.isSome_iff_exists.1 hb
    exact hnot x y hx hy
  | case3 rest ih => exact congrArg (32 :: ·) ih
  | case4 b rest hpercent hplus ih =>
    rw [List.flatMap_cons]
    by_cases hb : b = 37
    · -- fewer than two bytes follow
      subst hb
      refine (hstray ?_).trans (congrArg _ ih)
      rintro ⟨a, c, _, rfl, -, -⟩
      exact hpercent a c _ rfl rfl
    by_cases hamp : b = 38
    · subst hamp
      exact (decodeBytes_escape (x := 2) (y := 6) rfl rfl _).trans (congrArg _ ih)
    by_cases hequals : b = 61
    · subst hequals
      exact (decodeBytes_escape (x := 3) (y := 13) rfl rfl _).trans (congrArg _ ih)
    rw [guardByte_of_ne hamp hequals, List.singleton_append, decodeBytes_cons hb hplus, ih]
  | case5 => rfl

theorem decode_eq_firstName (s : String) :
    decode s = ((parse (guarded s)).head?.map Prod.fst).getD "" := by
  obtain ⟨hamp, hequals⟩ := notMem_guard (Text.toUtf8 s)
  have hdecode : decode s = component (Text.toUtf8 (guarded s)) := by
    rw [decode, component, percentDecode_map_plusAsSpace, toUtf8_guarded, decodeBytes_guard]
  rw [← toUtf8_guarded] at hamp hequals
  rw [hdecode, parse, List.splitOn_eq_singleton hamp]
  generalize Text.toUtf8 (guarded s) = bytes at hequals
  have hname : bytes.takeWhile (· != 61) = bytes :=
    List.takeWhile_eq_self_iff.2 fun b hb => bne_iff_ne.2 fun heq => hequals (heq ▸ hb)
  cases bytes with
  | nil => rfl
  | cons b bytes => simp [hname]

end TagMachine.Codec.Form
