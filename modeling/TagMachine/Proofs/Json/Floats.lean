import TagMachine.Execution
import TagMachine.Proofs.Json.Nested
import TagMachine.Proofs.Json.Scaling

set_option autoImplicit false

/-! # Floats in JSON texts

The text of a float is read as the float made from its digits, without the point, and its exponent
(`Json.read_writeFloat`). A number without a fraction is written with a zero behind the point, which
the reader takes for one more digit (`Decimal.spelled`).

So every finite float is read back as a float with the same sign that is at most two places away,
and as itself if its digits and exponent are small enough to be exact (`Store.json_float_nearby`).
Others do change, and some by two places (`Store.json_float_changed`).
-/

namespace TagMachine

open Text (Stops digitsValue)

/-! ## Digits as they are written -/

namespace Decimal

variable (d : Decimal)

/-- The decimal number that the digits of the JSON text make without the point. -/
def spelled : Decimal :=
  if 0 ≤ d.exponent ∧ d.magnitude < 16 then ⟨d.negative,
    d.significand * 10 ^ (d.exponent + 1).toNat, -1⟩ else d

theorem toList_digits : d.digits.toList = Nat.toDigits 10 d.significand := String.toList_ofList

theorem magnitude_eq : d.magnitude = d.exponent + (Nat.toDigits 10 d.significand).length - 1 := by
  rw [magnitude, ← String.length_toList, toList_digits]

theorem isDigit_of_mem {c : Char} (h : c ∈ Nat.toDigits 10 d.significand) : c.isDigit = true :=
  Nat.isDigit_of_mem_toDigits (by decide) (by decide) h

theorem significand_lt : d.significand < 10 ^ (Nat.toDigits 10 d.significand).length := by
  have hlt := Text.digitsValue_lt 0 fun c hc => d.isDigit_of_mem hc
  rwa [Json.digitsValue_toDigits, Nat.zero_add, Nat.one_mul] at hlt

theorem negative_spelled : d.spelled.negative = d.negative := by
  unfold spelled
  split_ifs <;> rfl

theorem abs_spelled : d.spelled.abs = d.abs := by
  unfold spelled
  split_ifs with h
  · obtain ⟨n, hn⟩ := Int.eq_ofNat_of_zero_le h.1
    have hnext : (d.exponent + 1).toNat = n + 1 := by omega
    rw [abs, abs, hnext, hn, zpow_natCast, zpow_neg_one, Nat.cast_mul, Nat.cast_pow,
      Nat.cast_ofNat, pow_succ]
    field_simp
  · rfl

variable {d}

/-- The zero behind the point does not make the digits too many. -/
theorem ReadsBack.spelled {x : Binary64} (h : d.ReadsBack x) : d.spelled.ReadsBack x := by
  refine ⟨(negative_spelled d).trans h.sign, ?_, ?_, ?_, by rw [abs_spelled]; exact h.rounds⟩
  all_goals unfold Decimal.spelled; split_ifs with hplain
  · exact Nat.mul_pos h.pos (by positivity)
  · exact h.pos
  · have hmagnitude := d.magnitude_eq
    calc d.significand * 10 ^ (d.exponent + 1).toNat
        ≤ 10 ^ (Nat.toDigits 10 d.significand).length * 10 ^ (d.exponent + 1).toNat :=
          Nat.mul_le_mul_right _ d.significand_lt.le
      _ = 10 ^ ((Nat.toDigits 10 d.significand).length + (d.exponent + 1).toNat) :=
        (Nat.pow_add ..).symm
      _ ≤ 10 ^ 17 := Nat.pow_le_pow_right (by decide) (by omega)
  · exact h.le
  · show (-324 : Int) ≤ -1
    decide
  · exact h.exponent

end Decimal

namespace Json

/-! ## Reading numerals with a fraction or an exponent -/

/-- The digits in front of a point or an exponent: no zero leads other digits. -/
structure Whole (ws : List Char) : Prop where
  digits : ∀ c ∈ ws, c.isDigit = true
  nonempty : ws ≠ []
  leading : ws.head? = some '0' → ws = ['0']

theorem Whole.exists_cons {ws : List Char} (h : Whole ws) :
    ∃ c cs, ws = c :: cs ∧ c.isDigit = true ∧ ¬ (c = '0' ∧ 1 < (c :: cs).length) := by
  obtain ⟨c, cs, rfl⟩ := List.exists_cons_of_ne_nil h.nonempty
  refine ⟨c, cs, rfl, h.digits c List.mem_cons_self, ?_⟩
  rintro ⟨rfl, hlength⟩
  rw [h.leading rfl] at hlength
  exact absurd hlength (by decide)

section Numerals

variable (negative : Bool) {ws fs tail : List Char}

/-- Digits in front of a point or an exponent. -/
theorem readNumber_whole (hws : Whole ws) (hvalue : digitsValue 0 ws < 2 ^ 64) {c : Char}
    (hc : c = '.' ∨ c = 'e') :
    readNumber negative (ws ++ c :: tail) = if c =
      '.' then readFraction negative (digitsValue 0 ws) 0 tail
      else readExponent negative (digitsValue 0 ws) 0 tail := by
  have hstops : Stops (c :: tail) := by rcases hc with rfl | rfl <;> rfl
  have hspan := Text.spanDigits_append hws.digits hstops
  have habsorb := absorb_eq 0 ws hvalue
  obtain ⟨d, ds, rfl, hd, hzero⟩ := hws.exists_cons
  rw [List.cons_append] at hspan ⊢
  unfold readNumber
  simp only [hspan, habsorb, hd, hzero, Bool.not_true, Bool.false_eq_true, if_false]
  rcases hc with rfl | rfl <;> rfl

/-- A fraction adds its digits to those in front of the point. -/
theorem readNumber_fraction (hws : Whole ws) (hfs : ∀ c ∈ fs, c.isDigit = true) (hne : fs ≠ [])
    (hvalue : digitsValue 0 (ws ++ fs) < 2 ^ 64) (htail : Stops tail) :
    readNumber negative (ws ++ '.' :: (fs ++ tail)) =
      readScale negative (digitsValue 0 (ws ++ fs)) (-fs.length) tail := by
  rw [Text.digitsValue_append] at hvalue ⊢
  have hwhole : digitsValue 0 ws < 2 ^ 64 := (le_digitsValue _ fs).trans_lt hvalue
  have hempty : fs.isEmpty = false := by simpa using hne
  rw [readNumber_whole negative hws hwhole (.inl rfl), if_pos rfl]
  unfold readFraction
  simp only [Text.spanDigits_append hfs htail, hempty, absorb_eq _ _ hvalue, Bool.false_eq_true,
    if_false, Nat.sub_zero, zero_sub]

theorem exponentValue_eq (n : Nat) (ds : List Char) (h : digitsValue n ds ≤ maxExponent) :
    exponentValue n ds = .ok (digitsValue n ds) := by
  induction ds generalizing n with
  | nil => rfl
  | cons c ds ih =>
    have hmore : 10 * n + Text.digitValue c ≤ digitsValue n (c :: ds) := le_digitsValue _ ds
    unfold exponentValue
    rw [if_neg (by omega)]
    exact ih _ h

def exponentText (e : Int) : List Char := (if 0 ≤ e then '+' else '-') :: Nat.toDigits 10 e.natAbs

theorem readExponent_text (n : Nat) (e : Int) {x : Int} (hx : x.natAbs ≤ maxExponent) :
    readExponent negative n e (exponentText x) = floatOf negative n (e + x) [] := by
  have hdigits : ∀ c ∈ Nat.toDigits 10 x.natAbs, c.isDigit = true := fun c hc =>
    Nat.isDigit_of_mem_toDigits (by decide) (by decide) hc
  have hspan := Text.spanDigits_append hdigits (show Stops [] from trivial)
  have hvalue := exponentValue_eq 0 (Nat.toDigits 10 x.natAbs) (by rwa [digitsValue_toDigits])
  rw [digitsValue_toDigits] at hvalue
  rw [List.append_nil] at hspan
  obtain ⟨c, cs, hcs, hc⟩ := Text.exists_toDigits x.natAbs
  unfold exponentText
  rw [hcs] at hspan hvalue ⊢
  split_ifs with hsign
  · have hsum : e + (x.natAbs : Int) = e + x := by omega
    simp only [readExponent, hspan, hvalue, hc, Bool.not_true, Bool.false_eq_true, if_false, hsum]
  · have hsum : e - (x.natAbs : Int) = e + x := by omega
    simp only [readExponent, hspan, hvalue, hc, Bool.not_true, Bool.false_eq_true, if_false,
      if_true, hsum]

end Numerals

/-! ## Reading the text of a decimal number -/

/-- A text that starts with a digit and is read as the float of the digits and the exponent. -/
structure Spells (d : Decimal) (body : List Char) : Prop where
  starts : ∃ c cs, body = c :: cs ∧ c.isDigit = true
  reads : ∀ negative, readNumber negative body = floatOf negative d.significand d.exponent []

theorem Whole.starts {ws : List Char} (h : Whole ws) (tail : List Char) :
    ∃ c cs, ws ++ tail = c :: cs ∧ c.isDigit = true := by
  obtain ⟨c, cs, rfl, hc, -⟩ := h.exists_cons
  exact ⟨c, cs ++ tail, rfl, hc⟩

theorem whole_zero : Whole ['0'] := ⟨by simp, by simp, fun _ => rfl⟩

theorem eq_zero_of_head? {n : Nat} (h : (Nat.toDigits 10 n).head? = some '0') : n = 0 :=
  Nat.eq_zero_of_not_pos fun hpos => head?_toDigits_ne hpos h

theorem whole_zeros {n k : Nat} (h : n = 0 → k = 0) :
    Whole (Nat.toDigits 10 n ++ List.replicate k '0') where
  digits c hc := by
    rcases List.mem_append.1 hc with hc | hc
    · exact Nat.isDigit_of_mem_toDigits (by decide) (by decide) hc
    · rw [(List.mem_replicate.1 hc).2]
      rfl
  nonempty := List.append_ne_nil_of_left_ne_nil Nat.toDigits_ne_nil _
  leading hhead := by
    rw [List.head?_append_of_ne_nil _ Nat.toDigits_ne_nil] at hhead
    obtain rfl := eq_zero_of_head? hhead
    rw [h rfl]
    rfl

theorem whole_take (n : Nat) {w : Nat} (hw : w ≠ 0) : Whole ((Nat.toDigits 10 n).take w) where
  digits c hc := Nat.isDigit_of_mem_toDigits (by decide) (by decide) (List.mem_of_mem_take hc)
  nonempty := by simp [hw, Nat.toDigits_ne_nil]
  leading hhead := by
    rw [List.head?_take, if_neg hw] at hhead
    obtain rfl := eq_zero_of_head? hhead
    exact List.take_of_length_le (Nat.one_le_iff_ne_zero.2 hw)

section Body

variable {d : Decimal}

/-- Digits on both sides of a point. -/
theorem spells_fraction (ws fs : List Char) (hws : Whole ws) (hfs : ∀ c ∈ fs, c.isDigit = true)
    (hne : fs ≠ []) (hvalue : digitsValue 0 (ws ++ fs) = d.significand)
    (hexponent : -(fs.length : Int) = d.exponent)
    (hfits : d.significand < 2 ^ 64) : Spells d (ws ++ '.' :: fs) where
  starts := hws.starts _
  reads negative := by
    have hread :=
      readNumber_fraction negative hws hfs hne (by rwa [hvalue]) (show Stops [] from trivial)
    rw [List.append_nil, hvalue, hexponent] at hread
    exact hread

theorem toList_plain (d : Decimal) : d.plain.toList = d.sign.toList ++
    if 0 ≤ d.exponent then Nat.toDigits 10 d.significand ++
      List.replicate d.exponent.toNat '0' ++ ['.', '0']
    else if 0 ≤ d.magnitude then (Nat.toDigits 10 d.significand).take (d.magnitude + 1).toNat ++
      '.' :: (Nat.toDigits 10 d.significand).drop (d.magnitude + 1).toNat
    else '0' :: '.' :: List.replicate (-d.magnitude - 1).toNat '0' ++
      Nat.toDigits 10 d.significand := by
  rw [Decimal.plain, String.toList_append, String.toList_ofList, Decimal.toList_digits]

/-- A number in plain notation is read by its digits. -/
theorem exists_plain (hzero : d.significand = 0 → d.exponent = 0) (hlarge : d.magnitude < 16)
    (hfits : d.spelled.significand < 2 ^ 64) :
    ∃ body, d.plain.toList = d.sign.toList ++ body ∧ Spells d.spelled body := by
  refine ⟨_, toList_plain d, ?_⟩
  have hmagnitude := d.magnitude_eq
  have hdigits : ∀ c ∈ Nat.toDigits 10 d.significand, c.isDigit = true := fun c hc =>
    d.isDigit_of_mem hc
  have hvalue := digitsValue_toDigits d.significand
  by_cases hwhole : 0 ≤ d.exponent
  · -- zeros up to the point, and one behind it
    have hnext : (d.exponent + 1).toNat = d.exponent.toNat + 1 := by omega
    rw [Decimal.spelled, if_pos ⟨hwhole, hlarge⟩] at hfits ⊢
    rw [if_pos hwhole]
    refine spells_fraction _ ['0'] (whole_zeros fun h => by
      rw [hzero h]; rfl) (by simp) (by simp) ?_ rfl hfits
    rw [List.append_assoc, Text.digitsValue_append, hvalue, ← List.replicate_succ',
      Text.digitsValue_zeros, hnext]
  · have hspelled : d.spelled = d := if_neg fun h => hwhole h.1
    rw [hspelled] at hfits ⊢
    rw [if_neg hwhole]
    by_cases hpoint : 0 ≤ d.magnitude
    · rw [if_pos hpoint]
      refine spells_fraction _ _ (whole_take _ (by omega)) (fun c hc =>
        hdigits c (List.mem_of_mem_drop hc)) ?_ ?_ ?_ hfits
      · rw [Ne, List.drop_eq_nil_iff]
        omega
      · rw [List.take_append_drop, hvalue]
      · rw [List.length_drop]
        omega
    · rw [if_neg hpoint]
      refine spells_fraction ['0'] (List.replicate (-d.magnitude - 1).toNat '0' ++
        Nat.toDigits 10 d.significand)
        whole_zero (fun c hc => ?_) (by simp [Nat.toDigits_ne_nil]) ?_ ?_ hfits
      · rcases List.mem_append.1 hc with hc | hc
        · rw [(List.mem_replicate.1 hc).2]
          rfl
        · exact hdigits c hc
      · rw [← List.append_assoc, Text.digitsValue_append, List.singleton_append,
          ← List.replicate_succ, Text.digitsValue_zeros, Nat.zero_mul, hvalue]
      · rw [List.length_append, List.length_replicate]
        omega

theorem toList_exponent (x : Int) :
    (if (true && decide (0 ≤ x)) = true then "+" else "").toList ++ (decimalInt x).toList =
      exponentText x := by
  unfold decimalInt decimalDigits exponentText
  by_cases hx : 0 ≤ x
  · simp [hx, not_lt.2 hx]
  · simp [hx, not_le.1 hx]

theorem toList_scientific {c : Char} {cs : List Char}
    (h : Nat.toDigits 10 d.significand = c :: cs) :
    (d.scientific .json).toList = d.sign.toList ++
      ([c] ++ ((if cs = [] then [] else '.' :: cs) ++ 'e' :: exponentText d.magnitude)) := by
  cases cs <;>
    simp only [Decimal.scientific, Decimal.toList_digits, h, String.toList_append,
      String.toList_ofList, ← toList_exponent, List.append_assoc] <;> rfl

/-- A number in scientific notation is read by its digits and its exponent. -/
theorem exists_scientific (hexponent : d.magnitude.natAbs ≤ maxExponent)
    (hfits : d.significand < 2 ^ 64) :
    ∃ body, (d.scientific .json).toList = d.sign.toList ++ body ∧ Spells d body := by
  have hmagnitude := d.magnitude_eq
  have hvalue := digitsValue_toDigits d.significand
  have htake := whole_take d.significand one_ne_zero
  obtain ⟨c, cs, hds⟩ :=
    List.exists_cons_of_ne_nil (Nat.toDigits_ne_nil (b := 10) (n := d.significand))
  rw [hds] at hmagnitude hvalue htake
  have hwhole : Whole [c] := htake
  have hfits' : digitsValue 0 (c :: cs) < 2 ^ 64 := by rwa [hvalue]
  rw [List.length_cons] at hmagnitude
  refine ⟨_, toList_scientific hds, hwhole.starts _, fun negative => ?_⟩
  by_cases hcs : cs = []
  · -- one digit stands without a point
    subst hcs
    have hsum : 0 + d.magnitude = d.exponent := by simp [hmagnitude]
    rw [if_pos rfl, List.nil_append, readNumber_whole negative hwhole hfits' (.inr rfl),
      if_neg (by decide), readExponent_text negative _ _ hexponent, hvalue, hsum]
  · have hdigits : ∀ b ∈ cs, b.isDigit = true := fun b hb =>
      d.isDigit_of_mem (hds ▸ List.mem_cons_of_mem _ hb)
    have hsum : -(cs.length : Int) + d.magnitude = d.exponent := by omega
    have hread := readNumber_fraction negative hwhole hdigits hcs hfits'
      (show Stops ('e' :: exponentText d.magnitude) from rfl)
    have hscale (n : Nat) (e : Int) : readScale negative n e ('e' :: exponentText d.magnitude) =
        readExponent negative n e (exponentText d.magnitude) := rfl
    rw [hscale, readExponent_text negative _ _ hexponent] at hread
    rw [if_neg hcs, ← hsum, ← hvalue]
    exact hread

/-- A number in the layout of JSON is read by its digits and its exponent. -/
theorem exists_write (hzero : d.significand = 0 → d.exponent = 0)
    (hexponent : d.magnitude.natAbs ≤ maxExponent) (hfits : d.spelled.significand < 2 ^ 64) :
    ∃ body, (Layout.json.write d).toList = d.sign.toList ++ body ∧ Spells d.spelled body := by
  have hmagnitude := d.magnitude_eq
  have hlength := List.length_pos_iff.2 (Nat.toDigits_ne_nil (b := 10) (n := d.significand))
  by_cases hplain : -5 ≤ d.magnitude ∧ d.magnitude < 16
  · obtain ⟨body, htext, hbody⟩ := exists_plain hzero hplain.2 hfits
    exact ⟨body, by rw [← htext]; exact congrArg String.toList (if_pos hplain), hbody⟩
  · have hspelled : d.spelled = d := if_neg fun h => hplain ⟨by omega, h.2⟩
    rw [hspelled] at hfits ⊢
    obtain ⟨body, htext, hbody⟩ := exists_scientific hexponent hfits
    exact ⟨body, by rw [← htext]; exact congrArg String.toList (if_neg hplain), hbody⟩

end Body

/-- A text that spells a decimal number is read as the float made from it. -/
theorem read_of_spells {d e : Decimal} {text : String} {body : List Char} {y : Binary64}
    (htext : text.toList = d.sign.toList ++ body) (hbody : Spells e body)
    (hfloat : floatOf d.negative e.significand e.exponent [] = .ok (.float y, [])) :
    read text = .ok (.float y) := by
  have hvalue (fuel depth : Nat) : readValue (fuel + 1) depth text.toList = .ok (.float y, []) := by
    rw [htext, Decimal.sign, ← hfloat, ← hbody.reads]
    obtain ⟨c, cs, rfl, hc⟩ := hbody.starts
    cases d.negative with
    | true => exact readValue_minus fuel depth _
    | false => exact readValue_digit hc fuel depth cs
  rw [read, readAll, hvalue]
  rfl

/-! ## Floats that are read back -/

section ReadBack

open Binary64 (infinityMagnitude ofMagnitude)

variable {x : Binary64} (hx : x.isFinite = true)
include hx

theorem exists_writeFloat :
    ∃ body, (writeFloat x).toList = x.shortest.sign.toList ++ body ∧
      Spells x.shortest.spelled body := by
  rw [writeFloat, if_pos hx]
  by_cases hzero : x.magnitude = 0
  · have hshortest : x.shortest = ⟨x.isNegative, 0, 0⟩ := if_pos (beq_iff_eq.2 hzero)
    rw [hshortest]
    exact exists_write (fun _ =>
      rfl) (by cases x.isNegative <;> decide) (by cases x.isNegative <;> decide)
  · have hback := Decimal.readsBack_shortest hx hzero
    refine exists_write (fun h => absurd h hback.pos.ne') ?_ (hback.spelled.le.trans_lt (by decide))
    have hmagnitude := x.shortest.magnitude_eq
    have hlow := hback.exponent
    have hhigh := hback.exponent_le hx
    have hlength :=
      Nat.toDigits_length 10 x.shortest.significand 18 (by decide) (hback.le.trans_lt (by decide))
    show x.shortest.magnitude.natAbs ≤ 2 ^ 31 - 1
    omega

/-- The two largest floats are read as the largest one. -/
theorem scaleFloat_largest (h : infinityMagnitude ≤ x.magnitude + 2) :
    scaleFloat 3 (Binary64.ofInt x.shortest.spelled.significand) x.shortest.spelled.exponent =
        some (ofMagnitude false (infinityMagnitude - 1)) ∧
          2 ^ 53 < x.shortest.spelled.significand := by
  have hlt : x.magnitude < infinityMagnitude := by simpa [Binary64.isFinite] using hx
  have hsign : x.magnitude < 2 ^ 63 := hlt.trans (by decide)
  have hpattern : x = ofMagnitude x.isNegative x.magnitude :=
    Binary64.eq_of_magnitude (Binary64.isNegative_ofMagnitude _ hsign).symm
      (Binary64.magnitude_ofMagnitude _ hsign).symm
  obtain hk | hk : x.magnitude = infinityMagnitude - 1 ∨ x.magnitude = infinityMagnitude - 2 := by
    rw [infinityMagnitude] at h hlt ⊢
    omega
  all_goals
    rw [hpattern, hk]
    cases x.isNegative <;> decide +kernel

/-- The digits of a finite float make one that is at most two places away. -/
theorem exists_scaleFloat_shortest :
    ∃ f, scaleFloat 3 (Binary64.ofInt x.shortest.spelled.significand) x.shortest.spelled.exponent =
      some f ∧
      f.Beside x.magnitude ∧
        (x.shortest.spelled.significand ≤ 2 ^ 53 → x.shortest.spelled.exponent.natAbs ≤ 22 →
        f.magnitude = x.magnitude) := by
  by_cases hzero : x.magnitude = 0
  · have hshortest : x.shortest = ⟨x.isNegative, 0, 0⟩ := if_pos (beq_iff_eq.2 hzero)
    refine ⟨Binary64.zero false, ?_, .of_eq rfl rfl hzero.symm, fun _ _ => hzero.symm⟩
    rw [hshortest]
    cases x.isNegative <;> decide +kernel
  by_cases hlarge : infinityMagnitude ≤ x.magnitude + 2
  · -- two places above these there is no finite float
    obtain ⟨hscale, hdigits⟩ := scaleFloat_largest hx hlarge
    have hlt : x.magnitude < infinityMagnitude := by simpa [Binary64.isFinite] using hx
    have hmagnitude : (ofMagnitude false (infinityMagnitude - 1)).magnitude =
        infinityMagnitude - 1 :=
      Binary64.magnitude_ofMagnitude false (by decide)
    exact ⟨_, hscale, ⟨rfl, rfl, by omega, by omega⟩, fun h => by omega⟩
  · have hback := (Decimal.readsBack_shortest hx hzero).spelled
    exact exists_scaleFloat hback.pos hback.le (by omega) hback.exponent (hback.exponent_le hx)
      hback.rounds

end ReadBack

theorem floatOf_of_scaleFloat {n : Nat} {e : Int} {f : Binary64}
    (h : scaleFloat 3 (Binary64.ofInt n) e = some f) (negative : Bool) (rest : List Char) :
    floatOf negative n e rest = .ok (.float (if negative then f.neg else f), rest) := by
  rw [floatOf, h]

/-- What is made from the digits of a float is read from its text. -/
theorem read_writeFloat {x f : Binary64} (hx : x.isFinite = true)
    (h : scaleFloat 3 (Binary64.ofInt x.shortest.spelled.significand) x.shortest.spelled.exponent =
      some f) :
    read (write (.float x)) = .ok (.float (if x.isNegative then f.neg else f)) := by
  obtain ⟨body, htext, hbody⟩ := exists_writeFloat hx
  have hsign : x.shortest.negative = x.isNegative := by
    unfold Binary64.shortest
    split_ifs <;> rfl
  refine read_of_spells htext hbody ?_
  rw [hsign]
  exact floatOf_of_scaleFloat h x.isNegative []

end Json

namespace Store

theorem readJson_float (s : Store) {x f : Binary64} (hx : x.isFinite = true)
    (h : Json.scaleFloat 3 (Binary64.ofInt x.shortest.spelled.significand)
      x.shortest.spelled.exponent = some f) :
    Config.readJson (s.jsonText (.float x)) = .ok (.float (if x.isNegative then f.neg else f)) := by
  have htext : s.jsonText (.float x) = Json.write (.float x) := by
    rw [jsonText, datum?, datumWithin_scalar rfl s.size 0 (t := s)]
    rfl
  rw [htext, Config.readJson, Json.read_writeFloat hx h]

/-- Every finite float is read back from its JSON text as a finite float of the same sign that is at
most two places away. It is the same float if its digits, as they stand in the text, make a number
up to `2 ^ 53` and its exponent is at most 22. -/
theorem json_float_nearby (s : Store) {x : Binary64} (hx : x.isFinite = true) :
    ∃ y, Config.readJson (s.jsonText (.float x)) = .ok (.float y) ∧ y.isFinite = true ∧
      y.isNegative = x.isNegative ∧ y.magnitude ≤ x.magnitude + 2 ∧ x.magnitude ≤ y.magnitude + 2 ∧
      (x.shortest.spelled.significand ≤ 2 ^ 53 → x.shortest.spelled.exponent.natAbs ≤ 22 →
        y = x) := by
  obtain ⟨f, hscale, hbeside, hexact⟩ := Json.exists_scaleFloat_shortest hx
  set y := if x.isNegative then f.neg else f with hy
  have hsign : y.isNegative = x.isNegative := by
    rw [hy]
    cases x.isNegative with
    | true => rw [if_pos rfl, Binary64.isNegative_neg, hbeside.sign]; rfl
    | false => exact hbeside.sign
  have hmagnitude : y.magnitude = f.magnitude := by
    rw [hy]
    split_ifs
    · exact Binary64.magnitude_neg f
    · rfl
  have hfinite : y.isFinite = true := by
    have hf := hbeside.finite
    rwa [Binary64.isFinite, ← hmagnitude] at hf
  refine ⟨y, readJson_float s hx hscale, hfinite, hsign, hmagnitude ▸ hbeside.le,
    hmagnitude ▸ hbeside.ge,
    fun hdigits hexponent => ?_⟩
  exact Binary64.eq_of_magnitude hsign (hmagnitude.trans (hexact hdigits hexponent))

/-- The float nearest to a tenth is kept. -/
theorem json_tenth_kept : (⟨0x3fb999999999999a⟩ : Binary64).isFinite = true ∧
    Config.readJson (jsonText {} (.float ⟨0x3fb999999999999a⟩)) =
      .ok (.float ⟨0x3fb999999999999a⟩) := by
  obtain ⟨y, hread, -, -, -, -, hexact⟩ := json_float_nearby {} (x := ⟨0x3fb999999999999a⟩) rfl
  rw [hexact (by decide +kernel) (by decide +kernel)] at hread
  exact ⟨rfl, hread⟩

/-- The largest odd integer below `2 ^ 53` is read back as the even one below it, and a float near
`10 ^ -198` as one that is two places above. -/
theorem json_float_changed :
    Config.readJson (jsonText {} (.float ⟨0x433fffffffffffff⟩)) =
      .ok (.float ⟨0x433ffffffffffffe⟩) ∧
      Config.readJson (jsonText {} (.float ⟨0x16cda791d8a50636⟩)) =
        .ok (.float ⟨0x16cda791d8a50638⟩) :=
  ⟨readJson_float {} (f := ⟨0x433ffffffffffffe⟩) rfl (by decide +kernel),
    readJson_float {} (f := ⟨0x16cda791d8a50638⟩) rfl (by decide +kernel)⟩

end Store

end TagMachine
