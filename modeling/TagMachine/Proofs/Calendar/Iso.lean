import TagMachine.Proofs.Calendar.Items

set_option autoImplicit false

/-! # ISO texts

An ISO text is a date, alone or with a time, and may end in `Z` (`Stamp`). It is read as the
date-time that it stands for (`read?_text`). A date-time that can be held is written as such a text,
with three, six or nine digits of a fraction or none (`writeDateTime_eq`), and that text stands for
the date-time (`Stamp.moment_ofMoment`).
-/

namespace TagMachine.IsoDate

open DateFormat

/-! ## Texts by their parts -/

/-- A time as a text gives it. -/
structure Clock where
  hour : Nat
  minute : Nat
  /-- The second and the digits of its fraction, unless the text ends with the minute. -/
  second : Option (Nat × List Char)

/-- A date as a text gives it, with a time or alone. -/
structure Stamp where
  date : Date
  clock : Option Clock
  /-- Whether the letter `Z` ends the text. -/
  zulu : Bool

namespace Clock

def time (c : Clock) : TimeOfDay :=
  timeOf c.hour c.minute (c.second.elim 0 Prod.fst) (c.second.elim 0 fun s => nanosOf s.2)

def text (c : Clock) : List Char :=
  minuteText c.hour c.minute ++ c.second.elim [] fun s => ':' :: padded 2 s.1 ++ fractionText s.2

/-- Whether a day has the time, perhaps as a leap second. -/
structure IsReal (c : Clock) : Prop where
  hour_lt : c.hour < 24
  minute_lt : c.minute < 60
  second_le : ∀ s ∈ c.second, s.1 ≤ 60
  digits : ∀ s ∈ c.second, ∀ ch ∈ s.2, ch.isDigit = true

end Clock

namespace Stamp

/-- The date-time that is given. A date alone is its start. -/
def moment (x : Stamp) : DateTime := ⟨x.date, x.clock.elim .midnight Clock.time⟩

/-- The text before the letter `Z`. -/
def body (x : Stamp) : List Char := dateText x.date ++ x.clock.elim [] fun c => 'T' :: c.text

def text (x : Stamp) : String := String.ofList (x.body ++ if x.zulu then ['Z'] else [])

/-- Whether the calendar has the date, it can be held, and a day has the time. -/
structure IsReal (x : Stamp) : Prop where
  date : x.date.isReal = true
  inRange : x.date.inRange = true
  clock : ∀ c ∈ x.clock, c.IsReal

/-- The time that is given is not in a leap second. -/
def Ordinary (x : Stamp) : Prop := ∀ c ∈ x.clock, ∀ s ∈ c.second, s.1 ≤ 59

end Stamp

variable {x : Stamp} {c : Clock} {d : Date} {t : DateTime} {ch : Char}

/-! ## Letters -/

theorem notMem_padded (h : ch.isDigit = false) (width n : Nat) : ch ∉ padded width n :=
  fun hmem => by
  rw [isDigit_of_mem_padded hmem] at h
  cases h

/-- No letter stands in a date. -/
theorem notMem_dateText (hdigit : ch.isDigit = false) (hminus : ch ≠ '-') (hplus : ch ≠ '+')
    (d : Date) : ch ∉ dateText d := by
  have hyear : ch ∉ yearText d.year := by
    unfold yearText
    split_ifs <;> simp [notMem_padded hdigit, hminus, hplus]
  simp [dateText, hyear, hminus, notMem_padded hdigit]

theorem notMem_clockText (hc : c.IsReal) (hdigit : ch.isDigit = false) (hcolon : ch ≠ ':')
    (hpoint : ch ≠ '.') : ch ∉ c.text := by
  rw [Clock.text, minuteText]
  cases hsecond : c.second with
  | none => simp [notMem_padded hdigit, hcolon]
  | some s =>
    have hfraction : ch ∉ fractionText s.2 := by
      by_cases hne : s.2 = []
      · rw [hne]
        exact List.not_mem_nil
      · rw [fractionText_of_ne_nil hne, List.mem_cons, not_or]
        refine ⟨hpoint, fun hmem => ?_⟩
        rw [hc.digits s hsecond ch hmem] at hdigit
        cases hdigit
    simp [notMem_padded hdigit, hcolon, hfraction]

theorem notMem_body (hx : x.IsReal) : 'Z' ∉ x.body := by
  rw [Stamp.body, List.mem_append, not_or]
  refine ⟨notMem_dateText rfl (by decide) (by decide) _, ?_⟩
  cases hclock : x.clock with
  | none => exact List.not_mem_nil
  | some c =>
    have hc : 'Z' ∉ c.text := notMem_clockText (hx.clock c hclock) rfl (by decide) (by decide)
    simp [hc]

theorem contains_body (x : Stamp) : x.body.contains 'T' = x.clock.isSome := by
  have hdate : 'T' ∉ dateText x.date := notMem_dateText rfl (by decide) (by decide) _
  rw [Stamp.body]
  cases x.clock with
  | none => simpa using hdate
  | some c => simp

theorem filter_text (hx : x.IsReal) : x.text.toList.filter (· != 'Z') = x.body := by
  have hbody : x.body.filter (· != 'Z') = x.body := by
    rw [List.filter_eq_self]
    rintro ch hch
    rw [bne_iff_ne]
    rintro rfl
    exact notMem_body hx hch
  rw [Stamp.text, String.toList_ofList, List.filter_append, hbody]
  cases x.zulu <;> simp

/-- A text has the letter `T` just if it gives a time. -/
theorem contains_text (x : Stamp) : x.text.toList.contains 'T' = x.clock.isSome := by
  rw [Stamp.text, String.toList_ofList, List.contains_append, contains_body]
  cases x.zulu <;> simp

/-! ## Reading -/

theorem read?_dateFormat : DateFormat.read? dateFormat = some (isoDate ++ []) := by decide +kernel

theorem read?_minuteFormat :
    DateFormat.read? minuteFormat = some (isoDate ++ mark 'T' :: (hourMinute ++ [])) := by
  decide +kernel

theorem read?_dateTimeFormat : DateFormat.read? dateTimeFormat =
    some (isoDate ++ mark 'T' :: (hourMinute ++ mark ':' :: zeroed .second :: [.fraction])) := by
  decide +kernel

theorem readDate?_dateText (hreal : d.isReal = true) (hrange : d.inRange = true) :
    readDate? dateFormat (String.ofList (dateText d)) = some d := by
  have hread := readByItems?_isoDate hreal hrange [] []
  rw [(dateText d).append_nil] at hread
  rw [readDate?, readFields?, read?_dateFormat, Option.bind_some, String.toList_ofList, hread]
  show (dateFields d).date.toOption = some d
  rw [date_dateFields hreal hrange]
  rfl

theorem readDateTime?_clock (hreal : d.isReal = true) (hrange : d.inRange = true) (hc : c.IsReal) :
    readDateTime? dateTimeFormat (String.ofList (dateText d ++ 'T' :: c.text)) =
      if c.second.isSome then some ⟨d, c.time⟩ else none := by
  rw [readDateTime?, readFields?, read?_dateTimeFormat, Option.bind_some, String.toList_ofList,
    readByItems?_isoDate hreal hrange, readByItems?_mark, Clock.text,
    readByItems?_hourMinute hc.hour_lt hc.minute_lt]
  cases hsecond : c.second with
  | none => rfl
  | some s =>
    have hfraction : (fractionField s.2).getD 0 = nanosOf s.2 := by
      rw [fractionField]
      split_ifs with hnil
      · rw [hnil]
        rfl
      · rfl
    simp only [Option.elim_some]
    rw [readByItems?_second (hc.second_le s hsecond), readByItems?_fraction (hc.digits s hsecond),
      Option.bind_some, dateTime?_momentFields hreal hrange hc.hour_lt _ _ (by simp), hfraction,
      Clock.time, hsecond]
    rfl

theorem readDateTime?_minute (hreal : d.isReal = true) (hrange : d.inRange = true) (hc : c.IsReal)
    (hsecond : c.second = none) :
    readDateTime? minuteFormat (String.ofList (dateText d ++ 'T' :: c.text)) =
      some ⟨d, c.time⟩ := by
  rw [readDateTime?, readFields?, read?_minuteFormat, Option.bind_some, String.toList_ofList,
    readByItems?_isoDate hreal hrange, readByItems?_mark, Clock.text,
    readByItems?_hourMinute hc.hour_lt hc.minute_lt, hsecond]
  show (momentFields d c.hour c.minute none none).dateTime? = _
  rw [dateTime?_momentFields hreal hrange hc.hour_lt none none fun _ => rfl, Clock.time, hsecond]
  rfl

theorem read?_text (hx : x.IsReal) : IsoDate.read? x.text = some x.moment := by
  rw [IsoDate.read?, filter_text hx, String.toList_ofList, contains_body, Stamp.body, Stamp.moment]
  cases hclock : x.clock with
  | none =>
    rw [Option.elim_none, Option.elim_none, List.append_nil, readDate?_dateText hx.date hx.inRange]
    rfl
  | some c =>
    have hc := hx.clock c hclock
    simp only [Option.isSome_some, if_true, Option.elim_some,
      readDateTime?_clock hx.date hx.inRange hc]
    cases hsecond : c.second with
    | none => exact readDateTime?_minute hx.date hx.inRange hc hsecond
    | some s => rfl

/-- A text stands for a date-time that can be held. -/
theorem Stamp.IsReal.isHeld_moment (hx : x.IsReal) : x.moment.IsHeld := by
  refine ⟨hx.date, hx.inRange, ?_⟩
  rw [Stamp.moment]
  cases hclock : x.clock with
  | none =>
    show TimeOfDay.midnight.IsReal
    exact ⟨by decide, by decide, by decide⟩
  | some c =>
    have hc := hx.clock c hclock
    have hsecond : c.second.elim 0 Prod.fst ≤ 60 := by
      cases hsecond : c.second with
      | none => decide
      | some s => exact hc.second_le s hsecond
    have hnano : (c.second.elim 0 fun s => nanosOf s.2) < 1000000000 := by
      cases hsecond : c.second with
      | none => decide
      | some s => exact nanosOf_lt (hc.digits s hsecond)
    exact isReal_timeOf hc.hour_lt hc.minute_lt hsecond hnano

theorem Stamp.Ordinary.nano_lt (hordinary : x.Ordinary) (hx : x.IsReal) :
    x.moment.time.nano < 1000000000 := by
  rw [Stamp.moment]
  cases hclock : x.clock with
  | none =>
    show 0 < 1000000000
    decide
  | some c =>
    show (timeOf _ _ _ _).nano < 1000000000
    cases hsecond : c.second with
    | none =>
      show 0 < 1000000000
      decide
    | some s =>
      have hle := hordinary c hclock s hsecond
      have hlt := nanosOf_lt ((hx.clock c hclock).digits s hsecond)
      rw [timeOf, if_neg]
      · exact hlt
      · show s.1 ≠ 60
        omega

/-! ## Writing -/

/-- The text that a time is written by. -/
def Clock.ofTime (t : TimeOfDay) : Clock :=
  ⟨t.hour, t.minute, some (t.secondOfMinute + t.nano / nanosPerSecond,
    fractionDigits (t.nano % nanosPerSecond))⟩

/-- The text that a date-time is written by. -/
def Stamp.ofMoment (t : DateTime) : Stamp := ⟨t.date, some (Clock.ofTime t.time), true⟩

/-- The text that a date alone is written by. -/
def Stamp.ofDate (d : Date) : Stamp := ⟨d, none, false⟩

theorem Clock.isReal_ofTime {t : TimeOfDay} (h : t.IsReal) : (Clock.ofTime t).IsReal := by
  have hnano := h.nano_lt
  refine ⟨h.hour_lt, t.minute_lt, ?_, ?_⟩
  · rintro s ⟨⟩
    show t.second % 60 + t.nano / 1000000000 ≤ 60
    omega
  · rintro s ⟨⟩ ch hch
    exact isDigit_of_mem_fractionDigits hch

theorem Clock.time_ofTime {t : TimeOfDay} (h : t.IsReal) : (Clock.ofTime t).time = t := by
  have hfraction : nanosOf (fractionDigits (t.nano % nanosPerSecond)) = t.nano % nanosPerSecond :=
    nanosOf_fractionDigits (Nat.mod_lt _ (by decide))
  show timeOf t.hour t.minute _ (nanosOf (fractionDigits (t.nano % nanosPerSecond))) = _
  rw [hfraction]
  exact timeOf_parts h

theorem Stamp.isReal_ofMoment (h : t.IsHeld) : (Stamp.ofMoment t).IsReal :=
  ⟨h.real, h.inRange, by rintro c ⟨⟩; exact Clock.isReal_ofTime h.time⟩

theorem Stamp.moment_ofMoment (h : t.IsHeld) : (Stamp.ofMoment t).moment = t := by
  show DateTime.mk t.date (Clock.ofTime t.time).time = t
  rw [Clock.time_ofTime h.time]

theorem Stamp.isReal_ofDate (hreal : d.isReal = true) (hrange : d.inRange = true) :
    (Stamp.ofDate d).IsReal :=
  ⟨hreal, hrange, by rintro c ⟨⟩⟩

theorem writeDateTime_eq (h : t.IsHeld) : writeDateTime t = (Stamp.ofMoment t).text := by
  have hmark : writeItem? t (mark 'T') = some ['T'] := rfl
  have hfraction : writeItem? t .fraction =
      some (fractionText (fractionDigits (t.time.nano % nanosPerSecond))) :=
    congrArg some (writeShortFraction_eq _)
  have hnil : writeItems? t [] = some [] := rfl
  rw [writeDateTime, write?, read?_dateTimeFormat, Option.bind_some, writeItems?_isoDate h.real,
    writeItems?_cons hmark, writeItems?_hourMinute h.time.second_lt, writeItems?_second h.time,
    writeItems?_cons hfraction, hnil]
  simp only [Option.map_some, Option.getD_some, ← String.toList_inj, String.toList_append,
    String.toList_ofList, Stamp.text, Stamp.body, Stamp.ofMoment, Clock.text, Clock.ofTime,
    Option.elim_some, List.append_nil, List.append_assoc, List.cons_append, List.nil_append]
  rfl

theorem writeDate_eq (h : t.date.isReal = true) : writeDate t = (Stamp.ofDate t.date).text := by
  have hnil : writeItems? t [] = some [] := rfl
  rw [writeDate, write?, read?_dateFormat, Option.bind_some, writeItems?_isoDate h, hnil,
    Option.map_some, Option.map_some, List.append_nil]
  simp [Stamp.text, Stamp.body, Stamp.ofDate]

end TagMachine.IsoDate
