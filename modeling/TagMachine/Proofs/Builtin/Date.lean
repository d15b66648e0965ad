import TagMachine.Proofs.Builtin.Calls
import TagMachine.Proofs.Calendar.Iso

set_option autoImplicit false

/-! # Calculating with dates by calls

What `date-add` and `date-diff` return for ISO texts (`IsoDate.Stamp`). A sum is written in the
shape of the text that it comes from: a date alone stays one, and a date-time gets the letter `Z`.
-/

namespace TagMachine.Builtin

open DateFormat
open IsoDate (Stamp)

variable {x y : Stamp} {t : DateTime} {n : Int64} {unit : String} {k : Nat}

/-- Adding `n` units to the date `date` returns the text `r`. -/
def Adds (date : String) (n : Int64) (unit r : String) : Prop :=
  ∀ c : Call, c.given.text "date" = date → c.given.integer "amount" = n →
    c.given.text "unit" = unit →
    c.ReturnsText 0x53 r

/-- Adding `n` units to the date `date` ends with the error `e`. -/
def AddFails (date : String) (n : Int64) (unit : String) (e : Error) : Prop :=
  ∀ c : Call, c.given.text "date" = date → c.given.integer "amount" = n →
    c.given.text "unit" = unit →
    c.run 0x53 = .error e

/-- From the date `a` to the date `b` there are `n` whole units. -/
def Differ (a b unit : String) (n : Int64) : Prop :=
  ∀ c : Call, c.given.textOr "from" "a" = a → c.given.textOr "to" "b" = b →
    c.given.text "unit" = unit →
    c.run 0x52 = .ok (.integer n, c.store)

/-! ## Sums -/

/-- The text that a date-time is written by after a sum with the date `x`. -/
def inShape (x : Stamp) (t : DateTime) : Stamp :=
  if x.clock.isSome then .ofMoment t else .ofDate t.date

theorem readIso_text (hx : x.IsReal) : readIso x.text = .ok x.moment := by
  rw [readIso, IsoDate.read?_text hx]

theorem dateAdd_of_shift (hx : x.IsReal) {args : Arguments} (hdate : args.text "date" = x.text)
    (ht : t.IsHeld)
    (h : shiftBy? x.moment (args.integer "amount") (args.text "unit") = some (some t)) :
    dateAdd args = giveText (inShape x t).text := by
  simp only [dateAdd, hdate, readIso_text hx, bind, Except.bind, h, IsoDate.contains_text, inShape]
  cases x.clock with
  | none => exact congrArg giveText (IsoDate.writeDate_eq ht.real)
  | some c => exact congrArg giveText (IsoDate.writeDateTime_eq ht)

theorem dateAdd_of_shift_none (hx : x.IsReal) {args : Arguments} (hdate : args.text "date" = x.text)
    (h : shiftBy? x.moment (args.integer "amount") (args.text "unit") = some none) :
    dateAdd args =
      .error (.domain (.dateOutOfRange (args.integer "amount") (args.text "unit"))) := by
  simp only [dateAdd, hdate, readIso_text hx, bind, Except.bind, h]
  rfl

theorem adds_inShape (hx : x.IsReal) (ht : t.IsHeld)
    (h : shiftBy? x.moment n unit = some (some t)) : Adds x.text n unit (inShape x t).text := by
  rintro c hdate rfl rfl
  refine Call.returnsText_of_give rfl ?_
  exact dateAdd_of_shift hx hdate ht h

theorem addFails_of_shift (hx : x.IsReal) (h : shiftBy? x.moment n unit = some none) :
    AddFails x.text n unit (.domain (.dateOutOfRange n unit)) := by
  rintro c hdate rfl rfl
  refine Call.run_eq_error rfl ?_
  exact dateAdd_of_shift_none hx hdate h

def adding (date : String) (n : Int64) (unit : String) : Call :=
  .passing [] [("date", .string date), ("amount", .integer n), ("unit", .string unit)]

theorem Adds.unique {date r s : String} (hr : Adds date n unit r)
    (hs : Adds date n unit s) : r = s := by
  have hrun := hr (adding date n unit) rfl rfl rfl
  rw [Call.ReturnsText, hs (adding date n unit) rfl rfl rfl] at hrun
  cases hrun
  rfl

theorem Adds.not_addFails {date r : String} {e : Error} (hr : Adds date n unit r) :
    ¬AddFails date n unit e := by
  intro hfails
  have hrun := hr (adding date n unit) rfl rfl rfl
  rw [Call.ReturnsText, hfails (adding date n unit) rfl rfl rfl] at hrun
  cases hrun

theorem isReal_inShape (x : Stamp) (ht : t.IsHeld) : (inShape x t).IsReal := by
  rw [inShape]
  split_ifs
  · exact Stamp.isReal_ofMoment ht
  · exact Stamp.isReal_ofDate ht.real ht.inRange

/-- What is written for a sum stands for the sum, unless its time is dropped. -/
theorem moment_inShape (ht : t.IsHeld) (h : x.clock = none → t.time = .midnight) :
    (inShape x t).moment = t := by
  rw [inShape]
  cases hclock : x.clock with
  | none =>
    have htime := h hclock
    obtain ⟨date, time⟩ := t
    obtain rfl : time = .midnight := htime
    rfl
  | some c => exact Stamp.moment_ofMoment ht

theorem clock_inShape (x : Stamp) (t : DateTime) : (inShape x t).clock.isSome = x.clock.isSome := by
  rw [inShape]
  cases x.clock <;> rfl

theorem zulu_inShape (x : Stamp) (t : DateTime) : (inShape x t).zulu = x.clock.isSome := by
  rw [inShape]
  cases x.clock <;> rfl

/-! ## Differences -/

/-- The units of fixed length and their seconds. -/
def units : List (String × Nat) := [("seconds", 1), ("minutes", 60), ("hours", 3600),
    ("days", 86400)]

theorem unitSeconds?_of_mem (h : (unit, k) ∈ units) : unitSeconds? unit = some k ∧ 0 < k := by
  simp only [units, List.mem_cons, Prod.mk.injEq, List.not_mem_nil, or_false] at h
  rcases h with ⟨rfl, rfl⟩ | ⟨rfl, rfl⟩ | ⟨rfl, rfl⟩ | ⟨rfl, rfl⟩ <;> exact ⟨rfl, by decide⟩

theorem differ_text (hx : x.IsReal) (hy : y.IsReal) (hunit : (unit, k) ∈ units) :
    Differ x.text y.text unit (Int64.ofInt ((x.moment.secondsTo y.moment).tdiv k)) := by
  rintro c hfrom hto rfl
  refine call_eq_of_give rfl ?_
  show dateDiff c.given = _
  simp only [dateDiff, hfrom, hto, readIso_text hx, readIso_text hy, (unitSeconds?_of_mem hunit).1,
    bind, Except.bind]
  rfl

theorem toInt_difference (hx : x.IsReal) (hy : y.IsReal) (k : Nat) :
    (Int64.ofInt ((x.moment.secondsTo y.moment).tdiv k)).toInt =
      (x.moment.secondsTo y.moment).tdiv k := by
  have hseconds := DateTime.natAbs_secondsTo_lt hx.isHeld_moment hy.isHeld_moment
  have hunits : ((x.moment.secondsTo y.moment).tdiv k).natAbs ≤
      (x.moment.secondsTo y.moment).natAbs := by
    rw [Int.natAbs_tdiv]
    exact Nat.div_le_self _ _
  exact Int64.toInt_ofInt_of_le (by omega) (by omega)

theorem shiftBy?_of_later (hx : x.IsReal) (hordinary : x.Ordinary) (hunit : (unit, k) ∈ units)
    (h : x.moment.Later (n.toInt * k) t) :
    shiftBy? x.moment n unit = some (if t.date.inRange then some t else none) := by
  simp only [shiftBy?, (unitSeconds?_of_mem hunit).1,
    DateTime.shift?_of_later hx.isHeld_moment (hordinary.nano_lt hx) h]

/-- The difference to a sum is what was added. -/
theorem differ_inShape (hx : x.IsReal) (hordinary : x.Ordinary) (hunit : (unit, k) ∈ units)
    (ht : t.IsHeld) (h : x.moment.Later (n.toInt * k) t) (hmoment : (inShape x t).moment = t) :
    Differ x.text (inShape x t).text unit n := by
  have hpos := (unitSeconds?_of_mem hunit).2
  have hdiffer := differ_text hx (isReal_inShape x ht) hunit
  rwa [hmoment, DateTime.secondsTo_of_later hx.isHeld_moment (hordinary.nano_lt hx) h,
    Int.mul_tdiv_cancel _ (by omega), Int64.ofInt_toInt] at hdiffer

/-- There is a date-time `n` units after that of a text. If it can be held, it is what adding `n`
units gives, in the shape of the text, and from the text to the sum there are `n` units; otherwise
adding fails. A date alone is moved by days. Counted from either end, the time between two texts
differs by its sign only. -/
theorem date_add_diff_inverse :
    (∀ (x : Stamp) (unit : String) (k : Nat) (n : Int64), x.IsReal → x.Ordinary →
      (unit, k) ∈ units → (x.clock = none → unit = "days") →
      (∃ t, x.moment.Later (n.toInt * k) t) ∧
      ∀ t, x.moment.Later (n.toInt * k) t →
        (t.date.inRange = true →
          ∃ r : Stamp, r.IsReal ∧ r.moment = t ∧ r.clock.isSome = x.clock.isSome ∧ r.zulu =
            x.clock.isSome ∧
            Adds x.text n unit r.text ∧ Differ x.text r.text unit n) ∧
        (t.date.inRange = false → AddFails x.text n unit (.domain (.dateOutOfRange n unit)))) ∧
    ∀ (x y : Stamp) (unit : String) (k : Nat), x.IsReal → y.IsReal → (unit, k) ∈ units →
      ∃ n : Int64, Differ x.text y.text unit n ∧ Differ y.text x.text unit (-n) ∧ (-n).toInt =
        -n.toInt := by
  refine ⟨fun x unit k n hx hordinary hunit hdays => ⟨DateTime.exists_later hx.isHeld_moment _,
    fun t hlater => ?_⟩,
    fun x y unit k hx hy hunit => ?_⟩
  · have hshift := shiftBy?_of_later hx hordinary hunit hlater
    refine ⟨fun hrange => ?_, fun hrange => addFails_of_shift hx (by rw [hshift, hrange]; rfl)⟩
    have ht : t.IsHeld := hlater.isHeld (hordinary.nano_lt hx) hrange
    have hmidnight : x.clock = none → t.time = .midnight := fun hclock => by
      obtain rfl := hdays hclock
      obtain rfl : 86400 = k := Option.some.inj (unitSeconds?_of_mem hunit).1
      exact hlater.midnight (by rw [Stamp.moment, hclock]; rfl)
    have hmoment : (inShape x t).moment = t := moment_inShape ht hmidnight
    rw [if_pos hrange] at hshift
    exact ⟨inShape x t, isReal_inShape x ht, hmoment, clock_inShape x t, zulu_inShape x t,
      adds_inShape hx ht hshift, differ_inShape hx hordinary hunit ht hlater hmoment⟩
  · have hforward := differ_text hx hy hunit
    have hback := differ_text hy hx hunit
    have htoInt := toInt_difference hy hx k
    rw [DateTime.secondsTo_comm, Int.neg_tdiv, Int64.ofInt_neg] at hback htoInt
    refine ⟨_, hforward, hback, ?_⟩
    rw [htoInt, toInt_difference hx hy]

/-- Half a second before a leap day, and a day that is none. -/
theorem date_add_diff_inverse_boundaries :
    (∃ r : Stamp, r.moment = ⟨⟨2024, 2, 29⟩, ⟨0, 500000000⟩⟩ ∧ r.zulu = true ∧
      (Call.passing [] [("date", .string "2024-02-28T23:59:59.5"), ("amount", .integer 1),
        ("unit", .string "seconds")]).ReturnsText 0x53 r.text ∧
      Differ "2024-02-28T23:59:59.5" r.text "seconds" 1) ∧
    (∃ r : Stamp, r.moment = ⟨⟨2100, 2, 28⟩, .midnight⟩ ∧ r.clock.isSome = false ∧
      (Call.passing [] [("date", .string "2100-03-01"), ("amount", .integer (-1)),
        ("unit", .string "days")]).ReturnsText 0x53 r.text ∧
      Differ "2100-03-01" r.text "days" (-1)) ∧
    ∃ n : Int64, Differ "2024-02-28T23:59:59.5" "2100-03-01" "hours" n ∧
      Differ "2100-03-01" "2024-02-28T23:59:59.5" "hours" (-n) := by
  have hlater : (⟨⟨2024, 2, 28⟩, some ⟨23, 59, some (59, ['5'])⟩, false⟩ : Stamp).moment.Later 1
      ⟨⟨2024, 2, 29⟩, ⟨0, 500000000⟩⟩ :=
    ⟨⟨1, .inl ⟨1, rfl, rfl⟩, by decide⟩, by decide, by decide, by decide⟩
  have hearlier : (⟨⟨2100, 3, 1⟩, none, false⟩ : Stamp).moment.Later (-86400) ⟨⟨2100, 2, 28⟩,
      .midnight⟩ :=
    ⟨⟨-1, .inr ⟨1, rfl, rfl⟩, by decide⟩, by decide, by decide, by decide⟩
  have hx : (⟨⟨2024, 2, 28⟩, some ⟨23, 59, some (59, ['5'])⟩, false⟩ : Stamp).IsReal :=
    ⟨by decide, by decide, by rintro c ⟨⟩; exact ⟨by decide, by decide, by rintro s ⟨⟩; decide, by
      rintro s ⟨⟩ ch hch; cases List.mem_singleton.1 hch; rfl⟩⟩
  have hy : (⟨⟨2100, 3, 1⟩, none, false⟩ : Stamp).IsReal := ⟨by decide, by decide, by rintro c ⟨⟩⟩
  obtain ⟨hadd, hdiff⟩ := date_add_diff_inverse
  obtain ⟨-, hseconds⟩ :=
    hadd _ "seconds" 1 1 hx (by rintro c ⟨⟩ s ⟨⟩; decide) (by decide) (by rintro ⟨⟩)
  obtain ⟨-, hdays⟩ := hadd _ "days" 86400 (-1) hy (by rintro c ⟨⟩) (by decide) fun _ => rfl
  obtain ⟨r, -, hr, -, hzulu, hadds, hdiffer⟩ := (hseconds _ hlater).1 (by decide)
  obtain ⟨r', -, hr', hshape, -, hadds', hdiffer'⟩ := (hdays _ hearlier).1 (by decide)
  obtain ⟨n, hforward, hback, -⟩ := hdiff _ _ "hours" 3600 hx hy (by decide)
  exact ⟨⟨r, hr, hzulu, hadds _ rfl rfl rfl, hdiffer⟩,
    ⟨r', hr', hshape, hadds' _ rfl rfl rfl, hdiffer'⟩, n, hforward, hback⟩

/-! ## Months and years -/

/-- The date-time some months away, in the calendar without bounds on the number of months. -/
def monthsAway? (t : DateTime) (months : Int) : Option DateTime :=
  (t.date.shiftMonths? months).map fun date => ⟨date, t.time⟩

/-- Neither the width of a count nor its sign shows: as many months as no count can hold are too
many for the calendar, and to subtract is to add with the other sign. -/
theorem moveMonths?_eq (ht : t.IsHeld) (n : Int64) : moveMonths? t n = monthsAway? t n.toInt := by
  simp only [moveMonths?, DateTime.addMonths?, DateTime.subMonths?, Date.addMonths?,
    Date.subMonths?, monthsAway?]
  by_cases hfar : Date.monthCap < n.toInt.natAbs
  · rw [Date.shiftMonths?_eq_none ht.real ht.inRange hfar, if_neg (Nat.not_le.2 hfar),
      if_neg (Nat.not_le.2 hfar)]
    split_ifs <;> rfl
  · have hfits : n.toInt.natAbs < 0x100000000 := (Nat.not_lt.1 hfar).trans_lt (by decide)
    rw [if_neg (Nat.not_le.2 hfits), if_pos (Nat.not_lt.1 hfar), if_pos (Nat.not_lt.1 hfar)]
    split_ifs with hsign
    · rw [Int.natAbs_of_nonneg hsign]
    · have hneg : -(n.toInt.natAbs : Int) = n.toInt := by omega
      rw [hneg]

/-- As many years as have too many months for 64 bits are too many for the calendar. -/
theorem moveYears?_eq (ht : t.IsHeld) (n : Int64) :
    (monthsOfYears? n).bind (moveMonths? t) = monthsAway? t (n.toInt * 12) := by
  simp only [monthsOfYears?]
  split_ifs with hfits
  · rw [Option.bind_some, moveMonths?_eq ht, Int64.toInt_ofInt_of_le hfits.1 hfits.2]
  · have hfar : Date.monthCap < (n.toInt * 12).natAbs := by
      have hcap : Date.monthCap < 2 ^ 63 := by decide
      omega
    rw [monthsAway?, Date.shiftMonths?_eq_none ht.real ht.inRange hfar]
    rfl

section Months

variable {year months : Int} {month : Nat}

section Target

variable (hx : x.IsReal) (hlow : 1 ≤ month) (hhigh : month ≤ 12)
include hx hlow hhigh

theorem isHeld_inMonth (hyear : -262143 ≤ year ∧ year ≤ 262142) :
    DateTime.IsHeld ⟨x.date.inMonth year month, x.moment.time⟩ :=
  ⟨Date.isReal_inMonth hx.date year hlow hhigh, (Date.inRange_iff _).2 hyear, hx.isHeld_moment.time⟩

variable (h : year * 12 + (month - 1) = x.date.year * 12 + (x.date.month - 1) + months)
include h

theorem monthsAway?_moment : monthsAway? x.moment months =
    if -262143 ≤ year ∧ year ≤ 262142 then some ⟨x.date.inMonth year month,
      x.moment.time⟩ else none := by
  have hdate : x.moment.date.shiftMonths? months = _ := Date.shiftMonths?_eq hx.date hlow hhigh h
  rw [monthsAway?, hdate]
  split_ifs <;> rfl

variable (hunit : shiftBy? x.moment n unit = some (monthsAway? x.moment months))
include hunit

/-- A unit of months is added in range of the years that can be held. -/
theorem adds_months (hyear : -262143 ≤ year ∧ year ≤ 262142) :
    Adds x.text n unit (inShape x ⟨x.date.inMonth year month, x.moment.time⟩).text := by
  refine adds_inShape hx (isHeld_inMonth hx hlow hhigh hyear) ?_
  rw [hunit, monthsAway?_moment hx hlow hhigh h, if_pos hyear]

theorem addFails_months (hyear : ¬(-262143 ≤ year ∧ year ≤ 262142)) :
    AddFails x.text n unit (.domain (.dateOutOfRange n unit)) := by
  refine addFails_of_shift hx ?_
  rw [hunit, monthsAway?_moment hx hlow hhigh h, if_neg hyear]

end Target

theorem year_months (x : Stamp) (n : Int64) :
    (x.date.year + n.toInt) * 12 + (x.date.month - 1) =
      x.date.year * 12 + (x.date.month - 1) + n.toInt * 12 := by ring

theorem shiftBy?_months (hx : x.IsReal) (n : Int64) :
    shiftBy? x.moment n "months" = some (monthsAway? x.moment n.toInt) :=
  congrArg some (moveMonths?_eq hx.isHeld_moment n)

theorem shiftBy?_years (hx : x.IsReal) (n : Int64) :
    shiftBy? x.moment n "years" = some (monthsAway? x.moment (n.toInt * 12)) :=
  congrArg some (moveYears?_eq hx.isHeld_moment n)

theorem adds_years (hx : x.IsReal)
    (hyear : -262143 ≤ x.date.year + n.toInt ∧ x.date.year + n.toInt ≤ 262142) :
    Adds x.text n "years"
      (inShape x ⟨x.date.inMonth (x.date.year + n.toInt) x.date.month, x.moment.time⟩).text := by
  obtain ⟨hlow, hhigh, -⟩ := (Date.isReal_iff x.date).1 hx.date
  exact adds_months hx hlow hhigh (year_months x n) (shiftBy?_years hx n) hyear

theorem addFails_years (hx : x.IsReal)
    (hyear : ¬(-262143 ≤ x.date.year + n.toInt ∧ x.date.year + n.toInt ≤ 262142)) :
    AddFails x.text n "years" (.domain (.dateOutOfRange n "years")) := by
  obtain ⟨hlow, hhigh, -⟩ := (Date.isReal_iff x.date).1 hx.date
  exact addFails_months hx hlow hhigh (year_months x n) (shiftBy?_years hx n) hyear

/-- Years are added as months, twelve for each. -/
theorem adds_years_iff (hx : x.IsReal) (r : String) :
    Adds x.text n "years" r ↔ ∃ m : Int64, m.toInt = 12 * n.toInt ∧ Adds x.text m "months" r := by
  obtain ⟨hlow, hhigh, -⟩ := (Date.isReal_iff x.date).1 hx.date
  obtain ⟨hfirst, hlast⟩ := (Date.inRange_iff x.date).1 hx.inRange
  by_cases hyear : -262143 ≤ x.date.year + n.toInt ∧ x.date.year + n.toInt ≤ 262142
  · have hyears := adds_years hx hyear
    have hmonths {m : Int64} (hm : m.toInt = 12 * n.toInt) : Adds x.text m "months"
        (inShape x ⟨x.date.inMonth (x.date.year + n.toInt) x.date.month, x.moment.time⟩).text :=
      adds_months hx hlow hhigh (by omega) (shiftBy?_months hx m) hyear
    constructor
    · intro hr
      have hfits : (Int64.ofInt (12 * n.toInt)).toInt = 12 * n.toInt :=
        Int64.toInt_ofInt_of_le (by omega) (by omega)
      exact ⟨Int64.ofInt (12 * n.toInt), hfits, hr.unique hyears ▸ hmonths hfits⟩
    · rintro ⟨m, hm, hr⟩
      exact hr.unique (hmonths hm) ▸ hyears
  · constructor
    · intro hr
      exact absurd (addFails_years hx hyear) hr.not_addFails
    · rintro ⟨m, hm, hr⟩
      exact absurd (addFails_months hx hlow hhigh (by omega) (shiftBy?_months hx m) hyear)
        hr.not_addFails

end Months

/-- Adding `n` months to a date leads to the month `n` months away: to the same day of it, or to its
last day if the day does not exist there, at the same time of day. Only a year that cannot be held
makes it fail. Adding years is adding twelve months for each, where so many months fit 64 bits. -/
theorem month_addition_clamps (x : Stamp) (hx : x.IsReal) (n : Int64) :
    (∀ (year : Int) (month : Nat), 1 ≤ month → month ≤ 12 →
      year * 12 + (month - 1) = x.date.year * 12 + (x.date.month - 1) + n.toInt →
      (-262143 ≤ year ∧ year ≤ 262142 →
        ∃ r : Stamp, r.IsReal ∧ r.moment = ⟨x.date.inMonth year month, x.moment.time⟩ ∧
          r.clock.isSome = x.clock.isSome ∧ r.zulu = x.clock.isSome ∧
            Adds x.text n "months" r.text) ∧
      (¬(-262143 ≤ year ∧ year ≤ 262142) →
        AddFails x.text n "months" (.domain (.dateOutOfRange n "months")))) ∧
    (∀ r, Adds x.text n "years" r ↔ ∃ m : Int64,
      m.toInt = 12 * n.toInt ∧ Adds x.text m "months" r) ∧
    ((∃ r, Adds x.text n "years" r) ∨
      AddFails x.text n "years" (.domain (.dateOutOfRange n "years"))) := by
  refine ⟨fun year month hlow hhigh h => ⟨fun hyear => ?_,
    addFails_months hx hlow hhigh h (shiftBy?_months hx n)⟩, adds_years_iff hx, ?_⟩
  · have ht := isHeld_inMonth hx hlow hhigh hyear
    have hmidnight : x.clock = none → x.moment.time = .midnight := fun hclock => by
      rw [Stamp.moment, hclock]
      rfl
    exact ⟨_, isReal_inShape x ht, moment_inShape ht hmidnight, clock_inShape x _, zulu_inShape x _,
      adds_months hx hlow hhigh h (shiftBy?_months hx n) hyear⟩
  · by_cases hyear : -262143 ≤ x.date.year + n.toInt ∧ x.date.year + n.toInt ≤ 262142
    · exact .inl ⟨_, adds_years hx hyear⟩
    · exact .inr (addFails_years hx hyear)

/-- A year after a leap day, and more months than there are. -/
theorem month_addition_clamps_leap_day :
    (∃ r : Stamp, r.moment = ⟨⟨2025, 2, 28⟩, ⟨43200, 0⟩⟩ ∧
      Adds "2024-02-29T12:00" 12 "months" r.text ∧ Adds "2024-02-29T12:00" 1 "years" r.text) ∧
    (adding "2024-02-29T12:00" Int64.minValue "months").run 0x53 =
      .error (.domain (.dateOutOfRange Int64.minValue "months")) := by
  have hx : (⟨⟨2024, 2, 29⟩, some ⟨12, 0, none⟩, false⟩ : Stamp).IsReal :=
    ⟨by decide, by decide,
      by rintro c ⟨⟩; exact ⟨by decide, by decide, by rintro s ⟨⟩, by rintro s ⟨⟩⟩⟩
  obtain ⟨hmonths, -, -⟩ := month_addition_clamps _ hx 12
  obtain ⟨-, hyears, -⟩ := month_addition_clamps _ hx 1
  obtain ⟨hleast, -, -⟩ := month_addition_clamps _ hx Int64.minValue
  obtain ⟨r, -, hr, -, -, hadds⟩ :=
    (hmonths 2025 2 (by decide) (by decide) (by decide)).1 (by decide)
  exact ⟨⟨r, hr, hadds, (hyears r.text).2 ⟨12, by decide, hadds⟩⟩,
    (hleast (-768614336404562627) 6 (by decide) (by decide) (by decide)).2
      (by decide) _ rfl rfl rfl⟩

end TagMachine.Builtin
