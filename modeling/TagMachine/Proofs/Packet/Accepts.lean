import TagMachine.Proofs.Outcome
import TagMachine.Proofs.Packet.Reads

set_option autoImplicit false

/-! # What readers accept

`Accepts r L`: the reader succeeds just where bytes that the relation `L` has stand at the front of
a span, takes exactly these bytes and returns the value that `L` has them stand for. Where `Reads`
follows a reader over bytes that were written, this also says that it accepts nothing else.

There is one law for each way that readers are put together. A loop up to the end of a span accepts
the bytes of its values one after another (`untilEnd_eq_ok`), and the number that bounds it does not
matter (`untilEnd_congr`).
-/

namespace TagMachine

/-- The second span is what is left of the first behind some bytes. -/
structure Span.Splits (s : Span) (front : List UInt8) (t : Span) : Prop where
  bytes : s.bytes = front ++ t.bytes
  part : t.part = s.part
  offset : t.offset = s.offset + front.length

/-- What is left when all of a span was read. -/
def Span.finish (s : Span) : Span := ⟨s.part, s.offset + s.bytes.length, []⟩

namespace Span

variable {s t : Span} {xs ys : List UInt8}

theorem splits_nil : s.Splits [] t ↔ t = s := by
  constructor
  · rintro ⟨hbytes, hpart, hoffset⟩
    cases s
    cases t
    simp_all
  · rintro rfl
    exact ⟨rfl, rfl, rfl⟩

theorem splits_append : s.Splits (xs ++ ys) t ↔ ∃ u, s.Splits xs u ∧ u.Splits ys t := by
  constructor
  · rintro ⟨hbytes, hpart, hoffset⟩
    refine ⟨⟨s.part, s.offset + xs.length, ys ++ t.bytes⟩, ⟨?_, rfl, rfl⟩, ⟨rfl, hpart, ?_⟩⟩
    · rw [hbytes, List.append_assoc]
    · rw [hoffset, List.length_append, Nat.add_assoc]
  · rintro ⟨u, ⟨hxs, hpart, hoffset⟩, hys, hpart', hoffset'⟩
    refine ⟨?_, hpart'.trans hpart, ?_⟩
    · rw [hxs, hys, List.append_assoc]
    · rw [hoffset', hoffset, List.length_append, Nat.add_assoc]

theorem Splits.finish_eq (h : s.Splits xs t) : t.finish = s.finish := by
  unfold finish
  rw [h.part, h.offset, h.bytes, List.length_append, Nat.add_assoc]

theorem finish_of_nil (h : s.bytes = []) : s.finish = s := by
  obtain ⟨part, offset, bytes⟩ := s
  obtain rfl : bytes = [] := h
  rfl

end Span

namespace Reader

open Source

variable {α β : Type} {r : Reader α} {L : List UInt8 → α → Prop}

/-- The reader succeeds just where bytes of the relation stand at the front, and takes these. -/
def Accepts (r : Reader α) (L : List UInt8 → α → Prop) : Prop :=
  ∀ s a t, r s = .ok (a, t) ↔ ∃ bytes, L bytes a ∧ s.Splits bytes t

theorem bind_eq_ok_iff {f : α → Reader β} {s t : Span} {b : β} :
    (r >>= f) s = .ok (b, t) ↔ ∃ a u, r s = .ok (a, u) ∧ f a u = .ok (b, t) := by
  rw [show (r >>= f) s = (r s >>= fun p => f p.1 p.2) from rfl, bind_eq_ok, Prod.exists]

theorem accepts_pure (a : α) : Accepts (pure a) fun bytes b => bytes = [] ∧ b = a := by
  intro s b t
  rw [show (pure a : Reader α) s = .ok (a, s) from rfl, Except.ok.injEq, Prod.mk.injEq]
  constructor
  · rintro ⟨rfl, rfl⟩
    exact ⟨[], ⟨rfl, rfl⟩, Span.splits_nil.2 rfl⟩
  · rintro ⟨_, ⟨rfl, rfl⟩, hsplits⟩
    exact ⟨rfl, (Span.splits_nil.1 hsplits).symm⟩

theorem accepts_throw (e : FormatError) : Accepts (throw e : Reader α) fun _ _ => False := by
  intro s a t
  refine iff_of_false (fun h => ?_) fun ⟨_, h, _⟩ => h
  cases h

theorem accepts_bind {f : α → Reader β} {M : α → List UInt8 → β → Prop} (hr : Accepts r L)
    (hf : ∀ a, Accepts (f a) (M a)) :
    Accepts (r >>= f) fun bytes b => ∃ xs ys a, bytes = xs ++ ys ∧ L xs a ∧ M a ys b := by
  intro s b t
  simp only [bind_eq_ok_iff, hr s, hf _ _ b t]
  constructor
  · rintro ⟨a, u, ⟨xs, hxs, hsplits⟩, ys, hys, hsplits'⟩
    exact ⟨xs ++ ys, ⟨xs, ys, a, rfl, hxs, hys⟩, Span.splits_append.2 ⟨u, hsplits, hsplits'⟩⟩
  · rintro ⟨_, ⟨xs, ys, a, rfl, hxs, hys⟩, hsplits⟩
    obtain ⟨u, hsplits, hsplits'⟩ := Span.splits_append.1 hsplits
    exact ⟨a, u, ⟨xs, hxs, hsplits⟩, ys, hys, hsplits'⟩

theorem accepts_congr {M : List UInt8 → α → Prop} (hr : Accepts r L)
    (h : ∀ bytes a, L bytes a ↔ M bytes a) : Accepts r M := by
  intro s a t
  simp only [hr s a t, h]

theorem accepts_map (g : α → β) (hr : Accepts r L) :
    Accepts (do return g (← r)) fun bytes b => ∃ a, L bytes a ∧ b = g a := by
  refine accepts_congr (accepts_bind hr fun a => accepts_pure (g a)) fun bytes b => ?_
  constructor
  · rintro ⟨xs, _, a, rfl, hxs, rfl, rfl⟩
    rw [List.append_nil]
    exact ⟨a, hxs, rfl⟩
  · rintro ⟨a, hbytes, rfl⟩
    exact ⟨bytes, [], a, (List.append_nil bytes).symm, hbytes, rfl, rfl⟩

/-! ## Bytes and numbers -/

/-- The reader takes so many bytes, whatever they are, and returns what a function makes of them. -/
def Fixed (r : Reader α) (count : Nat) (g : List UInt8 → α) : Prop :=
  Accepts r fun bytes a => bytes.length = count ∧ a = g bytes

theorem fixed_pure (a : α) : Fixed (pure a) 0 fun _ => a :=
  accepts_congr (accepts_pure a) fun _ _ => and_congr_left' List.length_eq_zero_iff.symm

theorem fixed_take (count : Nat) : Fixed (take count) count id := by
  intro s a t
  unfold take
  dsimp only
  rw [List.length_take]
  constructor
  · intro h
    split at h
    · cases h
    · obtain ⟨rfl, rfl⟩ := Prod.mk.inj (Except.ok.inj h)
      have hcount : count ≤ s.bytes.length := by omega
      refine ⟨_, ⟨List.length_take_of_le hcount, rfl⟩, (List.take_append_drop ..).symm, rfl, ?_⟩
      rw [List.length_take_of_le hcount]
  · rintro ⟨_, ⟨rfl, rfl⟩, hbytes, hpart, hoffset⟩
    have hcount : ¬min a.length s.bytes.length < a.length := by
      rw [hbytes, List.length_append]
      omega
    rw [if_neg hcount, hbytes, List.take_left, List.drop_left, ← hoffset, ← hpart]

theorem fixed_map {count : Nat} {g : List UInt8 → α} (hr : Fixed r count g) (f : α → β) :
    Fixed (do return f (← r)) count fun bytes => f (g bytes) := by
  refine accepts_congr (accepts_map f hr) fun bytes b => ?_
  constructor
  · rintro ⟨_, ⟨hlength, rfl⟩, rfl⟩
    exact ⟨hlength, rfl⟩
  · rintro ⟨hlength, rfl⟩
    exact ⟨_, ⟨hlength, rfl⟩, rfl⟩

theorem fixed_number (count : Nat) : Fixed (number count) count littleEndian :=
  fixed_map (fixed_take count) littleEndian

theorem fixed_uint8 : Fixed uint8 1 fun bytes => (littleEndian bytes).toUInt8 :=
  fixed_map (fixed_number 1) _

theorem fixed_uint64 : Fixed uint64 8 fun bytes => (littleEndian bytes).toUInt64 :=
  fixed_map (fixed_number 8) _

theorem fixed_text (count : Nat) : Fixed (text count) count Text.ofUtf8 :=
  fixed_map (fixed_take count) Text.ofUtf8

theorem fixed_skip (count : Nat) : Fixed (skip count) count fun _ => () :=
  fixed_map (fixed_take count) fun _ => ()

theorem writeNumber_littleEndian (bytes : List UInt8) :
    writeNumber bytes.length (littleEndian bytes) = bytes := by
  induction bytes with
  | nil => rfl
  | cons b bytes ih =>
    have hb : b.toNat < 256 := b.toNat_lt
    have hdigit : UInt8.ofNat (littleEndian (b :: bytes)) = b := by
      rw [← UInt8.toNat_inj, UInt8.toNat_ofNat', littleEndian]
      omega
    have hrest : littleEndian (b :: bytes) / 256 = littleEndian bytes := by
      rw [littleEndian]
      omega
    rw [List.length_cons, writeNumber, hdigit, hrest, ih]

theorem writeNumber_inj {count m n : Nat} (hm : m < 256 ^ count) (hn : n < 256 ^ count)
    (h : writeNumber count m = writeNumber count n) : m = n := by
  have hvalue := congrArg littleEndian h
  rwa [littleEndian_writeNumber, littleEndian_writeNumber, Nat.mod_eq_of_lt hm,
    Nat.mod_eq_of_lt hn] at hvalue

/-- A reader of numbers of some width accepts a number as it is written. -/
theorem accepts_numberAs {count : Nat} {g : Nat → α} (toNat : α → Nat)
    (hg : ∀ n < 256 ^ count, toNat (g n) = n) (hto : ∀ a, toNat a < 256 ^ count ∧ g (toNat a) = a) :
    Accepts (do return g (← number count)) fun bytes a => bytes = writeNumber count (toNat a) := by
  refine accepts_congr (fixed_map (fixed_number count) g) fun bytes a => ?_
  constructor
  · rintro ⟨rfl, rfl⟩
    rw [hg _ (littleEndian_lt bytes), writeNumber_littleEndian]
  · rintro rfl
    refine ⟨length_writeNumber .., ?_⟩
    dsimp only
    rw [littleEndian_writeNumber, Nat.mod_eq_of_lt (hto a).1, (hto a).2]

theorem accepts_uint8 : Accepts uint8 fun bytes n => bytes = writeNumber 1 n.toNat :=
  accepts_numberAs UInt8.toNat (fun _ => UInt8.toNat_ofNat_of_lt) fun n =>
    ⟨n.toNat_lt, UInt8.ofNat_toNat⟩

theorem accepts_uint16 : Accepts uint16 fun bytes n => bytes = writeNumber 2 n.toNat :=
  accepts_numberAs UInt16.toNat (fun _ => UInt16.toNat_ofNat_of_lt) fun n =>
    ⟨n.toNat_lt, UInt16.ofNat_toNat⟩

theorem accepts_uint32 : Accepts uint32 fun bytes n => bytes = writeNumber 4 n.toNat :=
  accepts_numberAs UInt32.toNat (fun _ => UInt32.toNat_ofNat_of_lt) fun n =>
    ⟨n.toNat_lt, UInt32.ofNat_toNat⟩

theorem within_eq_ok {count : Nat} {s t : Span} {a : α} :
    within count r s = .ok (a, t) ↔
      ∃ bytes u, take count s = .ok (bytes, t) ∧ r { s with bytes := bytes } = .ok (a, u) := by
  have hwithin : within count r s = (take count s >>= fun p =>
      (r { s with bytes := p.1 } >>= fun q => .ok (q, p.2)) >>= fun q => .ok (q.1.1, q.2)) := rfl
  simp only [hwithin, bind_eq_ok, Prod.exists, Except.ok.injEq, Prod.mk.injEq]
  constructor
  · rintro ⟨bytes, _, htake, _, _, _, ⟨_, u, hr, ⟨rfl, rfl⟩, rfl⟩, rfl, rfl⟩
    exact ⟨bytes, u, htake, hr⟩
  · rintro ⟨bytes, u, htake, hr⟩
    exact ⟨bytes, t, htake, a, u, t, ⟨a, u, hr, ⟨rfl, rfl⟩, rfl⟩, rfl, rfl⟩

/-- A reader that is kept to some bytes may leave the last of them. -/
theorem accepts_within (hr : Accepts r L) (count : Nat) :
    Accepts (within count r) fun bytes a =>
      bytes.length = count ∧ ∃ front more, bytes = front ++ more ∧ L front a := by
  intro s a t
  have htake := fixed_take count s
  simp only [within_eq_ok, htake, hr _ a]
  constructor
  · rintro ⟨_, u, ⟨_, ⟨hlength, rfl⟩, hsplits⟩, front, hfront, hinner⟩
    exact ⟨_, ⟨hlength, front, u.bytes, hinner.bytes, hfront⟩, hsplits⟩
  · rintro ⟨_, ⟨hlength, front, more, rfl, hfront⟩, hsplits⟩
    exact ⟨_, ⟨s.part, s.offset + front.length, more⟩, ⟨_, ⟨hlength, rfl⟩, hsplits⟩, front, hfront,
      rfl, rfl, rfl⟩

theorem accepts_within_fixed {least : Nat} {g : List UInt8 → α} (hr : Fixed r least g)
    (count : Nat) :
    Accepts (within count r) fun bytes a =>
      bytes.length = count ∧ least ≤ bytes.length ∧ a = g (bytes.take least) := by
  refine accepts_congr (accepts_within hr count) fun bytes a => and_congr_right fun _ => ?_
  constructor
  · rintro ⟨front, more, rfl, rfl, rfl⟩
    exact ⟨by simp, by rw [List.take_left]⟩
  · rintro ⟨hleast, rfl⟩
    exact ⟨_, _, (List.take_append_drop least bytes).symm, List.length_take_of_le hleast, rfl⟩

/-! ## Loops -/

theorem untilEnd_nil (r : Reader α) (count : Nat) {s : Span} (h : s.bytes = []) :
    untilEnd r count s = .ok ([], s) := by
  cases count with
  | zero => rfl
  | succ count =>
    show (if s.bytes.isEmpty = true then _ else _ : Reader (List α)) s = _
    rw [h]
    rfl

theorem untilEnd_cons (r : Reader α) (count : Nat) {s : Span} (h : s.bytes ≠ []) :
    untilEnd r (count + 1) s =
      (r s >>= fun p => untilEnd r count p.2 >>= fun q => .ok (p.1 :: q.1, q.2)) := by
  show (if s.bytes.isEmpty = true then _ else _ : Reader (List α)) s = _
  rw [List.isEmpty_eq_false_iff.2 h]
  rfl

/-- Bytes that stand for values one after another. -/
inductive Sequence (L : List UInt8 → α → Prop) : List UInt8 → List α → Prop
  | nil : Sequence L [] []
  | cons {xs ys : List UInt8} {a : α} {as : List α} (head : L xs a) (tail : Sequence L ys as) :
      Sequence L (xs ++ ys) (a :: as)

/-- A loop with a count accepts the bytes of as many values. -/
theorem accepts_times (hr : Accepts r L) (count : Nat) :
    Accepts (times r count) fun bytes as => Sequence L bytes as ∧ as.length = count := by
  induction count with
  | zero =>
    refine accepts_congr (accepts_pure []) fun bytes as => ?_
    constructor
    · rintro ⟨rfl, rfl⟩
      exact ⟨.nil, rfl⟩
    · rintro ⟨h, hlength⟩
      obtain rfl := List.length_eq_zero_iff.1 hlength
      cases h
      exact ⟨rfl, rfl⟩
  | succ count ih =>
    refine accepts_congr (accepts_bind hr fun a => accepts_map (a :: ·) ih) fun bytes as => ?_
    constructor
    · rintro ⟨xs, ys, a, rfl, hxs, as, ⟨hys, hlength⟩, rfl⟩
      exact ⟨.cons hxs hys, congrArg (· + 1) hlength⟩
    · rintro ⟨h, hlength⟩
      cases h with
      | nil => cases hlength
      | @cons xs ys a as hxs hys =>
        exact ⟨xs, ys, a, rfl, hxs, as, ⟨hys, Nat.succ.inj hlength⟩, rfl⟩

section Loop

variable (hr : Accepts r L) (hne : ∀ bytes a, L bytes a → bytes ≠ [])
include hne

theorem sequence_nil {as : List α} : Sequence L [] as ↔ as = [] := by
  constructor
  · generalize hbytes : [] = bytes
    rintro (_ | ⟨head, -⟩)
    · rfl
    · exact absurd (List.append_eq_nil_iff.1 hbytes.symm).1 (hne _ _ head)
  · rintro rfl
    exact .nil

include hr

/-- A value takes at least one byte. -/
theorem Accepts.length_lt {s t : Span} {a : α} (h : r s = .ok (a, t)) :
    t.bytes.length < s.bytes.length := by
  obtain ⟨bytes, hbytes, hsplits⟩ := (hr s a t).1 h
  have hpos := List.length_pos_iff.2 (hne bytes a hbytes)
  rw [hsplits.bytes, List.length_append]
  omega

/-- A loop up to the end accepts the bytes of a sequence, and all of them. -/
theorem untilEnd_eq_ok {count : Nat} {s t : Span} {as : List α} (hcount : s.bytes.length ≤ count) :
    untilEnd r count s = .ok (as, t) ↔ Sequence L s.bytes as ∧ t = s.finish := by
  have hnil : ∀ {count s as}, s.bytes = [] →
      (untilEnd r count s = .ok (as, t) ↔ Sequence L s.bytes as ∧ t = s.finish) := by
    intro count s as hbytes
    rw [untilEnd_nil r count hbytes, Span.finish_of_nil hbytes, hbytes, sequence_nil hne,
      Except.ok.injEq, Prod.mk.injEq]
    exact and_congr eq_comm eq_comm
  induction count generalizing s as with
  | zero => exact hnil (List.eq_nil_of_length_eq_zero (Nat.le_zero.1 hcount))
  | succ count ih =>
    by_cases hbytes : s.bytes = []
    · exact hnil hbytes
    · simp only [untilEnd_cons r _ hbytes, bind_eq_ok, Prod.exists, Except.ok.injEq, Prod.mk.injEq]
      constructor
      · rintro ⟨a, u, hread, as, _, hrest, rfl, rfl⟩
        have hlt := hr.length_lt hne hread
        obtain ⟨hsequence, rfl⟩ := (ih (by omega)).1 hrest
        obtain ⟨xs, hxs, hsplits⟩ := (hr s a u).1 hread
        rw [hsplits.bytes, hsplits.finish_eq]
        exact ⟨.cons hxs hsequence, rfl⟩
      · rintro ⟨hsequence, rfl⟩
        generalize hall : s.bytes = bytes at hsequence
        cases hsequence with
        | nil => exact absurd hall hbytes
        | @cons xs ys a as hxs hys =>
          have hsplits : s.Splits xs ⟨s.part, s.offset + xs.length, ys⟩ := ⟨hall, rfl, rfl⟩
          have hread := (hr s a _).2 ⟨xs, hxs, hsplits⟩
          have hlt := hr.length_lt hne hread
          refine ⟨a, _, hread, as, s.finish, (ih (by omega)).2 ⟨hys, ?_⟩, rfl, rfl⟩
          exact hsplits.finish_eq.symm

/-- Where every value takes a byte, a loop has ended after as many rounds as there are bytes, so it
does not matter how many more it might have. -/
theorem untilEnd_congr {count count' : Nat} {s : Span} (h : s.bytes.length ≤ count)
    (h' : s.bytes.length ≤ count') : untilEnd r count s = untilEnd r count' s := by
  induction count generalizing s count' with
  | zero =>
    have hbytes : s.bytes = [] := List.eq_nil_of_length_eq_zero (Nat.le_zero.1 h)
    rw [untilEnd_nil r _ hbytes, untilEnd_nil r _ hbytes]
  | succ count ih =>
    by_cases hbytes : s.bytes = []
    · rw [untilEnd_nil r _ hbytes, untilEnd_nil r _ hbytes]
    · have hpos := List.length_pos_iff.2 hbytes
      obtain ⟨k, rfl⟩ : ∃ k, count' = k + 1 := Nat.exists_eq_add_one.2 (by omega)
      rw [untilEnd_cons r _ hbytes, untilEnd_cons r _ hbytes]
      cases hread : r s with
      | error e => rfl
      | ok p =>
        have hlt := hr.length_lt hne hread
        have hrest : untilEnd r count p.2 = untilEnd r k p.2 := ih (by omega) (by omega)
        rw [ok_bind, ok_bind, hrest]

end Loop

end Reader

end TagMachine
