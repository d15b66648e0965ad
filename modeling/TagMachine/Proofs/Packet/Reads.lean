import Mathlib.Tactic
import TagMachine.Packet.Load
import TagMachine.Proofs.Text.Utf8

set_option autoImplicit false

/-! # What readers make of written bytes

`Reads r bytes a`: wherever `bytes` stand at the front of a span, `r` takes exactly them and returns
`a`. Readers are put together with `bind`, `times`, `within` and `untilEnd`, and the bytes of their
parts with `++`; there is one law for each (`reads_bind`, `reads_times`, `reads_within`,
`untilEnd_flatten`).
-/

namespace TagMachine.Reader

open Source

variable {α β : Type} {r : Reader α} {xs : List UInt8} {a : α} {count n : Nat}

/-- The reader takes the bytes off the front of any span, no more, and returns the value. -/
def Reads (r : Reader α) (bytes : List UInt8) (a : α) : Prop :=
  ∀ (part : Section) (offset : Nat) (rest : List UInt8),
    r ⟨part, offset, bytes ++ rest⟩ = .ok (a, ⟨part, offset + bytes.length, rest⟩)

/-! ## Composition -/

theorem reads_pure (a : α) : Reads (pure a) [] a := fun _ _ _ => rfl

theorem reads_bind {f : α → Reader β} {ys : List UInt8} {b : β}
    (hr : Reads r xs a) (hf : Reads (f a) ys b) : Reads (r >>= f) (xs ++ ys) b := by
  intro part offset rest
  show (r ⟨part, offset, xs ++ ys ++ rest⟩ >>= fun p => f p.1 p.2) = _
  rw [List.append_assoc, hr part offset (ys ++ rest)]
  show f a ⟨part, offset + xs.length, ys ++ rest⟩ = _
  rw [hf part _ rest, List.length_append, Nat.add_assoc]

theorem reads_map (g : α → β) (hr : Reads r xs a) : Reads (do return g (← r)) xs (g a) := by
  have hbind : Reads (do return g (← r)) (xs ++ []) (g a) := reads_bind hr (reads_pure (g a))
  rwa [List.append_nil] at hbind

/-- The values of a list, each with its own bytes. -/
theorem reads_times {bss : List (List UInt8)} {xs : List α}
    (h : List.Forall₂ (Reads r) bss xs) : Reads (times r xs.length) bss.flatten xs := by
  induction h with
  | nil => exact reads_pure []
  | cons hx _ ih => exact reads_bind hx (reads_map _ ih)

theorem reads_times_flatMap {write : α → List UInt8} {xs : List α}
    (h : ∀ x ∈ xs, Reads r (write x) x) : Reads (times r xs.length) (xs.flatMap write) xs := by
  rw [List.flatMap_def]
  refine reads_times (List.forall₂_map_left_iff.2 (List.forall₂_same.2 h))

/-! ## Bytes and numbers -/

theorem reads_take (xs : List UInt8) : Reads (take xs.length) xs xs := by
  intro part offset rest
  simp [take]

/-- A reader that takes all of its bytes can be kept to them. -/
theorem reads_within (hr : Reads r xs a) : Reads (within xs.length r) xs a := by
  intro part offset rest
  have hinner : r ⟨part, offset, xs⟩ = .ok (a, ⟨part, offset + xs.length, []⟩) := by
    have := hr part offset []
    rwa [List.append_nil] at this
  show (take xs.length ⟨part, offset, xs ++ rest⟩ >>= fun p =>
    (r ⟨part, offset, p.1⟩ >>= fun q => Except.ok (q, p.2)) >>= fun q => Except.ok (q.1.1, q.2)) = _
  rw [reads_take xs part offset rest]
  show ((r ⟨part, offset, xs⟩ >>= fun q => Except.ok (q, _)) >>= fun q =>
    Except.ok (q.1.1, q.2)) = _
  rw [hinner]
  rfl

/-- The last `count` digits of a number to the base 256, the least significant first. -/
def writeNumber : Nat → Nat → List UInt8
  | 0, _ => []
  | count + 1, n => UInt8.ofNat n :: writeNumber count (n / 256)

@[simp] theorem length_writeNumber (count n : Nat) : (writeNumber count n).length = count := by
  induction count generalizing n with
  | zero => rfl
  | succ count ih => simp [writeNumber, ih]

theorem littleEndian_lt (bytes : List UInt8) : littleEndian bytes < 256 ^ bytes.length := by
  induction bytes with
  | nil => exact Nat.one_pos
  | cons b bytes ih =>
    have hb : b.toNat < 256 := b.toNat_lt
    rw [littleEndian, List.length_cons, Nat.pow_succ']
    omega

theorem littleEndian_writeNumber (count n : Nat) :
    littleEndian (writeNumber count n) = n % 256 ^ count := by
  induction count generalizing n with
  | zero => simp [writeNumber, littleEndian, Nat.mod_one]
  | succ count ih =>
    have hsplit : n % 256 ^ (count + 1) = n % 256 + 256 * (n / 256 % 256 ^ count) := by
      rw [Nat.pow_succ', Nat.mod_mul]
    rw [writeNumber, littleEndian, ih, hsplit]
    simp

theorem reads_number (hn : n < 256 ^ count) : Reads (number count) (writeNumber count n) n := by
  have htake := reads_take (writeNumber count n)
  rw [length_writeNumber] at htake
  have hmap := reads_map littleEndian htake
  rwa [littleEndian_writeNumber, Nat.mod_eq_of_lt hn] at hmap

theorem reads_numberAs (g : Nat → α) (hn : n < 256 ^ count) (ha : g n = a) :
    Reads (do return g (← number count)) (writeNumber count n) a :=
  ha ▸ reads_map g (reads_number hn)

theorem reads_uint8 (n : UInt8) : Reads uint8 (writeNumber 1 n.toNat) n :=
  reads_numberAs _ n.toNat_lt UInt8.ofNat_toNat

theorem reads_uint16 (n : UInt16) : Reads uint16 (writeNumber 2 n.toNat) n :=
  reads_numberAs _ n.toNat_lt UInt16.ofNat_toNat

theorem reads_uint32 (n : UInt32) : Reads uint32 (writeNumber 4 n.toNat) n :=
  reads_numberAs _ n.toNat_lt UInt32.ofNat_toNat

theorem reads_uint64 (n : UInt64) : Reads uint64 (writeNumber 8 n.toNat) n :=
  reads_numberAs _ n.toNat_lt UInt64.ofNat_toNat

theorem reads_tagSet (t : TagSet) : Reads tagSet (writeNumber 8 t.toNat) t :=
  reads_numberAs _ t.isLt (by simp)

/-! ## Lengths and texts -/

/-- A length in two bytes. -/
theorem reads_length16 (hn : n < 2 ^ 16) :
    ∃ k : UInt16, k.toNat = n ∧ Reads uint16 (writeNumber 2 n) k :=
  ⟨UInt16.ofNat n, UInt16.toNat_ofNat_of_lt hn, reads_numberAs _ hn rfl⟩

/-- A length in four bytes. -/
theorem reads_length32 (hn : n < 2 ^ 32) :
    ∃ k : UInt32, k.toNat = n ∧ Reads uint32 (writeNumber 4 n) k :=
  ⟨UInt32.ofNat n, UInt32.toNat_ofNat_of_lt hn, reads_numberAs _ hn rfl⟩

theorem reads_text (s : String) : Reads (text (Text.toUtf8 s).length) (Text.toUtf8 s) s := by
  have hmap := reads_map Text.ofUtf8 (reads_take (Text.toUtf8 s))
  rwa [Text.ofUtf8_toUtf8] at hmap

/-- A text behind its length in two bytes. -/
def writeShortText (s : String) : List UInt8 :=
  writeNumber 2 (Text.toUtf8 s).length ++ Text.toUtf8 s

/-- A text behind its length in four bytes. -/
def writeLongText (s : String) : List UInt8 :=
  writeNumber 4 (Text.toUtf8 s).length ++ Text.toUtf8 s

theorem reads_counted16 {f : Nat → Reader α} (hn : n < 2 ^ 16)
    (hf : Reads (f n) xs a) : Reads (do f (← uint16).toNat) (writeNumber 2 n ++ xs) a := by
  obtain ⟨k, rfl, hk⟩ := reads_length16 hn
  exact reads_bind hk hf

theorem reads_counted32 {f : Nat → Reader α} (hn : n < 2 ^ 32)
    (hf : Reads (f n) xs a) : Reads (do f (← uint32).toNat) (writeNumber 4 n ++ xs) a := by
  obtain ⟨k, rfl, hk⟩ := reads_length32 hn
  exact reads_bind hk hf

theorem reads_shortText {s : String} (hs : (Text.toUtf8 s).length < 2 ^ 16) :
    Reads shortText (writeShortText s) s :=
  reads_counted16 hs (reads_text s)

theorem reads_longText {s : String} (hs : (Text.toUtf8 s).length < 2 ^ 32) :
    Reads longText (writeLongText s) s :=
  reads_counted32 hs (reads_text s)

/-! ## Whole spans -/

/-- A reader may leave the rest of a span. -/
theorem readBy_append {bytes : List UInt8} (hr : Reads r bytes a)
    (part : Section) (offset : Nat) (rest : List UInt8) :
    (Span.mk part offset (bytes ++ rest)).readBy r = .ok a := by
  show (r ⟨part, offset, bytes ++ rest⟩).map Prod.fst = _
  rw [hr part offset rest]
  rfl

theorem readBy_of_reads {bytes : List UInt8} (hr : Reads r bytes a)
    (part : Section) (offset : Nat) : (Span.mk part offset bytes).readBy r = .ok a := by
  have hread := readBy_append hr part offset []
  rwa [List.append_nil] at hread

/-- Values that all take some bytes are read until nothing is left. -/
theorem untilEnd_flatten {bss : List (List UInt8)} {xs : List α}
    (h : List.Forall₂ (Reads r) bss xs) (hbytes : ∀ bytes ∈ bss, bytes ≠ [])
    (hcount : xs.length ≤ count) (part : Section) (offset : Nat) :
    untilEnd r count ⟨part, offset, bss.flatten⟩ =
      .ok (xs, ⟨part, offset + bss.flatten.length, []⟩) := by
  induction h generalizing count offset with
  | nil => cases count <;> rfl
  | @cons bytes x bss xs hx _ ih =>
    obtain ⟨count, rfl⟩ : ∃ k, count = k + 1 := ⟨count - 1, by simp at hcount; omega⟩
    obtain ⟨b, bytes, rfl⟩ := List.exists_cons_of_ne_nil (hbytes bytes (List.mem_cons_self ..))
    have hrest := ih (fun bytes' hmem => hbytes bytes' (List.mem_cons_of_mem _ hmem))
      (by simpa using hcount) (offset + (b :: bytes).length)
    show (r ⟨part, offset, (b :: bytes) ++ bss.flatten⟩ >>= fun p =>
      untilEnd r count p.2 >>= fun q => Except.ok (p.1 :: q.1, q.2)) = _
    rw [hx part offset bss.flatten]
    show (untilEnd r count ⟨part, offset + (b :: bytes).length, bss.flatten⟩ >>= fun q =>
      Except.ok (x :: q.1, q.2)) = _
    rw [hrest, List.flatten_cons, List.length_append, Nat.add_assoc]
    rfl

end TagMachine.Reader
