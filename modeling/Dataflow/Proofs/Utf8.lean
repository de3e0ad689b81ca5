import Mathlib.Algebra.Ring.Nat
import Mathlib.Data.List.Basic

/-! # The order of texts

  Texts are ordered by their characters, and so by their code points. In UTF-8 a character is one
  to four bytes: a first byte whose mark tells how many follow, and then six bits of the code point
  in each of the others. Longer forms begin with greater bytes and hold greater code points, and
  within a form the bytes are digits of the code point. So the order of texts is that of their bytes
  as well.
-/

open Std (OrientedOrd)

namespace Dataflow.Utf8

/-- The code points of a text. -/
def codePoints (s : String) : List Nat := s.toList.map Char.toNat

/-- The bytes of a text. -/
def bytes (s : String) : List UInt8 := s.toUTF8.data.toList

/-! ### Digits and bytes -/

/-- Numbers are compared like their digits: what stands above the last one decides first. -/
theorem compare_digits (m n : Nat) :
    Ord.compare m n = (Ord.compare (m / 64) (n / 64)).then (Ord.compare (m % 64) (n % 64)) := by
  rcases Nat.lt_trichotomy (m / 64) (n / 64) with hlt | heq | hgt
  · have hmn : m < n := by omega
    simp [Nat.compare_eq_lt.mpr hlt, Nat.compare_eq_lt.mpr hmn]
  · have hlt : m < n ↔ m % 64 < n % 64 := by omega
    have hgt : n < m ↔ n % 64 < m % 64 := by omega
    simp [heq, Nat.compare_eq_ite_lt, hlt, hgt]
  · have hmn : n < m := by omega
    simp [Nat.compare_eq_gt.mpr hgt, Nat.compare_eq_gt.mpr hmn]

/-- Bytes are compared like the numbers that they hold. -/
theorem compare_byte {m n : Nat} (hm : m < 256) (hn : n < 256) :
    Ord.compare (UInt8.ofNat m) (UInt8.ofNat n) = Ord.compare m n := by
  have hm' : (UInt8.ofNat m).toNat = m := by simp; omega
  have hn' : (UInt8.ofNat n).toNat = n := by simp; omega
  show compareOfLessAndEq _ _ = compareOfLessAndEq _ _
  simp only [compareOfLessAndEq, UInt8.lt_iff_toNat_lt, ← UInt8.toNat_inj, hm', hn']

/-- Bytes with the same mark are compared by what they hold besides. -/
theorem compare_marked {mark m n : Nat} (hm : mark + m < 256) (hn : mark + n < 256) :
    Ord.compare (UInt8.ofNat (mark + m)) (UInt8.ofNat (mark + n)) = Ord.compare m n := by
  rw [compare_byte hm hn]
  simp [Nat.compare_eq_ite_lt]

/-! ### Numbers as bytes -/

/-- A number with its last digits in `k` bytes of six bits each. What is left of it goes into the
    first byte, on top of the mark. -/
def encoded (mark : Nat) : Nat → Nat → List UInt8
  | 0, n => [UInt8.ofNat (mark + n)]
  | k + 1, n => encoded mark k (n / 64) ++ [UInt8.ofNat (0x80 + n % 64)]

/-- In one form, bytes are compared like the numbers, and what follows decides last. -/
theorem compare_encoded {mark k m n : Nat} (hm : mark + m / 64 ^ k < 256)
    (hn : mark + n / 64 ^ k < 256) (u v : List UInt8) :
    Ord.compare (encoded mark k m ++ u) (encoded mark k n ++ v) =
      (Ord.compare m n).then (Ord.compare u v) := by
  induction k generalizing m n u v with
  | zero =>
    simp only [Nat.pow_zero, Nat.div_one] at hm hn
    simp only [encoded, List.singleton_append, List.compare_cons_cons, compare_marked hm hn]
  | succ k ih =>
    rw [Nat.pow_succ', ← Nat.div_div_eq_div_mul] at hm hn
    have hlast : Ord.compare (UInt8.ofNat (0x80 + m % 64)) (UInt8.ofNat (0x80 + n % 64)) =
        Ord.compare (m % 64) (n % 64) := compare_marked (by omega) (by omega)
    simp only [encoded, List.append_assoc, List.singleton_append, ih hm hn, List.compare_cons_cons,
      hlast, compare_digits m n, Ordering.then_assoc]

theorem encoded_eq_cons (mark k n : Nat) :
    ∃ rest, encoded mark k n = UInt8.ofNat (mark + n / 64 ^ k) :: rest := by
  induction k generalizing n with
  | zero => exact ⟨[], by simp [encoded]⟩
  | succ k ih =>
    obtain ⟨rest, hrest⟩ := ih (n / 64)
    refine ⟨rest ++ [UInt8.ofNat (0x80 + n % 64)], ?_⟩
    simp [encoded, hrest, Nat.pow_succ', Nat.div_div_eq_div_mul]

/-- If the first bytes differ, nothing else is looked at. -/
theorem compare_encoded_lt {mark mark' k k' m n : Nat}
    (hlt : mark + m / 64 ^ k < mark' + n / 64 ^ k') (hbyte : mark' + n / 64 ^ k' < 256)
    (u v : List UInt8) :
    Ord.compare (encoded mark k m ++ u) (encoded mark' k' n ++ v) = .lt := by
  obtain ⟨rest, hm⟩ := encoded_eq_cons mark k m
  obtain ⟨rest', hn⟩ := encoded_eq_cons mark' k' n
  have hfirst := compare_byte (Nat.lt_trans hlt hbyte) hbyte
  rw [hm, hn, List.cons_append, List.cons_append, List.compare_cons_cons, hfirst,
    Nat.compare_eq_lt.mpr hlt]
  simp

/-! ### Characters -/

/-- The form of a code point: the mark of its first byte, and the number of bytes that follow. -/
inductive Form : Nat → Nat → Nat → Prop where
  | one {n : Nat} : n < 0x80 → Form 0 0 n
  | two {n : Nat} : 0x80 ≤ n → n < 0x800 → Form 0xc0 1 n
  | three {n : Nat} : 0x800 ≤ n → n < 0x10000 → Form 0xe0 2 n
  | four {n : Nat} : 0x10000 ≤ n → n < 0x110000 → Form 0xf0 3 n

theorem exists_form (c : Char) : ∃ mark k, Form mark k c.toNat ∧
    String.utf8EncodeChar c = encoded mark k c.toNat := by
  have hval : c.val.toNat = c.toNat := rfl
  have hmax : c.toNat < 0x110000 := by
    have hvalid : c.toNat < 0xd800 ∨ 0xdfff < c.toNat ∧ c.toNat < 0x110000 := c.valid
    omega
  unfold String.utf8EncodeChar
  simp only [hval]
  generalize c.toNat = n at hmax
  -- in each form the first byte has room for all that is left of the number
  by_cases h₁ : n ≤ 0x7f
  · refine ⟨0, 0, .one (by omega), ?_⟩
    simp [h₁, encoded]
  by_cases h₂ : n ≤ 0x7ff
  · have hroom : n / 64 % 0x20 = n / 64 := by omega
    refine ⟨0xc0, 1, .two (by omega) (by omega), ?_⟩
    simp [h₁, h₂, encoded, hroom, Nat.add_comm]
  by_cases h₃ : n ≤ 0xffff
  · have hroom : n / 4096 % 0x10 = n / 4096 := by omega
    refine ⟨0xe0, 2, .three (by omega) (by omega), ?_⟩
    simp [h₁, h₂, h₃, encoded, hroom, Nat.div_div_eq_div_mul, Nat.add_comm]
  · have hroom : n / 262144 % 0x08 = n / 262144 := by omega
    refine ⟨0xf0, 3, .four (by omega) hmax, ?_⟩
    simp [h₁, h₂, h₃, encoded, hroom, Nat.div_div_eq_div_mul, Nat.add_comm]

theorem Form.first_lt {mark k n : Nat} (hn : Form mark k n) : mark + n / 64 ^ k < 256 := by
  cases hn <;> omega

/-- A number that is not smaller is in the same form, or is greater and begins with a greater
    byte. -/
theorem Form.same_or_lt {mark mark' k k' m n : Nat} (hm : Form mark k m) (hn : Form mark' k' n)
    (hle : m ≤ n) :
    (mark = mark' ∧ k = k') ∨ (m < n ∧ mark + m / 64 ^ k < mark' + n / 64 ^ k') := by
  cases hm <;> cases hn <;> omega

theorem compare_char_of_le {c d : Char} (hle : c.toNat ≤ d.toNat) (u v : List UInt8) :
    Ord.compare (String.utf8EncodeChar c ++ u) (String.utf8EncodeChar d ++ v) =
      (Ord.compare c.toNat d.toNat).then (Ord.compare u v) := by
  obtain ⟨mark, k, hm, hc⟩ := exists_form c
  obtain ⟨mark', k', hn, hd⟩ := exists_form d
  rw [hc, hd]
  rcases hm.same_or_lt hn hle with ⟨rfl, rfl⟩ | ⟨hlt, hfirst⟩
  · exact compare_encoded hm.first_lt hn.first_lt u v
  · rw [compare_encoded_lt hfirst hn.first_lt, Nat.compare_eq_lt.mpr hlt]
    simp

/-- The bytes of two characters are compared like their code points, and what follows decides
    last. -/
theorem compare_char (c d : Char) (u v : List UInt8) :
    Ord.compare (String.utf8EncodeChar c ++ u) (String.utf8EncodeChar d ++ v) =
      (Ord.compare c.toNat d.toNat).then (Ord.compare u v) := by
  by_cases hle : c.toNat ≤ d.toNat
  · exact compare_char_of_le hle u v
  · have hge := compare_char_of_le (Nat.le_of_not_le hle) v u
    calc Ord.compare (String.utf8EncodeChar c ++ u) (String.utf8EncodeChar d ++ v)
        = (Ord.compare (String.utf8EncodeChar d ++ v) (String.utf8EncodeChar c ++ u)).swap :=
          OrientedOrd.eq_swap
      _ = (Ord.compare d.toNat c.toNat).swap.then (Ord.compare v u).swap := by
          rw [hge, Ordering.swap_then]
      _ = (Ord.compare c.toNat d.toNat).then (Ord.compare u v) := by
          rw [← OrientedOrd.eq_swap, ← OrientedOrd.eq_swap]

/-! ### Texts -/

theorem bytes_eq_flatMap (s : String) : bytes s = s.toList.flatMap String.utf8EncodeChar := by
  have hbytes : s.toUTF8 = (s.toList.flatMap String.utf8EncodeChar).toByteArray := by
    rw [String.toUTF8_eq_toByteArray, ← String.ofList_toList (s := s), String.toByteArray_ofList,
      String.toList_ofList]
    rfl
  rw [bytes, hbytes, List.toList_data_toByteArray]

theorem compare_flatMap (cs ds : List Char) :
    Ord.compare (cs.flatMap String.utf8EncodeChar) (ds.flatMap String.utf8EncodeChar) =
      Ord.compare (cs.map Char.toNat) (ds.map Char.toNat) := by
  induction cs generalizing ds with
  | nil =>
    cases ds with
    | nil => simp
    | cons d ds =>
      obtain ⟨b, bs, hd⟩ := List.exists_cons_of_ne_nil (String.utf8EncodeChar_ne_nil (c := d))
      simp [hd]
  | cons c cs ih =>
    cases ds with
    | nil =>
      obtain ⟨b, bs, hc⟩ := List.exists_cons_of_ne_nil (String.utf8EncodeChar_ne_nil (c := c))
      simp [hc]
    | cons d ds => simp [compare_char, ih]

theorem compareOfLessAndEq_chars (cs ds : List Char) :
    compareOfLessAndEq cs ds = Ord.compare (cs.map Char.toNat) (ds.map Char.toNat) := by
  induction cs generalizing ds with
  | nil => cases ds <;> simp [compareOfLessAndEq]
  | cons c cs ih =>
    cases ds with
    | nil => simp [compareOfLessAndEq]
    | cons d ds =>
      have hlt : c < d ↔ c.toNat < d.toNat := Iff.rfl
      have heq : c = d ↔ c.toNat = d.toNat := Char.toNat_inj.symm
      rw [List.map_cons, List.map_cons, List.compare_cons_cons, ← ih]
      simp only [compareOfLessAndEq, List.cons_lt_cons_iff, List.cons.injEq, hlt, heq]
      rcases Nat.lt_trichotomy c.toNat d.toNat with h | h | h
      · simp [h, Nat.compare_eq_lt.mpr h]
      · simp [h]
      · have hnot : ¬ c.toNat < d.toNat := by omega
        have hne : c.toNat ≠ d.toNat := by omega
        simp [hnot, hne, Nat.compare_eq_gt.mpr h]

/-- Texts are ordered by their code points. -/
theorem compare_codePoints (s t : String) :
    Ord.compare s t = Ord.compare (codePoints s) (codePoints t) := by
  have hchars : Ord.compare s t = compareOfLessAndEq s.toList t.toList := by
    show compareOfLessAndEq s t = _
    simp only [compareOfLessAndEq, String.toList_inj]
    rfl
  rw [hchars, compareOfLessAndEq_chars]
  rfl

/-- Texts are ordered by their bytes. -/
theorem compare_bytes (s t : String) : Ord.compare s t = Ord.compare (bytes s) (bytes t) := by
  calc Ord.compare s t
      = Ord.compare (codePoints s) (codePoints t) := compare_codePoints s t
    _ = Ord.compare (s.toList.flatMap String.utf8EncodeChar)
          (t.toList.flatMap String.utf8EncodeChar) := (compare_flatMap _ _).symm
    _ = Ord.compare (bytes s) (bytes t) := by rw [bytes_eq_flatMap, bytes_eq_flatMap]

end Dataflow.Utf8
