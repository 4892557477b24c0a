import Mathlib
import MiniPascal.Text.Numeral

/-! Numerals that are written and read back. Main statement: the decimal numeral of an integer reads
as that integer exactly if it fits a word, in base ten and also where the base is found from the
front of a numeral. -/

namespace MiniPascal

namespace Numeral

theorem digit?_digitChar {d : Nat} (h : d < 10) : digit? d.digitChar = some d := by
  interval_cases d <;> rfl

theorem magnitude_digitChar (limit : Nat) (spaced : Bool) (n : Nat) {d : Nat} (h : d < 10) :
    magnitude 10 limit spaced n [d.digitChar] =
      if 10 * n + d ≤ limit then .ok (10 * n + d) else .error .outOfRange := by
  have hu : (d.digitChar == '_') = false := by simp
  simp only [magnitude, hu, Bool.and_false, digit?_digitChar h, Nat.mul_comm n 10]
  rw [if_neg (by simp), if_neg (by omega)]
  by_cases hl : 10 * n + d ≤ limit
  · rw [if_neg (by omega), if_pos hl]
  · rw [if_pos (by omega), if_neg hl]

theorem magnitude_append (base limit : Nat) (spaced : Bool) (n : Nat) (a b : List Char) :
    magnitude base limit spaced n (a ++ b) =
      match magnitude base limit spaced n a with
      | .ok m => magnitude base limit spaced m b
      | .error p => .error p := by
  induction a generalizing n with
  | nil => rfl
  | cons c cs ih =>
    simp only [List.cons_append, magnitude, ih]
    split
    · rfl
    · split
      · rfl
      · split
        · rfl
        · split <;> rfl

/-- The digits of a number read as the number, unless it lies past the limit. -/
theorem magnitude_toDigits (limit : Nat) (spaced : Bool) (n : Nat) :
    magnitude 10 limit spaced 0 (Nat.toDigits 10 n) =
      if n ≤ limit then .ok n else .error .outOfRange := by
  induction n using Nat.base_induction 10 (by decide) with
  | single d hd => simpa [Nat.toDigits_of_lt_base hd] using magnitude_digitChar limit spaced 0 hd
  | digit n d hd hn ih =>
    rw [← Nat.toDigits_append_toDigits (by decide) hn hd, magnitude_append, ih,
      Nat.toDigits_of_lt_base hd]
    by_cases hl : n ≤ limit
    · simpa only [if_pos hl] using magnitude_digitChar limit spaced n hd
    · rw [if_neg hl, if_neg (by omega)]

theorem head?_toDigits {n : Nat} (hn : 0 < n) : (Nat.toDigits 10 n).head? ≠ some '0' := by
  induction n using Nat.base_induction 10 (by decide) with
  | single d hd =>
    rw [Nat.toDigits_of_lt_base hd]
    interval_cases d <;> simp at hn ⊢
  | digit n d hd hpos ih =>
    rw [← Nat.toDigits_append_toDigits (by decide) hpos hd,
      List.head?_append_of_ne_nil _ Nat.toDigits_ne_nil]
    exact ih hpos

theorem detectBase_of_head? {cs : List Char} (h : cs.head? ≠ some '0') : detectBase cs = (10, cs) := by
  unfold detectBase
  split
  · simp at h
  · simp at h
  · rfl

theorem separates_of_not_mem {cs : List Char} {after : Bool} (h : '_' ∉ cs) (hne : after ∨ cs ≠ []) :
    separates after cs = true := by
  induction cs generalizing after with
  | nil => simpa [separates] using hne
  | cons c cs ih =>
    have hc : c ≠ '_' := fun e => h (by simp [e])
    rw [separates, if_neg hc]
    exact ih (fun e => h (by simp [e])) (.inl rfl)

theorem readMagnitude_toDigits (how : Radix) (limit n : Nat) :
    readMagnitude how limit (Nat.toDigits 10 n) =
      if n ≤ limit then .ok n else .error .outOfRange := by
  cases how with
  | decimal => exact magnitude_toDigits limit false n
  | detected =>
    by_cases hz : n = 0
    · subst hz
      simp [readMagnitude, detectBase, magnitude, separates]
    · rw [readMagnitude, detectBase_of_head? (head?_toDigits (by omega))]
      simp only [magnitude_toDigits]
      by_cases hl : n ≤ limit
      · simp [hl, separates_of_not_mem Nat.underscore_not_in_toDigits (.inr Nat.toDigits_ne_nil)]
      · simp [hl]

theorem toDigits_ne_cons {n : Nat} {c : Char} (h : c.isDigit = false) (cs : List Char) :
    Nat.toDigits 10 n ≠ c :: cs := by
  intro he
  have hc : c ∈ Nat.toDigits 10 n := by simp [he]
  simp [Nat.isDigit_of_mem_toDigits (by decide) (by decide) hc] at h

theorem read_ofNat (how : Radix) (n : Nat) :
    read how 32 (ofNat n) = if n < 2 ^ 31 then .ok (n : Int) else .error .outOfRange := by
  have hm := readMagnitude_toDigits how (Nat.pow 2 32 - 1) n
  have hne := @Nat.toDigits_ne_nil n 10
  have hp := @toDigits_ne_cons n '+' (by decide)
  have hq := @toDigits_ne_cons n '-' (by decide)
  rw [read, ofNat, Text.chars_ofChars]
  generalize Nat.toDigits 10 n = ds at *
  split
  rename_i heq
  split at heq
  · exact absurd rfl (hp _)
  · exact absurd rfl (hq _)
  · cases heq
    rw [if_neg hne, hm]
    by_cases hl : n < 2 ^ 31
    · have h1 : n ≤ Nat.pow 2 32 - 1 := by norm_num at *; omega
      have h2 : ¬ Nat.pow 2 (32 - 1) ≤ n := by norm_num at *; omega
      simp only [h1, h2, hl, if_true, if_false, Bool.false_eq_true]
    · have h2 : Nat.pow 2 (32 - 1) ≤ n := by norm_num at *; omega
      by_cases h1 : n ≤ Nat.pow 2 32 - 1
      · simp only [h1, h2, hl, if_true, if_false, Bool.false_eq_true]
      · simp only [h1, hl, if_false]

theorem read_neg_ofNat (how : Radix) (n : Nat) :
    read how 32 (.char '-' :: ofNat n) =
      if n ≤ 2 ^ 31 then .ok (-(n : Int)) else .error .outOfRange := by
  have hc : Text.chars (.char '-' :: ofNat n) = '-' :: Nat.toDigits 10 n := by
    rw [ofNat, ← Text.ofChars_cons, Text.chars_ofChars]
  rw [read, hc]
  simp only [Nat.toDigits_ne_nil, if_false, readMagnitude_toDigits]
  by_cases hl : n ≤ 2 ^ 31
  · have h1 : n ≤ Nat.pow 2 32 - 1 := by norm_num at *; omega
    have h2 : ¬ Nat.pow 2 (32 - 1) < n := by norm_num at *; omega
    simp only [h1, h2, hl, if_true, if_false]
  · have h2 : Nat.pow 2 (32 - 1) < n := by norm_num at *; omega
    by_cases h1 : n ≤ Nat.pow 2 32 - 1
    · simp only [h1, h2, hl, if_true, if_false]
    · simp only [h1, hl, if_false]

/-- A numeral reads as its integer if that is a word, and does not read as a word otherwise. -/
theorem readWord?_ofInt (how : Radix) (n : Int) :
    readWord? how (ofInt n) =
      if -2 ^ 31 ≤ n ∧ n < 2 ^ 31 then some (Int32.ofInt n) else none := by
  cases n with
  | ofNat n =>
    rw [readWord?, ofInt, read_ofNat]
    by_cases hl : n < 2 ^ 31
    · have hr : -2 ^ 31 ≤ Int.ofNat n ∧ Int.ofNat n < 2 ^ 31 := by
        simp only [Int.ofNat_eq_natCast]
        omega
      rw [if_pos hl, if_pos hr]
      rfl
    · have hr : ¬ (-2 ^ 31 ≤ Int.ofNat n ∧ Int.ofNat n < 2 ^ 31) := by
        simp only [Int.ofNat_eq_natCast]
        omega
      rw [if_neg hl, if_neg hr]
  | negSucc n =>
    rw [readWord?, ofInt, read_neg_ofNat]
    by_cases hl : n + 1 ≤ 2 ^ 31
    · rw [if_pos hl, if_pos (by omega)]
      rfl
    · rw [if_neg hl, if_neg (by omega)]

theorem readWord?_ofWord (how : Radix) (w : Int32) : readWord? how (ofWord w) = some w := by
  have hlo := w.le_toInt
  have hhi := w.toInt_lt
  rw [ofWord, readWord?_ofInt, if_pos ⟨hlo, hhi⟩, Int32.ofInt_toInt]

theorem ofNat_injective {a b : Nat} (h : ofNat a = ofNat b) : a = b := by
  have hd := congrArg (fun ds => Nat.ofDigitChars 10 ds 0) (Text.ofChars_injective h)
  simpa using hd

theorem ofNat_ne_nil (n : Nat) : ofNat n ≠ [] := by
  intro h
  exact Nat.toDigits_ne_nil (Text.ofChars_injective (b := []) h)

theorem isDigit_of_mem_ofNat {n : Nat} {g : Glyph} (h : g ∈ ofNat n) :
    ∃ c : Char, g = .char c ∧ c.isDigit = true := by
  obtain ⟨c, hc, rfl⟩ := List.mem_map.mp h
  exact ⟨c, rfl, Nat.isDigit_of_mem_toDigits (by decide) (by decide) hc⟩

theorem ofInt_ne_nil (n : Int) : ofInt n ≠ [] := by
  cases n with
  | ofNat n => exact ofNat_ne_nil n
  | negSucc n => simp [ofInt]

theorem mem_ofInt {n : Int} {g : Glyph} (h : g ∈ ofInt n) :
    ∃ c : Char, g = .char c ∧ (c = '-' ∨ c.isDigit = true) := by
  cases n with
  | ofNat n =>
    obtain ⟨c, hg, hc⟩ := isDigit_of_mem_ofNat h
    exact ⟨c, hg, .inr hc⟩
  | negSucc n =>
    rcases List.mem_cons.mp h with hg | hg
    · exact ⟨'-', hg, .inl rfl⟩
    · obtain ⟨c, hg, hc⟩ := isDigit_of_mem_ofNat hg
      exact ⟨c, hg, .inr hc⟩

end Numeral

end MiniPascal
