import Mathlib.Tactic.IntervalCases
import Microcomputer.Assembly.Numeral
import Microcomputer.Proofs.Tokens
import Microcomputer.Text.Digits

/-!
# Reading decimals back

A number written in decimal is read as itself, as long as it fits into 64 signed bits.
-/
namespace Microcomputer

namespace Text

/-- The characters behind the space and before the C1 controls are visible. -/
theorem isBlank_of_toNat {c : Char} (hlow : 0x20 < c.toNat) (hhigh : c.toNat < 0x80) :
    isBlank c = false := by
  unfold isBlank blankRanges
  rw [List.any_eq_false]
  intro range hr
  simp only [List.mem_cons, List.not_mem_nil, or_false] at hr
  rcases hr with rfl | rfl | rfl | rfl | rfl | rfl | rfl | rfl | rfl | rfl <;>
    simp only [Bool.and_eq_true, decide_eq_true_eq, not_and] <;> omega

theorem isBlank_of_isDigit {c : Char} (h : c.isDigit = true) : isBlank c = false := by
  have hrange : 48 ≤ c.toNat ∧ c.toNat ≤ 57 := by
    simp only [Char.isDigit, ge_iff_le, UInt32.le_iff_toNat_le, Bool.and_eq_true, decide_eq_true_eq] at h
    exact h
  exact isBlank_of_toNat (by omega) (by omega)

end Text

namespace Assembly.Numeral

open Text

theorem digit?_digitChar {d : Nat} (h : d < 10) : digit? 10 d.digitChar = some d := by
  interval_cases d <;> rfl

/-- One more digit makes ten times the number and the digit. -/
theorem magnitude?_concat {digits : List Char} {value d : Nat} (h : magnitude? 10 digits = some value)
    (hd : d < 10) : magnitude? 10 (digits ++ [d.digitChar]) = some (value * 10 + d) := by
  unfold magnitude? at h ⊢
  by_cases hempty : digits.isEmpty = true
  · simp [hempty] at h
  · rw [if_neg hempty] at h
    rw [if_neg (by simp), List.foldlM_append, h]
    simp [digit?_digitChar hd]

theorem magnitude?_toDigits (n : Nat) : magnitude? 10 (Nat.toDigits 10 n) = some n := by
  induction n using Nat.strongRecOn with
  | ind n ih =>
    by_cases hn : n < 10
    · rw [Nat.toDigits_of_lt_base hn]
      simp [magnitude?, digit?_digitChar hn]
    · have hlast : n % 10 < 10 := Nat.mod_lt n (by decide)
      have hvalue : n / 10 * 10 + n % 10 = n := Nat.div_add_mod' n 10
      rw [Nat.toDigits_of_base_le (by decide) (by omega), magnitude?_concat (ih (n / 10) (by omega)) hlast,
        hvalue]

/-- Digits alone have no prefix and no sign. -/
theorem radixAndDigits_of_isDigit {text : List Char} (h : ∀ c ∈ text, c.isDigit = true) :
    radixAndDigits text = (10, text) := by
  unfold radixAndDigits
  split
  · exact absurd (h 'b' (by simp)) (by decide)
  · exact absurd (h 'o' (by simp)) (by decide)
  · exact absurd (h 'x' (by simp)) (by decide)
  · rfl

theorem integer?_of_isDigit {text : List Char} {n : Nat} (h : ∀ c ∈ text, c.isDigit = true)
    (hvalue : magnitude? 10 text = some n) (hn : n ≤ Int64.maxValue.toInt) :
    integer? 10 text = some (Int64.ofInt n) := by
  unfold integer?
  split
  · exact absurd (h '-' (by simp)) (by decide)
  · exact absurd (h '+' (by simp)) (by decide)
  · simp [hvalue, hn]

theorem isDigit_toDigits {n : Nat} : ∀ c ∈ Nat.toDigits 10 n, c.isDigit = true :=
  fun _ hc => Nat.isDigit_of_mem_toDigits (by decide) (by decide) hc

theorem trim_of_isDigit {text : List Char} (h : ∀ c ∈ text, c.isDigit = true) : trim text = text :=
  trim_of_trimmed (trimmed_of_visible fun c hc => isBlank_of_isDigit (h c hc))

theorem readUnsigned_toDigits {n : Nat} (h : n ≤ Int64.maxValue.toInt) :
    readUnsigned (Nat.toDigits 10 n) = .ok (Int64.ofInt n) := by
  have hvalue := integer?_of_isDigit isDigit_toDigits (magnitude?_toDigits n) h
  simp only [readUnsigned, radixAndDigits_of_isDigit isDigit_toDigits, hvalue]

/-- A number written in decimal is read as that number. -/
theorem read_decimal {value : Int} (h : value.natAbs ≤ Int64.maxValue.toInt) :
    read (decimal value).toList = some (.ok (Int64.ofInt value)) := by
  cases value with
  | ofNat n =>
    have hdigits : ∀ c ∈ Nat.toDigits 10 n, c.isDigit = true := isDigit_toDigits
    rw [decimal, String.toList_ofList, read, trim_of_isDigit hdigits]
    split
    · next hempty => exact absurd hempty Nat.toDigits_ne_nil
    · next rest hminus =>
      have hbad : '-'.isDigit = true := hdigits '-' (hminus ▸ List.mem_cons_self)
      exact absurd hbad (by decide)
    · exact congrArg some (readUnsigned_toDigits h)
  | negSucc n =>
    have hdigits : ∀ c ∈ Nat.toDigits 10 (n + 1), c.isDigit = true := isDigit_toDigits
    have hvisible : ∀ c ∈ '-' :: Nat.toDigits 10 (n + 1), isBlank c = false :=
      List.forall_mem_cons.mpr ⟨by decide, fun c hc => isBlank_of_isDigit (hdigits c hc)⟩
    have hread : readUnsigned (Nat.toDigits 10 (n + 1)) = .ok (Int64.ofInt (n + 1 : Nat)) :=
      readUnsigned_toDigits h
    rw [decimal, String.toList_ofList, read, trim_of_trimmed (trimmed_of_visible hvisible)]
    simp only [hread, Except.map, Int.negSucc_eq, Int64.ofInt_neg, Int.natCast_succ]

end Assembly.Numeral

end Microcomputer
