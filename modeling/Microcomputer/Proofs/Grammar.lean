import Mathlib.Data.List.Forall2
import Mathlib.Data.Nat.Digits.Defs
import Microcomputer.Host.Numeral
import Microcomputer.Proofs.Numerals

/-!
# The grammar of numerals

A numeral is perhaps a minus sign, perhaps a prefix that names a radix, and digits of that radix whose value
fits into 63 bits. Exactly these texts are read as numbers, but for those with a second sign right before
their digits, which is read as the sign of the digits. Of the latter, those that negate the least number of 64
bits trap on a host, or wrap to the least number itself.
-/
namespace Microcomputer.Assembly.Numeral

open Text

/-- The character stands for the digit of value `d`; letters may be of either case. -/
def IsDigit (radix : Nat) (c : Char) (d : Nat) : Prop :=
  d < radix ∧ (c = d.digitChar ∨ c = d.digitChar.toUpper)

/-- The characters are digits of the radix, at least one, and `n` is the number that they write. -/
def Writes (radix : Nat) (digits : List Char) (n : Nat) : Prop :=
  ∃ values, values ≠ [] ∧ List.Forall₂ (IsDigit radix) digits values ∧
    n = Nat.ofDigits radix values.reverse

/-- The prefixes, each with the radix that it names. -/
def marks : List (List Char × Nat) :=
  [(['0', 'b'], 2), (['0', 'o'], 8), (['0', 'x'], 16)]

/-- The text in front of the digits is a prefix that names the radix, or it is empty and the radix is ten. -/
def Marks (mark : List Char) (radix : Nat) : Prop :=
  (mark, radix) ∈ ([], 10) :: marks

def unsigned (text : List Char) : List Char :=
  match text with
  | '-' :: rest => rest
  | text => text

/-- The radix of the prefix, ten where there is none. -/
def radixOf (text : List Char) : Nat :=
  ((marks.find? fun mark => mark.1.isPrefixOf (unsigned text)).map (·.2)).getD 10

/-- The largest number that digits may write. -/
def limit : Nat := 2 ^ 63 - 1

/-- The numerals of the grammar. -/
inductive Denotes : List Char → Int → Prop
  | positive {mark digits : List Char} {radix n : Nat} (marks : Marks mark radix)
      (writes : Writes radix digits n) (fits : n ≤ limit) : Denotes (mark ++ digits) n
  | negative {mark digits : List Char} {radix n : Nat} (marks : Marks mark radix)
      (writes : Writes radix digits n) (fits : n ≤ limit) : Denotes ('-' :: (mark ++ digits)) (-n)

/-- Digits behind a sign of their own. -/
inductive Signed (radix : Nat) : List Char → Int → Prop
  | plus {digits : List Char} {n : Nat} (writes : Writes radix digits n) (fits : n ≤ limit) :
      Signed radix ('+' :: digits) n
  | minus {digits : List Char} {n : Nat} (writes : Writes radix digits n) (fits : n ≤ limit + 1) :
      Signed radix ('-' :: digits) (-n)

/-- A minus sign in front of the least number, which has no negation in 64 bits. -/
inductive Overflows : List Char → Prop
  | negated {mark digits : List Char} {radix : Nat} (marks : Marks mark radix)
      (writes : Writes radix digits (limit + 1)) : Overflows ('-' :: (mark ++ '-' :: digits))

/-- Texts outside the grammar: a plus sign, or a sign behind a prefix or another sign. -/
inductive Resigned : List Char → Int → Prop
  | positive {mark body : List Char} {radix : Nat} {value : Int} (marks : Marks mark radix)
      (signed : Signed radix body value) (second : mark ≠ [] ∨ body.head? = some '+') :
      Resigned (mark ++ body) value
  | negative {mark body : List Char} {radix : Nat} {value : Int} (marks : Marks mark radix)
      (signed : Signed radix body value) (fits : -limit ≤ value) :
      Resigned ('-' :: (mark ++ body)) (-value)
  | wrapped {text : List Char} (overflows : Overflows text) : Resigned text (-(limit + 1))

section Digits

variable {radix : Nat}

/-- A digit is told by the place of its character in one of three ranges. -/
theorem digit?_eq_some_iff (h : radix ≤ 16) {c : Char} {d : Nat} :
    digit? radix c = some d ↔ IsDigit radix c d := by
  unfold digit? IsDigit
  rw [Option.filter_eq_some_iff, and_comm, decide_eq_true_eq]
  refine and_congr_right fun hd => ?_
  have hsmall : d < 16 := Nat.lt_of_lt_of_le hd h
  constructor
  · intro hvalue
    have hplace : (c.toNat = 48 + d ∧ d < 10) ∨ (c.toNat = 87 + d ∧ 10 ≤ d) ∨
        (c.toNat = 55 + d ∧ 10 ≤ d) := by
      simp only [Char.le_def, UInt32.le_iff_toNat_le] at hvalue
      have hcode : c.val.toNat = c.toNat := rfl
      split_ifs at hvalue with h0 ha hA
      all_goals
        obtain rfl := Option.some.inj hvalue
        simp only [hcode, Char.reduceVal, UInt32.reduceToNat, Char.reduceToNat] at *
        omega
    rw [← Char.ofNat_toNat c]
    rcases hplace with ⟨hc, hlow⟩ | ⟨hc, hlow⟩ | ⟨hc, hlow⟩ <;> rw [hc] <;> interval_cases d <;>
      first | exact Or.inl rfl | exact Or.inr rfl
  · intro hc
    interval_cases d <;> rcases hc with rfl | rfl <;> rfl

/-- The digits read one by one, from the first, onto the number of those before. -/
theorem foldlM_digit?_eq_some_iff (h : radix ≤ 16) {digits : List Char} {start n : Nat} :
    digits.foldlM (fun value c => (digit? radix c).map (value * radix + ·)) start = some n ↔
      ∃ values, List.Forall₂ (IsDigit radix) digits values ∧
        n = values.foldl (fun value d => value * radix + d) start := by
  induction digits generalizing start with
  | nil =>
    rw [List.foldlM_nil, Option.pure_def, Option.some.injEq]
    constructor
    · rintro rfl
      exact ⟨[], .nil, rfl⟩
    · rintro ⟨values, hvalues, rfl⟩
      cases hvalues
      rfl
  | cons c digits ih =>
    simp only [List.foldlM_cons, Option.bind_eq_bind, Option.bind_eq_some_iff, Option.map_eq_some_iff,
      digit?_eq_some_iff h, ih, List.forall₂_cons_left_iff]
    constructor
    · rintro ⟨_, ⟨d, hd, rfl⟩, values, hvalues, rfl⟩
      exact ⟨_, ⟨d, values, hd, hvalues, rfl⟩, rfl⟩
    · rintro ⟨_, ⟨d, values, hd, hvalues, rfl⟩, rfl⟩
      exact ⟨_, ⟨d, hd, rfl⟩, values, hvalues, rfl⟩

theorem magnitude?_eq_some_iff (h : radix ≤ 16) {digits : List Char} {n : Nat} :
    magnitude? radix digits = some n ↔ Writes radix digits n := by
  have hvalue (values : List Nat) : Nat.ofDigits radix values.reverse =
      values.foldl (fun value d => value * radix + d) 0 := by
    rw [Nat.ofDigits_eq_foldr, List.foldr_reverse]
    simp only [Nat.cast_id, Nat.add_comm, Nat.mul_comm]
  cases digits with
  | nil =>
    constructor
    · exact fun hnone => nomatch hnone
    · rintro ⟨values, hne, hvalues, -⟩
      cases hvalues
      exact absurd rfl hne
  | cons c digits =>
    rw [magnitude?, if_neg (by simp), foldlM_digit?_eq_some_iff h]
    refine exists_congr fun values => ?_
    rw [hvalue]
    constructor
    · rintro ⟨hvalues, rfl⟩
      refine ⟨?_, hvalues, rfl⟩
      rintro rfl
      cases hvalues
    · rintro ⟨-, hvalues, rfl⟩
      exact ⟨hvalues, rfl⟩

theorem IsDigit.isAlphanum (h : radix ≤ 16) {c : Char} {d : Nat} (hd : IsDigit radix c d) :
    c.isAlphanum = true := by
  obtain ⟨hlt, hc⟩ := hd
  have hsmall : d < 16 := Nat.lt_of_lt_of_le hlt h
  interval_cases d <;> rcases hc with rfl | rfl <;> decide

/-- No digit is a sign. -/
theorem isDigit_ne_sign (h : radix ≤ 16) {c : Char} {d : Nat} (hd : IsDigit radix c d) :
    c ≠ '+' ∧ c ≠ '-' := by
  have halphanum := hd.isAlphanum h
  constructor <;> (rintro rfl; cases halphanum)

/-- Digits begin with a digit. -/
theorem Writes.exists_cons {digits : List Char} {n : Nat} (h : Writes radix digits n) :
    ∃ c rest d, digits = c :: rest ∧ IsDigit radix c d := by
  obtain ⟨values, hne, hvalues, -⟩ := h
  cases hvalues with
  | nil => exact absurd rfl hne
  | cons hd _ => exact ⟨_, _, _, rfl, hd⟩

theorem not_writes_of_sign (h : radix ≤ 16) {c : Char} {rest : List Char} {n : Nat}
    (hsign : c = '+' ∨ c = '-') : ¬ Writes radix (c :: rest) n := by
  intro hwrites
  obtain ⟨_, _, _, heq, hd⟩ := hwrites.exists_cons
  obtain ⟨rfl, -⟩ := List.cons.inj heq
  have hne := isDigit_ne_sign h hd
  exact hsign.elim hne.1 hne.2

theorem map_ofInt_eq_some_iff {number? : Option Int} {value : Int64} :
    (number?.filter fun number => Int64.minValue.toInt ≤ number && number ≤ Int64.maxValue.toInt).map
      Int64.ofInt = some value ↔ number? = some value.toInt := by
  simp only [Option.map_eq_some_iff, Option.filter_eq_some_iff, Bool.and_eq_true, decide_eq_true_eq]
  constructor
  · rintro ⟨number, ⟨rfl, hlow, hhigh⟩, rfl⟩
    rw [Int64.toInt_ofInt_of_le hlow (Int.lt_of_le_of_lt hhigh (by decide))]
  · rintro rfl
    exact ⟨_, ⟨rfl, value.minValue_le_toInt, value.toInt_le⟩, value.ofInt_toInt⟩

theorem not_writes_of_signed (h : radix ≤ 16) {body : List Char} {value : Int} {n : Nat}
    (hsigned : Signed radix body value) : ¬ Writes radix body n := by
  cases hsigned with
  | plus => exact not_writes_of_sign h (Or.inl rfl)
  | minus => exact not_writes_of_sign h (Or.inr rfl)

/-- What is read as an integer: digits, or digits behind a sign. -/
theorem integer?_eq_some_iff (h : radix ≤ 16) {body : List Char} {value : Int64} :
    integer? radix body = some value ↔
      (∃ n : Nat, Writes radix body n ∧ n ≤ limit ∧ value.toInt = n) ∨
        Signed radix body value.toInt := by
  have hlow : -2 ^ 63 ≤ value.toInt := value.minValue_le_toInt
  have hhigh : value.toInt ≤ 2 ^ 63 - 1 := value.toInt_le
  have hlimit : limit = 2 ^ 63 - 1 := rfl
  unfold integer?
  rw [map_ofInt_eq_some_iff]
  generalize value.toInt = number at hlow hhigh ⊢
  split
  · next digits =>
    simp only [Option.map_eq_some_iff, magnitude?_eq_some_iff h]
    constructor
    · rintro ⟨n, hn, rfl⟩
      exact Or.inr (.minus hn (by omega))
    · rintro (⟨n, hn, -⟩ | hsigned)
      · exact absurd hn (not_writes_of_sign h (Or.inr rfl))
      · cases hsigned with
        | minus hn fits => exact ⟨_, hn, rfl⟩
  · next digits =>
    simp only [Option.map_eq_some_iff, magnitude?_eq_some_iff h]
    constructor
    · rintro ⟨n, hn, rfl⟩
      exact Or.inr (.plus hn (by omega))
    · rintro (⟨n, hn, -⟩ | hsigned)
      · exact absurd hn (not_writes_of_sign h (Or.inl rfl))
      · cases hsigned with
        | plus hn fits => exact ⟨_, hn, rfl⟩
  · next hminus hplus =>
    simp only [Option.map_eq_some_iff, magnitude?_eq_some_iff h]
    constructor
    · rintro ⟨n, hn, rfl⟩
      exact Or.inl ⟨n, hn, by omega, rfl⟩
    · rintro (⟨n, hn, fits, rfl⟩ | hsigned)
      · exact ⟨n, hn, rfl⟩
      · cases hsigned with
        | plus => exact absurd rfl (hplus _)
        | minus => exact absurd rfl (hminus _)

/-- What stands behind a sign fits into 64 signed bits. -/
theorem Signed.exists_toInt {body : List Char} {value : Int} (h : Signed radix body value) :
    ∃ inner : Int64, inner.toInt = value := by
  have hlimit : limit = 2 ^ 63 - 1 := rfl
  refine ⟨Int64.ofInt value, Int64.toInt_ofInt_of_le ?_ ?_⟩ <;> cases h <;> omega

/-- The least number is written behind a minus sign. -/
theorem signed_minValue_iff {body : List Char} : Signed radix body Int64.minValue.toInt ↔
    ∃ digits, body = '-' :: digits ∧ Writes radix digits (limit + 1) := by
  have hleast : Int64.minValue.toInt = -((limit + 1 : Nat) : Int) := rfl
  rw [hleast]
  constructor
  · generalize hvalue : -((limit + 1 : Nat) : Int) = value
    intro hsigned
    cases hsigned with
    | plus => omega
    | @minus digits n hwrites fits =>
      obtain rfl : n = limit + 1 := by omega
      exact ⟨digits, rfl, hwrites⟩
  · rintro ⟨digits, rfl, hwrites⟩
    exact .minus hwrites (Nat.le_refl _)

end Digits

section Prefixes

variable {mark body text : List Char} {radix : Nat} {value : Int64}

theorem marks_iff : Marks mark radix ↔ (mark = [] ∧ radix = 10) ∨ (mark = ['0', 'b'] ∧ radix = 2) ∨
    (mark = ['0', 'o'] ∧ radix = 8) ∨ (mark = ['0', 'x'] ∧ radix = 16) := by
  simp only [Marks, marks, List.mem_cons, Prod.mk.injEq, List.not_mem_nil, or_false]

theorem Marks.le (h : Marks mark radix) : radix ≤ 16 := by
  rcases marks_iff.mp h with ⟨-, rfl⟩ | ⟨-, rfl⟩ | ⟨-, rfl⟩ | ⟨-, rfl⟩ <;> decide

/-- A prefix begins with the digit zero, not with a sign. -/
theorem Marks.head?_ne (h : Marks mark radix) (hbody : mark = [] → body.head? ≠ some '-') :
    (mark ++ body).head? ≠ some '-' := by
  rcases marks_iff.mp h with ⟨rfl, -⟩ | ⟨rfl, -⟩ | ⟨rfl, -⟩ | ⟨rfl, -⟩
  · exact hbody rfl
  · simp
  · simp
  · simp

theorem unsigned_of_head?_ne (h : text.head? ≠ some '-') : unsigned text = text := by
  unfold unsigned
  split
  · exact absurd rfl h
  · rfl

theorem radixAndDigits_split (text : List Char) :
    ∃ mark, Marks mark (radixAndDigits text).1 ∧ text = mark ++ (radixAndDigits text).2 := by
  unfold radixAndDigits
  split
  · exact ⟨['0', 'b'], by simp [marks_iff], rfl⟩
  · exact ⟨['0', 'o'], by simp [marks_iff], rfl⟩
  · exact ⟨['0', 'x'], by simp [marks_iff], rfl⟩
  · exact ⟨[], by simp [marks_iff], rfl⟩

theorem radixAndDigits_radix (text : List Char) : (radixAndDigits (unsigned text)).1 = radixOf text := by
  unfold radixOf
  generalize unsigned text = rest
  unfold radixAndDigits
  split
  · rfl
  · rfl
  · rfl
  · next hb ho hx =>
    have hnone : (marks.find? fun mark => mark.1.isPrefixOf rest) = none := by
      simp only [marks, List.find?_eq_none, List.forall_mem_cons, List.isPrefixOf_iff_prefix,
        List.not_mem_nil, false_implies, implies_true, and_true]
      exact ⟨fun ⟨_, h⟩ => hb _ h.symm, fun ⟨_, h⟩ => ho _ h.symm, fun ⟨_, h⟩ => hx _ h.symm⟩
    rw [hnone]
    rfl

/-- What can be read as an integer of radix ten has no letter behind its first character. -/
theorem not_integer?_of_letter {first c : Char} {rest : List Char} (hfirst : first = '0')
    (hc : c = 'b' ∨ c = 'o' ∨ c = 'x') : integer? 10 (first :: c :: rest) ≠ some value := by
  subst hfirst
  intro h
  rcases (integer?_eq_some_iff (by decide)).mp h with ⟨n, ⟨values, -, hvalues, -⟩, -⟩ | hsigned
  · cases hvalues with
    | cons _ hrest =>
      cases hrest with
      | cons hd _ =>
        have hdigit := (digit?_eq_some_iff (by decide)).mpr hd
        rcases hc with rfl | rfl | rfl <;> cases hdigit
  · cases hsigned

theorem radixAndDigits_append (h : Marks mark radix) (hvalue : integer? radix body = some value) :
    radixAndDigits (mark ++ body) = (radix, body) := by
  rcases marks_iff.mp h with ⟨rfl, rfl⟩ | ⟨rfl, rfl⟩ | ⟨rfl, rfl⟩ | ⟨rfl, rfl⟩
  · rw [List.nil_append]
    unfold radixAndDigits
    split
    · exact absurd hvalue (not_integer?_of_letter rfl (by simp))
    · exact absurd hvalue (not_integer?_of_letter rfl (by simp))
    · exact absurd hvalue (not_integer?_of_letter rfl (by simp))
    · rfl
  · rfl
  · rfl
  · rfl

theorem readUnsigned_eq (text : List Char) : readUnsigned text =
    match integer? (radixAndDigits text).1 (radixAndDigits text).2 with
    | some value => .ok value
    | none => .error (radixAndDigits text).1 :=
  rfl

theorem readUnsigned_eq_ok_iff : readUnsigned text = .ok value ↔
    ∃ mark body radix, Marks mark radix ∧ text = mark ++ body ∧ integer? radix body = some value := by
  constructor
  · intro hread
    obtain ⟨mark, hmark, hsplit⟩ := radixAndDigits_split text
    refine ⟨mark, _, _, hmark, hsplit, ?_⟩
    rw [readUnsigned_eq] at hread
    split at hread
    · next inner hinner => rw [hinner, Except.ok.inj hread]
    · cases hread
  · rintro ⟨mark, body, radix, hmark, rfl, hvalue⟩
    rw [readUnsigned, radixAndDigits_append hmark hvalue]
    simp only [hvalue]

theorem radix_of_readUnsigned (h : readUnsigned text = .error radix) :
    radix = (radixAndDigits text).1 := by
  rw [readUnsigned_eq] at h
  split at h
  · cases h
  · exact (Except.error.inj h).symm

end Prefixes

section Read

variable {text : List Char} {value : Int64} {number : Int}

/-- The number of a text, from that of the text without its sign. -/
def withSign (text : List Char) (value : Int64) : Int64 :=
  if text.head? = some '-' then -value else value

theorem toInt_neg_of_ne (h : value ≠ Int64.minValue) : (-value).toInt = -value.toInt := by
  have hne : value.toInt ≠ -2 ^ 63 := fun heq => h (Int64.toInt_inj.mp heq)
  have hlow : -2 ^ 63 ≤ value.toInt := value.minValue_le_toInt
  have hhigh : value.toInt ≤ 2 ^ 63 - 1 := value.toInt_le
  rw [Int64.toInt_neg]
  exact Int.bmod_eq_of_le (by omega) (by omega)

theorem ne_minValue_of_natCast {n : Nat} (h : value.toInt = n) : value ≠ Int64.minValue := by
  rintro rfl
  exact absurd (Int.natCast_nonneg n) (h ▸ by decide)

theorem read_eq_none_iff : read text = none ↔ trim text = [] := by
  unfold read
  split
  · next h => simp [h]
  · next h => simp [h]
  · next h _ => simpa using h

theorem read_of_minus {rest : List Char} (h : trim text = '-' :: rest) :
    read text = some ((readUnsigned rest).map (-·)) := by
  rw [read, h]
  rfl

theorem read_of_head?_ne (hne : trim text ≠ []) (h : (trim text).head? ≠ some '-') :
    read text = some (readUnsigned (trim text)) := by
  unfold read
  split
  · next hnil => exact absurd hnil hne
  · next hminus => exact absurd (hminus ▸ rfl) h
  · rfl

/-- A text that is not blank is read without its sign first. -/
theorem read_of_ne_nil (h : trim text ≠ []) :
    read text = some ((readUnsigned (unsigned (trim text))).map (withSign (trim text))) := by
  by_cases hhead : (trim text).head? = some '-'
  · obtain ⟨rest, hrest⟩ := List.head?_eq_some_iff.mp hhead
    rw [read_of_minus hrest, hrest]
    rfl
  · have hsign : withSign (trim text) = id := funext fun value => if_neg hhead
    rw [read_of_head?_ne h hhead, unsigned_of_head?_ne hhead, hsign]
    cases readUnsigned (trim text) <;> rfl

/-- The texts that are read as numbers, by their prefixes and the integers behind them. -/
theorem read_eq_ok_iff : read text = some (.ok value) ↔
    ∃ mark body radix inner, Marks mark radix ∧ unsigned (trim text) = mark ++ body ∧
      integer? radix body = some inner ∧ value = withSign (trim text) inner := by
  by_cases hnil : trim text = []
  · rw [read_eq_none_iff.mpr hnil, hnil]
    refine iff_of_false (by simp) ?_
    rintro ⟨mark, body, radix, inner, -, hsplit, hinner, -⟩
    obtain ⟨rfl, rfl⟩ := List.append_eq_nil_iff.mp hsplit.symm
    cases hinner
  · rw [read_of_ne_nil hnil, Option.some.injEq]
    constructor
    · intro hread
      cases hunsigned : readUnsigned (unsigned (trim text)) with
      | error radix =>
        rw [hunsigned] at hread
        cases hread
      | ok inner =>
        rw [hunsigned] at hread
        obtain ⟨mark, body, radix, hmark, hsplit, hinner⟩ := readUnsigned_eq_ok_iff.mp hunsigned
        exact ⟨mark, body, radix, inner, hmark, hsplit, hinner, (Except.ok.inj hread).symm⟩
    · rintro ⟨mark, body, radix, inner, hmark, hsplit, hinner, rfl⟩
      rw [readUnsigned_eq_ok_iff.mpr ⟨mark, body, radix, hmark, hsplit, hinner⟩]
      rfl

theorem Denotes.parts (h : Denotes text number) : ∃ mark digits radix n inner, Marks mark radix ∧
    unsigned text = mark ++ digits ∧ Writes radix digits n ∧ n ≤ limit ∧ Int64.toInt inner = n ∧
    number = (withSign text inner).toInt := by
  have hinner {n : Nat} (fits : n ≤ limit) :
      ∃ inner : Int64, inner.toInt = n ∧ (-inner).toInt = -(n : Int) := by
    have hlimit : limit = 2 ^ 63 - 1 := rfl
    have hvalue : (Int64.ofInt n).toInt = n := Int64.toInt_ofInt_of_le (by omega) (by omega)
    exact ⟨_, hvalue, by rw [toInt_neg_of_ne (ne_minValue_of_natCast hvalue), hvalue]⟩
  cases h with
  | @positive mark digits radix n hmark hwrites fits =>
    obtain ⟨inner, hvalue, -⟩ := hinner fits
    have hhead : (mark ++ digits).head? ≠ some '-' := hmark.head?_ne fun _ hsign => by
      obtain ⟨c, rest, d, rfl, hd⟩ := hwrites.exists_cons
      exact (isDigit_ne_sign hmark.le hd).2 (Option.some.inj hsign)
    exact ⟨mark, digits, radix, n, inner, hmark, unsigned_of_head?_ne hhead, hwrites, fits, hvalue,
      by rw [withSign, if_neg hhead, hvalue]⟩
  | @negative mark digits radix n hmark hwrites fits =>
    obtain ⟨inner, hvalue, hnegated⟩ := hinner fits
    exact ⟨mark, digits, radix, n, inner, hmark, rfl, hwrites, fits, hvalue, hnegated.symm⟩

theorem Resigned.parts (h : Resigned text number) : ∃ mark body radix inner, Marks mark radix ∧
    unsigned text = mark ++ body ∧ Signed radix body (Int64.toInt inner) ∧
    number = (withSign text inner).toInt := by
  cases h with
  | @positive mark body radix _ hmark hsigned second =>
    obtain ⟨inner, rfl⟩ := hsigned.exists_toInt
    have hhead : (mark ++ body).head? ≠ some '-' := hmark.head?_ne fun hbare hsign => by
      rcases second with hne | hplus
      · exact hne hbare
      · rw [hplus] at hsign
        exact absurd hsign (by decide)
    exact ⟨mark, body, radix, inner, hmark, unsigned_of_head?_ne hhead, hsigned,
      by rw [withSign, if_neg hhead]⟩
  | @negative mark body radix _ hmark hsigned fits =>
    obtain ⟨inner, rfl⟩ := hsigned.exists_toInt
    have hne : inner ≠ Int64.minValue := by
      rintro rfl
      exact absurd fits (by decide)
    exact ⟨mark, body, radix, inner, hmark, rfl, hsigned, (toInt_neg_of_ne hne).symm⟩
  | wrapped hoverflows =>
    cases hoverflows with
    | @negated mark digits radix hmark hwrites =>
      exact ⟨mark, _, radix, Int64.minValue, hmark, rfl, signed_minValue_iff.mpr ⟨digits, rfl, hwrites⟩, rfl⟩

/-- No text with a second sign is in the grammar. -/
theorem Resigned.not_denotes (h : Resigned text number) (other : Int) : ¬ Denotes text other := by
  intro hdenotes
  obtain ⟨mark, body, radix, inner, hmark, hsplit, hsigned, -⟩ := h.parts
  obtain ⟨mark', digits, radix', n, inner', hmark', hsplit', hwrites, fits, hvalue, -⟩ := hdenotes.parts
  have hbody := radixAndDigits_append hmark ((integer?_eq_some_iff hmark.le).mpr (Or.inr hsigned))
  have hdigits := radixAndDigits_append hmark'
    ((integer?_eq_some_iff hmark'.le).mpr (Or.inl ⟨n, hwrites, fits, hvalue⟩))
  rw [← hsplit] at hbody
  rw [← hsplit', hbody] at hdigits
  obtain ⟨rfl, rfl⟩ := Prod.mk.inj hdigits
  exact not_writes_of_signed hmark.le hsigned hwrites

/-- A number that is negated is in the grammar, or has a second sign. -/
theorem denotes_or_resigned_neg {mark body : List Char} {radix : Nat} (hmark : Marks mark radix)
    (h : integer? radix body = some value) :
    Denotes ('-' :: (mark ++ body)) (-value).toInt ∨ Resigned ('-' :: (mark ++ body)) (-value).toInt := by
  rcases (integer?_eq_some_iff hmark.le).mp h with ⟨n, hwrites, fits, hvalue⟩ | hsigned
  · left
    rw [toInt_neg_of_ne (ne_minValue_of_natCast hvalue), hvalue]
    exact .negative hmark hwrites fits
  · right
    by_cases hleast : value = Int64.minValue
    · subst hleast
      obtain ⟨digits, rfl, hwrites⟩ := signed_minValue_iff.mp hsigned
      exact .wrapped (.negated hmark hwrites)
    · have hne : value.toInt ≠ -2 ^ 63 := fun heq => hleast (Int64.toInt_inj.mp heq)
      have hlow : -2 ^ 63 ≤ value.toInt := value.minValue_le_toInt
      have hlimit : limit = 2 ^ 63 - 1 := rfl
      rw [toInt_neg_of_ne hleast]
      exact .negative hmark hsigned (by omega)

/-- A number is read from the numerals of the grammar and from those with a second sign. -/
theorem read_eq_ok_iff_denotes : read text = some (.ok value) ↔
    Denotes (trim text) value.toInt ∨ Resigned (trim text) value.toInt := by
  rw [read_eq_ok_iff]
  generalize trim text = trimmed
  constructor
  · rintro ⟨mark, body, radix, inner, hmark, hsplit, hinner, rfl⟩
    by_cases hminus : trimmed.head? = some '-'
    · obtain ⟨rest, rfl⟩ := List.head?_eq_some_iff.mp hminus
      obtain rfl : rest = mark ++ body := hsplit
      rw [withSign, if_pos hminus]
      exact denotes_or_resigned_neg hmark hinner
    · rw [unsigned_of_head?_ne hminus] at hsplit
      subst hsplit
      rw [withSign, if_neg hminus]
      rcases (integer?_eq_some_iff hmark.le).mp hinner with ⟨n, hwrites, fits, hvalue⟩ | hsigned
      · rw [hvalue]
        exact Or.inl (.positive hmark hwrites fits)
      · refine Or.inr (.positive hmark hsigned ?_)
        by_cases hbare : mark = []
        · subst hbare
          generalize inner.toInt = number at hsigned
          cases hsigned with
          | plus => exact Or.inr rfl
          | minus => exact absurd rfl hminus
        · exact Or.inl hbare
  · rintro (hdenotes | hresigned)
    · obtain ⟨mark, digits, radix, n, inner, hmark, hsplit, hwrites, fits, hvalue, hsign⟩ :=
        hdenotes.parts
      exact ⟨mark, digits, radix, inner, hmark, hsplit,
        (integer?_eq_some_iff hmark.le).mpr (Or.inl ⟨n, hwrites, fits, hvalue⟩),
        Int64.toInt_inj.mp hsign⟩
    · obtain ⟨mark, body, radix, inner, hmark, hsplit, hsigned, hsign⟩ := hresigned.parts
      exact ⟨mark, body, radix, inner, hmark, hsplit,
        (integer?_eq_some_iff hmark.le).mpr (Or.inr hsigned), Int64.toInt_inj.mp hsign⟩

/-- A text that is refused is read in the radix of its prefix. -/
theorem read_eq_error_iff {radix : Nat} : read text = some (.error radix) ↔
    trim text ≠ [] ∧ radix = radixOf (trim text) ∧ ∀ value, read text ≠ some (.ok value) := by
  by_cases hnil : trim text = []
  · simp [read_eq_none_iff.mpr hnil, hnil]
  · rw [read_of_ne_nil hnil, ← radixAndDigits_radix]
    cases hread : readUnsigned (unsigned (trim text)) with
    | ok inner => simp [Except.map]
    | error other =>
      rw [radix_of_readUnsigned hread]
      simp [Except.map, hnil, eq_comm]

/-- The number behind a minus sign is the least one exactly if its negation does not fit. -/
theorem readUnsigned_eq_minValue_iff {rest : List Char} :
    readUnsigned rest = .ok Int64.minValue ↔ Overflows ('-' :: rest) := by
  rw [readUnsigned_eq_ok_iff]
  constructor
  · rintro ⟨mark, body, radix, hmark, rfl, hleast⟩
    rcases (integer?_eq_some_iff hmark.le).mp hleast with ⟨n, -, -, hvalue⟩ | hsigned
    · exact absurd rfl (ne_minValue_of_natCast hvalue)
    · obtain ⟨digits, rfl, hwrites⟩ := signed_minValue_iff.mp hsigned
      exact .negated hmark hwrites
  · intro hoverflows
    cases hoverflows with
    | @negated mark digits radix hmark hwrites =>
      exact ⟨mark, _, radix, hmark, rfl, (integer?_eq_some_iff hmark.le).mpr
        (Or.inr (signed_minValue_iff.mpr ⟨digits, rfl, hwrites⟩))⟩

theorem readNumeral_of_minus {rest : List Char} (h : trim text = '-' :: rest) :
    Host.readNumeral text = match readUnsigned rest with
      | .error radix => .ok (some (.error radix))
      | .ok value => do return some (.ok (← Host.negated value)) := by
  rw [Host.readNumeral, h]
  rfl

theorem readNumeral_of_head?_ne (h : (trim text).head? ≠ some '-') :
    Host.readNumeral text = .ok (read text) := by
  by_cases hne : trim text = []
  · simp only [Host.readNumeral, read_eq_none_iff.mpr hne, hne]
  · rw [read_of_head?_ne hne h]
    unfold Host.readNumeral
    split
    · next hnil => exact absurd hnil hne
    · next hminus => exact absurd (hminus ▸ rfl) h
    · rfl

/-- A host traps at the negation that does not fit, and reads the same number everywhere else. -/
theorem host_readNumeral (text : List Char) :
    (Overflows (trim text) →
      Host.readNumeral text = Host.trap .overflow ∧ read text = some (.ok Int64.minValue)) ∧
    (¬ Overflows (trim text) → Host.readNumeral text = .ok (read text)) := by
  by_cases hminus : (trim text).head? = some '-'
  · obtain ⟨rest, hrest⟩ := List.head?_eq_some_iff.mp hminus
    rw [readNumeral_of_minus hrest, read_of_minus hrest, hrest, ← readUnsigned_eq_minValue_iff]
    cases readUnsigned rest with
    | error radix => exact ⟨fun hleast => (nomatch hleast), fun _ => rfl⟩
    | ok value =>
      refine ⟨fun hleast => ?_, fun hne => ?_⟩
      · obtain rfl := Except.ok.inj hleast
        exact ⟨rfl, rfl⟩
      · simp only [Host.negated, if_neg (mt (congrArg Except.ok) hne)]
        rfl
  · refine ⟨fun hoverflows => ?_, fun _ => readNumeral_of_head?_ne hminus⟩
    generalize trim text = trimmed at hminus hoverflows
    cases hoverflows
    exact absurd rfl hminus

/-- What the grammar and the second signs write fits into 64 signed bits. -/
theorem exists_toInt (h : Denotes text number ∨ Resigned text number) :
    ∃ value : Int64, number = value.toInt := by
  rcases h with hdenotes | hresigned
  · obtain ⟨_, _, _, _, _, -, -, -, -, -, hvalue⟩ := hdenotes.parts
    exact ⟨_, hvalue⟩
  · obtain ⟨_, _, _, _, -, -, -, hvalue⟩ := hresigned.parts
    exact ⟨_, hvalue⟩

theorem Denotes.natAbs_le (h : Denotes text number) : number.natAbs ≤ limit := by
  cases h <;> omega

/--
A text is taken for no number at all exactly if it is blank. It is read as a number exactly if it is a numeral
of the grammar or, outside the grammar, has a second sign right before its digits. Every other text is refused
by the radix of its prefix. The numbers of the grammar and their negations fit into 64 signed bits. A negation
does not fit exactly where the second sign makes the least number: a host that checks its sums traps there, and
one that does not reads the least number itself. Everywhere else both read the same.
-/
theorem read_follows_grammar (text : List Char) :
    (read text = none ↔ trim text = []) ∧
    (∀ value, read text = some (.ok value) ↔
      Denotes (trim text) value.toInt ∨ Resigned (trim text) value.toInt) ∧
    (∀ radix, read text = some (.error radix) ↔ trim text ≠ [] ∧ radix = radixOf (trim text) ∧
      ∀ number, ¬ Denotes (trim text) number ∧ ¬ Resigned (trim text) number) ∧
    (∀ number, Resigned (trim text) number → ∀ other, ¬ Denotes (trim text) other) ∧
    (∀ number, Denotes (trim text) number → (number.natAbs : Int) ≤ Int64.maxValue.toInt) ∧
    (Overflows (trim text) →
      Host.readNumeral text = Host.trap .overflow ∧ read text = some (.ok Int64.minValue)) ∧
    (¬ Overflows (trim text) → Host.readNumeral text = .ok (read text)) := by
  refine ⟨read_eq_none_iff, fun value => read_eq_ok_iff_denotes, fun radix => ?_,
    fun number h => h.not_denotes, fun number h => Int.ofNat_le.mpr h.natAbs_le, host_readNumeral text⟩
  rw [read_eq_error_iff]
  refine and_congr_right fun _ => and_congr_right fun _ => ⟨fun hnone number => ?_, fun hnone value => ?_⟩
  · refine not_or.mp fun hsome => ?_
    obtain ⟨value, rfl⟩ := exists_toInt hsome
    exact hnone value (read_eq_ok_iff_denotes.mpr hsome)
  · exact fun hread => not_or.mpr (hnone _) (read_eq_ok_iff_denotes.mp hread)

/-- The least number negated, and a numeral of the grammar. -/
theorem read_follows_grammar_leastNegated :
    (Overflows (trim "--9223372036854775808".toList) ∧
      Host.readNumeral "--9223372036854775808".toList = Host.trap .overflow ∧
      read "--9223372036854775808".toList = some (.ok Int64.minValue) ∧
      ∀ number, ¬ Denotes (trim "--9223372036854775808".toList) number) ∧
    Denotes (trim "-0x1F".toList) (-31) ∧ read "-0x1F".toList = some (.ok (-31)) ∧
      Host.readNumeral "-0x1F".toList = .ok (some (.ok (-31))) := by
  have hbare : Marks [] 10 := List.mem_cons_self
  have hleast : Writes 10 "9223372036854775808".toList (limit + 1) :=
    (magnitude?_eq_some_iff (by decide)).mp (by decide)
  have hoverflows : Overflows (trim "--9223372036854775808".toList) := .negated hbare hleast
  have hprefix : Marks ['0', 'x'] 16 := by simp [marks_iff]
  have hdigits : Writes 16 "1F".toList 31 := (magnitude?_eq_some_iff (by decide)).mp (by decide)
  have hdenotes : Denotes (trim "-0x1F".toList) (-31) := .negative hprefix hdigits (by decide)
  obtain ⟨-, -, -, hapart, -, htraps, -⟩ := read_follows_grammar "--9223372036854775808".toList
  obtain ⟨-, hreads, -, hapart', -, -, hsame⟩ := read_follows_grammar "-0x1F".toList
  have hread : read "-0x1F".toList = some (.ok (-31)) := (hreads (-31)).mpr (Or.inl hdenotes)
  have hfits : ¬ Overflows (trim "-0x1F".toList) := fun h => hapart' _ (.wrapped h) _ hdenotes
  obtain ⟨htrap, hwrapped⟩ := htraps hoverflows
  exact ⟨⟨hoverflows, htrap, hwrapped, hapart _ (.wrapped hoverflows)⟩, hdenotes, hread,
    (hsame hfits).trans (congrArg Except.ok hread)⟩

/-- The same with a prefix: the least number is written behind it, and its negation wraps to itself. -/
example : read "-0x-8000000000000000".toList = some (.ok Int64.minValue) := by
  decide

/-- Two minus signs are read as none, although the grammar has no such text. -/
theorem read_two_signs :
    read ['-', '-', '5'] = some (.ok 5) ∧ ∀ value, ¬ Denotes (trim ['-', '-', '5']) value := by
  have hdigit : Writes 10 ['5'] 5 := ⟨[5], by decide, .cons ⟨by decide, Or.inl rfl⟩ .nil, rfl⟩
  have hmark : Marks [] 10 := List.mem_cons_self
  have hminus : Signed 10 ['-', '5'] (-5) := .minus hdigit (by decide)
  have hresigned : Resigned ['-', '-', '5'] 5 := .negative hmark hminus (by decide)
  exact ⟨by decide, hresigned.not_denotes⟩

end Read

end Microcomputer.Assembly.Numeral
