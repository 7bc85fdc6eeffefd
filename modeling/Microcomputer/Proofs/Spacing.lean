import Microcomputer.Proofs.Grammar
import Microcomputer.Proofs.Substitution

/-!
# Blanks within a line

How a line is read depends on its tokens, and on nothing else of its blanks but for one: the label form that
begins with a word is known by the space behind this word. Lines with the same tokens have the same item, or are
rejected for reasons of the same kind.
-/
namespace Microcomputer

namespace Text

section Tokens

variable {text other first : List Char}

theorem isBlank_of_isAlpha {c : Char} (h : c.isAlpha = true) : isBlank c = false := by
  have hcase : c.isUpper = true ∨ c.isLower = true := Bool.or_eq_true_iff.mp h
  rcases hcase with hupper | hlower
  · obtain ⟨hfrom, hto⟩ : c.val ≥ 'A'.val ∧ c.val ≤ 'Z'.val := of_decide_eq_true hupper
    have hlow : 65 ≤ c.toNat := hfrom
    have hhigh : c.toNat ≤ 90 := hto
    exact isBlank_of_toNat (by omega) (by omega)
  · obtain ⟨hfrom, hto⟩ : decide (c.val ≥ 'a'.val) = true ∧ decide (c.val ≤ 'z'.val) = true :=
      Bool.and_eq_true_iff.mp hlower
    have hlow : 97 ≤ c.toNat := of_decide_eq_true hfrom
    have hhigh : c.toNat ≤ 122 := of_decide_eq_true hto
    exact isBlank_of_toNat (by omega) (by omega)

theorem isBlank_of_isAlphanum {c : Char} (h : c.isAlphanum = true) : isBlank c = false := by
  have hkind : c.isAlpha = true ∨ c.isDigit = true := Bool.or_eq_true_iff.mp h
  exact hkind.elim isBlank_of_isAlpha isBlank_of_isDigit

theorem visible_of_mem_takeWhile {c : Char} (h : c ∈ text.takeWhile (!isBlank ·)) : isBlank c = false := by
  simpa using List.mem_takeWhile_imp h

theorem blank_of_dropWhile {c : Char} {rest : List Char} (h : text.dropWhile (!isBlank ·) = c :: rest) :
    isBlank c = true := by
  have hfirst := List.head?_dropWhile_not (!isBlank ·) text
  rw [h] at hfirst
  simpa using hfirst

/-- The run of visible characters that a text begins with is its first token. -/
theorem tokens_eq_word_append (text : List Char) :
    tokens text = word (text.takeWhile (!isBlank ·)) ++ tokens (text.dropWhile (!isBlank ·)) := by
  have hrun : ∀ c ∈ text.takeWhile (!isBlank ·), isBlank c = false :=
    fun c hc => visible_of_mem_takeWhile hc
  have htail : ∀ c rest, text.dropWhile (!isBlank ·) = c :: rest → isBlank c = true :=
    fun c rest hd => blank_of_dropWhile hd
  have htokens := tokens_append_of_run hrun htail
  rwa [List.takeWhile_append_dropWhile] at htokens

theorem tokens_cons_eq {c : Char} (h : isBlank c = false) (text : List Char) :
    tokens (c :: text) =
      (c :: text.takeWhile (!isBlank ·)) :: tokens (text.dropWhile (!isBlank ·)) := by
  rw [tokens_eq_word_append, List.takeWhile_cons_of_pos (by simp [h]),
    List.dropWhile_cons_of_pos (by simp [h]), word_of_ne_nil (List.cons_ne_nil _ _)]
  rfl

/-- Texts with the same tokens have the same behind a visible character that both begin with. -/
theorem tokens_of_tokens_cons {c : Char} (hc : isBlank c = false)
    (h : tokens (c :: text) = tokens (c :: other)) :
    text.takeWhile (!isBlank ·) = other.takeWhile (!isBlank ·) ∧ tokens text = tokens other := by
  rw [tokens_cons_eq hc, tokens_cons_eq hc] at h
  obtain ⟨hrun, hrest⟩ := List.cons.inj h
  obtain ⟨-, hrun⟩ := List.cons.inj hrun
  exact ⟨hrun, by rw [tokens_eq_word_append text, hrun, hrest, ← tokens_eq_word_append]⟩

theorem tokens_of_tokens_concat {c : Char} (hc : isBlank c = false)
    (h : tokens (text ++ [c]) = tokens (other ++ [c])) : tokens text = tokens other := by
  obtain ⟨front, run, htext, hlast⟩ := tokens_concat_of_visible hc text
  obtain ⟨front', run', hother, hlast'⟩ := tokens_concat_of_visible hc other
  rw [hlast, hlast'] at h
  obtain ⟨rfl, hruns⟩ := List.append_inj' h rfl
  obtain ⟨rfl, -⟩ := List.append_inj' (List.head_eq_of_cons_eq hruns) rfl
  rw [htext, hother]

/-- A trimmed text begins with its first token, and a blank if there are more. -/
theorem Trimmed.exists_run (h : Trimmed text) (hne : text ≠ []) :
    ∃ run tail, run ≠ [] ∧ text = run ++ tail ∧ tokens text = run :: tokens tail ∧
      ∀ c rest, tail = c :: rest → isBlank c = true := by
  obtain ⟨c, rest, rfl⟩ := List.exists_cons_of_ne_nil hne
  refine ⟨c :: rest.takeWhile (!isBlank ·), rest.dropWhile (!isBlank ·), List.cons_ne_nil _ _, ?_,
    tokens_cons_eq (h.first c rest rfl) rest, fun d tail hd => blank_of_dropWhile hd⟩
  rw [List.cons_append, List.takeWhile_append_dropWhile]

theorem trim_ne_nil {rest : List (List Char)} (h : tokens text = first :: rest) : trim text ≠ [] := by
  intro hnil
  rw [← tokens_trim, hnil] at h
  cases h

theorem trim_of_tokens_eq_nil (h : tokens text = []) : trim text = [] := by
  by_contra hne
  obtain ⟨run, tail, -, -, htokens, -⟩ := (trimmed_trim text).exists_run hne
  rw [tokens_trim, h] at htokens
  cases htokens

theorem trim_of_tokens_eq_singleton (h : tokens text = [first]) : trim text = first := by
  have htrimmed := trimmed_trim text
  obtain ⟨run, tail, -, hsplit, htokens, -⟩ := htrimmed.exists_run (trim_ne_nil h)
  rw [tokens_trim, h] at htokens
  obtain ⟨rfl, hrest⟩ := List.cons.inj htokens
  rcases List.eq_nil_or_concat tail with rfl | ⟨front, c, rfl⟩
  · rw [hsplit, List.append_nil]
  · -- The last character is visible, so that a second token would end with it.
    rw [List.concat_eq_append] at hsplit hrest
    have hc : isBlank c = false := htrimmed.last (first ++ front) c (by rw [hsplit, List.append_assoc])
    obtain ⟨_, _, -, hlast⟩ := tokens_concat_of_visible hc front
    rw [hlast] at hrest
    simp at hrest

theorem trim_of_tokens_eq_cons_cons {second : List Char} {more : List (List Char)}
    (h : tokens text = first :: second :: more) :
    first ≠ [] ∧ ∃ c rest, isBlank c = true ∧ trim text = first ++ c :: rest := by
  obtain ⟨run, tail, hne, hsplit, htokens, hblank⟩ := (trimmed_trim text).exists_run (trim_ne_nil h)
  rw [tokens_trim, h] at htokens
  obtain ⟨rfl, hrest⟩ := List.cons.inj htokens
  cases tail with
  | nil => cases hrest
  | cons c rest => exact ⟨hne, c, rest, hblank c rest rfl, hsplit⟩

/-- Texts of the same tokens are the same when trimmed, unless a blank stands behind the first token. -/
theorem trim_eq_or_blank (h : tokens text = tokens other) :
    trim text = trim other ∨ ∃ first c d u v, first ≠ [] ∧ isBlank c = true ∧ isBlank d = true ∧
      trim text = first ++ c :: u ∧ trim other = first ++ d :: v := by
  match hother : tokens other with
  | [] => exact Or.inl ((trim_of_tokens_eq_nil (h.trans hother)).trans (trim_of_tokens_eq_nil hother).symm)
  | [first] =>
    left
    rw [trim_of_tokens_eq_singleton (h.trans hother), trim_of_tokens_eq_singleton hother]
  | first :: second :: more =>
    obtain ⟨hne, c, u, hc, htext⟩ := trim_of_tokens_eq_cons_cons (h.trans hother)
    obtain ⟨-, d, v, hd, hsame⟩ := trim_of_tokens_eq_cons_cons hother
    exact Or.inr ⟨first, c, d, u, v, hne, hc, hd, htext, hsame⟩

theorem Trimmed.head?_congr (htext : Trimmed text) (hother : Trimmed other)
    (h : tokens text = tokens other) : text.head? = other.head? := by
  cases ht : tokens other with
  | nil =>
    rw [← trim_of_trimmed htext, ← trim_of_trimmed hother, trim_of_tokens_eq_nil (h.trans ht),
      trim_of_tokens_eq_nil ht]
  | cons first rest => rw [htext.head?_eq (h.trans ht), hother.head?_eq ht]

theorem Trimmed.getLast?_congr (htext : Trimmed text) (hother : Trimmed other)
    (h : tokens text = tokens other) : text.getLast? = other.getLast? := by
  rcases List.eq_nil_or_concat (tokens other) with ht | ⟨front, last, ht⟩
  · rw [← trim_of_trimmed htext, ← trim_of_trimmed hother, trim_of_tokens_eq_nil (h.trans ht),
      trim_of_tokens_eq_nil ht]
  · rw [List.concat_eq_append] at ht
    rw [htext.getLast?_eq (h.trans ht), hother.getLast?_eq ht]

theorem head?_takeWhile {c : Char} (hc : isBlank c = false) :
    (text.takeWhile (!isBlank ·)).head? = some c ↔ text.head? = some c := by
  cases text with
  | nil => rfl
  | cons d rest =>
    by_cases hd : isBlank d = true
    · rw [List.takeWhile_cons_of_neg (by simp [hd])]
      simp only [List.head?_nil, List.head?_cons, Option.some.injEq, reduceCtorEq, false_iff]
      rintro rfl
      rw [hc] at hd
      cases hd
    · rw [List.takeWhile_cons_of_pos (by simp [hd])]
      rfl

end Tokens

end Text

namespace Assembly

open Text

namespace Numeral

section Blanks

variable {radix : Nat} {mark text other : List Char} {value : Int} {n : Nat}

theorem Writes.visible (h : radix ≤ 16) (hwrites : Writes radix text n) :
    ∀ c ∈ text, isBlank c = false := by
  obtain ⟨values, -, hvalues, -⟩ := hwrites
  induction hvalues with
  | nil => exact fun c hc => absurd hc List.not_mem_nil
  | cons hd _ ih => exact List.forall_mem_cons.mpr ⟨isBlank_of_isAlphanum (hd.isAlphanum h), ih⟩

theorem Marks.visible (h : Marks mark radix) : ∀ c ∈ mark, isBlank c = false := by
  rcases marks_iff.mp h with ⟨rfl, -⟩ | ⟨rfl, -⟩ | ⟨rfl, -⟩ | ⟨rfl, -⟩ <;>
    simp only [List.forall_mem_cons, List.not_mem_nil, false_implies, implies_true, and_true] <;> decide

theorem Signed.visible (h : radix ≤ 16) (hsigned : Signed radix text value) :
    ∀ c ∈ text, isBlank c = false := by
  cases hsigned with
  | plus hwrites | minus hwrites => exact List.forall_mem_cons.mpr ⟨by decide, hwrites.visible h⟩

/-- What is read as a number has no blank in it. -/
theorem visible_of_read {value : Int64} (h : read text = some (.ok value)) :
    ∀ c ∈ trim text, isBlank c = false := by
  obtain ⟨mark, body, radix, inner, hmark, hsplit, hinner, -⟩ := read_eq_ok_iff.mp h
  have hbody : ∀ c ∈ body, isBlank c = false := by
    rcases (integer?_eq_some_iff hmark.le).mp hinner with ⟨n, hwrites, -⟩ | hsigned
    · exact hwrites.visible hmark.le
    · exact hsigned.visible hmark.le
  have hunsigned : ∀ c ∈ unsigned (trim text), isBlank c = false :=
    hsplit ▸ List.forall_mem_append.mpr ⟨hmark.visible, hbody⟩
  by_cases hminus : (trim text).head? = some '-'
  · obtain ⟨rest, hrest⟩ := List.head?_eq_some_iff.mp hminus
    rw [hrest] at hunsigned ⊢
    exact List.forall_mem_cons.mpr ⟨by decide, hunsigned⟩
  · rwa [unsigned_of_head?_ne hminus] at hunsigned

theorem isPrefixOf_append_cons {run rest : List Char} {c : Char} (h : c ∉ mark) :
    mark.isPrefixOf (run ++ c :: rest) = mark.isPrefixOf run := by
  induction mark generalizing run with
  | nil => simp
  | cons d mark ih =>
    obtain ⟨hd, hmark⟩ := not_or.mp (mt List.mem_cons.mpr h)
    cases run with
    | nil => simp [List.isPrefixOf, Ne.symm hd]
    | cons e run => simp [List.isPrefixOf, ih hmark]

theorem unsigned_append (h : text ≠ []) (tail : List Char) :
    unsigned (text ++ tail) = unsigned text ++ tail := by
  obtain ⟨c, rest, rfl⟩ := List.exists_cons_of_ne_nil h
  by_cases hc : c = '-'
  · subst hc
    rfl
  · have hhead (more : List Char) : (c :: more).head? ≠ some '-' := by simpa using hc
    rw [unsigned_of_head?_ne (hhead rest), List.cons_append, unsigned_of_head?_ne (hhead _)]

/-- The radix of a text is that of the run of characters before its first blank. -/
theorem radixOf_append_cons (h : text ≠ []) {c : Char} (hc : isBlank c = true) (rest : List Char) :
    radixOf (text ++ c :: rest) = radixOf text := by
  have hmark : ∀ mark ∈ marks, mark.1.isPrefixOf (unsigned text ++ c :: rest) =
      mark.1.isPrefixOf (unsigned text) := by
    intro mark hmem
    have hmarks : Marks mark.1 mark.2 := List.mem_cons_of_mem _ hmem
    refine isPrefixOf_append_cons fun hin => ?_
    rw [hmarks.visible c hin] at hc
    cases hc
  obtain ⟨hb, ho, hx, -⟩ := by simpa only [marks, List.forall_mem_cons] using hmark
  simp only [radixOf, unsigned_append h, marks, List.find?_cons, List.find?_nil, hb, ho, hx]

/-- What number a text is read as depends on its tokens alone. -/
theorem read_congr (h : tokens text = tokens other) : read text = read other := by
  rcases trim_eq_or_blank h with hsame | ⟨first, c, d, u, v, hne, hc, hd, htext, hother⟩
  · unfold read
    rw [hsame]
  · have hrefused {text rest : List Char} {c : Char} (hc : isBlank c = true)
        (htext : trim text = first ++ c :: rest) : read text = some (.error (radixOf first)) := by
      refine read_eq_error_iff.mpr ⟨by rw [htext]; simp, ?_, fun value hread => ?_⟩
      · rw [htext, radixOf_append_cons hne hc]
      · have hvisible := visible_of_read hread c (by rw [htext]; simp)
        rw [hc] at hvisible
        cases hvisible
    rw [hrefused hc htext, hrefused hd hother]

end Blanks

end Numeral

section Alike

variable {α β : Type} {first second : Except Rejection α}

/-- The same answer, or rejections of the same kind. -/
def Alike (first second : Except Rejection α) : Prop :=
  first.mapError Rejection.kind = second.mapError Rejection.kind

theorem alike_of_eq (h : first = second) : Alike first second :=
  congrArg _ h

theorem alike_error {rejection other : Rejection} (h : rejection.kind = other.kind) :
    Alike (.error rejection : Except Rejection α) (.error other) :=
  congrArg Except.error h

theorem Alike.cases (h : Alike first second) :
    (∃ value, first = .ok value ∧ second = .ok value) ∨
      ∃ rejection other, first = .error rejection ∧ second = .error other ∧
        rejection.kind = other.kind := by
  unfold Alike at h
  cases first with
  | ok value =>
    cases second with
    | ok other =>
      obtain rfl := Except.ok.inj h
      exact Or.inl ⟨value, rfl, rfl⟩
    | error other => cases h
  | error rejection =>
    cases second with
    | ok value => cases h
    | error other => exact Or.inr ⟨rejection, other, rfl, rfl, Except.error.inj h⟩

theorem Alike.bind (h : Alike first second) {next next' : α → Except Rejection β}
    (hnext : ∀ value, Alike (next value) (next' value)) : Alike (first >>= next) (second >>= next') := by
  rcases h.cases with ⟨value, rfl, rfl⟩ | ⟨rejection, other, rfl, rfl, hkind⟩
  · exact hnext value
  · exact alike_error hkind

theorem Alike.map (h : Alike first second) (f : α → β) : Alike (first.map f) (second.map f) :=
  h.bind fun value => alike_of_eq (Eq.refl (Except.ok (f value)))

end Alike

section Readings

variable {text other : List Char}

theorem alike_readNumber (h : tokens text = tokens other) (use : NumberUse) (low high : Int) :
    Alike (readNumber use low high text) (readNumber use low high other) := by
  unfold readNumber
  rw [Numeral.read_congr h]
  match Numeral.read other with
  | none | some (.error radix) => exact alike_error rfl
  | some (.ok value) =>
    by_cases hfits : low ≤ value.toInt ∧ value.toInt ≤ high
    · simp only [hfits, and_self, ↓reduceIte]
      exact alike_of_eq rfl
    · simp only [hfits, ↓reduceIte]
      exact alike_error rfl

theorem alike_readInt32 (h : tokens text = tokens other) (use : NumberUse) :
    Alike (readInt32 use text) (readInt32 use other) :=
  (alike_readNumber h use _ _).map Int32.ofInt

theorem isBlank_of_isLabelChar {c : Char} (h : isLabelChar c = true) : isBlank c = false := by
  simp only [isLabelChar, Bool.or_eq_true, beq_iff_eq] at h
  rcases h with (halphanum | rfl) | rfl
  · exact isBlank_of_isAlphanum halphanum
  · decide
  · decide

namespace Line

theorem alike_number (h : tokens text = tokens other) :
    Alike (number text).read.outcome (number other).read.outcome :=
  (alike_readInt32 h .literal).bind fun _ => alike_of_eq rfl

theorem alike_byte (h : tokens text = tokens other) :
    Alike (byte text).read.outcome (byte other).read.outcome :=
  (alike_readNumber h .literal 0 255).bind fun _ => alike_of_eq rfl

theorem alike_padding (h : tokens text = tokens other) :
    Alike (padding text).read.outcome (padding other).read.outcome :=
  ((alike_readNumber h .address 0 _).bind fun _ => alike_of_eq rfl).bind fun _ => alike_of_eq rfl

/-- A label with a blank in it is rejected, whichever blank it is. -/
theorem alike_label (h : tokens text = tokens other) :
    Alike (label (trim text)).read.outcome (label (trim other)).read.outcome := by
  have hinvalid {first rest : List Char} {c : Char} (hc : isBlank c = true) :
      (label (first ++ c :: rest)).read.outcome = .error (.invalidLabel (first ++ c :: rest)) := by
    have hname : ¬ isLabelName (first ++ c :: rest) = true := by
      intro hname
      simp only [isLabelName, Bool.and_eq_true, List.all_eq_true] at hname
      have hvisible := isBlank_of_isLabelChar (hname.2 c (by simp))
      rw [hc] at hvisible
      cases hvisible
    simp only [read, hname]
    rfl
  rcases trim_eq_or_blank h with hsame | ⟨first, c, d, u, v, -, hc, hd, htext, hother⟩
  · rw [hsame]
    exact alike_of_eq rfl
  · rw [htext, hother, hinvalid hc, hinvalid hd]
    exact alike_error rfl

theorem ofColon_of_head? {body : List Char} {c : Char} (h : body.head? = some c) :
    ofColon body = if c.isDigit then padding body else label body := by
  obtain ⟨rest, rfl⟩ := List.head?_eq_some_iff.mp h
  rfl

theorem alike_ofColon (h : tokens text = tokens other) :
    Alike (ofColon (trim text)).read.outcome (ofColon (trim other)).read.outcome := by
  rcases trim_eq_or_blank h with hsame | ⟨first, c, d, u, v, hne, hc, hd, htext, hother⟩
  · rw [hsame]
    exact alike_of_eq rfl
  · obtain ⟨e, run, rfl⟩ := List.exists_cons_of_ne_nil hne
    have htrim : tokens (trim text) = tokens (trim other) := by rw [tokens_trim, tokens_trim, h]
    rw [ofColon_of_head? (by rw [htext]; rfl : (trim text).head? = some e),
      ofColon_of_head? (by rw [hother]; rfl : (trim other).head? = some e)]
    by_cases hdigit : e.isDigit = true
    · simp only [hdigit, ↓reduceIte]
      exact alike_padding htrim
    · simp only [hdigit, Bool.false_eq_true, ↓reduceIte]
      exact alike_label h

section Forms

variable {rest : List Char}

theorem ofCode_byte (h : rest.head? ≠ some 'N') : ofCode ('!' :: rest) = byte rest := by
  cases rest with
  | nil => rfl
  | cons c rest =>
    have hc : c ≠ 'N' := by simpa using h
    unfold ofCode
    split
    · next heq => cases heq
    · next heq =>
      cases heq
      exact absurd rfl hc
    · next heq =>
      cases heq
      rfl
    · next hbyte => exact absurd rfl (hbyte _)

theorem ofCode_of_colon (hhead : text.head? ≠ some '!') (hlast : text.getLast? = some ':') :
    ofCode text = ofColon (trim text.dropLast) := by
  unfold ofCode
  split
  · cases hlast
  · exact absurd rfl hhead
  · exact absurd rfl hhead
  · rw [if_pos hlast]

theorem ofCode_of_lbl (h : text = 'l' :: 'b' :: 'l' :: ' ' :: rest) (hlast : text.getLast? ≠ some ':') :
    ofCode text = label (trim rest) := by
  subst h
  unfold ofCode
  rw [if_neg hlast]
  rfl

theorem ofCode_of_words (hne : text ≠ []) (hhead : text.head? ≠ some '!')
    (hlast : text.getLast? ≠ some ':') (hform : ∀ rest, text ≠ 'l' :: 'b' :: 'l' :: ' ' :: rest) :
    ofCode text = ofWords text := by
  unfold ofCode
  split
  · exact absurd rfl hne
  · exact absurd rfl hhead
  · exact absurd rfl hhead
  · rw [if_neg hlast]
    split
    · exact absurd rfl (hform _)
    · rfl

end Forms

theorem alike_literal (h : tokens ('!' :: text) = tokens ('!' :: other)) :
    Alike (ofCode ('!' :: text)).read.outcome (ofCode ('!' :: other)).read.outcome := by
  obtain ⟨hrun, htail⟩ := tokens_of_tokens_cons (by decide) h
  have hnumber : text.head? = some 'N' ↔ other.head? = some 'N' := by
    rw [← head?_takeWhile (by decide), hrun, head?_takeWhile (by decide)]
  by_cases htext : text.head? = some 'N'
  · obtain ⟨digits, rfl⟩ := List.head?_eq_some_iff.mp htext
    obtain ⟨digits', rfl⟩ := List.head?_eq_some_iff.mp (hnumber.mp htext)
    exact alike_number (tokens_of_tokens_cons (by decide) htail).2
  · rw [ofCode_byte htext, ofCode_byte (mt hnumber.mpr htext)]
    exact alike_byte htail

theorem alike_colon (h : tokens text = tokens other) (htext : text.getLast? = some ':')
    (hother : other.getLast? = some ':') :
    Alike (ofColon (trim text.dropLast)).read.outcome (ofColon (trim other.dropLast)).read.outcome := by
  obtain ⟨front, rfl⟩ := List.getLast?_eq_some_iff.mp htext
  obtain ⟨front', rfl⟩ := List.getLast?_eq_some_iff.mp hother
  rw [List.dropLast_concat, List.dropLast_concat]
  exact alike_ofColon (tokens_of_tokens_concat (by decide) h)

/-- The line is sorted as the definition of a label by the word and the space that it begins with. -/
def isSpacedLabel (text : List Char) : Bool :=
  (code text).getLast? != some ':' && ['l', 'b', 'l', ' '].isPrefixOf (code text)

theorem isPrefixOf_lbl : ['l', 'b', 'l', ' '].isPrefixOf text = true ↔
    ∃ rest, text = 'l' :: 'b' :: 'l' :: ' ' :: rest := by
  rw [List.isPrefixOf_iff_prefix]
  exact exists_congr fun rest => eq_comm

theorem tokens_lbl (rest : List Char) :
    tokens ('l' :: 'b' :: 'l' :: ' ' :: rest) = ['l', 'b', 'l'] :: tokens rest :=
  tokens_append_cons (by decide) ['l', 'b', 'l'] rest

end Line

/-- The tokens of a line before its comment mark. -/
def codeTokens (text : List Char) : List (List Char) :=
  tokens (text.takeWhile (· != '#'))

theorem tokens_code (text : List Char) : tokens (Line.code text) = codeTokens text :=
  tokens_trim _

/-- The same tokens before the comment mark, and both or neither known as a label by a space. -/
structure SameLayout (text other : List Char) : Prop where
  tokens : codeTokens text = codeTokens other
  spaced : Line.isSpacedLabel text = Line.isSpacedLabel other

instance (text other : List Char) : Decidable (SameLayout text other) :=
  decidable_of_iff (codeTokens text = codeTokens other ∧ Line.isSpacedLabel text = Line.isSpacedLabel other)
    ⟨fun h => ⟨h.1, h.2⟩, fun h => ⟨h.tokens, h.spaced⟩⟩

/-- Lines of the same layout have the same item, or are rejected for reasons of the same kind. -/
theorem SameLayout.alike (h : SameLayout text other) :
    Alike (Line.ofText text).read.outcome (Line.ofText other).read.outcome := by
  have htokens : Text.tokens (Line.code text) = Text.tokens (Line.code other) := by
    rw [tokens_code, tokens_code, h.tokens]
  have htext : Trimmed (Line.code text) := trimmed_trim _
  have hother : Trimmed (Line.code other) := trimmed_trim _
  have hspaced := h.spaced
  unfold Line.isSpacedLabel at hspaced
  unfold Line.ofText
  generalize Line.code text = code at htokens htext hspaced ⊢
  generalize Line.code other = changed at htokens hother hspaced ⊢
  have hhead := htext.head?_congr hother htokens
  have hlast := htext.getLast?_congr hother htokens
  by_cases hne : code = []
  · subst hne
    rw [List.head?_eq_none_iff.mp hhead.symm]
    exact alike_of_eq rfl
  have hne' : changed ≠ [] := by
    rintro rfl
    exact hne (List.head?_eq_none_iff.mp hhead)
  by_cases hmark : code.head? = some '!'
  · obtain ⟨rest, rfl⟩ := List.head?_eq_some_iff.mp hmark
    obtain ⟨rest', rfl⟩ := List.head?_eq_some_iff.mp (hhead.symm.trans hmark)
    exact Line.alike_literal htokens
  have hmark' : changed.head? ≠ some '!' := hhead ▸ hmark
  by_cases hcolon : code.getLast? = some ':'
  · have hcolon' : changed.getLast? = some ':' := hlast ▸ hcolon
    rw [Line.ofCode_of_colon hmark hcolon, Line.ofCode_of_colon hmark' hcolon']
    exact Line.alike_colon htokens hcolon hcolon'
  have hcolon' : changed.getLast? ≠ some ':' := hlast ▸ hcolon
  rw [bne_iff_ne.mpr hcolon, bne_iff_ne.mpr hcolon', Bool.true_and, Bool.true_and] at hspaced
  by_cases hlbl : ['l', 'b', 'l', ' '].isPrefixOf code = true
  · obtain ⟨rest, rfl⟩ := Line.isPrefixOf_lbl.mp hlbl
    obtain ⟨rest', rfl⟩ := Line.isPrefixOf_lbl.mp (hspaced.symm.trans hlbl)
    rw [Line.tokens_lbl, Line.tokens_lbl] at htokens
    rw [Line.ofCode_of_lbl rfl hcolon, Line.ofCode_of_lbl rfl hcolon']
    exact Line.alike_label (List.cons.inj htokens).2
  · have hlbl' : ¬ ['l', 'b', 'l', ' '].isPrefixOf changed = true := hspaced ▸ hlbl
    rw [Line.ofCode_of_words hne hmark hcolon fun rest h => hlbl (Line.isPrefixOf_lbl.mpr ⟨rest, h⟩),
      Line.ofCode_of_words hne' hmark' hcolon' fun rest h => hlbl' (Line.isPrefixOf_lbl.mpr ⟨rest, h⟩)]
    exact alike_of_eq (by rw [Line.ofWords, Line.ofWords, htokens])

/-- A line known as a label by a space is accepted or rejected as one. -/
theorem Line.ofText_of_spaced (h : Line.isSpacedLabel text = true) :
    ∃ name rest, Line.ofText text = .label name ∧ codeTokens text = ['l', 'b', 'l'] :: rest ∧
      (Line.code text).getLast? ≠ some ':' := by
  obtain ⟨hlast, hlbl⟩ := Bool.and_eq_true_iff.mp h
  obtain ⟨rest, hrest⟩ := Line.isPrefixOf_lbl.mp hlbl
  have hcolon : (Line.code text).getLast? ≠ some ':' := bne_iff_ne.mp hlast
  have htokens : codeTokens text = ['l', 'b', 'l'] :: tokens rest := by
    rw [← tokens_code, hrest, Line.tokens_lbl]
  exact ⟨_, _, Line.ofCode_of_lbl hrest hcolon, htokens, hcolon⟩

/-- Without the space the word is taken for an instruction, and there is none of this name. -/
theorem Line.outcome_of_not_spaced {rest : List (List Char)}
    (htokens : codeTokens text = ['l', 'b', 'l'] :: rest)
    (hlast : (Line.code text).getLast? ≠ some ':') (h : Line.isSpacedLabel text = false) :
    (Line.ofText text).read.outcome = .error (.unknownInstruction ['l', 'b', 'l']) := by
  rw [← tokens_code] at htokens
  have hhead : (Line.code text).head? = some 'l' := (trimmed_trim _).head?_eq htokens
  have hne : Line.code text ≠ [] := by
    intro hnil
    rw [hnil] at hhead
    cases hhead
  have hform : ∀ rest, Line.code text ≠ 'l' :: 'b' :: 'l' :: ' ' :: rest := by
    intro rest hrest
    rw [Line.isSpacedLabel, Line.isPrefixOf_lbl.mpr ⟨rest, hrest⟩, bne_iff_ne.mpr hlast] at h
    cases h
  rw [Line.ofText, Line.ofCode_of_words hne (by rw [hhead]; decide) hlast hform,
    Line.ofWords_eq_statement.mpr htokens]
  rfl

/-- The line begins with the name of an instruction that does not exist. -/
def Unknown (text : List Char) : Prop :=
  (Line.ofText text).read.outcome.mapError Rejection.kind = .error .unknownInstruction

theorem not_unknown_of_spaced (h : Line.isSpacedLabel text = true) : ¬ Unknown text := by
  obtain ⟨name, -, hlabel, -⟩ := Line.ofText_of_spaced h
  rw [Unknown, hlabel]
  by_cases hname : isLabelName name = true
  · simp [Line.read, hname, Except.mapError]
  · simp [Line.read, hname, Except.mapError, Rejection.kind]

theorem unknown_of_not_spaced (htokens : codeTokens text = codeTokens other)
    (hother : Line.isSpacedLabel other = true) (h : Line.isSpacedLabel text = false) : Unknown text := by
  obtain ⟨-, rest, -, hlbl, hcolon⟩ := Line.ofText_of_spaced hother
  have hcode : tokens (Line.code text) = tokens (Line.code other) := by
    rw [tokens_code, tokens_code, htokens]
  have hlast : (Line.code text).getLast? = (Line.code other).getLast? :=
    (trimmed_trim _).getLast?_congr (trimmed_trim _) hcode
  rw [Unknown, Line.outcome_of_not_spaced (htokens.trans hlbl) (hlast ▸ hcolon) h]
  rfl

/-- Lines with the same tokens differ in their layout only if one of them is of an unknown instruction. -/
theorem spaced_eq_of_unknown (htokens : codeTokens text = codeTokens other)
    (h : Unknown text ↔ Unknown other) : Line.isSpacedLabel text = Line.isSpacedLabel other := by
  cases htext : Line.isSpacedLabel text <;> cases hother : Line.isSpacedLabel other
  case false.false | true.true => rfl
  case false.true =>
    exact absurd (h.mp (unknown_of_not_spaced htokens hother htext)) (not_unknown_of_spaced hother)
  case true.false =>
    exact absurd (h.mpr (unknown_of_not_spaced htokens.symm htext hother)) (not_unknown_of_spaced htext)

end Readings

end Assembly

end Microcomputer
