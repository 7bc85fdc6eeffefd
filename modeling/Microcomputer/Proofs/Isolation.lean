import Microcomputer.Proofs.Linking
import Microcomputer.Proofs.Tokens

/-!
# Rejected lines

A rejected line leaves a diagnostic and no other trace, but for the address of a label that it defined a
second time. So no rejection causes or hides another, and a source with its rejected lines emptied has the
same draft, and no line of it is rejected.
-/
namespace Microcomputer.Assembly

open Text

namespace Draft

/-- The same image, the same label operands to be filled in, and the same names defined. -/
structure SameOutline (draft other : Draft) : Prop where
  image : draft.image = other.image
  references : draft.references = other.references
  names : ∀ name, (draft.address? name).isSome = (other.address? name).isSome

namespace SameOutline

variable {draft other third : Draft}

theorem refl (draft : Draft) : draft.SameOutline draft :=
  ⟨rfl, rfl, fun _ => rfl⟩

theorem symm (h : draft.SameOutline other) : other.SameOutline draft :=
  ⟨h.image.symm, h.references.symm, fun name => (h.names name).symm⟩

theorem trans (h : draft.SameOutline other) (h' : other.SameOutline third) : draft.SameOutline third :=
  ⟨h.image.trans h'.image, h.references.trans h'.references,
    fun name => (h.names name).trans (h'.names name)⟩

end SameOutline

/-- The label operands of an item, taken in on a line after `start` bytes. -/
def placed (start line : Nat) (item : Item) : List Reference :=
  item.uses.map fun use => ⟨start + use.offset, use.label, line⟩

section Add

variable {draft other : Draft} {line : Nat} {item : Item}

theorem references_add (draft : Draft) (line : Nat) (item : Item) :
    (draft.add line item).1.references.toList =
      draft.references.toList ++ placed draft.image.size line item := by
  cases item with
  | nothing | label name => exact (List.append_nil _).symm
  | data bytes uses => exact Array.toList_appendList
  | padding address =>
    by_cases h : address < draft.image.size <;> simp [add, h, placed, Item.uses]

theorem SameOutline.add (h : draft.SameOutline other) (line : Nat) (item : Item) :
    (draft.add line item).1.SameOutline (other.add line item).1 where
  image := by rw [image_add, image_add, h.image]
  references := by
    apply Array.ext'
    rw [references_add, references_add, h.references, h.image]
  names name := by
    have hname := h.names name
    simp only [address?] at hname
    simp only [address?, labels_add, List.lookup_append, Option.isSome_or, h.image, hname]

/-- What a line is rejected for can be told from the outline of the draft. -/
theorem SameOutline.rejection_add (h : draft.SameOutline other) (line : Nat) (item : Item) :
    (draft.add line item).2.2 = (other.add line item).2.2 := by
  cases item with
  | nothing | data bytes uses => rfl
  | padding address =>
    simp only [Draft.add, h.image]
    by_cases hpassed : address < other.image.size <;> simp only [hpassed, ↓reduceIte]
  | label name =>
    have hname := h.names name
    simp only [address?] at hname
    simp only [Draft.add, hname]

/-- An item that is rejected is not taken in, but a label has its new address. -/
theorem sameOutline_add {rejection : Rejection} (h : (draft.add line item).2.2 = some rejection) :
    (draft.add line item).1.SameOutline draft := by
  cases item with
  | nothing | data bytes uses => cases h
  | padding address =>
    by_cases hpassed : address < draft.image.size
    · simp only [add, hpassed, ↓reduceIte]
      exact .refl draft
    · simp [add, hpassed] at h
  | label name =>
    refine ⟨rfl, rfl, fun other => ?_⟩
    have hdefined : (draft.labels.lookup name).isSome = true := by
      by_contra hnone
      simp [add, hnone] at h
    by_cases hname : other = name
    · subst hname
      simp [add, address?, hdefined]
    · simp [add, address?, List.lookup_cons, beq_false_of_ne hname]

end Add

/-- Why a label operand cannot be filled in, if it cannot. -/
def complaint? (draft : Draft) (reference : Reference) : Option Diagnostic :=
  match draft.addressWord reference.label with
  | .ok _ => none
  | .error rejection => some ⟨reference.line, rejection⟩

/-- The rejections of the label operands that cannot be filled in, in the order of the operands. -/
def unresolved (draft : Draft) : List Diagnostic :=
  draft.references.toList.filterMap draft.complaint?

theorem line_of_complaint? {draft : Draft} {reference : Reference} {diagnostic : Diagnostic}
    (h : draft.complaint? reference = some diagnostic) : diagnostic.line = reference.line := by
  unfold complaint? at h
  cases hword : draft.addressWord reference.label with
  | ok word => simp [hword] at h
  | error rejection =>
    rw [hword] at h
    obtain rfl := Option.some.inj h
    rfl

end Draft

section Lines

variable {draft other : Draft} {texts : List (List Char)} {text : List Char}

theorem rejection?_of_sameOutline (h : draft.SameOutline other) (text : List Char) :
    rejection? draft text = rejection? other text := by
  unfold rejection?
  cases (Line.ofText text).read.outcome with
  | error rejection => rfl
  | ok item => exact h.rejection_add 0 item

/-- A rejected line leaves the outline of the draft as it is. -/
theorem sameOutline_enter {assembly : Assembly} {rejection : Rejection}
    (h : rejection? assembly.draft text = some rejection) (line : Nat) :
    (assembly.enter (text, line)).draft.SameOutline assembly.draft := by
  rw [draft_enter]
  cases ho : (Line.ofText text).read.outcome with
  | error rejection =>
    rw [itemOf, ho]
    exact .refl _
  | ok item =>
    rw [rejection?_of_ok ho] at h
    rw [itemOf_of_ok ho]
    have hline : (assembly.draft.add line item).2.2 = (assembly.draft.add 0 item).2.2 :=
      Draft.rejection_add_congr rfl rfl (Or.inl rfl)
    exact Draft.sameOutline_add (hline.trans h)

theorem diagnostics_ofLines_concat (texts : List (List Char)) (text : List Char) :
    (ofLines (texts ++ [text])).diagnostics.toList = (ofLines texts).diagnostics.toList ++
      (rejection? (ofLines texts).draft text).toList.map (Diagnostic.mk (texts.length + 1)) := by
  rw [ofLines_append_singleton, diagnostics_enter]
  simp

theorem line_le_of_mem_diagnostics {diagnostic : Diagnostic}
    (h : diagnostic ∈ (ofLines texts).diagnostics.toList) : diagnostic.line ≤ texts.length := by
  induction texts using List.reverseRecOn with
  | nil => cases h
  | append_singleton texts text ih =>
    rw [diagnostics_ofLines_concat] at h
    rw [List.length_append, List.length_singleton]
    rcases List.mem_append.mp h with h | h
    · exact Nat.le_succ_of_le (ih h)
    · obtain ⟨rejection, -, rfl⟩ := List.mem_map.mp h
      exact Nat.le_refl _

/-- The diagnostics of the lines stand in the order of the lines, no two for one line. -/
theorem pairwise_diagnostics (texts : List (List Char)) :
    (ofLines texts).diagnostics.toList.Pairwise (·.line < ·.line) := by
  induction texts using List.reverseRecOn with
  | nil => exact .nil
  | append_singleton texts text ih =>
    rw [diagnostics_ofLines_concat, List.pairwise_append]
    refine ⟨ih, ?_, fun first hfirst last hlast => ?_⟩
    · cases rejection? (ofLines texts).draft text with
      | none => exact .nil
      | some rejection => exact List.pairwise_singleton _ _
    · obtain ⟨rejection, -, rfl⟩ := List.mem_map.mp hlast
      exact Nat.lt_succ_of_le (line_le_of_mem_diagnostics hfirst)

/-- Label operands are listed in the order of the lines that they stand on. -/
theorem pairwise_references (texts : List (List Char)) :
    (∀ reference ∈ (ofLines texts).draft.references.toList, reference.line ≤ texts.length) ∧
      (ofLines texts).draft.references.toList.Pairwise (·.line ≤ ·.line) := by
  induction texts using List.reverseRecOn with
  | nil => exact ⟨fun reference h => absurd h List.not_mem_nil, .nil⟩
  | append_singleton texts text ih =>
    obtain ⟨hle, hpairwise⟩ := ih
    have hline : ∀ reference ∈ Draft.placed (ofLines texts).draft.image.size (texts.length + 1)
        (itemOf text), reference.line = texts.length + 1 := List.forall_mem_map.mpr fun _ _ => rfl
    rw [ofLines_append_singleton, draft_enter, Draft.references_add, List.length_append,
      List.length_singleton, List.pairwise_append]
    refine ⟨fun reference h => ?_, hpairwise, ?_, fun first hfirst last hlast => ?_⟩
    · rcases List.mem_append.mp h with h | h
      · exact Nat.le_succ_of_le (hle reference h)
      · exact Nat.le_of_eq (hline reference h)
    · exact List.pairwise_map.mpr (List.pairwise_of_forall fun _ _ => Nat.le_refl _)
    · rw [hline last hlast]
      exact Nat.le_succ_of_le (hle first hfirst)

theorem pairwise_unresolved (texts : List (List Char)) :
    (ofLines texts).draft.unresolved.Pairwise (·.line ≤ ·.line) := by
  refine List.Pairwise.filterMap _ ?_ (pairwise_references texts).2
  intro first second hle a ha b hb
  rw [Draft.line_of_complaint? ha, Draft.line_of_complaint? hb]
  exact hle

/-- Filling in the label operands adds their rejections to the diagnostics, in order. -/
theorem diagnostics_resolve_foldl (references : List Reference) (assembly : Assembly) :
    (references.foldl resolve assembly).diagnostics.toList =
      assembly.diagnostics.toList ++ references.filterMap assembly.draft.complaint? := by
  induction references generalizing assembly with
  | nil => simp
  | cons reference references ih =>
    have hsame : (assembly.resolve reference).draft.complaint? = assembly.draft.complaint? := by
      funext other
      rw [Draft.complaint?, Draft.complaint?, addressWord_resolve]
    rw [List.foldl_cons, ih, hsame, List.filterMap_cons]
    cases h : assembly.draft.addressWord reference.label with
    | error rejection =>
      rw [resolve_of_error h]
      simp [Draft.complaint?, h, reject]
    | ok word =>
      rw [resolve_of_ok h]
      simp [Draft.complaint?, h]

end Lines

section Strike

variable {texts : List (List Char)} {text : List Char}

/-- The line of this number is rejected by itself. -/
def isRejected (texts : List (List Char)) (line : Nat) : Bool :=
  (ofLines texts).diagnostics.toList.any (·.line == line)

/-- The lines with every rejected one emptied. -/
def strike (texts : List (List Char)) : List (List Char) :=
  (texts.zipIdx 1).map fun numbered => if isRejected texts numbered.2 then [] else numbered.1

/-- The source with every rejected line emptied. -/
def strikeSource (source : String) : String :=
  String.ofList (unlines (strike (lines source.toList)))

theorem length_strike (texts : List (List Char)) : (strike texts).length = texts.length := by
  rw [strike, List.length_map, List.length_zipIdx]

theorem isRejected_concat (texts : List (List Char)) (text : List Char) (line : Nat) :
    isRejected (texts ++ [text]) line = (isRejected texts line ||
      ((rejection? (ofLines texts).draft text).isSome && line == texts.length + 1)) := by
  rw [isRejected, diagnostics_ofLines_concat, List.any_append, isRejected]
  cases rejection? (ofLines texts).draft text with
  | none => rfl
  | some rejection => simp [Bool.beq_comm]

theorem isRejected_of_lt {line : Nat} (h : texts.length < line) : isRejected texts line = false := by
  rw [isRejected, List.any_eq_false]
  intro diagnostic hmem hline
  have hle := line_le_of_mem_diagnostics hmem
  have := eq_of_beq hline
  omega

theorem strike_concat (texts : List (List Char)) (text : List Char) :
    strike (texts ++ [text]) =
      strike texts ++ [if (rejection? (ofLines texts).draft text).isSome then [] else text] := by
  have hfront : ∀ numbered ∈ texts.zipIdx 1,
      isRejected (texts ++ [text]) numbered.2 = isRejected texts numbered.2 := by
    intro numbered hmem
    have hlt := (List.mem_zipIdx hmem).2.1
    have hne : (numbered.2 == texts.length + 1) = false := beq_false_of_ne (by omega)
    rw [isRejected_concat, hne, Bool.and_false, Bool.or_false]
  rw [strike, List.zipIdx_append, List.map_append, strike]
  congr 1
  · exact List.map_congr_left fun numbered hmem => by rw [hfront numbered hmem]
  · simp [isRejected_concat, isRejected_of_lt, Nat.add_comm 1]

/-- Without its rejected lines a source has the same outline, and no rejected line. -/
theorem ofLines_strike (texts : List (List Char)) :
    (ofLines (strike texts)).diagnostics = #[] ∧
      (ofLines (strike texts)).draft.SameOutline (ofLines texts).draft := by
  induction texts using List.reverseRecOn with
  | nil => exact ⟨rfl, .refl _⟩
  | append_singleton texts text ih =>
    obtain ⟨hnone, houtline⟩ := ih
    rw [strike_concat, ofLines_append_singleton, ofLines_append_singleton, diagnostics_enter, hnone,
      length_strike]
    cases hr : rejection? (ofLines texts).draft text with
    | some rejection =>
      -- An empty line is read as nothing, so the draft stays where the rejected line left it.
      have hblank : rejection? (ofLines (strike texts)).draft [] = none := rfl
      refine ⟨by simp [hblank], ?_⟩
      exact Draft.SameOutline.trans houtline (sameOutline_enter hr _).symm
    | none =>
      have hkept : rejection? (ofLines (strike texts)).draft text = none :=
        (rejection?_of_sameOutline houtline text).trans hr
      refine ⟨by simp [hkept], ?_⟩
      rw [draft_enter, draft_enter]
      exact houtline.add _ _

theorem lines_strikeSource (source : String) :
    lines (strikeSource source).toList = strike (lines source.toList) := by
  have hne : strike (lines source.toList) ≠ [] := by
    intro hnil
    have hlength := length_strike (lines source.toList)
    rw [hnil] at hlength
    exact split_ne_nil _ source.toList (List.eq_nil_of_length_eq_zero hlength.symm)
  rw [strikeSource, String.toList_ofList]
  refine lines_unlines hne (List.forall_mem_map.mpr fun numbered hmem => ?_)
  split
  · exact List.not_mem_nil
  · exact not_mem_of_mem_lines (List.fst_mem_of_mem_zipIdx hmem)

end Strike

/-- The rejection is of a label that is never defined. -/
def Rejection.isUnknownLabel : Rejection → Bool
  | .unknownLabel _ => true
  | _ => false

section Unknown

variable {α β : Type}

/-- The answer, if it is a rejection, is not that of a label that is never defined. -/
def OfLine (answer : Except Rejection α) : Prop :=
  ∀ rejection, answer = .error rejection → rejection.isUnknownLabel = false

theorem ofLine_ok {value : α} : OfLine (.ok value) :=
  fun _ h => nomatch h

theorem ofLine_error {rejection : Rejection} (h : rejection.isUnknownLabel = false) :
    OfLine (.error rejection : Except Rejection α) := by
  intro other he
  cases he
  exact h

theorem OfLine.bind {answer : Except Rejection β} {next : β → Except Rejection α} (h : OfLine answer)
    (hnext : ∀ value, OfLine (next value)) : OfLine (answer >>= next) := by
  cases answer with
  | error rejection => exact ofLine_error (h rejection rfl)
  | ok value => exact hnext value

theorem ofLine_readNumber (use : NumberUse) (low high : Int) (text : List Char) :
    OfLine (readNumber use low high text) := by
  unfold readNumber
  cases Numeral.read text with
  | none => exact ofLine_error rfl
  | some answer =>
    cases answer with
    | error radix => exact ofLine_error rfl
    | ok value =>
      by_cases h : low ≤ value.toInt ∧ value.toInt ≤ high
      · simp only [h, and_self, ↓reduceIte]
        exact ofLine_ok
      · simp only [h, ↓reduceIte]
        exact ofLine_error rfl

theorem ofLine_readInt32 (use : NumberUse) (text : List Char) : OfLine (readInt32 use text) := by
  unfold readInt32
  cases h : readNumber use Int32.minValue.toInt Int32.maxValue.toInt text with
  | error rejection => exact ofLine_error (ofLine_readNumber _ _ _ _ rejection h)
  | ok value => exact ofLine_ok

theorem ofLine_readSlot (token : List Char) : OfLine (readSlot token) := by
  have hnumber (mode : Mode) (text : List Char) : OfLine (do
      return Slot.mk ⟨mode, ← readInt32 .operand text⟩ none) :=
    (ofLine_readInt32 _ _).bind fun _ => ofLine_ok
  have hregister (text : List Char) : OfLine (readRegister text) := by
    unfold readRegister
    split <;> exact (ofLine_readInt32 _ _).bind fun _ => ofLine_ok
  unfold readSlot
  split
  · exact ofLine_ok
  · exact (hregister _).bind fun _ => ofLine_ok
  · exact (hregister _).bind fun _ => ofLine_ok
  · exact hnumber _ _
  · exact hnumber _ _

theorem ofLine_readSlots (tokens : List (List Char)) : OfLine (readSlots tokens) := by
  induction tokens with
  | nil => exact ofLine_ok
  | cons token tokens ih => exact (ofLine_readSlot token).bind fun _ => ih.bind fun _ => ofLine_ok

theorem ofLine_readStatement (mnemonic : List Char) (tokens : List (List Char)) :
    OfLine (readStatement mnemonic tokens) := by
  have hcondition (suffix? : Option (List Char)) : OfLine (readCondition suffix?) := by
    unfold readCondition
    split
    · exact ofLine_ok
    · split
      · exact ofLine_error rfl
      · exact ofLine_ok
  unfold readStatement
  split
  split
  · exact ofLine_error rfl
  · refine (hcondition _).bind fun condition => ?_
    split
    · exact (ofLine_readSlots tokens).bind fun _ => ofLine_ok
    · exact ofLine_error rfl

theorem ofLine_read (line : Line) : OfLine line.read.outcome := by
  cases line with
  | blank => exact ofLine_ok
  | number text =>
    refine (ofLine_readInt32 _ _).bind fun value => OfLine.bind ?_ fun _ => ofLine_ok
    cases Word.encode value with
    | error fault => exact ofLine_error rfl
    | ok word => exact ofLine_ok
  | byte text => exact (ofLine_readNumber _ _ _ _).bind fun _ => ofLine_ok
  | padding text =>
    refine OfLine.bind ((ofLine_readNumber _ _ _ _).bind fun value => ?_) fun _ => ofLine_ok
    by_cases h : Word.maxMagnitude < value.toNat
    · simp only [h, ↓reduceIte]
      exact ofLine_error rfl
    · simp only [h, ↓reduceIte]
      exact ofLine_ok
  | label name =>
    simp only [Line.read]
    split
    · exact ofLine_ok
    · exact ofLine_error rfl
  | statement mnemonic tokens =>
    simp only [Line.read]
    cases h : readStatement mnemonic tokens with
    | error rejection => exact ofLine_error (ofLine_readStatement _ _ rejection h)
    | ok result =>
      obtain ⟨built, uses⟩ := result
      simp only
      cases built.encode with
      | error fault => exact ofLine_error rfl
      | ok bytes => exact ofLine_ok

/-- No line is rejected for a label that is never defined: that shows only after the last line. -/
theorem isUnknownLabel_of_rejection? {draft : Draft} {text : List Char} {rejection : Rejection}
    (h : rejection? draft text = some rejection) : rejection.isUnknownLabel = false := by
  unfold rejection? at h
  cases ho : (Line.ofText text).read.outcome with
  | error other =>
    rw [ho] at h
    obtain rfl := Option.some.inj h
    exact ofLine_read _ other ho
  | ok item =>
    rw [ho] at h
    cases item with
    | nothing | data bytes uses => cases h
    | padding address =>
      by_cases hpassed : address < draft.image.size
      · simp only [Draft.add, hpassed, ↓reduceIte, Option.some.injEq] at h
        rw [← h]
        rfl
      · simp [Draft.add, hpassed] at h
    | label name =>
      by_cases hdefined : (draft.labels.lookup name).isSome
      · simp only [Draft.add, hdefined, ↓reduceIte, Option.some.injEq] at h
        rw [← h]
        rfl
      · simp [Draft.add, hdefined] at h

/-- The diagnostics of labels that are never defined. -/
def unknownLabels (diagnostics : List Diagnostic) : List Diagnostic :=
  diagnostics.filter (·.rejection.isUnknownLabel)

theorem unknownLabels_ofLines (texts : List (List Char)) :
    unknownLabels (ofLines texts).diagnostics.toList = [] := by
  induction texts using List.reverseRecOn with
  | nil => rfl
  | append_singleton texts text ih =>
    have hlast : ∀ diagnostic ∈ (rejection? (ofLines texts).draft text).toList.map
        (Diagnostic.mk (texts.length + 1)), ¬ diagnostic.rejection.isUnknownLabel = true := by
      refine List.forall_mem_map.mpr fun rejection hmem => ?_
      rw [isUnknownLabel_of_rejection? (Option.mem_toList.mp hmem)]
      exact Bool.false_ne_true
    unfold unknownLabels at ih ⊢
    rw [diagnostics_ofLines_concat, List.filter_append, ih, List.nil_append]
    exact List.filter_eq_nil_iff.mpr hlast

/-- A label operand is rejected as unknown exactly if no line has defined its label. -/
theorem Draft.filter_complaint? (draft : Draft) (reference : Reference) :
    (draft.complaint? reference).filter (·.rejection.isUnknownLabel) =
      if (draft.address? reference.label).isSome then none
      else some ⟨reference.line, .unknownLabel reference.label⟩ := by
  unfold complaint? addressWord
  cases draft.address? reference.label with
  | none => rfl
  | some address =>
    simp only [Option.isSome_some, ↓reduceIte]
    generalize hword : (if address ≤ Int32.maxValue.toInt.toNat then Word.encode (Int32.ofNat address)
      else .error (.numberOutOfRange Int32.maxValue)) = word
    cases word <;> rfl

theorem unknownLabels_unresolved {draft other : Draft} (h : draft.SameOutline other) :
    unknownLabels draft.unresolved = unknownLabels other.unresolved := by
  unfold unknownLabels Draft.unresolved
  rw [List.filter_filterMap, List.filter_filterMap, h.references]
  simp only [Draft.filter_complaint?, h.names]

end Unknown

section Sources

/-- What the lines of a source come to before any label operand is filled in. -/
def drafted (source : String) : Assembly :=
  ofLines (lines source.toList)

/-- The rejections of lines by themselves. -/
def lineErrors (source : String) : List Diagnostic :=
  (drafted source).diagnostics.toList

/-- The rejections of label operands, after the last line. -/
def labelErrors (source : String) : List Diagnostic :=
  (drafted source).draft.unresolved

def errors (source : String) : List Diagnostic :=
  lineErrors source ++ labelErrors source

theorem diagnostics_ofSource (source : String) : (ofSource source).diagnostics.toList = errors source := by
  rw [ofSource, resolveAll, ← Array.foldl_toList, diagnostics_resolve_foldl]
  rfl

theorem assemble_eq_error {source : String} {diagnostics : List Diagnostic} :
    assemble source = .error diagnostics ↔ diagnostics ≠ [] ∧ diagnostics = errors source := by
  rw [← diagnostics_ofSource, assemble, result]
  generalize (ofSource source).diagnostics = found
  by_cases h : found = #[]
  · subst h
    simp only [List.isEmpty_toArray, List.isEmpty_nil, ↓reduceIte, reduceCtorEq, false_iff, not_and]
    exact fun hne => hne
  · have hne : found.toList ≠ [] := mt Array.toList_eq_nil_iff.mp h
    simp only [Array.isEmpty_iff, h, ↓reduceIte, Except.error.injEq]
    constructor
    · rintro rfl
      exact ⟨hne, rfl⟩
    · exact fun hfound => hfound.2.symm

/--
Each line is rejected at most once, under its number, and a rejected line leaves the image, the label
operands to be filled in and the defined names as they were. The errors of a source are those of its lines in
the order of the lines, then those of its label operands in the order of the lines that they stand on. With
every rejected line emptied, no line is rejected, the draft has the same image, label operands and names, and
the same labels are never defined.
-/
theorem rejected_lines_leave_no_trace (source : String) :
    (∀ before text after, lines source.toList = before ++ text :: after →
      (ofLines (before ++ [text])).diagnostics = (ofLines before).diagnostics ∨
      ∃ rejection, (ofLines (before ++ [text])).diagnostics =
          (ofLines before).diagnostics.push ⟨before.length + 1, rejection⟩ ∧
        (ofLines (before ++ [text])).draft.SameOutline (ofLines before).draft) ∧
    (∀ diagnostics, assemble source = .error diagnostics ↔
      diagnostics ≠ [] ∧ diagnostics = lineErrors source ++ labelErrors source) ∧
    (lineErrors source).Pairwise (·.line < ·.line) ∧
    (labelErrors source).Pairwise (·.line ≤ ·.line) ∧
    lineErrors (strikeSource source) = [] ∧
    (drafted (strikeSource source)).draft.SameOutline (drafted source).draft ∧
    unknownLabels (errors (strikeSource source)) = unknownLabels (errors source) := by
  obtain ⟨hnone, houtline⟩ := ofLines_strike (lines source.toList)
  have hstruck : drafted (strikeSource source) = ofLines (strike (lines source.toList)) := by
    rw [drafted, lines_strikeSource]
  refine ⟨fun before text after _ => ?_, fun diagnostics => assemble_eq_error, pairwise_diagnostics _,
    pairwise_unresolved _, ?_, ?_, ?_⟩
  · rw [ofLines_append_singleton, diagnostics_enter]
    cases hr : rejection? (ofLines before).draft text with
    | none => exact Or.inl (by simp)
    | some rejection => exact Or.inr ⟨rejection, by simp, sameOutline_enter hr _⟩
  · rw [lineErrors, hstruck, hnone]
  · rw [hstruck]
    exact houtline
  · have hlines (other : String) : unknownLabels (errors other) = unknownLabels (labelErrors other) := by
      unfold errors unknownLabels
      rw [List.filter_append]
      exact (congrArg (· ++ _) (unknownLabels_ofLines (lines other.toList))).trans (List.nil_append _)
    rw [hlines, hlines, labelErrors, hstruck]
    exact unknownLabels_unresolved houtline

/-- A label that is defined a second time and a statement that cannot be encoded, around a sound one. -/
example : strikeSource "a:\nend\na:\nmov @a =70000\nbrn @b" = "a:\nend\n\n\nbrn @b" := by
  decide +kernel

end Sources

end Microcomputer.Assembly
