import Mathlib.Data.List.Forall2
import Microcomputer.Proofs.Isolation
import Microcomputer.Proofs.Spacing

/-!
# Blanks and blank lines of a source

Two sources that differ in blanks and comments alone are taken in side by side: after as many lines, they have
the same image and labels, the same label operands to be filled in, and rejections of the same kinds. A blank
line changes none of this, so lines can be pulled apart as well.
-/
namespace Microcomputer.Assembly

open Text

/-- The same label operand, on lines that belong together. -/
structure Reference.Matches (p : Nat → Nat → Prop) (reference other : Reference) : Prop where
  offset : reference.offset = other.offset
  label : reference.label = other.label
  line : p reference.line other.line

/-- Rejections of the same kind, on lines that belong together. -/
structure Diagnostic.Matches (p : Nat → Nat → Prop) (diagnostic other : Diagnostic) : Prop where
  kind : diagnostic.rejection.kind = other.rejection.kind
  line : p diagnostic.line other.line

/-- The same work so far, but for the details of what was reported and rejected. -/
structure Alongside (p : Nat → Nat → Prop) (assembly other : Assembly) : Prop where
  image : assembly.draft.image = other.draft.image
  labels : assembly.draft.labels = other.draft.labels
  references : List.Forall₂ (Reference.Matches p) assembly.draft.references.toList
    other.draft.references.toList
  diagnostics : List.Forall₂ (Diagnostic.Matches p) assembly.diagnostics.toList other.diagnostics.toList

section Enter

variable {p : Nat → Nat → Prop} {assembly other : Assembly} {text changed : List Char} {line place : Nat}

theorem SameLayout.itemOf_eq (h : SameLayout text changed) : itemOf text = itemOf changed := by
  unfold itemOf
  rcases h.alike.cases with ⟨item, ht, hc⟩ | ⟨rejection, rejection', ht, hc, -⟩ <;> rw [ht, hc]

/-- Lines of the same layout are both accepted after the same lines, or rejected for the same kind of reason. -/
theorem SameLayout.kind_eq (h : SameLayout text changed) {draft draft' : Draft}
    (himage : draft.image = draft'.image) (hlabels : draft.labels = draft'.labels) :
    (rejection? draft text).map Rejection.kind = (rejection? draft' changed).map Rejection.kind := by
  unfold rejection?
  rcases h.alike.cases with ⟨item, ht, hc⟩ | ⟨rejection, rejection', ht, hc, hkind⟩
  · rw [ht, hc]
    exact congrArg _ (Draft.rejection_add_congr (congrArg Array.size himage) hlabels (Or.inl rfl))
  · rw [ht, hc]
    exact congrArg some hkind

theorem toList_diagnostics_enter (assembly : Assembly) (text : List Char) (line : Nat) :
    (assembly.enter (text, line)).diagnostics.toList = assembly.diagnostics.toList ++
      (rejection? assembly.draft text).toList.map (Diagnostic.mk line) := by
  rw [diagnostics_enter]
  simp

/-- Lines of the same layout keep two sources side by side. -/
theorem Alongside.enter (h : assembly.Alongside p other) (hlayout : SameLayout text changed)
    (hline : p line place) :
    (assembly.enter (text, line)).Alongside p (other.enter (changed, place)) where
  image := by rw [draft_enter, draft_enter, Draft.image_add, Draft.image_add, h.image, hlayout.itemOf_eq]
  labels := by
    rw [draft_enter, draft_enter, Draft.labels_add, Draft.labels_add, h.labels, h.image,
      hlayout.itemOf_eq]
  references := by
    rw [draft_enter, draft_enter, Draft.references_add, Draft.references_add, h.image, hlayout.itemOf_eq]
    refine List.rel_append h.references ?_
    unfold Draft.placed
    rw [List.forall₂_map_left_iff, List.forall₂_map_right_iff, List.forall₂_same]
    exact fun use _ => ⟨rfl, rfl, hline⟩
  diagnostics := by
    rw [toList_diagnostics_enter, toList_diagnostics_enter]
    refine List.rel_append h.diagnostics ?_
    have hkind := hlayout.kind_eq h.image h.labels
    cases ht : rejection? assembly.draft text with
    | none =>
      rw [ht] at hkind
      rw [Option.map_eq_none_iff.mp hkind.symm]
      exact .nil
    | some rejection =>
      rw [ht] at hkind
      obtain ⟨rejection', hc, hsame⟩ := Option.map_eq_some_iff.mp hkind.symm
      rw [hc]
      exact .cons ⟨hsame.symm, hline⟩ .nil

end Enter

section Blank

variable {text : List Char} {texts : List (List Char)}

/-- There is more on the line than blanks and a comment. -/
def isOccupied (text : List Char) : Bool :=
  !(codeTokens text).isEmpty

theorem isOccupied_congr {text other : List Char} (h : codeTokens text = codeTokens other) :
    isOccupied text = isOccupied other := by
  rw [isOccupied, isOccupied, h]

/-- A blank line or a comment changes nothing. -/
theorem enter_of_blank (h : isOccupied text = false) (assembly : Assembly) (line : Nat) :
    assembly.enter (text, line) = assembly := by
  have htokens : codeTokens text = [] := by simpa [isOccupied] using h
  have hblank : Line.ofText text = .blank := by
    rw [Line.ofText, Line.code, trim_of_tokens_eq_nil htokens]
    rfl
  simp [Assembly.enter, hblank, Line.read, report, Draft.add]

/-- The lines with more on them than blanks and a comment, with their numbers. -/
def occupied (texts : List (List Char)) : List (List Char × Nat) :=
  (texts.zipIdx 1).filter fun numbered => isOccupied numbered.1

theorem map_fst_occupied (texts : List (List Char)) :
    (occupied texts).map Prod.fst = texts.filter isOccupied := by
  have hfilter := List.filter_map (f := Prod.fst) (p := isOccupied) (l := texts.zipIdx 1)
  rw [List.zipIdx_map_fst] at hfilter
  exact hfilter.symm

/-- Only the occupied lines count. -/
theorem ofLines_eq_foldl_occupied (texts : List (List Char)) :
    ofLines texts = (occupied texts).foldl enter start := by
  rw [occupied, List.foldl_filter, ofLines]
  congr 1
  funext assembly numbered
  by_cases h : isOccupied numbered.1 = true
  · rw [if_pos h]
  · rw [if_neg h, enter_of_blank (Bool.eq_false_of_not_eq_true h)]

end Blank

section Runs

variable {p : Nat → Nat → Prop} {assembly other : Assembly}

/-- Lines that belong together have the same layout. -/
def LinesMatch (p : Nat → Nat → Prop) (numbered other : List Char × Nat) : Prop :=
  SameLayout numbered.1 other.1 ∧ p numbered.2 other.2

/-- Two sources stay side by side over all of their lines. -/
theorem Alongside.foldl_enter {numbered others : List (List Char × Nat)}
    (hlines : List.Forall₂ (LinesMatch p) numbered others) (h : assembly.Alongside p other) :
    (numbered.foldl Assembly.enter assembly).Alongside p (others.foldl Assembly.enter other) := by
  induction hlines generalizing assembly other with
  | nil => exact h
  | cons hfirst _ ih => exact ih (h.enter hfirst.1 hfirst.2)

/-- A label operand is filled in with the same word in both, or rejected in both. -/
theorem Alongside.resolve {reference opposite : Reference} (h : assembly.Alongside p other)
    (hsame : reference.Matches p opposite) :
    (assembly.resolve reference).Alongside p (other.resolve opposite) := by
  have hword : assembly.draft.addressWord reference.label = other.draft.addressWord opposite.label := by
    rw [Draft.addressWord, Draft.addressWord, Draft.address?, Draft.address?, h.labels, hsame.label]
  cases ho : other.draft.addressWord opposite.label with
  | ok word =>
    rw [resolve_of_ok (hword.trans ho), resolve_of_ok ho]
    refine { h with image := ?_ }
    rw [h.image, hsame.offset]
  | error rejection =>
    rw [resolve_of_error (hword.trans ho), resolve_of_error ho]
    refine { h with diagnostics := ?_ }
    simp only [reject, Array.toList_push]
    exact List.rel_append h.diagnostics (.cons ⟨rfl, hsame.line⟩ .nil)

theorem Alongside.foldl_resolve {references opposites : List Reference}
    (hsame : List.Forall₂ (Reference.Matches p) references opposites) (h : assembly.Alongside p other) :
    (references.foldl Assembly.resolve assembly).Alongside p
      (opposites.foldl Assembly.resolve other) := by
  induction hsame generalizing assembly other with
  | nil => exact h
  | cons hfirst _ ih => exact ih (h.resolve hfirst)

theorem Alongside.resolveAll (h : assembly.Alongside p other) :
    assembly.resolveAll.Alongside p other.resolveAll := by
  rw [Assembly.resolveAll, Assembly.resolveAll, ← Array.foldl_toList, ← Array.foldl_toList]
  exact h.foldl_resolve h.references

/-- The same image, or errors of the same kinds on lines that belong together. -/
inductive Agree (p : Nat → Nat → Prop) :
    Except (List Diagnostic) Bytes → Except (List Diagnostic) Bytes → Prop
  | accepted {image : Bytes} : Agree p (.ok image) (.ok image)
  | rejected {diagnostics others : List Diagnostic}
      (kinds : List.Forall₂ (Diagnostic.Matches p) diagnostics others) :
      Agree p (.error diagnostics) (.error others)

theorem Alongside.result (h : assembly.Alongside p other) : Agree p assembly.result other.result := by
  have hsize := h.diagnostics.length_eq
  rw [Array.length_toList, Array.length_toList] at hsize
  unfold Assembly.result
  by_cases hnone : other.diagnostics.isEmpty = true
  · have hnone' : assembly.diagnostics.isEmpty = true := by
      rw [Array.isEmpty_iff_size_eq_zero] at hnone ⊢
      exact hsize.trans hnone
    rw [if_pos hnone', if_pos hnone, h.image]
    exact .accepted
  · have hsome : ¬ assembly.diagnostics.isEmpty = true := by
      rw [Array.isEmpty_iff_size_eq_zero] at hnone ⊢
      exact fun hzero => hnone (hsize.symm.trans hzero)
    rw [if_neg hsome, if_neg hnone]
    exact .rejected h.diagnostics

end Runs

section Sources

variable {p : Nat → Nat → Prop} {source other : String}

/-- The lines of a source. A line end at its very end begins no further line. -/
def sourceLines (source : String) : List (List Char) :=
  let pieces := lines source.toList
  if pieces.getLast? = some [] then pieces.dropLast else pieces

theorem drafted_eq (source : String) : drafted source = ofLines (sourceLines source) := by
  rw [drafted, sourceLines]
  split
  case isTrue hlast =>
    obtain ⟨front, hfront⟩ := List.getLast?_eq_some_iff.mp hlast
    rw [hfront, List.dropLast_concat, ofLines_append_singleton, enter_of_blank (by decide)]
  case isFalse => rfl

theorem agree_of_occupied (h : List.Forall₂ (LinesMatch p) (occupied (sourceLines source))
    (occupied (sourceLines other))) : Agree p (assemble source) (assemble other) := by
  have hstart : start.Alongside p start := ⟨rfl, rfl, .nil, .nil⟩
  have hdrafted : (drafted source).Alongside p (drafted other) := by
    rw [drafted_eq, drafted_eq, ofLines_eq_foldl_occupied, ofLines_eq_foldl_occupied]
    exact hstart.foldl_enter h
  exact hdrafted.resolveAll.result

/-- Line by line the same layout: the lines that count stand under the same numbers. -/
theorem occupied_of_sameLayout {texts others : List (List Char)}
    (h : List.Forall₂ SameLayout texts others) :
    List.Forall₂ (LinesMatch Eq) (occupied texts) (occupied others) := by
  have hnumbered : ∀ k, List.Forall₂ (LinesMatch Eq) (texts.zipIdx k) (others.zipIdx k) := by
    induction h with
    | nil => exact fun k => .nil
    | cons hfirst _ ih => exact fun k => .cons ⟨hfirst, rfl⟩ (ih (k + 1))
  refine List.rel_filter (fun numbered opposite hmatch => ?_) (hnumbered 1)
  exact iff_of_eq (congrArg (· = true) (isOccupied_congr hmatch.1.tokens))

/-- The numbers of the lines of a source that count. -/
def lineNumbers (source : String) : List Nat :=
  (occupied (sourceLines source)).map Prod.snd

/-- The lines with these numbers count, and each comes after as many others that do. -/
def Opposite (source other : String) (line place : Nat) : Prop :=
  (line, place) ∈ (lineNumbers source).zip (lineNumbers other)

/-- Wherever the blank lines stand, the lines that count can be paired in their order. -/
theorem occupied_of_filter (h : List.Forall₂ SameLayout ((sourceLines source).filter isOccupied)
    ((sourceLines other).filter isOccupied)) :
    List.Forall₂ (LinesMatch (Opposite source other)) (occupied (sourceLines source))
      (occupied (sourceLines other)) := by
  rw [← map_fst_occupied, ← map_fst_occupied, List.forall₂_map_left_iff, List.forall₂_map_right_iff,
    List.forall₂_iff_zip] at h
  refine List.forall₂_iff_zip.mpr ⟨h.1, fun {numbered opposite} hmem => ⟨h.2 hmem, ?_⟩⟩
  rw [Opposite, lineNumbers, lineNumbers, List.zip_map]
  exact List.mem_map_of_mem hmem

end Sources

section Unknown

variable {texts : List (List Char)} {source other : String} {line index : Nat}

/-- A line is rejected for an unknown instruction by its text alone. -/
theorem unknown_iff_rejection? (draft : Draft) (text : List Char) :
    (rejection? draft text).map Rejection.kind = some .unknownInstruction ↔ Unknown text := by
  unfold rejection? Unknown
  cases (Line.ofText text).read.outcome with
  | error rejection => simp [Except.mapError]
  | ok item =>
    simp only [Except.mapError, reduceCtorEq, iff_false]
    cases item with
    | nothing | data bytes uses => simp [Draft.add]
    | padding address =>
      by_cases hpassed : address < draft.image.size <;> simp [Draft.add, hpassed, Rejection.kind]
    | label name =>
      by_cases hdefined : (draft.labels.lookup name).isSome <;>
        simp [Draft.add, hdefined, Rejection.kind]

/-- The line with this number is rejected for an unknown instruction. -/
def UnknownAt (diagnostics : List Diagnostic) (line : Nat) : Prop :=
  ∃ diagnostic ∈ diagnostics, diagnostic.line = line ∧ diagnostic.rejection.kind = .unknownInstruction

theorem unknownAt_append {diagnostics more : List Diagnostic} :
    UnknownAt (diagnostics ++ more) line ↔ UnknownAt diagnostics line ∨ UnknownAt more line := by
  simp only [UnknownAt, List.mem_append, or_and_right, exists_or]

theorem unknownAt_ofLines : UnknownAt (ofLines texts).diagnostics.toList (index + 1) ↔
    ∃ text, texts[index]? = some text ∧ Unknown text := by
  induction texts using List.reverseRecOn with
  | nil => simp [UnknownAt, ofLines, start]
  | append_singleton texts text ih =>
    have hlast : UnknownAt ((rejection? (ofLines texts).draft text).toList.map
        (Diagnostic.mk (texts.length + 1))) (index + 1) ↔ index = texts.length ∧ Unknown text := by
      rw [← unknown_iff_rejection? (ofLines texts).draft]
      cases rejection? (ofLines texts).draft text with
      | none => simp [UnknownAt]
      | some rejection => simp [UnknownAt, eq_comm]
    rw [diagnostics_ofLines_concat, unknownAt_append, ih, hlast]
    rcases Nat.lt_trichotomy index texts.length with hlt | rfl | hgt
    · simp [List.getElem?_append_left hlt, hlt.ne]
    · simp
    · have hbehind : (texts ++ [text]).length ≤ index := by
        rw [List.length_append, List.length_singleton]
        exact hgt
      simp [List.getElem?_eq_none hbehind, List.getElem?_eq_none hgt.le, hgt.ne']

theorem kind_of_addressWord {draft : Draft} {label : List Char} {rejection : Rejection}
    (h : draft.addressWord label = .error rejection) : rejection.kind ≠ .unknownInstruction := by
  unfold Draft.addressWord at h
  split at h
  · cases h
    exact Rejection.Kind.noConfusion
  · generalize (if _ ≤ Int32.maxValue.toInt.toNat then Word.encode _ else _) = word at h
    cases word with
    | ok word => cases h
    | error fault =>
      cases h
      exact Rejection.Kind.noConfusion

/-- Label operands are rejected for other reasons. -/
theorem not_unknownAt_unresolved (draft : Draft) (line : Nat) : ¬ UnknownAt draft.unresolved line := by
  rintro ⟨diagnostic, hmem, -, hkind⟩
  obtain ⟨reference, -, hcomplaint⟩ := List.mem_filterMap.mp hmem
  unfold Draft.complaint? at hcomplaint
  cases hword : draft.addressWord reference.label with
  | ok word => simp [hword] at hcomplaint
  | error rejection =>
    rw [hword] at hcomplaint
    obtain rfl := Option.some.inj hcomplaint
    exact kind_of_addressWord hword hkind

theorem unknownAt_errors : UnknownAt (errors source) (index + 1) ↔
    ∃ text, (sourceLines source)[index]? = some text ∧ Unknown text := by
  rw [errors, unknownAt_append, lineErrors, drafted_eq, unknownAt_ofLines]
  exact or_iff_left (not_unknownAt_unresolved _ _)

theorem errors_of_ok {image : Bytes} (h : assemble source = .ok image) : errors source = [] := by
  by_contra hne
  rw [assemble_eq_error.mpr ⟨hne, rfl⟩] at h
  cases h

/-- Sources that agree have errors of the same kinds. -/
theorem Agree.forall₂_errors {p : Nat → Nat → Prop} (h : Agree p (assemble source) (assemble other)) :
    List.Forall₂ (Diagnostic.Matches p) (errors source) (errors other) := by
  generalize hs : assemble source = result at h
  generalize ho : assemble other = result' at h
  cases h with
  | accepted =>
    rw [errors_of_ok hs, errors_of_ok ho]
    exact .nil
  | rejected hkinds =>
    obtain ⟨-, rfl⟩ := assemble_eq_error.mp hs
    obtain ⟨-, rfl⟩ := assemble_eq_error.mp ho
    exact hkinds

theorem unknownAt_congr {diagnostics others : List Diagnostic}
    (h : List.Forall₂ (Diagnostic.Matches Eq) diagnostics others) (line : Nat) :
    UnknownAt diagnostics line ↔ UnknownAt others line := by
  induction h with
  | nil => rfl
  | @cons first second _ _ hfirst _ ih =>
    simp only [UnknownAt, List.exists_mem_cons_iff, hfirst.line, hfirst.kind]
    exact or_congr_right ih

/-- Sources of the same tokens that agree have the same layout, line by line. -/
theorem spaced_of_agree
    (htokens : List.Forall₂ (fun text changed => codeTokens text = codeTokens changed)
      (sourceLines source) (sourceLines other))
    (h : Agree Eq (assemble source) (assemble other)) :
    List.Forall₂ SameLayout (sourceLines source) (sourceLines other) := by
  rw [List.forall₂_iff_get] at htokens ⊢
  refine ⟨htokens.1, fun i hi hi' => ⟨htokens.2 i hi hi', ?_⟩⟩
  refine spaced_eq_of_unknown (htokens.2 i hi hi') ?_
  have hunknown := unknownAt_congr h.forall₂_errors (i + 1)
  rw [unknownAt_errors, unknownAt_errors] at hunknown
  simpa [List.getElem?_eq_getElem hi, List.getElem?_eq_getElem hi'] using hunknown

end Unknown

/--
Blanks and comments do not matter, but for the space behind the word of a label. Of two sources with the same
number of lines and the same tokens in each of them, both assemble to the same image, or both are rejected with
errors of the same kinds on the same lines, exactly if line by line both or neither is known as a label by that
space. Blank lines and comments may stand anywhere: sources whose other lines have the same layout agree in the
same way, with the errors on the lines that stand opposite to one another.
-/
theorem assemble_ignores_layout (source other : String) :
    (List.Forall₂ (fun text changed => codeTokens text = codeTokens changed)
        (sourceLines source) (sourceLines other) →
      (Agree Eq (assemble source) (assemble other) ↔
        List.Forall₂ (fun text changed => Line.isSpacedLabel text = Line.isSpacedLabel changed)
          (sourceLines source) (sourceLines other))) ∧
    (List.Forall₂ SameLayout ((sourceLines source).filter isOccupied)
        ((sourceLines other).filter isOccupied) →
      Agree (Opposite source other) (assemble source) (assemble other)) := by
  refine ⟨fun htokens => ⟨fun hagree => ?_, fun hspaced => ?_⟩, fun h => ?_⟩
  · exact (spaced_of_agree htokens hagree).imp fun _ _ hsame => hsame.spaced
  · refine agree_of_occupied (occupied_of_sameLayout ?_)
    exact List.Forall₂.mp (fun _ _ htokens hspaced => ⟨htokens, hspaced⟩) htokens hspaced
  · exact agree_of_occupied (occupied_of_filter h)

/-- Tabs, an em space, line ends with a carriage return, and comments; then lines put in between. -/
theorem assemble_ignores_layout_of_loop :
    List.Forall₂ (fun text changed => codeTokens text = codeTokens changed)
      (sourceLines "loop:\nlbl x\nmov =1 R0\nbrn @loop")
      (sourceLines "\tloop:\r\nlbl  x # here\r\nmov\u2003=1\tR0\r\nbrn @loop#!\r\n") ∧
    Agree Eq (assemble "loop:\nlbl x\nmov =1 R0\nbrn @loop")
      (assemble "\tloop:\r\nlbl  x # here\r\nmov\u2003=1\tR0\r\nbrn @loop#!\r\n") ∧
    Agree (Opposite "loop:\nbrn @x" "# to x\n\nloop:\n\t\nbrn  @x") (assemble "loop:\nbrn @x")
      (assemble "# to x\n\nloop:\n\t\nbrn  @x") := by
  have htokens : List.Forall₂ (fun text changed => codeTokens text = codeTokens changed)
      (sourceLines "loop:\nlbl x\nmov =1 R0\nbrn @loop")
      (sourceLines "\tloop:\r\nlbl  x # here\r\nmov\u2003=1\tR0\r\nbrn @loop#!\r\n") := by
    decide +kernel
  refine ⟨htokens, ((assemble_ignores_layout _ _).1 htokens).mpr ?_, (assemble_ignores_layout _ _).2 ?_⟩
  · decide +kernel
  · decide +kernel

/-- With a tab in place of the space, the word of a label is taken for an instruction. -/
theorem label_needs_space :
    List.Forall₂ (fun text changed => codeTokens text = codeTokens changed) (sourceLines "lbl a")
      (sourceLines "lbl\ta") ∧
    assemble "lbl a" = .ok #[] ∧
    assemble "lbl\ta" = .error [⟨1, .unknownInstruction ['l', 'b', 'l']⟩] ∧
    ¬ Agree Eq (assemble "lbl a") (assemble "lbl\ta") := by
  have haccepted : assemble "lbl a" = .ok #[] := by decide +kernel
  have hrejected : assemble "lbl\ta" = .error [⟨1, .unknownInstruction ['l', 'b', 'l']⟩] := by
    decide +kernel
  refine ⟨by decide +kernel, haccepted, hrejected, fun hagree => ?_⟩
  rw [haccepted, hrejected] at hagree
  cases hagree

end Microcomputer.Assembly
