import Microcomputer.Proofs.Layout
import Microcomputer.Proofs.Substitution

/-!
# Running what was assembled

The statements of a source lie one behind the other in its image, and a label is the offset of the next one
or the end. If every branch names a label, a run of the image stays on them.
-/
namespace Microcomputer

namespace Assembly

open Text

/-- The line is blank, a comment, a statement or the definition of a label. -/
def Line.isPlain : Line → Bool
  | .blank | .label _ | .statement .. => true
  | .byte _ | .number _ | .padding _ => false

/-- If the line is a branch, its operands are labels. -/
def branchesByLabel (text : List Char) : Bool :=
  match Line.ofText text with
  | .statement mnemonic operands =>
    Instruction.ofName? (splitMnemonic mnemonic).1 != some .branch ||
      operands.all fun operand => operand.head? == some '@'
  | _ => true

/-- A statement of the source starts at this offset of the image. -/
def StatementStart (texts : List (List Char)) (offset : Nat) : Prop :=
  ∃ before text after, texts = before ++ text :: after ∧
    (∃ mnemonic operands, Line.ofText text = .statement mnemonic operands) ∧
    (ofLines before).draft.image.size = offset

section Assembled

variable {texts : List (List Char)} {image : Bytes}

theorem size_ofLines_append_singleton (before : List (List Char)) (text : List Char) :
    (ofLines (before ++ [text])).draft.image.size =
      (ofLines before).draft.image.size +
        ((itemOf text).added (ofLines before).draft.image.size).size := by
  rw [ofLines_append_singleton, draft_enter, Draft.image_add, Array.size_append]

/-- Between two lines lies the start of a statement or the end of the image. -/
theorem site_of_append (haccepts : Accepts texts) (hsize : image.size = (ofLines texts).draft.image.size)
    (hplain : ∀ text ∈ texts, (Line.ofText text).isPlain = true) {front back : List (List Char)}
    (h : texts = front ++ back) :
    IsSite image (StatementStart texts) (ofLines front).draft.image.size := by
  induction back generalizing front with
  | nil =>
    rw [List.append_nil] at h
    exact Or.inr (h ▸ hsize.symm)
  | cons text back ih =>
    have hmem : text ∈ texts := h ▸ List.mem_append_right _ List.mem_cons_self
    have hreads := Line.reads_of_outcome (haccepts.outcome hmem)
    have hline := hplain text hmem
    have hlater : texts = (front ++ [text]) ++ back := by rw [h, List.append_assoc]; rfl
    have hnext := ih hlater
    rw [size_ofLines_append_singleton] at hnext
    cases hl : Line.ofText text with
    | statement mnemonic operands => exact Or.inl ⟨front, text, back, h, ⟨mnemonic, operands, hl⟩, rfl⟩
    | blank | label name =>
      rw [hl] at hreads
      generalize itemOf text = item at hreads hnext
      cases hreads
      exact hnext
    | byte text | number text | padding text =>
      rw [hl] at hline
      cases hline

theorem Assembled.image_eq (h : Assembled texts image) :
    image = (Draft.ofItems ((texts.map itemOf).map (·.link (addressOf texts)))).image := by
  rw [Draft.ofItems_link _ h.accepts.fits, ← draft_ofLines]
  exact h.patched.symm

theorem Assembled.size_eq (h : Assembled texts image) :
    image.size = (ofLines texts).draft.image.size := by
  rw [← h.patched, size_patch]

theorem Assembled.addressOf_site (h : Assembled texts image)
    (hplain : ∀ text ∈ texts, (Line.ofText text).isPlain = true) (label : List Char) :
    IsSite image (StatementStart texts) (addressOf texts label) :=
  site_of_append h.accepts h.size_eq hplain List.takeWhile_append_dropWhile.symm

/-- The bytes of a line's linked item stand in the image where the line was taken in. -/
theorem Assembled.window_eq (h : Assembled texts image) {before after : List (List Char)}
    {text : List Char} (hsplit : texts = before ++ text :: after) {bytes : List UInt8}
    (hitem : (itemOf text).link (addressOf texts) = .data bytes []) :
    (ofLines before).draft.image.size + bytes.length ≤ image.size ∧
      image.window (ofLines before).draft.image.size bytes.length = bytes := by
  have hfits : ∀ item ∈ before.map itemOf, item.Fits := (hsplit ▸ h.accepts).of_append.fits
  rw [h.image_eq]
  generalize addressOf texts = address at hitem
  have hitems : (texts.map itemOf).map (·.link address) =
      (before.map itemOf).map (·.link address) ++ [.data bytes []] ++
        (after.map itemOf).map (·.link address) := by
    rw [hsplit, ← hitem]
    simp
  have hwindow := Draft.window_ofItems hitems
  rw [Draft.ofItems_link _ hfits, size_patch, ← draft_ofLines] at hwindow
  exact hwindow

/-- The only operand of a branch by label is the address of the label. -/
theorem operands_of_branch {address : List Char → Nat} {operands : List (List Char)} {slots : List Slot}
    {statement : Statement} (hslots : SlotsRead operands slots)
    (hoperands : statement.operands = (slots.map (·.link address)).map (·.operand))
    (hbranch : statement.instruction = .branch)
    (hlabels : ∀ operand ∈ operands, operand.head? = some '@') :
    ∃ label, (∃ slot ∈ slots, slot.label? = some label) ∧
      statement.operands = [⟨.constant, Int32.ofNat (address label)⟩] := by
  have hcount : slots.length = 1 := by
    have harity := statement.arity_eq
    rw [hoperands, hbranch, List.length_map, List.length_map] at harity
    exact harity
  obtain ⟨slot, rfl⟩ := List.length_eq_one_iff.mp hcount
  obtain ⟨token, rfl⟩ := List.length_eq_one_iff.mp (hslots.length_eq.trans hcount)
  obtain ⟨label, rfl⟩ := List.head?_eq_some_iff.mp (hlabels token List.mem_cons_self)
  cases hslots with
  | cons hslot _ =>
    obtain rfl := Except.ok.inj hslot
    exact ⟨label, ⟨_, List.mem_cons_self, rfl⟩, hoperands⟩

/-- Where a statement of the source starts lies one that leads on to the next or to a label. -/
theorem Assembled.statement (h : Assembled texts image)
    (hplain : ∀ text ∈ texts, (Line.ofText text).isPlain = true)
    (hbranches : ∀ text ∈ texts, branchesByLabel text = true) {offset : Nat}
    (hstart : StatementStart texts offset) :
    ∃ statement : Statement, statement.LiesAt image offset ∧
      IsSite image (StatementStart texts) (offset + statement.length) ∧
      (statement.instruction = .branch → ∃ address,
        statement.operands = [⟨.constant, Int32.ofNat address⟩] ∧ address ≤ Word.maxMagnitude ∧
          IsSite image (StatementStart texts) address) := by
  obtain ⟨before, text, after, hsplit, ⟨mnemonic, operands, hl⟩, rfl⟩ := hstart
  have hmem : text ∈ texts := hsplit ▸ List.mem_append_right _ List.mem_cons_self
  have hreads := Line.reads_of_outcome (h.accepts.outcome hmem)
  have hreach := h.reaches text hmem
  have hlater : texts = (before ++ [text]) ++ after := by rw [hsplit, List.append_assoc]; rfl
  have hnext := site_of_append h.accepts h.size_eq hplain hlater
  have hbranch := hbranches text hmem
  rw [size_ofLines_append_singleton] at hnext
  rw [branchesByLabel, hl] at hbranch
  rw [hl] at hreads
  generalize hitem : itemOf text = item at hreads hreach hnext
  cases hreads with
  | statement hread hencode =>
    obtain ⟨linked, slots, hlinkedRead, hbytes, hslots, rfl, hlinked⟩ :=
      exists_linked hread hencode hreach
    have hnamed := (readStatement_eq_ok.mp hlinkedRead).1
    have hsize := Statement.length_of_encode hbytes
    rw [Array.length_toList, size_patch] at hsize
    refine ⟨linked, ⟨_, hbytes, h.window_eq hsplit (by rw [hitem]; rfl)⟩, ?_, ?_⟩
    · rw [Item.added, hsize] at hnext
      exact hnext
    · intro hinstr
      have hname : Instruction.ofName? (splitMnemonic mnemonic).1 = some .branch := by
        rw [hnamed.1, hinstr]
      have hlabels : ∀ operand ∈ operands, operand.head? = some '@' := by
        simpa [hname] using hbranch
      obtain ⟨label, ⟨slot, hslot, hlabel⟩, hone⟩ :=
        operands_of_branch hslots hlinked hinstr hlabels
      have hreachable := reachable_of_labelUses hreach slot hslot label hlabel
      exact ⟨_, hone, hreachable, h.addressOf_site hplain label⟩

/-- The layout of a source that branches by label. -/
def Assembled.layout (h : Assembled texts image)
    (hplain : ∀ text ∈ texts, (Line.ofText text).isPlain = true)
    (hbranches : ∀ text ∈ texts, branchesByLabel text = true) : Layout where
  image := image
  starts := StatementStart texts
  statement := fun _ hstart => h.statement hplain hbranches hstart

end Assembled

end Assembly

open Assembly

/--
A run of an image that was assembled from statements, label definitions and comments, with a label in every
branch, is at the outermost level always at a statement of its source or at the end of the image. It ends
in no fault that comes of leaving them, unless in a nested stream.
-/
theorem Engine.assembled_run_stays_on_statements {source : String} {image : Bytes}
    (assembled : assemble source = .ok image)
    (plain : ∀ text ∈ Text.lines source.toList, (Line.ofText text).isPlain = true)
    (branches : ∀ text ∈ Text.lines source.toList, branchesByLabel text = true) (session : Session) :
    (∀ count frame, ((ofImage session image).steps count).frames.getLast? = some frame →
      frame.code = .image image ∧
        (StatementStart (Text.lines source.toList) frame.offset ∨ frame.offset = image.size)) ∧
    ∀ final failure, (ofImage session image).Settles final → final.result = .error failure →
      failure.depth = 0 → failure.fault.isStray = false := by
  have h := assembled_of_assemble assembled
  have hfirst : Text.lines source.toList = [] ++ Text.lines source.toList := rfl
  have hzero : (h.layout plain branches).Site 0 := site_of_append h.accepts h.size_eq plain hfirst
  have hkeeps (count : Nat) := (Layout.keeps_ofImage session hzero).steps count
  constructor
  · intro count
    exact (hkeeps count).outermost
  · rintro final failure ⟨count, rfl, -⟩ hresult hdepth
    exact (hkeeps count).isStray_of_result hresult hdepth

/-- A loop that sends what it receives, and ends with the input. -/
def echo : String :=
  "next: # one byte\n  rfi R0\n  cmp R0 =-1\n  brn.eq @done\n  wto R0\n  brn @next\nlbl done\n  end"

theorem Engine.assembled_run_stays_on_statements_echo :
    ∃ image, assemble echo = .ok image ∧
      (∀ text ∈ Text.lines echo.toList, (Line.ofText text).isPlain = true) ∧
      (∀ text ∈ Text.lines echo.toList, branchesByLabel text = true) ∧
      ∀ count frame, ((ofImage (.ofMachine (.ofConfig .standard (.ofBytes "" #[]) (.ofInput []))) image).steps
        count).frames.getLast? = some frame →
        frame.code = .image image ∧
          (StatementStart (Text.lines echo.toList) frame.offset ∨ frame.offset = image.size) := by
  have hassembled : assemble echo = .ok #[0x07, 0, 0, 0, 0, 0, 0, 0x0C, 0, 0, 0, 0, 0, 0, 3, 8, 0, 0, 1,
      0x0D, 1, 3, 0, 0, 2, 8, 0x08, 0, 0, 0, 0, 0, 0, 0x0D, 0, 3, 0, 0, 0, 0, 0x11, 0] := by
    decide +kernel
  have hplain : ∀ text ∈ Text.lines echo.toList, (Line.ofText text).isPlain = true := by decide +kernel
  have hbranches : ∀ text ∈ Text.lines echo.toList, branchesByLabel text = true := by decide +kernel
  have hrun := assembled_run_stays_on_statements hassembled hplain hbranches
  exact ⟨_, hassembled, hplain, hbranches, (hrun _).1⟩

end Microcomputer
