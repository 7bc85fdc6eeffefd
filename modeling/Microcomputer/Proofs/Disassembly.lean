import Microcomputer.Proofs.AssembledRun
import Microcomputer.Proofs.Printing

/-!
# Listing what was assembled

An image that was assembled from statements, label definitions and comments is listed as the statements of
its source, line by line, with the offsets of labels as constants. What the listing prints assembles to the
same image.
-/
namespace Microcomputer.Assembly

open Text

/-- The operand that a token stands for, by the labels of a draft. -/
inductive Denotes (draft : Draft) : List Char → Operand → Prop
  | label {name : List Char} {address : Nat} (defined : draft.address? name = some address)
      (reachable : address ≤ Word.maxMagnitude) :
      Denotes draft ('@' :: name) ⟨.constant, Int32.ofNat address⟩
  | register {mark : Char} {text : List Char} {index : Int32} (marked : mark = 'R' ∨ mark = 'r')
      (read : readInt32 .operand text = .ok index) : Denotes draft (mark :: text) ⟨.register, index⟩
  | registerValue {mark : Char} {text : List Char} {index : Int32} (marked : mark = 'R' ∨ mark = 'r')
      (read : readInt32 .operand text = .ok index) :
      Denotes draft (mark :: '$' :: text) ⟨.registerValue, index⟩
  | constant {text : List Char} {value : Int32} (read : readInt32 .operand text = .ok value) :
      Denotes draft ('=' :: text) ⟨.constant, value⟩
  | pointer {text : List Char} {address : Int32} (read : readInt32 .operand text = .ok address) :
      Denotes draft text ⟨.pointer, address⟩

/-- A mnemonic and the operand tokens after it stand for the statement. -/
structure Expresses (draft : Draft) (line : List Char × List (List Char)) (statement : Statement) :
    Prop where
  named : NamedBy line.1 statement.instruction statement.condition
  operands : List.Forall₂ (Denotes draft) line.2 statement.operands

/-- The mnemonic and the operand tokens of a line with a statement. -/
def Line.statement? : Line → Option (List Char × List (List Char))
  | .statement mnemonic operands => some (mnemonic, operands)
  | _ => none

/-- The lines with a statement, in order. -/
def statementLines (texts : List (List Char)) : List (List Char × List (List Char)) :=
  texts.filterMap fun text => (Line.ofText text).statement?

/-- The statement on the line, with the addresses of its labels in it. -/
def linkedStatement? (address : List Char → Nat) (text : List Char) : Option Statement := do
  let (mnemonic, operands) ← (Line.ofText text).statement?
  match readStatement mnemonic (operands.map (linkToken address)) with
  | .ok (statement, _) => some statement
  | .error _ => none

/-- The statements of the lines, with the addresses of their labels in them. -/
def linkedStatements (address : List Char → Nat) (texts : List (List Char)) : List Statement :=
  texts.filterMap (linkedStatement? address)

section Lines

variable {address : List Char → Nat} {draft : Draft} {text mnemonic : List Char}
  {operands : List (List Char)}

theorem denotes_of_readRegister {mark : Char} {rest : List Char} {operand : Operand}
    (marked : mark = 'R' ∨ mark = 'r') (h : readRegister rest = .ok operand) :
    Denotes draft (mark :: rest) operand := by
  unfold readRegister at h
  split at h
  · obtain ⟨index, hread, hlast⟩ := bind_eq_ok.mp h
    obtain rfl := Except.ok.inj hlast
    exact .registerValue marked hread
  · obtain ⟨index, hread, hlast⟩ := bind_eq_ok.mp h
    obtain rfl := Except.ok.inj hlast
    exact .register marked hread

/-- Any token stands for the operand in its slot, once a label in it has its address. -/
theorem denotes_of_readSlot {token : List Char} {slot : Slot} (h : readSlot token = .ok slot)
    (hlabel : ∀ label, slot.label? = some label → draft.address? label = some (address label))
    (hreach : slot.Reachable address) : Denotes draft token (slot.link address).operand := by
  unfold readSlot at h
  split at h
  · next label =>
    obtain rfl := Except.ok.inj h
    exact .label (hlabel label rfl) (hreach label rfl)
  all_goals
    obtain ⟨_, hread, hlast⟩ := bind_eq_ok.mp h
    obtain rfl := Except.ok.inj hlast
  · exact denotes_of_readRegister (Or.inl rfl) hread
  · exact denotes_of_readRegister (Or.inr rfl) hread
  · exact .constant hread
  · exact .pointer hread

theorem SlotsRead.denotes {slots : List Slot} (h : SlotsRead operands slots)
    (hlabels : ∀ slot ∈ slots, ∀ label, slot.label? = some label →
      draft.address? label = some (address label))
    (hreach : ∀ slot ∈ slots, slot.Reachable address) :
    List.Forall₂ (Denotes draft) operands ((slots.map (·.link address)).map (·.operand)) := by
  induction h with
  | nil => exact .nil
  | cons hslot _ ih =>
    obtain ⟨hlabel, hlabels⟩ := List.forall_mem_cons.mp hlabels
    obtain ⟨hfirst, hreach⟩ := List.forall_mem_cons.mp hreach
    exact .cons (denotes_of_readSlot hslot hlabel hfirst) (ih hlabels hreach)

/-- A line of statements, labels and comments that could be read, with labels that are placed. -/
structure PlainLine (address : List Char → Nat) (draft : Draft) (text : List Char) : Prop where
  plain : (Line.ofText text).isPlain = true
  read : (Line.ofText text).read.outcome = .ok (itemOf text)
  placed : ∀ use ∈ (itemOf text).uses,
    draft.address? use.label = some (address use.label) ∧ address use.label ≤ Word.maxMagnitude

/-- A line with a statement comes to the encoding of that statement. -/
theorem PlainLine.exists_encoded (h : PlainLine address draft text)
    (hline : Line.ofText text = .statement mnemonic operands) :
    ∃ statement bytes, linkedStatement? address text = some statement ∧
      Expresses draft (mnemonic, operands) statement ∧ statement.encode = .ok bytes ∧
      (itemOf text).link address = .data bytes [] := by
  have hreads := Line.reads_of_outcome h.read
  have hplaced := h.placed
  rw [hline] at hreads
  generalize itemOf text = item at hreads hplaced
  cases hreads with
  | statement hread hencode =>
    have hreach := fun use hu => (hplaced use hu).2
    obtain ⟨linked, slots, hlinkedRead, hbytes, hslots, rfl, hlinked⟩ :=
      exists_linked hread hencode hreach
    have hlabels : ∀ slot ∈ slots, ∀ label, slot.label? = some label →
        draft.address? label = some (address label) := by
      intro slot hs label hl
      obtain ⟨use, hu, rfl⟩ := mem_labelUses.mpr ⟨slot, hs, hl⟩
      exact (hplaced use hu).1
    refine ⟨linked, _, ?_, ⟨(readStatement_eq_ok.mp hlinkedRead).1, ?_⟩, hbytes, rfl⟩
    · simp [linkedStatement?, hline, Line.statement?, hlinkedRead]
    · rw [hlinked]
      exact hslots.denotes hlabels (reachable_of_labelUses hreach)

/-- A line without a statement comes to nothing. -/
theorem PlainLine.added_eq (h : PlainLine address draft text)
    (hline : (Line.ofText text).statement? = none) (start : Nat) :
    ((itemOf text).link address).added start = #[] := by
  have hreads := Line.reads_of_outcome h.read
  have hplain := h.plain
  generalize Line.ofText text = line at hplain hline hreads
  generalize itemOf text = item at hreads
  cases hreads with
  | blank | label name => rfl
  | number text | byte text | padding text => cases hplain
  | statement _ _ => cases hline

theorem Line.statement?_eq_some {line : Line} :
    line.statement? = some (mnemonic, operands) ↔ line = .statement mnemonic operands := by
  cases line <;> simp [statement?]

theorem linkedStatement?_eq_none (hline : (Line.ofText text).statement? = none) :
    linkedStatement? address text = none := by
  rw [linkedStatement?, hline]
  rfl

end Lines

theorem sum_length_of_encodedAs {statements : List Statement} {encodings : List (List UInt8)}
    (h : EncodedAs statements encodings) :
    (statements.map Statement.length).sum = encodings.flatten.length := by
  induction h with
  | nil => rfl
  | cons hfirst _ ih =>
    rw [List.map_cons, List.sum_cons, List.flatten_cons, List.length_append, ih,
      Statement.length_of_encode hfirst]

/-- Statement number `index` is listed behind those before it, and the end lies behind all. -/
theorem offset_listed (start index : Nat) (statements : List Statement) :
    ((listed start statements)[index]?.map (·.offset)).getD
        (start + (statements.map Statement.length).sum) =
      start + ((statements.take index).map Statement.length).sum := by
  induction statements generalizing start index with
  | nil => simp [listed]
  | cons statement statements ih =>
    cases index with
    | zero => rfl
    | succ index =>
      rw [listed, List.getElem?_cons_succ, List.map_cons, List.sum_cons, ← Nat.add_assoc, ih,
        List.take_succ_cons, List.map_cons, List.sum_cons, Nat.add_assoc]

section Sources

variable {address : List Char → Nat} {draft : Draft} {texts : List (List Char)}

/-- The lines with a statement stand for the statements of the source, one by one. -/
theorem expresses_linkedStatements (h : ∀ text ∈ texts, PlainLine address draft text) :
    List.Forall₂ (Expresses draft) (statementLines texts) (linkedStatements address texts) := by
  unfold statementLines linkedStatements
  induction texts with
  | nil => exact .nil
  | cons text texts ih =>
    obtain ⟨htext, hrest⟩ := List.forall_mem_cons.mp h
    cases hline : (Line.ofText text).statement? with
    | none =>
      simp only [List.filterMap_cons, hline, linkedStatement?_eq_none hline]
      exact ih hrest
    | some line =>
      obtain ⟨statement, bytes, hlinked, hexpresses, -⟩ :=
        htext.exists_encoded (Line.statement?_eq_some.mp hline)
      simp only [List.filterMap_cons, hline, hlinked]
      exact .cons hexpresses (ih hrest)

/-- What the lines come to are the encodings of the statements, in a row. -/
theorem exists_encodings (h : ∀ text ∈ texts, PlainLine address draft text) :
    ∃ encodings, EncodedAs (linkedStatements address texts) encodings ∧
      (texts.flatMap fun text => (((itemOf text).link address).added 0).toList) = encodings.flatten := by
  unfold linkedStatements
  induction texts with
  | nil => exact ⟨[], .nil, rfl⟩
  | cons text texts ih =>
    obtain ⟨htext, hrest⟩ := List.forall_mem_cons.mp h
    obtain ⟨encodings, hencodings, hbytes⟩ := ih hrest
    cases hline : (Line.ofText text).statement? with
    | none =>
      rw [List.filterMap_cons_none (linkedStatement?_eq_none hline), List.flatMap_cons,
        htext.added_eq hline]
      exact ⟨encodings, hencodings, hbytes⟩
    | some line =>
      obtain ⟨statement, bytes, hlinked, -, hencode, hitem⟩ :=
        htext.exists_encoded (Line.statement?_eq_some.mp hline)
      rw [List.filterMap_cons_some hlinked, List.flatMap_cons, hitem, hbytes]
      exact ⟨bytes :: encodings, .cons hencode hencodings, rfl⟩

theorem PlainLine.added_start {text : List Char} (h : PlainLine address draft text) (start : Nat) :
    ((itemOf text).link address).added start = ((itemOf text).link address).added 0 := by
  cases hline : (Line.ofText text).statement? with
  | none => rw [h.added_eq hline, h.added_eq hline]
  | some line =>
    obtain ⟨statement, bytes, -, -, -, hitem⟩ := h.exists_encoded (Line.statement?_eq_some.mp hline)
    rw [hitem]
    rfl

/-- The image of the lines is the encodings of their statements, in a row. -/
theorem exists_encodedAs_image (h : ∀ text ∈ texts, PlainLine address draft text) :
    ∃ encodings, EncodedAs (linkedStatements address texts) encodings ∧
      (Draft.ofItems ((texts.map itemOf).map (·.link address))).image = encodings.flatten.toArray := by
  obtain ⟨encodings, hencodings, hbytes⟩ := exists_encodings h
  refine ⟨encodings, hencodings, ?_⟩
  have hfixed : ∀ item ∈ (texts.map itemOf).map (·.link address),
      ∀ start, item.added start = item.added 0 := by
    rw [List.map_map]
    exact List.forall_mem_map.mpr fun text ht => (h text ht).added_start
  rw [Draft.image_ofItems_of_fixed hfixed, List.map_map, List.flatMap_map]
  exact congrArg List.toArray hbytes

/-- After plain lines, the image is as long as their statements. -/
theorem size_ofLines (h : ∀ text ∈ texts, PlainLine address draft text) :
    (ofLines texts).draft.image.size =
      ((linkedStatements address texts).map Statement.length).sum := by
  obtain ⟨encodings, hencodings, himage⟩ := exists_encodedAs_image h
  have hfits : ∀ item ∈ texts.map itemOf, item.Fits :=
    List.forall_mem_map.mpr fun text ht => (Line.reads_of_outcome (h text ht).read).fits
  rw [sum_length_of_encodedAs hencodings, ← List.size_toArray, ← himage,
    Draft.ofItems_link address hfits, size_patch, draft_ofLines]

/-- The lines with a statement tell how many statements come of the front of a source. -/
theorem take_linkedStatements {front : List (List Char)}
    (h : ∀ text ∈ front, PlainLine address draft text) (back : List (List Char)) :
    (linkedStatements address (front ++ back)).take (statementLines front).length =
      linkedStatements address front := by
  rw [(expresses_linkedStatements h).length_eq, linkedStatements, linkedStatements,
    List.filterMap_append]
  exact List.take_left

/-- Filling in label operands leaves the labels as they are. -/
theorem address?_ofSource (source : String) (name : List Char) :
    (ofSource source).draft.address? name = (ofLines (lines source.toList)).draft.address? name := by
  have hlabels (references : List Reference) (assembly : Assembly) :
      (references.foldl resolve assembly).draft.labels = assembly.draft.labels := by
    induction references generalizing assembly with
    | nil => rfl
    | cons reference references ih => rw [List.foldl_cons, ih, labels_resolve]
  rw [ofSource, resolveAll, ← Array.foldl_toList, Draft.address?, hlabels]
  rfl

/-- The lines of a source that assembles are plain if their forms are. -/
theorem plainLine_of_assemble {source : String} {image : Bytes} (h : assemble source = .ok image)
    (hplain : ∀ text ∈ lines source.toList, (Line.ofText text).isPlain = true) :
    ∀ text ∈ lines source.toList,
      PlainLine (addressOf (lines source.toList)) (ofSource source).draft text := by
  obtain ⟨haccepts, hplaced, -⟩ := (assemble_eq_ok rfl).mp h
  intro text ht
  have hread := haccepts.outcome ht
  refine ⟨hplain text ht, hread, fun use hu => ?_⟩
  have hlabel := (label_mem_uses (Line.reads_of_outcome hread)).mp ⟨use, hu, rfl⟩
  obtain ⟨hdefined, hreach⟩ := (placed_iff haccepts).mp hplaced text ht use.label hlabel
  refine ⟨?_, hreach⟩
  rw [address?_ofSource, address?_ofLines haccepts, if_pos hdefined]

/-- A label that a line of an accepted source defines lies where the line was taken in. -/
theorem address?_of_label {before after : List (List Char)} {text name : List Char}
    (h : Accepts texts) (hsplit : texts = before ++ text :: after)
    (hline : Line.ofText text = .label name) :
    (ofLines texts).draft.address? name = some (ofLines before).draft.image.size := by
  have hdefines : defines name text = true := decide_eq_true hline
  have hlater : texts = before ++ [text] ++ after := by rw [hsplit, List.append_assoc]; rfl
  have haccepts : Accepts (before ++ [text]) := (hlater ▸ h).of_append
  have hmem : ∃ other ∈ before ++ [text], defines name other = true :=
    ⟨text, List.mem_concat_self, hdefines⟩
  have hall : ∃ other ∈ texts, defines name other = true :=
    ⟨text, hsplit ▸ List.mem_append_right _ List.mem_cons_self, hdefines⟩
  obtain ⟨hbefore, hlast⟩ := accepts_append_singleton.mp haccepts
  have hfresh : ∀ other ∈ before, defines name other = false := by
    have hnone := address?_eq_none_of_defines hlast hdefines
    rw [address?_ofLines hbefore] at hnone
    intro other ho
    by_contra hdefined
    rw [if_pos ⟨other, ho, by simpa using hdefined⟩] at hnone
    cases hnone
  rw [address?_ofLines h, if_pos hall, hlater, addressOf_append_of_defined hmem,
    addressOf_append_of_undefined hfresh hdefines]

end Sources

/--
An image that was assembled from statements, label definitions and comments is listed without a fault to
its end, with one statement for each line that has one, in order, as the line says. Every label lies at the
first statement behind its definition, or at the end of the image. The texts of the statements assemble to
the same image.
-/
theorem assembled_image_lists_statements {source : String} {image : Bytes}
    (assembled : assemble source = .ok image)
    (plain : ∀ text ∈ lines source.toList, (Line.ofText text).isPlain = true) :
    ∃ statements, listing image.toList 0 = listed 0 statements ∧
      (statements.map Statement.length).sum = image.size ∧
      List.Forall₂ (Expresses (ofSource source).draft) (statementLines (lines source.toList))
        statements ∧
      (∀ before text after name, lines source.toList = before ++ text :: after →
        Line.ofText text = .label name →
        (ofSource source).draft.address? name =
          some (((listing image.toList 0)[(statementLines before).length]?.map (·.offset)).getD
            image.size)) ∧
      assemble (Statement.source statements) = .ok image := by
  have hassembled := assembled_of_assemble assembled
  have hplain := plainLine_of_assemble assembled plain
  have hlabels := address?_ofSource source
  generalize lines source.toList = texts at hassembled hplain hlabels
  obtain ⟨encodings, hencodings, himage⟩ := exists_encodedAs_image hplain
  rw [← hassembled.image_eq] at himage
  have hlisting : listing image.toList 0 = listed 0 (linkedStatements (addressOf texts) texts) := by
    have hlist := listing_flatten hencodings [] 0
    rw [himage]
    simpa [listing] using hlist
  have hsize : ((linkedStatements (addressOf texts) texts).map Statement.length).sum = image.size := by
    rw [sum_length_of_encodedAs hencodings, himage, List.size_toArray]
  refine ⟨_, hlisting, hsize, expresses_linkedStatements hplain, ?_, ?_⟩
  · intro before text after name hsplit hline
    have hbefore : ∀ other ∈ before, PlainLine (addressOf texts) (ofSource source).draft other :=
      fun other ho => hplain other (hsplit ▸ List.mem_append_left _ ho)
    have hfront : (linkedStatements (addressOf texts) texts).take (statementLines before).length =
        linkedStatements (addressOf texts) before :=
      hsplit ▸ take_linkedStatements (hsplit ▸ hbefore) (text :: after)
    have hoffset := offset_listed 0 (statementLines before).length
      (linkedStatements (addressOf texts) texts)
    rw [Nat.zero_add, Nat.zero_add, hsize, hfront, ← size_ofLines hbefore] at hoffset
    rw [hlisting, hoffset, hlabels, address?_of_label hassembled.accepts hsplit hline]
  · rw [himage]
    exact Statement.assemble_source_of_encodedAs hencodings

/-- The last label of `echo` lies at the last of its six statements. -/
theorem assembled_image_lists_statements_echo :
    ∃ image, assemble echo = .ok image ∧
      (∀ text ∈ lines echo.toList, (Line.ofText text).isPlain = true) ∧
      (ofSource echo).draft.address? ['d', 'o', 'n', 'e'] =
        some (((listing image.toList 0)[5]?.map (·.offset)).getD image.size) ∧
      ∃ statements, listing image.toList 0 = listed 0 statements ∧
        (statements.map Statement.length).sum = image.size ∧
        List.Forall₂ (Expresses (ofSource echo).draft) (statementLines (lines echo.toList)) statements ∧
        assemble (Statement.source statements) = .ok image := by
  have hassembled : assemble echo = .ok #[0x07, 0, 0, 0, 0, 0, 0, 0x0C, 0, 0, 0, 0, 0, 0, 3, 8, 0, 0, 1,
      0x0D, 1, 3, 0, 0, 2, 8, 0x08, 0, 0, 0, 0, 0, 0, 0x0D, 0, 3, 0, 0, 0, 0, 0x11, 0] := by
    decide +kernel
  have hplain : ∀ text ∈ lines echo.toList, (Line.ofText text).isPlain = true := by decide +kernel
  have hsplit : lines echo.toList = (lines echo.toList).take 6 ++
      ['l', 'b', 'l', ' ', 'd', 'o', 'n', 'e'] :: (lines echo.toList).drop 7 := by decide +kernel
  have hcount : (statementLines ((lines echo.toList).take 6)).length = 5 := by decide +kernel
  obtain ⟨statements, hlisting, hsize, hlines, hlabels, hagain⟩ :=
    assembled_image_lists_statements hassembled hplain
  have hdone := hlabels _ _ _ ['d', 'o', 'n', 'e'] hsplit (by decide)
  rw [hcount] at hdone
  exact ⟨_, hassembled, hplain, hdone, statements, hlisting, hsize, hlines, hagain⟩

end Microcomputer.Assembly
