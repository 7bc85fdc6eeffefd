import Mathlib.Data.List.Pairwise
import Microcomputer.Host
import Microcomputer.Proofs.AssembledRun
import Microcomputer.Proofs.Isolation

/-!
# Label operands that wait for their addresses

A label operand is the constant zero in an operand of an accepted statement, and no two of them share a byte.
Lines that are taken in later only add to the end of the image, so this holds after any number of lines, and
the words of the labels can be laid over the image in any order.
-/
namespace Microcomputer

/-- Bytes that are laid over different places can be laid in either order. -/
theorem Bytes.overlay_comm {start other : Nat} {data more : List UInt8}
    (h : start + data.length ≤ other ∨ other + more.length ≤ start) (bytes : Bytes) :
    (bytes.overlay start data).overlay other more = (bytes.overlay other more).overlay start data := by
  apply Array.ext_getElem?
  intro i
  simp only [getElem?_overlay, size_overlay]
  by_cases hfirst : i < bytes.size ∧ start ≤ i ∧ i < start + data.length
  · rw [if_pos hfirst, if_neg (by omega), if_pos hfirst]
  · rw [if_neg hfirst, if_neg hfirst]

theorem Bytes.window_eq_cons {bytes : Bytes} {start length : Nat} {b : UInt8} {rest : List UInt8}
    (h : bytes.window start (length + 1) = b :: rest) :
    bytes[start]? = some b ∧ bytes.window (start + 1) length = rest := by
  constructor
  · have hfirst := getElem?_window bytes start (length + 1) 0
    rw [h, if_pos (Nat.succ_pos length)] at hfirst
    exact hfirst.symm
  · have hrest := congrArg (List.drop 1) h
    rw [window_eq, List.drop_take, List.drop_drop, ← window_eq] at hrest
    exact hrest

namespace Statement

/-- The encoded operands lie in a row. -/
theorem encode_of_getElem? {operands : List Operand} {bytes : List UInt8}
    (h : encodeOperands operands = .ok bytes) {index : Nat} {operand : Operand}
    (hoperand : operands[index]? = some operand) :
    operand.encode = .ok ((bytes.drop (index * Operand.size)).take Operand.size) := by
  induction operands generalizing bytes index with
  | nil => cases hoperand
  | cons first operands ih =>
    obtain ⟨front, back, hfront, hback, rfl⟩ := encodeOperands_cons_eq_ok.mp h
    have hlength : front.length = Operand.size := Operand.length_of_encode hfront
    cases index with
    | zero =>
      obtain rfl := Option.some.inj hoperand
      rw [hfront, Nat.zero_mul, List.drop_zero, List.take_left' hlength]
    | succ index =>
      have hdrop : (front ++ back).drop ((index + 1) * Operand.size) =
          back.drop (index * Operand.size) := by
        rw [Nat.add_mul, Nat.one_mul, Nat.add_comm, ← List.drop_drop, List.drop_left' hlength]
      rw [hdrop]
      exact ih hback hoperand

variable {statement : Statement} {image : Bytes} {offset : Nat}

/-- The operands of a statement that lies in an image, and where. -/
theorem LiesAt.operand (h : statement.LiesAt image offset) {index : Nat} {operand : Operand}
    (hoperand : statement.operands[index]? = some operand) :
    offset + headerSize + index * Operand.size + Operand.size ≤ image.size ∧
      operand.encode = .ok (image.window (offset + headerSize + index * Operand.size) Operand.size) := by
  obtain ⟨bytes, hencode, hinside, hwindow⟩ := h
  obtain ⟨body, hbody, rfl⟩ := encode_eq_ok.mp hencode
  have hindex : index < statement.operands.length := (List.getElem?_eq_some_iff.mp hoperand).1
  have hslots : index * Operand.size + Operand.size ≤ statement.operands.length * Operand.size := by
    rw [← Nat.succ_mul]
    exact Nat.mul_le_mul_right _ hindex
  have hlength := length_of_encodeOperands hbody
  rw [List.length_cons, List.length_cons] at hinside hwindow
  have hheader : headerSize = 2 := rfl
  refine ⟨by omega, (encode_of_getElem? hbody hoperand).trans (congrArg Except.ok ?_)⟩
  have hdrop : body = (image.window offset (body.length + 1 + 1)).drop headerSize := by
    rw [hwindow]
    rfl
  rw [hdrop, Bytes.window_eq, Bytes.window_eq, List.drop_drop, List.drop_take, List.take_take,
    List.drop_drop, ← Nat.add_assoc, Nat.min_eq_left (by omega)]

/-- A statement stays where it lies when bytes are added behind it. -/
theorem LiesAt.append (h : statement.LiesAt image offset) (rest : Bytes) :
    statement.LiesAt (image ++ rest) offset := by
  obtain ⟨bytes, hencode, hinside, hwindow⟩ := h
  refine ⟨bytes, hencode, ?_, (Bytes.window_append_left hinside rest).trans hwindow⟩
  rw [Array.size_append]
  exact Nat.le_add_right_of_le hinside

end Statement

namespace Assembly

open Text

/-- Where the label operands of a statement lie, and the slots that they belong to. -/
theorem exists_slot_of_mem_labelUses {index : Nat} {slots : List Slot} {use : LabelUse}
    (h : use ∈ labelUses index slots) :
    ∃ i slot, slots[i]? = some slot ∧ slot.label? = some use.label ∧
      use.offset = Statement.headerSize + (index + i) * Operand.size + 1 := by
  induction slots generalizing index with
  | nil => cases h
  | cons slot slots ih =>
    have hlater (hrest : use ∈ labelUses (index + 1) slots) : ∃ i other,
        (slot :: slots)[i]? = some other ∧ other.label? = some use.label ∧
          use.offset = Statement.headerSize + (index + i) * Operand.size + 1 := by
      obtain ⟨i, other, hi, hlabel, hoffset⟩ := ih hrest
      refine ⟨i + 1, other, hi, hlabel, ?_⟩
      rw [hoffset, Nat.add_assoc index, Nat.add_comm 1]
    obtain ⟨operand, label?⟩ := slot
    cases label? with
    | none => exact hlater h
    | some label =>
      rcases List.mem_cons.mp h with rfl | h
      · exact ⟨0, _, rfl, rfl, rfl⟩
      · exact hlater h

theorem SlotsRead.exists_token {operands : List (List Char)} {slots : List Slot}
    (h : SlotsRead operands slots) {index : Nat} {slot : Slot} (hslot : slots[index]? = some slot) :
    ∃ token, operands[index]? = some token ∧ readSlot token = .ok slot := by
  induction h generalizing index with
  | nil => cases hslot
  | @cons token _ _ _ hread _ ih =>
    cases index with
    | zero =>
      obtain rfl := Option.some.inj hslot
      exact ⟨token, rfl, hread⟩
    | succ index => exact ih hslot

theorem pairwise_labelUses (index : Nat) (slots : List Slot) :
    (labelUses index slots).Pairwise fun first second => first.offset + Word.size ≤ second.offset := by
  induction slots generalizing index with
  | nil => exact .nil
  | cons slot slots ih =>
    obtain ⟨operand, label?⟩ := slot
    cases label? with
    | none => exact ih (index + 1)
    | some label =>
      refine List.pairwise_cons.mpr ⟨fun use hu => ?_, ih (index + 1)⟩
      obtain ⟨i, _, -, -, hoffset⟩ := exists_slot_of_mem_labelUses hu
      have hword : Operand.size = 1 + Word.size := rfl
      simp only [hoffset, Nat.add_mul, Nat.one_mul]
      omega

/-- A line adds label operands only if it is read as a statement, and it is accepted then. -/
theorem uses_itemOf (text : List Char) :
    (itemOf text).uses = [] ∨ ∃ mnemonic operands statement bytes slots,
      Line.ofText text = .statement mnemonic operands ∧
      readStatement mnemonic operands = .ok (statement, labelUses 0 slots) ∧
      statement.encode = .ok bytes ∧ itemOf text = .data bytes (labelUses 0 slots) ∧
      ∀ draft, rejection? draft text = none := by
  cases ho : (Line.ofText text).read.outcome with
  | error rejection => exact Or.inl (by rw [itemOf, ho]; rfl)
  | ok item =>
    have hreads := Line.reads_of_outcome ho
    rw [itemOf_of_ok ho]
    cases hl : Line.ofText text with
    | statement mnemonic operands =>
      rw [hl] at hreads
      cases hreads with
      | statement hread hencode =>
        obtain ⟨-, slots, -, -, rfl⟩ := readStatement_eq_ok.mp hread
        exact Or.inr ⟨_, _, _, _, slots, rfl, hread, hencode, rfl, fun draft => rejection?_of_ok ho⟩
    | _ =>
      rw [hl] at hreads
      cases hreads
      exact Or.inl rfl

namespace Reference

/-- The word of the operand is that of zero, and the byte before it says that it is a constant. -/
structure Waits (image : Bytes) (reference : Reference) : Prop where
  inside : reference.offset + Word.size ≤ image.size
  constant : ∃ slot, reference.offset = slot + 1 ∧ image[slot]? = some Mode.constant.code
  zero : (Word.encode 0).map Word.bytes = .ok (image.window reference.offset Word.size)

/-- The operand belongs to the statement of an accepted line, whose bytes stand in the image. -/
inductive IsWrittenIn (texts : List (List Char)) (reference : Reference) : Prop
  | operand {before after operands : List (List Char)} {text mnemonic : List Char}
      {statement : Statement} {uses : List LabelUse} {index : Nat}
      (split : texts = before ++ text :: after)
      (accepted : rejection? (ofLines before).draft text = none)
      (sorted : Line.ofText text = .statement mnemonic operands)
      (read : readStatement mnemonic operands = .ok (statement, uses))
      (lies : statement.LiesAt (ofLines texts).draft.image (ofLines before).draft.image.size)
      (token : operands[index]? = some ('@' :: reference.label))
      (slot : statement.operands[index]? = some ⟨.constant, 0⟩)
      (offset : reference.offset = (ofLines before).draft.image.size + Statement.headerSize +
        index * Operand.size + 1)
      (line : reference.line = before.length + 1) : IsWrittenIn texts reference

/-- The words of the operands share no byte. -/
def Apart (first second : Reference) : Prop :=
  first.offset + Word.size ≤ second.offset ∨ second.offset + Word.size ≤ first.offset

instance : Std.Symm Apart where
  symm _ _ := Or.symm

variable {texts : List (List Char)} {text : List Char} {reference : Reference}

theorem IsWrittenIn.waits (h : reference.IsWrittenIn texts) :
    reference.Waits (ofLines texts).draft.image := by
  obtain ⟨-, -, -, -, hlies, -, hslot, hoffset, -⟩ := h
  obtain ⟨hinside, hencode⟩ := hlies.operand hslot
  have hzero : (Operand.mk .constant 0).encode = .ok (Mode.constant.code :: [0, 0, 0, 0]) := rfl
  obtain ⟨hmode, hword⟩ := Bytes.window_eq_cons (Except.ok.inj (hencode.symm.trans hzero))
  rw [← hoffset] at hword
  refine ⟨?_, ⟨_, hoffset, hmode⟩, ?_⟩
  · rw [hoffset, Nat.add_assoc]
    exact hinside
  · exact congrArg Except.ok hword.symm

/-- Lines that are taken in later leave a label operand where it is. -/
theorem IsWrittenIn.concat (h : reference.IsWrittenIn texts) (text : List Char) :
    reference.IsWrittenIn (texts ++ [text]) := by
  obtain ⟨rfl, haccepted, hsorted, hread, hlies, htoken, hslot, hoffset, hline⟩ := h
  rename_i before after operands line mnemonic statement uses index
  have hsplit : before ++ line :: after ++ [text] = before ++ line :: (after ++ [text]) := by
    rw [List.append_assoc, List.cons_append]
  refine .operand hsplit haccepted hsorted hread ?_ htoken hslot hoffset hline
  · rw [ofLines_append_singleton, draft_enter, Draft.image_add]
    exact hlies.append _

/-- The statement of a line lies at the end of the image behind it. -/
theorem liesAt_concat {statement : Statement} {bytes : List UInt8} {uses : List LabelUse}
    (h : statement.encode = .ok bytes) (hitem : itemOf text = .data bytes uses) :
    statement.LiesAt (ofLines (texts ++ [text])).draft.image (ofLines texts).draft.image.size := by
  have hitems : (texts ++ [text]).map itemOf = texts.map itemOf ++ [.data bytes uses] ++ [] := by
    rw [List.map_append, List.map_singleton, hitem, List.append_nil]
  obtain ⟨hinside, hwindow⟩ := Draft.window_ofItems hitems
  rw [← draft_ofLines, ← draft_ofLines] at hinside hwindow
  exact ⟨bytes, h, hinside, hwindow⟩

/-- The label operands that a line adds are those of its statement. -/
theorem isWrittenIn_of_mem_placed (h : reference ∈ Draft.placed (ofLines texts).draft.image.size
    (texts.length + 1) (itemOf text)) : reference.IsWrittenIn (texts ++ [text]) := by
  obtain ⟨use, huse, rfl⟩ := List.mem_map.mp h
  rcases uses_itemOf text with hnone | ⟨mnemonic, operands, statement, bytes, slots, hsorted, hread,
    hencode, hitem, haccepted⟩
  · rw [hnone] at huse
    cases huse
  · obtain ⟨-, slots', hslots, hoperands, hsame⟩ := readStatement_eq_ok.mp hread
    rw [hitem, Item.uses, hsame] at huse
    obtain ⟨index, slot, hslot, hlabel, hoffset⟩ := exists_slot_of_mem_labelUses huse
    obtain ⟨token, htoken, htokenRead⟩ := hslots.exists_token hslot
    obtain rfl := (readSlot_label htokenRead).mp hlabel
    refine .operand rfl (haccepted _) hsorted hread (liesAt_concat hencode hitem) htoken ?_ ?_ rfl
    · rw [hoperands, List.getElem?_map, hslot]
      exact congrArg some (hslots.pending slot (List.mem_of_getElem? hslot) _ hlabel)
    · rw [hoffset, Nat.zero_add]
      simp only [Nat.add_assoc]

end Reference

section Lines

variable (texts : List (List Char))

/-- Every label operand belongs to a statement that was accepted. -/
theorem isWrittenIn_of_mem_references :
    ∀ reference ∈ (ofLines texts).draft.references.toList, reference.IsWrittenIn texts := by
  induction texts using List.reverseRecOn with
  | nil => exact fun reference h => absurd h List.not_mem_nil
  | append_singleton texts text ih =>
    intro reference h
    rw [ofLines_append_singleton, draft_enter, Draft.references_add] at h
    rcases List.mem_append.mp h with h | h
    · exact (ih reference h).concat text
    · exact Reference.isWrittenIn_of_mem_placed h

/-- Label operands stand in the order of their words, and no two words share a byte. -/
theorem references_apart : (ofLines texts).draft.references.toList.Pairwise
    fun first second => first.offset + Word.size ≤ second.offset := by
  induction texts using List.reverseRecOn with
  | nil => exact .nil
  | append_singleton texts text ih =>
    rw [ofLines_append_singleton, draft_enter, Draft.references_add, List.pairwise_append]
    refine ⟨ih, List.pairwise_map.mpr ?_, fun first hfirst second hsecond => ?_⟩
    · rcases uses_itemOf text with hnone | ⟨_, _, _, _, slots, -, -, -, hitem, -⟩
      · rw [hnone]
        exact .nil
      · rw [hitem]
        refine (pairwise_labelUses 0 slots).imp fun {a b} hab => ?_
        simp only [Nat.add_assoc]
        exact Nat.add_le_add_left hab _
    · have hinside := (isWrittenIn_of_mem_references texts first hfirst).waits.inside
      obtain ⟨use, -, rfl⟩ := List.mem_map.mp hsecond
      exact Nat.le_add_right_of_le hinside

theorem address_le_of_mem_labels :
    ∀ entry ∈ (ofLines texts).draft.labels, entry.2 ≤ (ofLines texts).draft.image.size := by
  induction texts using List.reverseRecOn with
  | nil => exact fun entry h => absurd h List.not_mem_nil
  | append_singleton texts text ih =>
    intro entry h
    rw [ofLines_append_singleton, draft_enter, Draft.labels_add] at h
    rw [size_ofLines_append_singleton]
    rcases List.mem_append.mp h with h | h
    · cases hitem : itemOf text with
      | label name =>
        rw [hitem] at h
        obtain rfl := List.mem_singleton.mp h
        exact Nat.le_add_right _ _
      | _ =>
        rw [hitem] at h
        cases h
    · exact Nat.le_add_right_of_le (ih entry h)

theorem image_ofLines_append (more : List (List Char)) :
    ∃ rest, (ofLines (texts ++ more)).draft.image = (ofLines texts).draft.image ++ rest := by
  rw [draft_ofLines, draft_ofLines, List.map_append]
  exact Draft.image_ofItems_append _ _

end Lines

/-- What filling in one label operand comes to: a copy within bounds, and no other byte changes. -/
structure Fills (assembly : Assembly) (reference : Reference) : Prop where
  inside : reference.offset + Word.size ≤ assembly.draft.image.size
  copies : ∀ word, assembly.draft.addressWord reference.label = .ok word →
    Host.paste assembly.draft.image.toList reference.offset (reference.offset + Word.size) word.bytes =
      .ok (assembly.resolve reference).draft.image.toList
  others : ∀ i, i < reference.offset ∨ reference.offset + Word.size ≤ i →
    (assembly.resolve reference).draft.image[i]? = assembly.draft.image[i]?

/-- The image with the word of one label laid over it, if the label has one. -/
def Draft.fill (draft : Draft) (image : Bytes) (reference : Reference) : Bytes :=
  match draft.addressWord reference.label with
  | .ok word => image.overlay reference.offset word.bytes
  | .error _ => image

section Fill

variable {assembly : Assembly} {reference : Reference}

theorem image_resolve (assembly : Assembly) (reference : Reference) :
    (assembly.resolve reference).draft.image =
      assembly.draft.fill assembly.draft.image reference := by
  unfold Draft.fill
  cases h : assembly.draft.addressWord reference.label with
  | error rejection => rw [resolve_of_error h]; rfl
  | ok word => rw [resolve_of_ok h]

@[simp]
theorem Draft.size_fill (draft : Draft) (image : Bytes) (reference : Reference) :
    (draft.fill image reference).size = image.size := by
  unfold fill
  split
  · exact Bytes.size_overlay _ _ _
  · rfl

theorem fills_of_inside (h : reference.offset + Word.size ≤ assembly.draft.image.size) :
    assembly.Fills reference where
  inside := h
  copies := by
    intro word hword
    have hbytes : reference.offset + word.bytes.length ≤ assembly.draft.image.toList.length := h
    rw [resolve_of_ok hword, Bytes.overlay_eq hbytes]
    exact Host.paste_of_le hbytes
  others := by
    intro i hi
    rw [image_resolve, Draft.fill]
    split
    · exact Bytes.getElem?_overlay_of_outside hi
    · rfl

theorem Draft.fill_comm (draft : Draft) {first second : Reference} (h : first.Apart second)
    (image : Bytes) :
    draft.fill (draft.fill image first) second = draft.fill (draft.fill image second) first := by
  unfold fill
  cases draft.addressWord first.label with
  | error rejection => rfl
  | ok word =>
    cases draft.addressWord second.label with
    | error rejection => rfl
    | ok other =>
      have hbytes : first.offset + word.bytes.length ≤ second.offset ∨
          second.offset + other.bytes.length ≤ first.offset := h
      exact Bytes.overlay_comm hbytes image

/-- Filling in label operands lays their words over the image one after another. -/
theorem image_foldl_fill (references : List Reference) (assembly : Assembly) :
    (references.foldl resolve assembly).draft.image =
      references.foldl assembly.draft.fill assembly.draft.image := by
  induction references generalizing assembly with
  | nil => rfl
  | cons reference references ih =>
    have hsame : (assembly.resolve reference).draft.fill = assembly.draft.fill := by
      funext image other
      rw [Draft.fill, Draft.fill, addressWord_resolve]
    rw [List.foldl_cons, List.foldl_cons, ih, hsame, image_resolve]

theorem size_foldl_resolve (references : List Reference) (assembly : Assembly) :
    (references.foldl resolve assembly).draft.image.size = assembly.draft.image.size := by
  induction references generalizing assembly with
  | nil => rfl
  | cons reference references ih => rw [List.foldl_cons, ih, image_resolve, Draft.size_fill]

/-- Label operands that share no byte can be filled in in any order. -/
theorem resolve_in_any_order {assembly : Assembly} {order : List Reference}
    (hinside : ∀ reference ∈ assembly.draft.references.toList,
      reference.offset + Word.size ≤ assembly.draft.image.size)
    (hapart : assembly.draft.references.toList.Pairwise
      fun first second => first.offset + Word.size ≤ second.offset)
    (horder : order.Perm assembly.draft.references.toList) :
    (∀ front reference back, order = front ++ reference :: back →
      (front.foldl resolve assembly).Fills reference) ∧
    (order.foldl resolve assembly).draft.image = assembly.resolveAll.draft.image ∧
    (order.foldl resolve assembly).diagnostics.toList.Perm assembly.resolveAll.diagnostics.toList := by
  have hall : assembly.resolveAll = assembly.draft.references.toList.foldl resolve assembly :=
    (Array.foldl_toList resolve).symm
  refine ⟨fun front reference back hsplit => fills_of_inside ?_, ?_, ?_⟩
  · rw [size_foldl_resolve]
    exact hinside reference (horder.subset (hsplit ▸ List.mem_append_right _ List.mem_cons_self))
  · rw [hall, image_foldl_fill, image_foldl_fill]
    refine horder.foldl_eq' (fun first hfirst second hsecond image => ?_) _
    by_cases hsame : first = second
    · rw [hsame]
    · have hdisjoint : assembly.draft.references.toList.Pairwise Reference.Apart := hapart.imp Or.inl
      exact assembly.draft.fill_comm
        (hdisjoint.forall (horder.subset hfirst) (horder.subset hsecond) hsame) image
  · rw [hall, diagnostics_resolve_foldl, diagnostics_resolve_foldl]
    exact (horder.filterMap _).append_left _

end Fill

section Sources

/-- The first lines of a source. -/
def taken (source : String) (count : Nat) : List (List Char) :=
  (lines source.toList).take count

theorem taken_append (source : String) {count later : Nat} (h : count ≤ later) :
    ∃ more, taken source later = taken source count ++ more := by
  obtain ⟨more, hmore⟩ := List.take_prefix_take_left (l := lines source.toList) h
  exact ⟨more, hmore.symm⟩

/--
After any number of lines, every label operand belongs to a statement of an accepted line: its word lies inside
the image behind the byte of a constant and is that of zero, and no two of these words share a byte. Later lines
only add to the end of the image, and every label has an address up to its end. So the label operands can be
filled in in any order: each is copied within bounds and changes no other byte, the image comes out the same,
and so do the errors but for their order.
-/
theorem label_operands_wait_apart (source : String) (count : Nat) :
    (∀ reference ∈ (ofLines (taken source count)).draft.references.toList,
      reference.IsWrittenIn (taken source count) ∧
      reference.Waits (ofLines (taken source count)).draft.image) ∧
    ((ofLines (taken source count)).draft.references.toList.Pairwise
      fun first second => first.offset + Word.size ≤ second.offset) ∧
    (∀ later, count ≤ later → ∃ rest, (ofLines (taken source later)).draft.image =
      (ofLines (taken source count)).draft.image ++ rest) ∧
    (∀ entry ∈ (ofLines (taken source count)).draft.labels,
      entry.2 ≤ (ofLines (taken source count)).draft.image.size) ∧
    ∀ order : List Reference, order.Perm (ofLines (taken source count)).draft.references.toList →
      (∀ front reference back, order = front ++ reference :: back →
        (front.foldl resolve (ofLines (taken source count))).Fills reference) ∧
      (order.foldl resolve (ofLines (taken source count))).draft.image =
        (ofLines (taken source count)).resolveAll.draft.image ∧
      (order.foldl resolve (ofLines (taken source count))).diagnostics.toList.Perm
        (ofLines (taken source count)).resolveAll.diagnostics.toList := by
  have hwritten := isWrittenIn_of_mem_references (taken source count)
  have hwaits : ∀ reference ∈ (ofLines (taken source count)).draft.references.toList,
      reference.Waits (ofLines (taken source count)).draft.image :=
    fun reference h => (hwritten reference h).waits
  have hapart := references_apart (taken source count)
  refine ⟨fun reference h => ⟨hwritten reference h, hwaits reference h⟩, hapart, ?_,
    address_le_of_mem_labels _, fun order horder => ?_⟩
  · intro later hle
    obtain ⟨more, hmore⟩ := taken_append source hle
    rw [hmore]
    exact image_ofLines_append _ more
  · exact resolve_in_any_order (fun reference h => (hwaits reference h).inside) hapart horder

/-- A comparison of two labels that stand behind it. -/
def comparesLabels : String :=
  "cmp @x @y\nx:\nend\ny:"

/-- The second label operand is filled in before the first, within bounds, and the image comes out the same. -/
theorem label_operands_wait_apart_backwards :
    let drafted := ofLines (taken comparesLabels 4)
    ∃ first second, drafted.draft.references.toList = [first, second] ∧
      first.offset = 3 ∧ second.offset = 8 ∧ second.IsWrittenIn (taken comparesLabels 4) ∧
      second.Waits drafted.draft.image ∧ (drafted.resolve second).Fills first ∧
      ((drafted.resolve second).resolve first).draft.image =
        #[0x0C, 0, 3, 0, 0, 0, 12, 3, 0, 0, 0, 14, 0x11, 0] := by
  intro drafted
  obtain ⟨hwaits, -, -, -, horders⟩ := label_operands_wait_apart comparesLabels 4
  have hoffsets : drafted.draft.references.toList.map (·.offset) = [3, 8] := by decide +kernel
  obtain ⟨first, _, hreferences, hfirst, hrest⟩ := List.map_eq_cons_iff.mp hoffsets
  obtain ⟨second, rfl, hsecond⟩ := List.map_eq_singleton_iff.mp hrest
  obtain ⟨hwritten, hwait⟩ := hwaits second (by simp [drafted, hreferences])
  have hperm : [second, first].Perm drafted.draft.references.toList :=
    hreferences ▸ List.Perm.swap first second []
  obtain ⟨hfills, himage, -⟩ := horders [second, first] hperm
  have hinorder : drafted.resolveAll.draft.image =
      #[0x0C, 0, 3, 0, 0, 0, 12, 3, 0, 0, 0, 14, 0x11, 0] := by decide +kernel
  exact ⟨first, second, hreferences, hfirst, hsecond, hwritten, hwait, hfills [second] first [] rfl,
    himage.trans hinorder⟩

end Sources

end Assembly

end Microcomputer
