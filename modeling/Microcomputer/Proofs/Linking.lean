import Microcomputer.Proofs.Drafting

/-!
# Filling in label operands

The words of the labels are laid over the finished image. Every one of them falls inside the bytes of the
statement that refers to the label, so the same image comes of filling in each statement before the next
line is read, if only the addresses are known.
-/
namespace Microcomputer.Assembly

/-- The bytes with the word of its address laid over each label operand. -/
def patch (address : List Char → Nat) (bytes : Bytes) (uses : List LabelUse) : Bytes :=
  uses.foldl (fun bytes use =>
    bytes.overlay use.offset (Word.ofMagnitude false (address use.label)).bytes) bytes

section Patch

variable (address : List Char → Nat)

@[simp]
theorem size_patch (bytes : Bytes) (uses : List LabelUse) :
    (patch address bytes uses).size = bytes.size := by
  induction uses generalizing bytes with
  | nil => rfl
  | cons use uses ih =>
    rw [patch, List.foldl_cons]
    exact (ih _).trans (Bytes.size_overlay bytes _ _)

theorem patch_append (bytes : Bytes) (first second : List LabelUse) :
    patch address bytes (first ++ second) = patch address (patch address bytes first) second :=
  List.foldl_append

/-- All label operands lie inside the first `size` bytes. -/
def Within (size : Nat) (uses : List LabelUse) : Prop :=
  ∀ use ∈ uses, use.offset + Word.size ≤ size

variable {address}

theorem Within.mono {small large : Nat} {uses : List LabelUse} (h : Within small uses)
    (le : small ≤ large) : Within large uses :=
  fun use hu => Nat.le_trans (h use hu) le

theorem patch_append_left {front : Bytes} {uses : List LabelUse} (h : Within front.size uses)
    (back : Bytes) : patch address (front ++ back) uses = patch address front uses ++ back := by
  induction uses generalizing front with
  | nil => rfl
  | cons use uses ih =>
    have huse : use.offset + Word.size ≤ front.size := h use List.mem_cons_self
    have hrest : Within front.size uses := fun other ho => h other (List.mem_cons_of_mem use ho)
    rw [patch, patch, List.foldl_cons, List.foldl_cons, Bytes.overlay_append_left huse]
    exact ih (by rwa [Bytes.size_overlay])

theorem patch_append_right (front back : Bytes) (uses : List LabelUse) :
    patch address (front ++ back) (uses.map (·.shift front.size)) =
      front ++ patch address back uses := by
  induction uses generalizing back with
  | nil => rfl
  | cons use uses ih =>
    rw [patch, patch, List.map_cons, List.foldl_cons, List.foldl_cons, LabelUse.shift,
      Bytes.overlay_append_right]
    exact ih _

end Patch

namespace Item

/-- The label operands of the item lie inside its bytes. -/
def Fits (item : Item) : Prop :=
  ∀ start, Within (item.added start).size item.uses

/-- The item with its label operands filled in. -/
def link (address : List Char → Nat) : Item → Item
  | .data bytes uses => .data (patch address bytes.toArray uses).toList []
  | item => item

variable (address : List Char → Nat) (start : Nat) (item : Item)

theorem added_link : (item.link address).added start = patch address (item.added start) item.uses := by
  cases item <;> rfl

theorem uses_link : (item.link address).uses = [] := by
  cases item <;> rfl

theorem definitions_link : (item.link address).definitions start = item.definitions start := by
  cases item <;> rfl

end Item

namespace Draft

theorem eq_of_uses_eq_nil {draft : Draft} (h : draft.uses = []) :
    draft = ⟨draft.image, draft.labels, #[]⟩ := by
  obtain ⟨image, labels, references⟩ := draft
  have hempty : references = #[] := Array.toList_eq_nil_iff.mp (List.map_eq_nil_iff.mp h)
  rw [hempty]

theorem within_ofItems {items : List Item} (h : ∀ item ∈ items, item.Fits) :
    Within (ofItems items).image.size (ofItems items).uses := by
  induction items using List.reverseRecOn with
  | nil => exact fun use hu => absurd hu List.not_mem_nil
  | append_singleton items item ih =>
    have hfront := ih fun other ho => h other (List.mem_append_left _ ho)
    have hitem : item.Fits := h item List.mem_concat_self
    intro use hu
    rw [ofItems_append_singleton, uses_add] at hu
    rw [ofItems_append_singleton, image_add, Array.size_append]
    rcases List.mem_append.mp hu with hu | hu
    · have := hfront use hu
      omega
    · obtain ⟨inner, hi, rfl⟩ := List.mem_map.mp hu
      have hinside : inner.offset + Word.size ≤ _ := hitem (ofItems items).image.size inner hi
      simp only [LabelUse.shift]
      omega

/-- Filling in the finished image comes to the same as filling in item after item. -/
theorem ofItems_link (address : List Char → Nat) {items : List Item}
    (h : ∀ item ∈ items, item.Fits) :
    ofItems (items.map (·.link address)) =
      ⟨patch address (ofItems items).image (ofItems items).uses, (ofItems items).labels, #[]⟩ := by
  induction items using List.reverseRecOn with
  | nil => rfl
  | append_singleton items item ih =>
    have hfit : ∀ other ∈ items, other.Fits := fun other ho => h other (List.mem_append_left _ ho)
    have hinside := within_ofItems hfit
    rw [List.map_append, List.map_singleton, ofItems_append_singleton, ofItems_append_singleton,
      List.length_map, ih hfit]
    generalize ofItems items = draft at hinside ⊢
    have hempty (image : Bytes) (labels : List (List Char × Nat)) :
        (add ⟨image, labels, #[]⟩ (items.length + 1) (item.link address)).1.uses = [] := by
      rw [uses_add, item.uses_link]
      rfl
    rw [eq_of_uses_eq_nil (hempty _ _), image_add, labels_add, size_patch, item.added_link,
      item.definitions_link, image_add, labels_add, uses_add, patch_append, patch_append_left hinside]
    congr 1
    rw [← size_patch address draft.image draft.uses, patch_append_right]

end Draft

/-- A label has a word if it is defined at an address that has one. -/
theorem Draft.addressWord_eq_ok {draft : Draft} {label : List Char} {word : Word} :
    draft.addressWord label = .ok word ↔
      ∃ address, draft.address? label = some address ∧ address ≤ Word.maxMagnitude ∧
        word = Word.ofMagnitude false address := by
  have hlimit : Word.maxMagnitude ≤ Int32.maxValue.toInt.toNat := by decide
  unfold addressWord
  cases draft.address? label with
  | none => simp
  | some address =>
    simp only [mapError_eq_ok, Option.some.injEq, exists_eq_left']
    by_cases hsmall : address ≤ Int32.maxValue.toInt.toNat
    · rw [if_pos hsmall, Word.encode_ofNat hsmall]
      by_cases hword : address ≤ Word.maxMagnitude
      · simp [hword, eq_comm]
      · simp [hword]
    · rw [if_neg hsmall]
      simp only [reduceCtorEq, false_iff, not_and]
      intro hword
      omega

section Resolve

variable {assembly : Assembly} {reference : Reference}

theorem resolve_of_error {rejection : Rejection}
    (h : assembly.draft.addressWord reference.label = .error rejection) :
    assembly.resolve reference = assembly.reject reference.line rejection := by
  simp only [resolve, h]

theorem resolve_of_ok {word : Word} (h : assembly.draft.addressWord reference.label = .ok word) :
    assembly.resolve reference = { assembly with draft := { assembly.draft with
      image := assembly.draft.image.overlay reference.offset word.bytes } } := by
  simp only [resolve, h]

theorem labels_resolve (assembly : Assembly) (reference : Reference) :
    (assembly.resolve reference).draft.labels = assembly.draft.labels := by
  cases h : assembly.draft.addressWord reference.label with
  | error rejection => rw [resolve_of_error h]; rfl
  | ok word => rw [resolve_of_ok h]

/-- Words of labels do not change while label operands are filled in. -/
theorem addressWord_resolve (assembly : Assembly) (reference : Reference) (label : List Char) :
    (assembly.resolve reference).draft.addressWord label = assembly.draft.addressWord label := by
  simp only [Draft.addressWord, Draft.address?, labels_resolve]

/-- Filling in leaves no diagnostic exactly if there was none and every label has a word. -/
theorem diagnostics_foldl_resolve (references : List Reference) (assembly : Assembly) :
    (references.foldl resolve assembly).diagnostics = #[] ↔
      assembly.diagnostics = #[] ∧
        ∀ reference ∈ references, ∃ word, assembly.draft.addressWord reference.label = .ok word := by
  induction references generalizing assembly with
  | nil => simp
  | cons reference references ih =>
    rw [List.foldl_cons, ih]
    simp only [addressWord_resolve, List.forall_mem_cons]
    cases h : assembly.draft.addressWord reference.label with
    | error rejection =>
      rw [resolve_of_error h]
      simp [reject]
    | ok word =>
      rw [resolve_of_ok h]
      simp

theorem image_foldl_resolve {address : List Char → Nat} (references : List Reference)
    (assembly : Assembly)
    (h : ∀ reference ∈ references, assembly.draft.addressWord reference.label =
      .ok (Word.ofMagnitude false (address reference.label))) :
    (references.foldl resolve assembly).draft.image =
      patch address assembly.draft.image (references.map Reference.use) := by
  induction references generalizing assembly with
  | nil => rfl
  | cons reference references ih =>
    obtain ⟨hfirst, hrest⟩ := List.forall_mem_cons.mp h
    have hothers := ih (assembly.resolve reference) (by simpa only [addressWord_resolve] using hrest)
    rw [List.foldl_cons, hothers, resolve_of_ok hfirst]
    rfl

end Resolve

theorem label_mem_uses_ofItems {items : List Item} {label : List Char} :
    (∃ use ∈ (Draft.ofItems items).uses, use.label = label) ↔
      ∃ item ∈ items, ∃ use ∈ item.uses, use.label = label := by
  induction items using List.reverseRecOn with
  | nil =>
    constructor
    · rintro ⟨use, hu, -⟩
      cases hu
    · rintro ⟨item, hi, -⟩
      cases hi
  | append_singleton items item ih =>
    rw [Draft.ofItems_append_singleton, Draft.uses_add]
    constructor
    · rintro ⟨use, hu, hl⟩
      rcases List.mem_append.mp hu with hu | hu
      · obtain ⟨other, ho, hrest⟩ := ih.mp ⟨use, hu, hl⟩
        exact ⟨other, List.mem_append_left _ ho, hrest⟩
      · obtain ⟨inner, hi, rfl⟩ := List.mem_map.mp hu
        exact ⟨item, List.mem_concat_self, inner, hi, hl⟩
    · rintro ⟨other, ho, inner, hi, hl⟩
      rcases List.mem_append.mp ho with ho | ho
      · obtain ⟨use, hu, hl⟩ := ih.mpr ⟨other, ho, inner, hi, hl⟩
        exact ⟨use, List.mem_append_left _ hu, hl⟩
      · obtain rfl := List.mem_singleton.mp ho
        exact ⟨_, List.mem_append_right _ (List.mem_map_of_mem hi), hl⟩

/-- The label is defined, at an address that has a word. -/
def Placed (texts : List (List Char)) (label : List Char) : Prop :=
  (∃ text ∈ texts, defines label text = true) ∧ addressOf texts label ≤ Word.maxMagnitude

theorem addressWord_ofLines {texts : List (List Char)} (h : Accepts texts) {label : List Char}
    {word : Word} :
    (ofLines texts).draft.addressWord label = .ok word ↔
      Placed texts label ∧ word = Word.ofMagnitude false (addressOf texts label) := by
  rw [Draft.addressWord_eq_ok, address?_ofLines h]
  by_cases hd : ∃ text ∈ texts, defines label text = true
  · simp [Placed, hd]
  · simp [Placed, hd]

theorem result_eq_ok {assembly : Assembly} {image : Bytes} :
    assembly.result = .ok image ↔ assembly.diagnostics = #[] ∧ assembly.draft.image = image := by
  unfold result
  by_cases h : assembly.diagnostics = #[]
  · simp [h]
  · simp [h, Array.isEmpty_iff]

/-- What it takes for a source to assemble, and the image that it then gives. -/
theorem assemble_eq_ok {source : String} {image : Bytes} {texts : List (List Char)}
    (htexts : Text.lines source.toList = texts) :
    assemble source = .ok image ↔
      Accepts texts ∧ (∀ use ∈ (ofLines texts).draft.uses, Placed texts use.label) ∧
        patch (addressOf texts) (ofLines texts).draft.image (ofLines texts).draft.uses = image := by
  have hsource : Assembly.ofSource source =
      (ofLines texts).draft.references.toList.foldl resolve (ofLines texts) := by
    rw [Array.foldl_toList, ← htexts]
    rfl
  rw [assemble, result_eq_ok, hsource, diagnostics_foldl_resolve, diagnostics_ofLines, and_assoc]
  refine and_congr_right fun haccepts => ?_
  have hplaced : (∀ reference ∈ (ofLines texts).draft.references.toList,
      ∃ word, (ofLines texts).draft.addressWord reference.label = .ok word) ↔
        ∀ use ∈ (ofLines texts).draft.uses, Placed texts use.label := by
    simp only [addressWord_ofLines haccepts, exists_and_left, exists_eq, and_true, Draft.uses,
      List.forall_mem_map, Reference.use]
  rw [hplaced]
  refine and_congr_right fun hall => ?_
  rw [image_foldl_resolve _ _ fun reference hr =>
    (addressWord_ofLines haccepts).mpr ⟨hall _ (List.mem_map_of_mem hr), rfl⟩]
  rfl

end Microcomputer.Assembly
