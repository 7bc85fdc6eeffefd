import Mathlib.Data.List.Induction
import Mathlib.Data.List.TakeWhile
import Microcomputer.Assembly
import Microcomputer.Proofs.Reading

/-!
# Drafts line by line

What a line adds depends on the image so far and on nothing else, and it is rejected or not by the draft
of the lines before it. No diagnostic is on record exactly if no line was rejected.
-/
namespace Microcomputer.Assembly

namespace Item

/-- What the item adds to an image of `start` bytes. -/
def added (start : Nat) : Item → Bytes
  | .data bytes _ => bytes.toArray
  | .padding address => Array.replicate (address - start) 0
  | .nothing | .label _ => #[]

def uses : Item → List LabelUse
  | .data _ uses => uses
  | _ => []

/-- The label that the item defines, with its address. -/
def definitions (start : Nat) : Item → List (List Char × Nat)
  | .label name => [(name, start)]
  | _ => []

end Item

/-- A label operand moved along by `start` bytes. -/
def LabelUse.shift (start : Nat) (use : LabelUse) : LabelUse :=
  ⟨start + use.offset, use.label⟩

def Reference.use (reference : Reference) : LabelUse :=
  ⟨reference.offset, reference.label⟩

namespace Draft

/-- The label operands that are still to be filled in. -/
def uses (draft : Draft) : List LabelUse :=
  draft.references.toList.map Reference.use

variable (draft : Draft) (line : Nat) (item : Item)

theorem image_add : (draft.add line item).1.image = draft.image ++ item.added draft.image.size := by
  cases item with
  | nothing | label name => exact Array.append_empty.symm
  | data bytes uses => exact Array.ext' (by simp [add, Item.added])
  | padding address =>
    by_cases h : address < draft.image.size
    · have hz : address - draft.image.size = 0 := by omega
      simp only [add, h, ↓reduceIte, Item.added, hz, Array.replicate_zero, Array.append_empty]
    · simp only [add, h, ↓reduceIte, Item.added]

theorem labels_add :
    (draft.add line item).1.labels = item.definitions draft.image.size ++ draft.labels := by
  cases item with
  | padding address => by_cases h : address < draft.image.size <;> simp [add, h, Item.definitions]
  | _ => rfl

theorem uses_add :
    (draft.add line item).1.uses = draft.uses ++ item.uses.map (·.shift draft.image.size) := by
  cases item with
  | nothing | label name => exact (List.append_nil _).symm
  | data bytes uses =>
    simp only [add, Draft.uses, Item.uses, Array.toList_appendList, List.map_append, List.map_map]
    rfl
  | padding address => by_cases h : address < draft.image.size <;> simp [add, h, Draft.uses, Item.uses]

/-- Whether an item is rejected depends on the size of the image and on the labels alone. -/
theorem rejection_add_congr {draft other : Draft} {line number : Nat} {item changed : Item}
    (hsize : draft.image.size = other.image.size) (hlabels : draft.labels = other.labels)
    (hitem : item = changed ∨ ∃ a b c d, item = .data a b ∧ changed = .data c d) :
    (draft.add line item).2.2 = (other.add number changed).2.2 := by
  obtain ⟨image, labels, references⟩ := draft
  obtain ⟨image', labels', references'⟩ := other
  obtain rfl : labels = labels' := hlabels
  rcases hitem with rfl | ⟨a, b, c, d, rfl, rfl⟩
  · cases item with
    | padding address =>
      simp only at hsize
      simp only [add, hsize]
      by_cases h : address < image'.size <;> simp only [h, ↓reduceIte]
    | _ => rfl
  · rfl

/-- The draft of items taken in one after another, on lines counted from one. -/
def ofItems (items : List Item) : Draft :=
  (items.zipIdx 1).foldl (fun draft numbered => (draft.add numbered.2 numbered.1).1) empty

theorem ofItems_append_singleton (items : List Item) (item : Item) :
    ofItems (items ++ [item]) = ((ofItems items).add (items.length + 1) item).1 := by
  simp only [ofItems, List.zipIdx_append, List.foldl_append, List.zipIdx_cons, List.zipIdx_nil,
    List.foldl_cons, List.foldl_nil, Nat.add_comm 1]

/-- Later items only add to the end of the image. -/
theorem image_ofItems_append (front back : List Item) :
    ∃ rest, (ofItems (front ++ back)).image = (ofItems front).image ++ rest := by
  induction back using List.reverseRecOn with
  | nil => exact ⟨#[], by rw [List.append_nil, Array.append_empty]⟩
  | append_singleton back item ih =>
    obtain ⟨rest, h⟩ := ih
    rw [← List.append_assoc, ofItems_append_singleton, image_add, h, Array.append_assoc]
    exact ⟨_, rfl⟩

/-- The image of items that add the same wherever they are taken in is what they add, in a row. -/
theorem image_ofItems_of_fixed {items : List Item}
    (h : ∀ item ∈ items, ∀ start, item.added start = item.added 0) :
    (ofItems items).image = (items.flatMap fun item => (item.added 0).toList).toArray := by
  induction items using List.reverseRecOn with
  | nil => rfl
  | append_singleton items item ih =>
    have hfront := ih fun other ho => h other (List.mem_append_left _ ho)
    rw [ofItems_append_singleton, image_add, h item List.mem_concat_self, hfront, List.flatMap_append,
      List.flatMap_singleton, ← List.append_toArray]

/-- The bytes of an item stand in the image where the item was taken in. -/
theorem window_ofItems {items front back : List Item} {bytes : List UInt8} {uses : List LabelUse}
    (h : items = front ++ [.data bytes uses] ++ back) :
    (ofItems front).image.size + bytes.length ≤ (ofItems items).image.size ∧
      (ofItems items).image.window (ofItems front).image.size bytes.length = bytes := by
  obtain ⟨rest, hrest⟩ := image_ofItems_append (front ++ [.data bytes uses]) back
  rw [ofItems_append_singleton, image_add] at hrest
  rw [h, hrest]
  refine ⟨?_, Bytes.window_append _ bytes rest⟩
  simp only [Item.added, Array.size_append, List.size_toArray]
  omega

end Draft

/-- What a line adds; one that cannot be read adds nothing. -/
def itemOf (text : List Char) : Item :=
  match (Line.ofText text).read.outcome with
  | .ok item => item
  | .error _ => .nothing

/-- Why a line is rejected by itself, after lines that left `draft`. -/
def rejection? (draft : Draft) (text : List Char) : Option Rejection :=
  match (Line.ofText text).read.outcome with
  | .error rejection => some rejection
  | .ok item => (draft.add 0 item).2.2

theorem itemOf_of_ok {text : List Char} {item : Item}
    (h : (Line.ofText text).read.outcome = .ok item) : itemOf text = item := by
  simp only [itemOf, h]

theorem rejection?_of_ok {draft : Draft} {text : List Char} {item : Item}
    (h : (Line.ofText text).read.outcome = .ok item) :
    rejection? draft text = (draft.add 0 item).2.2 := by
  simp only [rejection?, h]

/-- A line that is not rejected could be read. -/
theorem outcome_of_rejection?_eq_none {draft : Draft} {text : List Char}
    (h : rejection? draft text = none) : (Line.ofText text).read.outcome = .ok (itemOf text) := by
  cases ho : (Line.ofText text).read.outcome with
  | error rejection => simp [rejection?, ho] at h
  | ok item => rw [itemOf_of_ok ho]

section Enter

variable (assembly : Assembly) (text : List Char) (line : Nat)

theorem draft_enter :
    (assembly.enter (text, line)).draft = (assembly.draft.add line (itemOf text)).1 := by
  cases ho : (Line.ofText text).read.outcome with
  | error rejection =>
    simp only [enter, ho, itemOf]
    rfl
  | ok item =>
    rw [itemOf_of_ok ho]
    cases hr : (assembly.draft.add line item).2.2 <;> simp only [enter, ho, report, hr, reject]

/-- A line leaves at most one diagnostic, its rejection. -/
theorem diagnostics_enter :
    (assembly.enter (text, line)).diagnostics =
      assembly.diagnostics ++ (rejection? assembly.draft text).toArray.map (Diagnostic.mk line) := by
  cases ho : (Line.ofText text).read.outcome with
  | error rejection =>
    simp [enter, ho, rejection?, report, reject]
  | ok item =>
    have hr : (assembly.draft.add 0 item).2.2 = (assembly.draft.add line item).2.2 :=
      Draft.rejection_add_congr rfl rfl (Or.inl rfl)
    rw [rejection?_of_ok ho, hr]
    cases hr : (assembly.draft.add line item).2.2 <;>
      simp [enter, ho, report, hr, reject]

end Enter

theorem ofLines_append_singleton (texts : List (List Char)) (text : List Char) :
    ofLines (texts ++ [text]) = (ofLines texts).enter (text, texts.length + 1) := by
  simp only [ofLines, List.zipIdx_append, List.foldl_append, List.zipIdx_cons, List.zipIdx_nil,
    List.foldl_cons, List.foldl_nil, Nat.add_comm 1]

theorem draft_ofLines (texts : List (List Char)) :
    (ofLines texts).draft = Draft.ofItems (texts.map itemOf) := by
  induction texts using List.reverseRecOn with
  | nil => rfl
  | append_singleton texts text ih =>
    rw [ofLines_append_singleton, draft_enter, List.map_append, List.map_singleton,
      Draft.ofItems_append_singleton, List.length_map, ih]

/-- No line is rejected by itself. -/
def Accepts (texts : List (List Char)) : Prop :=
  ∀ before text after, texts = before ++ text :: after →
    rejection? (ofLines before).draft text = none

theorem accepts_append_singleton {texts : List (List Char)} {text : List Char} :
    Accepts (texts ++ [text]) ↔ Accepts texts ∧ rejection? (ofLines texts).draft text = none := by
  constructor
  · intro h
    refine ⟨fun before other after he => h before other (after ++ [text]) ?_, h texts text [] rfl⟩
    rw [he, List.append_assoc]
    rfl
  · rintro ⟨hall, hlast⟩ before other after he
    rcases List.eq_nil_or_concat after with rfl | ⟨rest, last, rfl⟩
    · obtain ⟨rfl, hsame⟩ := List.append_inj' he rfl
      obtain rfl : text = other := List.head_eq_of_cons_eq hsame
      exact hlast
    · refine hall before other rest ?_
      rw [List.concat_eq_append, ← List.cons_append, ← List.append_assoc] at he
      exact (List.append_inj' he rfl).1

theorem Accepts.of_append {front back : List (List Char)} (h : Accepts (front ++ back)) :
    Accepts front := by
  intro before text after he
  exact h before text (after ++ back) (by rw [he, List.append_assoc, List.cons_append])

/-- No diagnostic is on record after the last line exactly if no line was rejected. -/
theorem diagnostics_ofLines {texts : List (List Char)} :
    (ofLines texts).diagnostics = #[] ↔ Accepts texts := by
  induction texts using List.reverseRecOn with
  | nil =>
    refine ⟨fun _ before text after he => ?_, fun _ => rfl⟩
    exact absurd he.symm (by simp)
  | append_singleton texts text ih =>
    rw [ofLines_append_singleton, diagnostics_enter, accepts_append_singleton, ← ih]
    cases rejection? (ofLines texts).draft text <;> simp

section Labels

/-- The line gives the next byte of the image a name. -/
def defines (name text : List Char) : Bool :=
  Line.ofText text = .label name

/-- The length of the image before the first line that defines the label. -/
def addressOf (texts : List (List Char)) (name : List Char) : Nat :=
  (ofLines (texts.takeWhile fun text => !defines name text)).draft.image.size

theorem addressOf_append_of_defined {texts : List (List Char)} {name : List Char}
    (h : ∃ text ∈ texts, defines name text = true) (rest : List (List Char)) :
    addressOf (texts ++ rest) name = addressOf texts name := by
  have hstop : (texts.takeWhile fun text => !defines name text).length ≠ texts.length := by
    intro hlength
    obtain ⟨text, ht, hd⟩ := h
    have hfront := List.takeWhile_prefix (l := texts) fun text => !defines name text
    have hall := List.takeWhile_eq_self_iff.mp (hfront.eq_of_length hlength) text ht
    simp [hd] at hall
  rw [addressOf, addressOf, List.takeWhile_append, if_neg hstop]

theorem addressOf_append_of_undefined {texts : List (List Char)} {name text : List Char}
    (h : ∀ other ∈ texts, defines name other = false) (ht : defines name text = true) :
    addressOf (texts ++ [text]) name = (ofLines texts).draft.image.size := by
  rw [addressOf, List.takeWhile_append_of_pos (by simpa using h)]
  simp [ht]

theorem lookup_definitions {text : List Char} (name : List Char) (start : Nat)
    (h : (Line.ofText text).Reads (itemOf text)) :
    ((itemOf text).definitions start).lookup name =
      if defines name text = true then some start else none := by
  generalize itemOf text = item at h ⊢
  unfold defines
  generalize Line.ofText text = line at h ⊢
  cases h with
  | label other =>
    by_cases hn : name = other
    · simp [Item.definitions, hn]
    · have hb : (name == other) = false := beq_eq_false_iff_ne.mpr hn
      simp [Item.definitions, List.lookup_cons, hb, Ne.symm hn]
  | _ => simp [Item.definitions]

/-- A definition that is not rejected is the first of its label. -/
theorem address?_eq_none_of_defines {draft : Draft} {name text : List Char}
    (h : rejection? draft text = none) (hd : defines name text = true) : draft.address? name = none := by
  have hread := outcome_of_rejection?_eq_none h
  have hreads := Line.reads_of_outcome hread
  have hline : Line.ofText text = .label name := of_decide_eq_true hd
  have hitem : itemOf text = .label name := by
    rw [hline] at hreads
    generalize itemOf text = item at hreads
    cases hreads
    rfl
  rw [rejection?_of_ok hread, hitem] at h
  cases hl : draft.labels.lookup name with
  | none => exact hl
  | some address => simp [Draft.add, hl] at h

/-- While no line is rejected, the labels are those defined, at the addresses of their first definitions. -/
theorem address?_ofLines {texts : List (List Char)} (h : Accepts texts) (name : List Char) :
    (ofLines texts).draft.address? name =
      if ∃ text ∈ texts, defines name text = true then some (addressOf texts name) else none := by
  induction texts using List.reverseRecOn with
  | nil => rfl
  | append_singleton texts text ih =>
    obtain ⟨hall, hlast⟩ := accepts_append_singleton.mp h
    have hread := Line.reads_of_outcome (outcome_of_rejection?_eq_none hlast)
    have hlookup := lookup_definitions name (ofLines texts).draft.image.size hread
    rw [ofLines_append_singleton, draft_enter, Draft.address?, Draft.labels_add, List.lookup_append,
      hlookup]
    by_cases hd : defines name text = true
    · have hfresh := address?_eq_none_of_defines hlast hd
      have hundefined : ∀ other ∈ texts, defines name other = false := by
        intro other ho
        rw [ih hall] at hfresh
        by_contra hdefined
        rw [if_pos ⟨other, ho, by simpa using hdefined⟩] at hfresh
        cases hfresh
      rw [if_pos hd, if_pos ⟨text, List.mem_concat_self, hd⟩,
        addressOf_append_of_undefined hundefined hd]
      rfl
    · have hsame : (∃ other ∈ texts ++ [text], defines name other = true) ↔
          ∃ other ∈ texts, defines name other = true := by
        simp [hd]
      rw [if_neg hd, Option.none_or]
      refine (ih hall).trans ?_
      by_cases hdefined : ∃ other ∈ texts, defines name other = true
      · rw [if_pos hdefined, if_pos (hsame.mpr hdefined), addressOf_append_of_defined hdefined]
      · rw [if_neg hdefined, if_neg (fun h => hdefined (hsame.mp h))]

end Labels

end Microcomputer.Assembly
