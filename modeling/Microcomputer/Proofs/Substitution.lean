import Microcomputer.Proofs.Numerals
import Microcomputer.Proofs.Slots

/-!
# Writing addresses in place of labels

A source in which every label operand is replaced by the address of its label as a constant assembles to
the same image. So the order in which labels are defined and used makes no difference but to the work.
-/
namespace Microcomputer.Assembly

open Text

section Sorting

variable {text mnemonic : List Char} {operands : List (List Char)}

theorem Line.ofWords_eq_statement :
    ofWords text = .statement mnemonic operands ↔ tokens text = mnemonic :: operands := by
  unfold ofWords
  cases tokens text with
  | nil => simp
  | cons first rest => simp

theorem Line.ofColon_ne_statement : ofColon text ≠ .statement mnemonic operands := by
  unfold ofColon
  split
  · split <;> simp
  · simp

/-- How a line looks that was sorted as a statement. -/
theorem Line.of_ofCode_eq_statement (h : ofCode text = .statement mnemonic operands) :
    tokens text = mnemonic :: operands ∧ text.head? ≠ some '!' ∧ text.getLast? ≠ some ':' := by
  unfold ofCode at h
  split at h
  · cases h
  · cases h
  · cases h
  · next hempty hnumber hbyte =>
    have hhead : text.head? ≠ some '!' := by
      intro hc
      obtain ⟨rest, rfl⟩ := List.head?_eq_some_iff.mp hc
      exact hbyte rest rfl
    by_cases hlast : text.getLast? = some ':'
    · rw [if_pos hlast] at h
      exact absurd h ofColon_ne_statement
    · rw [if_neg hlast] at h
      split at h
      · cases h
      · exact ⟨ofWords_eq_statement.mp h, hhead, hlast⟩

theorem Line.ofCode_eq_statement (htokens : tokens text = mnemonic :: operands)
    (hhead : text.head? ≠ some '!') (hlast : text.getLast? ≠ some ':')
    (hname : mnemonic ≠ ['l', 'b', 'l']) : ofCode text = .statement mnemonic operands := by
  have hlabel (rest : List Char) : tokens ('l' :: 'b' :: 'l' :: ' ' :: rest) = ['l', 'b', 'l'] :: _ :=
    tokens_append_cons (by decide) ['l', 'b', 'l'] rest
  unfold ofCode
  split
  · cases htokens
  · exact absurd rfl hhead
  · exact absurd rfl hhead
  · rw [if_neg hlast]
    split
    · exact absurd (List.head_eq_of_cons_eq (htokens.symm.trans (hlabel _))) hname
    · exact ofWords_eq_statement.mpr htokens

end Sorting

/-- A label operand as the constant of its label's address. -/
def linkToken (address : List Char → Nat) : List Char → List Char
  | '@' :: label => '=' :: (decimal (address label)).toList
  | token => token

/-- The line with the addresses of labels in its operands, if it is a statement; comments stay. -/
def linkText (address : List Char → Nat) (text : List Char) : List Char :=
  match Line.ofText text with
  | .statement .. =>
    mapOperands (linkToken address) (text.takeWhile (· != '#')) ++ text.dropWhile (· != '#')
  | _ => text

/-- The source with every label operand replaced by the address of its label. -/
def linkSource (source : String) : String :=
  let texts := lines source.toList
  String.ofList (unlines (texts.map (linkText (addressOf texts))))

section Tokens

variable (address : List Char → Nat)

theorem mem_decimal {n : Nat} : ∀ c ∈ (decimal n).toList, c.isDigit = true := by
  rw [show decimal n = String.ofList (Nat.toDigits 10 n) from rfl, String.toList_ofList]
  exact Numeral.isDigit_toDigits

/-- The new characters are an equals sign and digits. -/
theorem forall_linkToken {p : Char → Prop} (heq : p '=') (hdigit : ∀ c, c.isDigit = true → p c) :
    ∀ token, (∀ c ∈ token, p c) → ∀ c ∈ linkToken address token, p c := by
  intro token h
  unfold linkToken
  split
  · exact List.forall_mem_cons.mpr ⟨heq, fun c hc => hdigit c (mem_decimal c hc)⟩
  · exact h

theorem linkToken_keepsTokens : KeepsTokens (linkToken address) := by
  intro token hne h
  refine ⟨?_, forall_linkToken address (by decide) (fun c => isBlank_of_isDigit) token h⟩
  unfold linkToken
  split
  · exact List.cons_ne_nil _ _
  · exact hne

/-- No token comes to end in a colon. -/
theorem getLast?_linkToken {token : List Char} (h : token.getLast? ≠ some ':') :
    (linkToken address token).getLast? ≠ some ':' := by
  unfold linkToken
  split
  · next label =>
    intro hlast
    have hmem := List.mem_of_getLast? hlast
    rcases List.mem_cons.mp hmem with hc | hc
    · exact absurd hc (by decide)
    · exact absurd (mem_decimal ':' hc) (by decide)
  · exact h

end Tokens

section Lines

variable {address : List Char → Nat} {text mnemonic : List Char} {operands : List (List Char)}

/-- A mnemonic that names an instruction is not the word that defines a label. -/
theorem NamedBy.ne_label {instruction : Instruction} {condition : Condition}
    (h : NamedBy mnemonic instruction condition) : mnemonic ≠ ['l', 'b', 'l'] := by
  rintro rfl
  obtain ⟨hname, -⟩ := h
  have hnone : Instruction.ofName? (splitMnemonic ['l', 'b', 'l']).1 = none := by decide
  rw [hnone] at hname
  cases hname

/-- The part of a line before its comment is linked, and the comment stays. -/
theorem code_linkText (h : Line.ofText text = .statement mnemonic operands) :
    Line.code (linkText address text) =
      trim (mapOperands (linkToken address) (text.takeWhile (· != '#'))) := by
  have hcode : ∀ c ∈ mapOperands (linkToken address) (text.takeWhile (· != '#')), (c != '#') = true := by
    refine forall_mapOperands (forall_linkToken address (by decide) ?_) ?_
    · intro c hc
      exact bne_iff_ne.mpr (by rintro rfl; exact absurd hc (by decide))
    · exact fun c hc => List.mem_takeWhile_imp (p := (· != '#')) hc
  have hcomment : (text.dropWhile (· != '#')).takeWhile (· != '#') = [] := by
    have hmark := List.head?_dropWhile_not (· != '#') text
    cases hd : text.dropWhile (· != '#') with
    | nil => rfl
    | cons c rest =>
      rw [hd] at hmark
      exact List.takeWhile_cons_of_neg (by simpa using hmark)
  rw [linkText, h, Line.code]
  simp only
  rw [List.takeWhile_append_of_pos hcode, hcomment, List.append_nil]

theorem ofText_linkText (h : Line.ofText text = .statement mnemonic operands)
    (hname : mnemonic ≠ ['l', 'b', 'l']) :
    Line.ofText (linkText address text) = .statement mnemonic (operands.map (linkToken address)) := by
  obtain ⟨htokens, hhead, hlast⟩ := Line.of_ofCode_eq_statement h
  have hlinked : tokens (Line.code (linkText address text)) =
      mnemonic :: operands.map (linkToken address) := by
    rw [Line.code, tokens_trim] at htokens
    rw [code_linkText h, tokens_trim, tokens_mapOperands (linkToken_keepsTokens address) htokens]
  have hbefore : Trimmed (Line.code text) := trimmed_trim _
  have hafter : Trimmed (Line.code (linkText address text)) := trimmed_trim _
  refine Line.ofCode_eq_statement hlinked ?_ ?_ hname
  · rw [hafter.head?_eq hlinked, ← hbefore.head?_eq htokens]
    exact hhead
  · rcases List.eq_nil_or_concat operands with rfl | ⟨front, last, rfl⟩
    · have hone : tokens (Line.code text) = [] ++ [mnemonic] := htokens
      have hsame : tokens (Line.code (linkText address text)) = [] ++ [mnemonic] := hlinked
      rw [hafter.getLast?_eq hsame, ← hbefore.getLast?_eq hone]
      exact hlast
    · rw [List.concat_eq_append, ← List.cons_append] at htokens
      rw [List.concat_eq_append, List.map_append, List.map_singleton, ← List.cons_append] at hlinked
      rw [hbefore.getLast?_eq htokens] at hlast
      rw [hafter.getLast?_eq hlinked]
      exact getLast?_linkToken address hlast

/-- A line that is no statement stays as it is. -/
theorem linkText_of_ne (h : ∀ mnemonic operands, Line.ofText text ≠ .statement mnemonic operands) :
    linkText address text = text := by
  unfold linkText
  split
  · next heq => exact absurd heq (h _ _)
  · rfl

/-- No line comes to hold a line feed. -/
theorem not_mem_linkText (h : '\n' ∉ text) : '\n' ∉ linkText address text := by
  have hall : ∀ c ∈ text, c ≠ '\n' := fun c hc he => h (he ▸ hc)
  have hlinked : ∀ c ∈ linkText address text, c ≠ '\n' := by
    unfold linkText
    split
    · refine List.forall_mem_append.mpr ⟨?_, fun c hc => hall c ((List.dropWhile_sublist _).mem hc)⟩
      refine forall_mapOperands (forall_linkToken address (by decide) ?_) ?_
      · rintro c hc rfl
        exact absurd hc (by decide)
      · exact fun c hc => hall c ((List.takeWhile_sublist _).mem hc)
    · exact hall
  exact fun hc => hlinked '\n' hc rfl

end Lines

section Statements

variable {address : List Char → Nat}

theorem readInt32_decimal (use : NumberUse) {value : Int} (hlow : Int32.minValue.toInt ≤ value)
    (hhigh : value ≤ Int32.maxValue.toInt) :
    readInt32 use (decimal value).toList = .ok (Int32.ofInt value) := by
  have hmin : Int32.minValue.toInt = -2147483648 := rfl
  have hmax : Int32.maxValue.toInt = 2147483647 := rfl
  have hlimit : Int64.maxValue.toInt = 9223372036854775807 := rfl
  have hwide : (value.natAbs : Int) ≤ Int64.maxValue.toInt := by omega
  have hvalue : (Int64.ofInt value).toInt = value := Int64.toInt_ofInt_of_le (by omega) (by omega)
  simp only [readInt32, readNumber, Numeral.read_decimal hwide, hvalue, hlow, hhigh, and_self,
    ↓reduceIte]
  rfl

/-- A linked token is read as the slot with the address in it. -/
theorem readSlot_linkToken {token : List Char} {slot : Slot} (h : readSlot token = .ok slot)
    (hreach : slot.Reachable address) :
    readSlot (linkToken address token) = .ok (slot.link address) := by
  unfold linkToken
  split
  · next label =>
    obtain rfl := Except.ok.inj h
    have hsmall : address label ≤ Word.maxMagnitude := hreach label rfl
    have hmax : Int32.maxValue.toInt = 2147483647 := rfl
    have hlimit : Word.maxMagnitude = 65535 := rfl
    have hvalue : readInt32 .operand (decimal (address label)).toList =
        .ok (Int32.ofInt (address label)) :=
      readInt32_decimal .operand (Int.le_trans (by decide) (Int.natCast_nonneg _)) (by omega)
    exact bind_eq_ok.mpr ⟨_, hvalue, rfl⟩
  · next hlabel =>
    rw [h]
    congr 1
    unfold readSlot at h
    split at h
    · next label => exact absurd rfl (hlabel label)
    all_goals
      obtain ⟨operand, -, hlast⟩ := bind_eq_ok.mp h
      obtain rfl := Except.ok.inj hlast
      rfl

theorem SlotsRead.link {operands : List (List Char)} {slots : List Slot}
    (h : SlotsRead operands slots) (hreach : ∀ slot ∈ slots, slot.Reachable address) :
    SlotsRead (operands.map (linkToken address)) (slots.map (·.link address)) := by
  induction h with
  | nil => exact List.Forall₂.nil
  | cons hslot _ ih =>
    obtain ⟨hfirst, hrest⟩ := List.forall_mem_cons.mp hreach
    exact List.Forall₂.cons (readSlot_linkToken hslot hfirst) (ih hrest)

theorem reachable_of_labelUses {index : Nat} {slots : List Slot}
    (h : ∀ use ∈ labelUses index slots, address use.label ≤ Word.maxMagnitude) :
    ∀ slot ∈ slots, slot.Reachable address := by
  intro slot hs label hl
  obtain ⟨use, hu, rfl⟩ := mem_labelUses.mpr ⟨slot, hs, hl⟩
  exact h use hu

/-- A statement that was read with labels is read, once they are linked, with their addresses in it. -/
theorem exists_linked {mnemonic : List Char} {operands : List (List Char)} {built : Statement}
    {uses : List LabelUse} {bytes : List UInt8}
    (hread : readStatement mnemonic operands = .ok (built, uses)) (hencode : built.encode = .ok bytes)
    (hreach : ∀ use ∈ uses, address use.label ≤ Word.maxMagnitude) :
    ∃ linked slots, readStatement mnemonic (operands.map (linkToken address)) = .ok (linked, []) ∧
      linked.encode = .ok (patch address bytes.toArray uses).toList ∧
      SlotsRead operands slots ∧ uses = labelUses 0 slots ∧
      linked.operands = (slots.map (·.link address)).map (·.operand) := by
  obtain ⟨hnamed, slots, hslots, hoperands, rfl⟩ := readStatement_eq_ok.mp hread
  have hslotsReach := reachable_of_labelUses hreach
  obtain ⟨linked, hinstruction, hcondition, hlinked, hbytes⟩ :=
    encode_link hoperands hslots.pending hslotsReach hencode
  rw [← hinstruction, ← hcondition] at hnamed
  refine ⟨linked, slots, ?_, hbytes, hslots, rfl, hlinked⟩
  refine readStatement_eq_ok.mpr ⟨hnamed, _, hslots.link hslotsReach, hlinked, ?_⟩
  exact (labelUses_link address 0 slots).symm

/-- A linked line reads as the linked item. -/
theorem outcome_linkText {text : List Char} {item : Item}
    (h : (Line.ofText text).read.outcome = .ok item)
    (hreach : ∀ use ∈ item.uses, address use.label ≤ Word.maxMagnitude) :
    (Line.ofText (linkText address text)).read.outcome = .ok (item.link address) := by
  have hreads := Line.reads_of_outcome h
  cases hl : Line.ofText text with
  | statement mnemonic operands =>
    rw [hl] at hreads
    cases hreads with
    | statement hread hencode =>
      obtain ⟨linked, slots, hlinked, hbytes, -⟩ := exists_linked hread hencode hreach
      have hname := (readStatement_eq_ok.mp hread).1.ne_label
      rw [ofText_linkText hl hname]
      exact Line.outcome_of_statement hlinked hbytes
  | _ =>
    rw [linkText_of_ne (by simp [hl]), h]
    rw [hl] at hreads
    cases hreads
    rfl

end Statements

section Sources

variable {address : List Char → Nat} {texts : List (List Char)}

/-- The labels of every line lie at addresses that have words. -/
def Reaches (address : List Char → Nat) (texts : List (List Char)) : Prop :=
  ∀ text ∈ texts, ∀ use ∈ (itemOf text).uses, address use.label ≤ Word.maxMagnitude

theorem Accepts.outcome (h : Accepts texts) {text : List Char} (ht : text ∈ texts) :
    (Line.ofText text).read.outcome = .ok (itemOf text) := by
  obtain ⟨before, after, rfl⟩ := List.append_of_mem ht
  exact outcome_of_rejection?_eq_none (h before text after rfl)

theorem Accepts.fits (h : Accepts texts) : ∀ item ∈ texts.map itemOf, item.Fits := by
  intro item hi
  obtain ⟨text, ht, rfl⟩ := List.mem_map.mp hi
  exact (Line.reads_of_outcome (h.outcome ht)).fits

/-- Linking the lines and filling in the finished image give the same draft. -/
theorem draft_linkText (h : Accepts texts) (hreach : Reaches address texts) :
    (ofLines (texts.map (linkText address))).draft =
      ⟨patch address (ofLines texts).draft.image (ofLines texts).draft.uses,
        (ofLines texts).draft.labels, #[]⟩ := by
  have hitems : (texts.map (linkText address)).map itemOf =
      (texts.map itemOf).map (·.link address) := by
    rw [List.map_map, List.map_map]
    refine List.map_congr_left fun text ht => ?_
    exact itemOf_of_ok (outcome_linkText (h.outcome ht) (hreach text ht))
  rw [draft_ofLines, hitems, Draft.ofItems_link address h.fits, ← draft_ofLines]

theorem accepts_linkText (h : Accepts texts) (hreach : Reaches address texts) :
    Accepts (texts.map (linkText address)) := by
  induction texts using List.reverseRecOn with
  | nil => exact h
  | append_singleton texts text ih =>
    obtain ⟨hall, hlast⟩ := accepts_append_singleton.mp h
    have hreachAll : Reaches address texts := fun other ho => hreach other (List.mem_append_left _ ho)
    have hread := outcome_of_rejection?_eq_none hlast
    have hlinked := outcome_linkText hread (hreach text List.mem_concat_self)
    rw [List.map_append, List.map_singleton, accepts_append_singleton]
    refine ⟨ih hall hreachAll, ?_⟩
    rw [rejection?_of_ok hread] at hlast
    rw [rejection?_of_ok hlinked, draft_linkText hall hreachAll, ← hlast]
    refine Draft.rejection_add_congr (size_patch _ _ _) rfl ?_
    cases itemOf text with
    | data bytes uses => exact Or.inr ⟨_, _, _, _, rfl, rfl⟩
    | _ => exact Or.inl rfl

/-- The operand tokens of the statement in a line. -/
def operandsOf (text : List Char) : List (List Char) :=
  match Line.ofText text with
  | .statement _ operands => operands
  | _ => []

theorem readSlot_label {token : List Char} {slot : Slot} (h : readSlot token = .ok slot)
    {label : List Char} : slot.label? = some label ↔ token = '@' :: label := by
  unfold readSlot at h
  split at h
  · obtain rfl := Except.ok.inj h
    simp
  all_goals
    obtain ⟨operand, -, hlast⟩ := bind_eq_ok.mp h
    obtain rfl := Except.ok.inj hlast
    simp_all

theorem SlotsRead.label {operands : List (List Char)} {slots : List Slot} (h : SlotsRead operands slots)
    {label : List Char} : (∃ slot ∈ slots, slot.label? = some label) ↔ '@' :: label ∈ operands := by
  induction h with
  | nil => simp
  | cons hslot _ ih => simp [ih, readSlot_label hslot, eq_comm]

/-- The label operands of a line are those written in its statement. -/
theorem label_mem_uses {text : List Char} {item : Item}
    (h : (Line.ofText text).Reads item) {label : List Char} :
    (∃ use ∈ item.uses, use.label = label) ↔ '@' :: label ∈ operandsOf text := by
  unfold operandsOf
  generalize Line.ofText text = line at h ⊢
  cases h with
  | statement hread hencode =>
    obtain ⟨-, slots, hslots, -, rfl⟩ := readStatement_eq_ok.mp hread
    exact mem_labelUses.trans hslots.label
  | _ => simp [Item.uses]

theorem lines_linkSource (source : String) :
    lines (linkSource source).toList =
      (lines source.toList).map (linkText (addressOf (lines source.toList))) := by
  have hne : (lines source.toList).map (linkText (addressOf (lines source.toList))) ≠ [] :=
    mt List.map_eq_nil_iff.mp (split_ne_nil _ source.toList)
  rw [linkSource, String.toList_ofList]
  refine lines_unlines hne fun text ht => ?_
  obtain ⟨line, hl, rfl⟩ := List.mem_map.mp ht
  exact not_mem_linkText (not_mem_of_mem_lines hl)

/-- Every label operand of an accepted source is placed if those of its draft are. -/
theorem placed_iff (h : Accepts texts) :
    (∀ use ∈ (ofLines texts).draft.uses, Placed texts use.label) ↔
      ∀ text ∈ texts, ∀ label, '@' :: label ∈ operandsOf text → Placed texts label := by
  have hmem {label : List Char} : (∃ use ∈ (ofLines texts).draft.uses, use.label = label) ↔
      ∃ text ∈ texts, '@' :: label ∈ operandsOf text := by
    rw [draft_ofLines, label_mem_uses_ofItems]
    simp only [List.mem_map, exists_exists_and_eq_and]
    refine exists_congr fun text => and_congr_right fun ht => ?_
    exact label_mem_uses (Line.reads_of_outcome (h.outcome ht))
  constructor
  · intro hall text ht label hl
    obtain ⟨use, hu, rfl⟩ := hmem.mpr ⟨text, ht, hl⟩
    exact hall use hu
  · intro hall use hu
    obtain ⟨text, ht, hl⟩ := hmem.mp ⟨use, hu, rfl⟩
    exact hall text ht use.label hl

/-- What is known of the lines of a source that assembles to an image. -/
structure Assembled (texts : List (List Char)) (image : Bytes) : Prop where
  accepts : Accepts texts
  reaches : Reaches (addressOf texts) texts
  patched : patch (addressOf texts) (ofLines texts).draft.image (ofLines texts).draft.uses = image

theorem assembled_of_assemble {source : String} {image : Bytes} (h : assemble source = .ok image) :
    Assembled (lines source.toList) image := by
  obtain ⟨haccepts, hplaced, hpatch⟩ := (assemble_eq_ok rfl).mp h
  refine ⟨haccepts, fun text ht use hu => ?_, hpatch⟩
  have hreads := Line.reads_of_outcome (haccepts.outcome ht)
  have hlabel := (label_mem_uses hreads).mp ⟨use, hu, rfl⟩
  exact ((placed_iff haccepts).mp hplaced text ht use.label hlabel).2

/--
Writing its address in place of every label operand leaves the image of a source as it is, and a source
assembles exactly if no line is rejected by itself and every label that an operand names is defined at an
address that has a word.
-/
theorem assemble_linkSource (source : String) :
    (∀ image, assemble source = .ok image → assemble (linkSource source) = .ok image) ∧
    ((∃ image, assemble source = .ok image) ↔
      Accepts (lines source.toList) ∧
      ∀ text ∈ lines source.toList, ∀ label, '@' :: label ∈ operandsOf text →
        (∃ definition ∈ lines source.toList, Line.ofText definition = .label label) ∧
          addressOf (lines source.toList) label ≤ 0xFFFF) := by
  generalize htexts : lines source.toList = texts
  constructor
  · intro image himage
    obtain ⟨haccepts, hreach, hpatch⟩ := htexts ▸ assembled_of_assemble himage
    have hdraft := draft_linkText haccepts hreach
    refine (assemble_eq_ok (htexts ▸ lines_linkSource source)).mpr
      ⟨accepts_linkText haccepts hreach, ?_, ?_⟩
    · rw [hdraft]
      exact fun use hu => absurd hu List.not_mem_nil
    · rw [hdraft, ← hpatch]
      rfl
  · simp only [assemble_eq_ok htexts, exists_and_left, exists_eq', and_true]
    refine and_congr_right fun haccepts => (placed_iff haccepts).trans ?_
    simp only [Placed, defines, decide_eq_true_eq]
    rfl

example : linkSource "brn.ne\t@x # to @x\nx:" = "brn.ne\t=7 # to @x\nx:" := by decide +kernel

/-- A branch over a byte to a label that is defined behind it. -/
def forward : String :=
  "brn @x\n! 7\nx: # here"

/-- The linked source has the same image, and the label has a line of its own and an address with a word. -/
theorem assemble_linkSource_forward :
    assemble forward = .ok #[0x0D, 0, 3, 0, 0, 0, 8, 7] ∧
      assemble (linkSource forward) = .ok #[0x0D, 0, 3, 0, 0, 0, 8, 7] ∧
      (∃ definition ∈ lines forward.toList, Line.ofText definition = .label ['x']) ∧
      addressOf (lines forward.toList) ['x'] ≤ 0xFFFF := by
  have himage : assemble forward = .ok #[0x0D, 0, 3, 0, 0, 0, 8, 7] := by decide +kernel
  have hline : "brn @x".toList ∈ lines forward.toList := by decide +kernel
  have hoperand : ['@', 'x'] ∈ operandsOf "brn @x".toList := by decide +kernel
  obtain ⟨hlinked, hassembles⟩ := assemble_linkSource forward
  obtain ⟨-, hlabels⟩ := hassembles.mp ⟨_, himage⟩
  exact ⟨himage, hlinked _ himage, hlabels _ hline ['x'] hoperand⟩

end Sources

end Microcomputer.Assembly
