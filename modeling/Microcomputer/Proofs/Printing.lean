import Microcomputer.Proofs.Listings
import Microcomputer.Proofs.Substitution

/-!
# Assembling what was printed

The text of a statement is a line that is read back as the statement. So the texts of statements, one on
each line, assemble to their encodings in a row, and every statement that has none is rejected on its line.
-/
namespace Microcomputer

open Text

section Words

/-- A character of a token that gives a line no other form than that of a statement. -/
def isInner (c : Char) : Bool :=
  !isBlank c && c != '#' && c != ':' && c != '!'

theorem isInner_of_isDigit {c : Char} (h : c.isDigit = true) : isInner c = true := by
  have hne (mark : Char) (hmark : mark.isDigit = false) : (c != mark) = true :=
    bne_iff_ne.mpr (by rintro rfl; simp [hmark] at h)
  simp only [isInner, isBlank_of_isDigit h, hne '#' rfl, hne ':' rfl, hne '!' rfl, Bool.not_false,
    Bool.and_true]

theorem isBlank_of_isInner {c : Char} (h : isInner c = true) : isBlank c = false := by
  simp only [isInner, Bool.and_eq_true, Bool.not_eq_true'] at h
  exact h.1.1.1

/-- A decimal begins with a minus sign or a digit, and goes on with digits. -/
theorem decimal_eq_cons (value : Int) :
    ∃ first rest, (decimal value).toList = first :: rest ∧ (first = '-' ∨ first.isDigit = true) ∧
      ∀ c ∈ rest, c.isDigit = true := by
  cases value with
  | ofNat n =>
    obtain ⟨first, rest, hdigits⟩ := List.exists_cons_of_ne_nil (Nat.toDigits_ne_nil (n := n) (b := 10))
    have hall : ∀ c ∈ first :: rest, c.isDigit = true := hdigits ▸ Assembly.Numeral.isDigit_toDigits
    obtain ⟨hfirst, hrest⟩ := List.forall_mem_cons.mp hall
    exact ⟨first, rest, by rw [decimal, String.toList_ofList, hdigits], Or.inr hfirst, hrest⟩
  | negSucc n =>
    exact ⟨'-', _, by rw [decimal, String.toList_ofList], Or.inl rfl, Assembly.Numeral.isDigit_toDigits⟩

theorem first_of_decimal {value : Int} {c : Char} {rest : List Char}
    (h : (decimal value).toList = c :: rest) : c = '-' ∨ c.isDigit = true := by
  obtain ⟨first, others, hdecimal, hfirst, -⟩ := decimal_eq_cons value
  obtain ⟨rfl, -⟩ := List.cons.inj (h.symm.trans hdecimal)
  exact hfirst

theorem isInner_of_mem_decimal {value : Int} : ∀ c ∈ (decimal value).toList, isInner c = true := by
  obtain ⟨first, rest, hdecimal, hfirst, hrest⟩ := decimal_eq_cons value
  rw [hdecimal]
  refine List.forall_mem_cons.mpr ⟨?_, fun c hc => isInner_of_isDigit (hrest c hc)⟩
  rcases hfirst with rfl | hdigit
  · decide
  · exact isInner_of_isDigit hdigit

/-- Words with a space before each but the first are its tokens. -/
theorem tokens_spaced {first : List Char} {words : List (List Char)}
    (h : ∀ word ∈ first :: words, word ≠ [] ∧ ∀ c ∈ word, isBlank c = false) :
    tokens (first ++ words.flatMap (' ' :: ·)) = first :: words := by
  induction words generalizing first with
  | nil =>
    obtain ⟨hne, hvisible⟩ := h first List.mem_cons_self
    rw [List.flatMap_nil, List.append_nil, tokens_of_visible hvisible, word_of_ne_nil hne]
  | cons second words ih =>
    obtain ⟨⟨hne, hvisible⟩, hrest⟩ := List.forall_mem_cons.mp h
    rw [List.flatMap_cons, List.cons_append, tokens_append_cons (by decide), ih hrest,
      tokens_of_visible hvisible, word_of_ne_nil hne]
    rfl

theorem mem_of_mem_trim {text : List Char} {c : Char} (h : c ∈ trim text) : c ∈ text :=
  (List.dropWhile_sublist _).mem ((trimEnd_isPrefix _).mem h)

end Words

namespace Operand

variable (operand : Operand)

theorem isInner_of_mem_text : ∀ c ∈ operand.text.toList, isInner c = true := by
  obtain ⟨mode, payload⟩ := operand
  have hpayload : ∀ c ∈ (decimal payload.toInt).toList, isInner c = true := isInner_of_mem_decimal
  cases mode with
  | pointer => exact hpayload
  | register | registerValue | constant =>
    rw [text, String.toList_append]
    exact List.forall_mem_append.mpr ⟨List.all_eq_true.mp (by decide), hpayload⟩

theorem text_ne_nil : operand.text.toList ≠ [] := by
  obtain ⟨mode, payload⟩ := operand
  obtain ⟨first, rest, hdecimal, -⟩ := decimal_eq_cons payload.toInt
  cases mode <;> simp [text, hdecimal]

end Operand

/-- What the condition adds to a mnemonic. -/
def Condition.ending (condition : Condition) : List Char :=
  match condition.suffix? with
  | some suffix => '.' :: suffix.toList
  | none => []

namespace Statement

variable (statement : Statement)

/-- The instruction and the condition, as the text begins with them. -/
def mnemonic : List Char :=
  statement.instruction.mnemonic ++ statement.condition.ending

theorem toList_text : statement.text.toList =
    statement.mnemonic ++ (statement.operands.map (·.text.toList)).flatMap (' ' :: ·) := by
  have hoperand (operand : Operand) : (" " ++ operand.text).toList = ' ' :: operand.text.toList := by
    rw [String.toList_append]
    rfl
  rw [text, mnemonic, Condition.ending]
  cases statement.condition.suffix? with
  | none =>
    simp only [String.toList_append, String.toList_ofList, String.toList_join, List.flatMap_map, hoperand]
    rfl
  | some suffix =>
    simp only [String.toList_append, String.toList_ofList, String.toList_join, List.flatMap_map, hoperand]
    rfl

theorem isInner_of_mem_mnemonic : ∀ c ∈ statement.mnemonic, isInner c = true := by
  have hname : statement.instruction.mnemonic.all isInner = true := by
    cases statement.instruction with
    | compute operation => cases operation <;> decide
    | _ => decide
  have hending : statement.condition.ending.all isInner = true := by
    cases statement.condition <;> decide
  exact List.forall_mem_append.mpr ⟨List.all_eq_true.mp hname, List.all_eq_true.mp hending⟩

theorem mnemonic_ne_nil : statement.mnemonic ≠ [] := by
  refine List.append_ne_nil_of_left_ne_nil ?_ _
  cases statement.instruction with
  | compute operation => cases operation <;> decide
  | _ => decide

/-- All characters of the text are those of tokens, but for the spaces between them. -/
theorem isInner_of_mem_text : ∀ c ∈ statement.text.toList, isInner c = true ∨ c = ' ' := by
  rw [toList_text]
  refine List.forall_mem_append.mpr ⟨fun c hc => Or.inl (statement.isInner_of_mem_mnemonic c hc), ?_⟩
  intro c hc
  obtain ⟨word, hword, hmem⟩ := List.mem_flatMap.mp hc
  obtain ⟨operand, -, rfl⟩ := List.mem_map.mp hword
  rcases List.mem_cons.mp hmem with rfl | hmem
  · exact Or.inr rfl
  · exact Or.inl (operand.isInner_of_mem_text c hmem)

theorem tokens_text :
    tokens statement.text.toList = statement.mnemonic :: statement.operands.map (·.text.toList) := by
  rw [toList_text]
  refine tokens_spaced (List.forall_mem_cons.mpr ⟨⟨statement.mnemonic_ne_nil, ?_⟩, ?_⟩)
  · exact fun c hc => isBlank_of_isInner (statement.isInner_of_mem_mnemonic c hc)
  · intro word hword
    obtain ⟨operand, -, rfl⟩ := List.mem_map.mp hword
    exact ⟨operand.text_ne_nil, fun c hc => isBlank_of_isInner (operand.isInner_of_mem_text c hc)⟩

end Statement

namespace Assembly

theorem readInt32_payload (payload : Int32) :
    readInt32 .operand (decimal payload.toInt).toList = .ok payload := by
  have hread := readInt32_decimal .operand payload.minValue_le_toInt payload.toInt_le
  rw [hread, Int32.ofInt_toInt]

theorem readRegister_decimal (payload : Int32) :
    readRegister (decimal payload.toInt).toList = .ok ⟨.register, payload⟩ := by
  unfold readRegister
  split
  · next hdollar => exact absurd (first_of_decimal hdollar) (by decide)
  · exact bind_eq_ok.mpr ⟨payload, readInt32_payload payload, rfl⟩

/-- The text of an operand is read back as the operand. -/
theorem readSlot_text (operand : Operand) : readSlot operand.text.toList = .ok ⟨operand, none⟩ := by
  obtain ⟨mode, payload⟩ := operand
  have hread := readInt32_payload payload
  cases mode with
  | register =>
    rw [Operand.text, String.toList_append]
    exact bind_eq_ok.mpr ⟨_, readRegister_decimal payload, rfl⟩
  | registerValue =>
    rw [Operand.text, String.toList_append]
    have hregister : readRegister ('$' :: (decimal payload.toInt).toList) =
        .ok ⟨.registerValue, payload⟩ := bind_eq_ok.mpr ⟨payload, hread, rfl⟩
    exact bind_eq_ok.mpr ⟨_, hregister, rfl⟩
  | constant =>
    rw [Operand.text, String.toList_append]
    exact bind_eq_ok.mpr ⟨payload, hread, rfl⟩
  | pointer =>
    rw [Operand.text]
    unfold readSlot
    split
    · next hlabel => exact absurd (first_of_decimal hlabel) (by decide)
    · next hregister => exact absurd (first_of_decimal hregister) (by decide)
    · next hregister => exact absurd (first_of_decimal hregister) (by decide)
    · next hconstant => exact absurd (first_of_decimal hconstant) (by decide)
    · exact bind_eq_ok.mpr ⟨payload, hread, rfl⟩

section Statements

variable (statement : Statement)

/-- A name without a point is split off from an ending. -/
theorem splitMnemonic_append {name : List Char} (hname : '.' ∉ name) (condition : Condition) :
    splitMnemonic (name ++ condition.ending) = (name, condition.suffix?.map String.toList) := by
  have hpass : ∀ c ∈ name, (c != '.') = true := by
    intro c hc
    exact bne_iff_ne.mpr (by rintro rfl; exact hname hc)
  unfold splitMnemonic Condition.ending
  cases condition.suffix? with
  | none => simp [List.dropWhile_eq_nil_iff.mpr hpass]
  | some suffix =>
    rw [List.dropWhile_append_of_pos hpass, List.takeWhile_append_of_pos hpass]
    simp

theorem ofName?_mnemonic (instruction : Instruction) :
    Instruction.ofName? instruction.mnemonic = some instruction := by
  cases instruction with
  | compute operation => cases operation <;> decide
  | _ => decide

theorem point_not_mem_mnemonic (instruction : Instruction) : '.' ∉ instruction.mnemonic := by
  cases instruction with
  | compute operation => cases operation <;> decide
  | _ => decide

theorem namedBy_mnemonic : NamedBy statement.mnemonic statement.instruction statement.condition := by
  rw [NamedBy, Statement.mnemonic, splitMnemonic_append (point_not_mem_mnemonic _)]
  refine ⟨ofName?_mnemonic _, ?_⟩
  cases hsuffix : statement.condition.suffix? with
  | none =>
    cases hcondition : statement.condition with
    | always => rfl
    | _ => rw [hcondition] at hsuffix; cases hsuffix
  | some suffix =>
    simp only [Option.map_some, readCondition, String.ofList_toList,
      Condition.ofSuffix?_eq_some_iff.mpr hsuffix]

theorem slotsRead_text (operands : List Operand) :
    SlotsRead (operands.map (·.text.toList)) (operands.map (⟨·, none⟩)) := by
  induction operands with
  | nil => exact .nil
  | cons operand operands ih => exact .cons (readSlot_text operand) ih

theorem labelUses_unlabelled (index : Nat) (operands : List Operand) :
    labelUses index (operands.map (⟨·, none⟩)) = [] := by
  induction operands generalizing index with
  | nil => rfl
  | cons operand operands ih => exact ih (index + 1)

theorem readStatement_text :
    readStatement statement.mnemonic (statement.operands.map (·.text.toList)) = .ok (statement, []) := by
  refine readStatement_eq_ok.mpr ⟨namedBy_mnemonic statement, _, slotsRead_text _, ?_, ?_⟩
  · rw [List.map_map]
    exact (List.map_id statement.operands).symm
  · exact (labelUses_unlabelled 0 _).symm

/-- The text of a statement is a line with a statement on it. -/
theorem ofText_text : Line.ofText statement.text.toList =
    .statement statement.mnemonic (statement.operands.map (·.text.toList)) := by
  have hmark : ∀ c ∈ statement.text.toList, (c != '#') = true := by
    intro c hc
    refine bne_iff_ne.mpr ?_
    rintro rfl
    exact absurd (statement.isInner_of_mem_text '#' hc) (by decide)
  have hcode : Line.code statement.text.toList = trim statement.text.toList := by
    rw [Line.code, List.takeWhile_eq_self_iff.mpr hmark]
  have htokens : tokens (Line.code statement.text.toList) =
      statement.mnemonic :: statement.operands.map (·.text.toList) := by
    rw [hcode, tokens_trim, statement.tokens_text]
  have hinner : ∀ c ∈ Line.code statement.text.toList, isInner c = true ∨ c = ' ' := by
    rw [hcode]
    exact fun c hc => statement.isInner_of_mem_text c (mem_of_mem_trim hc)
  refine Line.ofCode_eq_statement htokens ?_ ?_ (namedBy_mnemonic statement).ne_label
  · exact fun hhead => absurd (hinner '!' (List.mem_of_head? hhead)) (by decide)
  · exact fun hlast => absurd (hinner ':' (List.mem_of_getLast? hlast)) (by decide)

/-- The line of a statement is read as its encoding, or is rejected if it has none. -/
theorem outcome_text : (Line.ofText statement.text.toList).read.outcome =
    match statement.encode with
    | .ok bytes => .ok (.data bytes [])
    | .error fault => .error (.unencodable fault) := by
  rw [ofText_text]
  simp only [Line.read, readStatement_text]
  cases statement.encode <;> rfl

theorem rejection?_text (draft : Draft) : rejection? draft statement.text.toList =
    match statement.encode with
    | .ok _ => none
    | .error fault => some (.unencodable fault) := by
  rw [rejection?, outcome_text]
  cases statement.encode <;> rfl

theorem uses_itemOf_text : (itemOf statement.text.toList).uses = [] := by
  rw [itemOf, outcome_text]
  cases statement.encode <;> rfl

theorem itemOf_text {statement : Statement} {bytes : List UInt8} (h : statement.encode = .ok bytes) :
    itemOf statement.text.toList = .data bytes [] := by
  rw [itemOf, outcome_text, h]

end Statements

/-- Items without label operands leave none to be filled in. -/
theorem Draft.references_ofItems {items : List Item} (h : ∀ item ∈ items, item.uses = []) :
    (ofItems items).references = #[] := by
  have huses : (ofItems items).uses = [] := by
    refine List.eq_nil_iff_forall_not_mem.mpr fun use hu => ?_
    obtain ⟨item, hi, other, ho, -⟩ := label_mem_uses_ofItems.mp ⟨use, hu, rfl⟩
    rw [h item hi] at ho
    cases ho
  rw [eq_of_uses_eq_nil huses]

/-- The image of bytes alone is those bytes in a row. -/
theorem Draft.image_ofItems_data (encodings : List (List UInt8)) :
    (ofItems (encodings.map (.data · []))).image = encodings.flatten.toArray := by
  rw [image_ofItems_of_fixed (List.forall_mem_map.mpr fun _ _ _ => rfl), List.flatMap_map,
    ← List.flatMap_id']
  rfl

end Assembly

open Assembly

namespace Statement

/-- The texts of the statements, one on each line. -/
def source (statements : List Statement) : String :=
  "\n".intercalate (statements.map text)

/-- What is said of the statements that have no encoding, each with the number of its line. -/
def rejections (statements : List Statement) : List Diagnostic :=
  (statements.zipIdx 1).filterMap fun (statement, line) =>
    match statement.encode with
    | .ok _ => none
    | .error fault => some ⟨line, .unencodable fault⟩

variable {statements : List Statement}

theorem lines_source (hne : statements ≠ []) :
    lines (source statements).toList = statements.map (·.text.toList) := by
  have htexts : (source statements).toList = unlines (statements.map (·.text.toList)) := by
    rw [source, String.toList_intercalate, List.map_map]
    rfl
  rw [htexts]
  refine lines_unlines (mt List.map_eq_nil_iff.mp hne) fun text ht hfeed => ?_
  obtain ⟨statement, -, rfl⟩ := List.mem_map.mp ht
  exact absurd (statement.isInner_of_mem_text '\n' hfeed) (by decide)

theorem diagnostics_texts (statements : List Statement) :
    (ofLines (statements.map (·.text.toList))).diagnostics.toList = rejections statements := by
  induction statements using List.reverseRecOn with
  | nil => rfl
  | append_singleton statements statement ih =>
    rw [List.map_append, List.map_singleton, ofLines_append_singleton, diagnostics_enter,
      rejection?_text, Array.toList_append, ih, rejections, rejections, List.zipIdx_append,
      List.filterMap_append, List.length_map, Nat.add_comm 1]
    cases h : statement.encode <;> simp [h]

theorem references_texts (statements : List Statement) :
    (ofLines (statements.map (·.text.toList))).draft.references = #[] := by
  rw [draft_ofLines]
  refine Draft.references_ofItems (List.forall_mem_map.mpr (List.forall_mem_map.mpr ?_))
  exact fun statement _ => uses_itemOf_text statement

theorem image_texts {encodings : List (List UInt8)} (h : EncodedAs statements encodings) :
    (ofLines (statements.map (·.text.toList))).draft.image = encodings.flatten.toArray := by
  have hitems : (statements.map (·.text.toList)).map itemOf = encodings.map (.data · []) := by
    induction h with
    | nil => rfl
    | cons hfirst _ ih =>
      rw [List.map_cons, List.map_cons, List.map_cons, itemOf_text hfirst, ih]
  rw [draft_ofLines, hitems, Draft.image_ofItems_data]

/-- What the texts of statements assemble to is known after the last line. -/
theorem assemble_source_eq (hne : statements ≠ []) :
    assemble (source statements) = (ofLines (statements.map (·.text.toList))).result := by
  rw [assemble, ofSource, lines_source hne, resolveAll, references_texts]
  rfl

theorem exists_encodedAs_iff : (∃ encodings, EncodedAs statements encodings) ↔
    ∀ statement ∈ statements, ∃ bytes, statement.encode = .ok bytes := by
  unfold EncodedAs
  induction statements with
  | nil => simp
  | cons statement statements ih =>
    rw [List.forall_mem_cons, ← ih]
    constructor
    · rintro ⟨_, _ | ⟨hfirst, hrest⟩⟩
      exact ⟨⟨_, hfirst⟩, _, hrest⟩
    · rintro ⟨⟨bytes, hfirst⟩, encodings, hrest⟩
      exact ⟨bytes :: encodings, .cons hfirst hrest⟩

theorem rejections_eq_nil_iff : rejections statements = [] ↔
    ∀ statement ∈ statements, ∃ bytes, statement.encode = .ok bytes := by
  have hnumbered : statements = (statements.zipIdx 1).map Prod.fst := (List.zipIdx_map_fst 1 _).symm
  rw [rejections, List.filterMap_eq_nil_iff]
  conv_rhs => rw [hnumbered, List.forall_mem_map]
  refine forall₂_congr fun numbered _ => ?_
  cases h : numbered.1.encode <;> simp [h]

theorem assemble_source_of_encodedAs {encodings : List (List UInt8)}
    (h : EncodedAs statements encodings) :
    assemble (source statements) = .ok encodings.flatten.toArray := by
  by_cases hne : statements = []
  · subst hne
    cases h
    decide +kernel
  · have hnone := rejections_eq_nil_iff.mpr (exists_encodedAs_iff.mp ⟨encodings, h⟩)
    rw [assemble_source_eq hne, result_eq_ok, ← Array.toList_eq_nil_iff, diagnostics_texts]
    exact ⟨hnone, image_texts h⟩

theorem assemble_source_of_rejections (h : rejections statements ≠ []) :
    assemble (source statements) = .error (rejections statements) := by
  have hne : statements ≠ [] := by
    rintro rfl
    exact h rfl
  have hsome : (ofLines (statements.map (·.text.toList))).diagnostics.isEmpty = false := by
    rw [← diagnostics_texts] at h
    simpa using h
  rw [assemble_source_eq hne, result, hsome, diagnostics_texts]
  rfl

/--
The texts of statements assemble exactly if every statement has an encoding, and then to their encodings in
a row. Otherwise every statement without an encoding, and no other, is rejected on its line, for the first
of its payloads that has no word.
-/
theorem assemble_texts (statements : List Statement) :
    (∀ image, assemble (source statements) = .ok image ↔
      ∃ encodings, EncodedAs statements encodings ∧ image = encodings.flatten.toArray) ∧
    ((∃ encodings, EncodedAs statements encodings) ↔
      ∀ statement ∈ statements, ∃ bytes, statement.encode = .ok bytes) ∧
    (∀ diagnostics, assemble (source statements) = .error diagnostics ↔
      (∃ statement ∈ statements, ∃ fault, statement.encode = .error fault) ∧
        diagnostics = rejections statements) ∧
    ∀ (statement : Statement) (fault : Fault), statement.encode = .error fault ↔ ∃ operand,
      statement.operands.find? (fun operand => 0xFFFF < operand.payload.toInt.natAbs) = some operand ∧
        fault = .numberOutOfRange operand.payload := by
  have hfails : (∃ statement ∈ statements, ∃ fault, statement.encode = .error fault) ↔
      rejections statements ≠ [] := by
    rw [Ne, rejections_eq_nil_iff, not_forall]
    refine exists_congr fun statement => ?_
    cases statement.encode <;> simp
  refine ⟨fun image => ⟨fun h => ?_, ?_⟩, exists_encodedAs_iff, fun diagnostics => ⟨fun h => ?_, ?_⟩, ?_⟩
  · have hnone : rejections statements = [] := by
      by_contra hsome
      rw [assemble_source_of_rejections hsome] at h
      cases h
    obtain ⟨encodings, hencoded⟩ := exists_encodedAs_iff.mpr (rejections_eq_nil_iff.mp hnone)
    rw [assemble_source_of_encodedAs hencoded] at h
    exact ⟨encodings, hencoded, (Except.ok.inj h).symm⟩
  · rintro ⟨encodings, hencoded, rfl⟩
    exact assemble_source_of_encodedAs hencoded
  · have hsome : rejections statements ≠ [] := by
      intro hnone
      obtain ⟨encodings, hencoded⟩ := exists_encodedAs_iff.mpr (rejections_eq_nil_iff.mp hnone)
      rw [assemble_source_of_encodedAs hencoded] at h
      cases h
    rw [assemble_source_of_rejections hsome] at h
    exact ⟨hfails.mpr hsome, (Except.error.inj h).symm⟩
  · rintro ⟨hsome, rfl⟩
    exact assemble_source_of_rejections (hfails.mp hsome)
  · intro statement fault
    rw [← offending?_eq]
    exact encode_eq_error

example : source [⟨.compute .add, .notLess, [⟨.register, 0⟩, ⟨.constant, 3⟩, ⟨.registerValue, -1⟩], rfl⟩,
    ⟨.stop, .always, [], rfl⟩] = "add.nl R0 =3 R$-1\nend" := by decide +kernel

end Statement

end Microcomputer
