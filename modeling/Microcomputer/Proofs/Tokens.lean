import Mathlib.Data.List.Induction
import Mathlib.Data.List.TakeWhile
import Microcomputer.Text.Blank

/-!
# Tokens and trimmed text

Blanks separate tokens and do nothing else, so a text has the tokens of its parts on both sides of a
blank, and those of what is left when it is trimmed.
-/
namespace Microcomputer.Text

section Split

variable {separates : Char → Bool}

theorem split_ne_nil (separates : Char → Bool) (text : List Char) : split separates text ≠ [] := by
  cases text with
  | nil => exact List.cons_ne_nil [] []
  | cons c text =>
    simp only [split, List.foldr_cons]
    split
    · exact List.cons_ne_nil _ _
    · split <;> exact List.cons_ne_nil _ _

theorem split_cons_of_separates {c : Char} (h : separates c = true) (text : List Char) :
    split separates (c :: text) = [] :: split separates text := by
  simp only [split, List.foldr_cons, h, ↓reduceIte]

theorem split_cons_of_not_separates {c : Char} (h : separates c = false) {text piece : List Char}
    {rest : List (List Char)} (ht : split separates text = piece :: rest) :
    split separates (c :: text) = (c :: piece) :: rest := by
  unfold split at ht ⊢
  rw [List.foldr_cons, ht, h]
  rfl

/-- A separator splits a text into its two sides. -/
theorem split_append_cons {c : Char} (h : separates c = true) (front back : List Char) :
    split separates (front ++ c :: back) = split separates front ++ split separates back := by
  induction front with
  | nil => exact split_cons_of_separates h back
  | cons d front ih =>
    rw [List.cons_append]
    cases hd : separates d with
    | true => rw [split_cons_of_separates hd, split_cons_of_separates hd, ih, List.cons_append]
    | false =>
      obtain ⟨piece, rest, hp⟩ := List.exists_cons_of_ne_nil (split_ne_nil separates front)
      rw [split_cons_of_not_separates hd hp]
      rw [hp] at ih
      exact split_cons_of_not_separates hd ih

theorem split_of_not_separates {text : List Char} (h : ∀ c ∈ text, separates c = false) :
    split separates text = [text] := by
  induction text with
  | nil => rfl
  | cons c text ih =>
    obtain ⟨hc, ht⟩ := List.forall_mem_cons.mp h
    exact split_cons_of_not_separates hc (ih ht)

/-- The last character goes to the last piece, if it does not separate. -/
theorem split_concat {c : Char} (h : separates c = false) (text : List Char) :
    ∃ front piece, split separates text = front ++ [piece] ∧
      split separates (text ++ [c]) = front ++ [piece ++ [c]] := by
  induction text with
  | nil => exact ⟨[], [], rfl, split_cons_of_not_separates h rfl⟩
  | cons d text ih =>
    obtain ⟨front, piece, ht, hc⟩ := ih
    cases hd : separates d with
    | true =>
      refine ⟨[] :: front, piece, ?_, ?_⟩
      · rw [split_cons_of_separates hd, ht]
        rfl
      · rw [List.cons_append, split_cons_of_separates hd, hc]
        rfl
    | false =>
      cases front with
      | nil =>
        exact ⟨[], d :: piece, split_cons_of_not_separates hd ht, split_cons_of_not_separates hd hc⟩
      | cons first front =>
        exact ⟨(d :: first) :: front, piece, split_cons_of_not_separates hd ht,
          split_cons_of_not_separates hd hc⟩

/-- No piece holds a separator. -/
theorem not_separates_of_mem_split {text piece : List Char} (h : piece ∈ split separates text) :
    ∀ c ∈ piece, separates c = false := by
  induction text generalizing piece with
  | nil =>
    obtain rfl : piece = [] := List.mem_singleton.mp h
    exact fun c hc => absurd hc List.not_mem_nil
  | cons d text ih =>
    cases hd : separates d with
    | true =>
      rw [split_cons_of_separates hd] at h
      rcases List.mem_cons.mp h with rfl | h
      · exact fun c hc => absurd hc List.not_mem_nil
      · exact ih h
    | false =>
      obtain ⟨first, rest, hp⟩ := List.exists_cons_of_ne_nil (split_ne_nil separates text)
      rw [split_cons_of_not_separates hd hp] at h
      rcases List.mem_cons.mp h with rfl | h
      · exact List.forall_mem_cons.mpr ⟨hd, ih (hp ▸ List.mem_cons_self)⟩
      · exact ih (hp ▸ List.mem_cons_of_mem _ h)

end Split

section Lines

/-- The lines in one text, with a line feed between any two of them. -/
def unlines (texts : List (List Char)) : List Char :=
  ['\n'].intercalate texts

theorem lines_unlines {texts : List (List Char)} (hne : texts ≠ []) (h : ∀ text ∈ texts, '\n' ∉ text) :
    lines (unlines texts) = texts := by
  have hline {text : List Char} (ht : '\n' ∉ text) : lines text = [text] := by
    refine split_of_not_separates fun c hc => ?_
    exact beq_false_of_ne fun he => ht (he ▸ hc)
  induction texts with
  | nil => exact absurd rfl hne
  | cons text texts ih =>
    obtain ⟨ht, hrest⟩ := List.forall_mem_cons.mp h
    cases texts with
    | nil =>
      rw [unlines, List.intercalate_singleton]
      exact hline ht
    | cons next texts =>
      have hsplit : lines (text ++ '\n' :: unlines (next :: texts)) =
          lines text ++ lines (unlines (next :: texts)) := split_append_cons rfl text _
      rw [ih (List.cons_ne_nil _ _) hrest, hline ht] at hsplit
      rw [unlines, List.intercalate_cons_cons, List.append_assoc]
      exact hsplit

theorem not_mem_of_mem_lines {text line : List Char} (h : line ∈ lines text) : '\n' ∉ line := by
  intro hc
  have hfeed := not_separates_of_mem_split h '\n' hc
  exact absurd hfeed (by decide)

end Lines

section Tokens

/-- The text as a token, unless it is empty. -/
def word (text : List Char) : List (List Char) :=
  [text].filter fun piece => !piece.isEmpty

theorem word_of_ne_nil {text : List Char} (h : text ≠ []) : word text = [text] := by
  cases text with
  | nil => exact absurd rfl h
  | cons c text => rfl

theorem tokens_append_cons {c : Char} (h : isBlank c = true) (front back : List Char) :
    tokens (front ++ c :: back) = tokens front ++ tokens back := by
  rw [tokens, split_append_cons h, List.filter_append]
  rfl

theorem tokens_cons_of_blank {c : Char} (h : isBlank c = true) (text : List Char) :
    tokens (c :: text) = tokens text :=
  tokens_append_cons h [] text

theorem tokens_concat_of_blank {c : Char} (h : isBlank c = true) (text : List Char) :
    tokens (text ++ [c]) = tokens text :=
  (tokens_append_cons h text []).trans (List.append_nil _)

theorem tokens_of_visible {text : List Char} (h : ∀ c ∈ text, isBlank c = false) :
    tokens text = word text := by
  rw [tokens, split_of_not_separates h]
  rfl

theorem tokens_cons_of_visible {c : Char} (h : isBlank c = false) (text : List Char) :
    ∃ run rest, tokens (c :: text) = (c :: run) :: rest := by
  obtain ⟨piece, rest, hp⟩ := List.exists_cons_of_ne_nil (split_ne_nil isBlank text)
  exact ⟨piece, _, by rw [tokens, split_cons_of_not_separates h hp]; rfl⟩

theorem tokens_concat_of_visible {c : Char} (h : isBlank c = false) (text : List Char) :
    ∃ front run, tokens text = front ++ word run ∧ tokens (text ++ [c]) = front ++ [run ++ [c]] := by
  obtain ⟨front, run, ht, hc⟩ := split_concat h text
  refine ⟨front.filter fun piece => !piece.isEmpty, run, ?_, ?_⟩
  · rw [tokens, ht, List.filter_append]
    rfl
  · rw [tokens, hc, List.filter_append]
    cases run <;> rfl

end Tokens

section Trim

theorem trimStart_cons_of_blank {c : Char} (h : isBlank c = true) (text : List Char) :
    trimStart (c :: text) = trimStart text :=
  List.dropWhile_cons_of_pos h

theorem trimStart_cons_of_visible {c : Char} (h : isBlank c = false) (text : List Char) :
    trimStart (c :: text) = c :: text :=
  List.dropWhile_cons_of_neg (by simp [h])

theorem trimEnd_concat_of_blank {c : Char} (h : isBlank c = true) (text : List Char) :
    trimEnd (text ++ [c]) = trimEnd text := by
  rw [trimEnd, trimEnd, List.reverse_concat, List.dropWhile_cons_of_pos h]

theorem trimEnd_concat_of_visible {c : Char} (h : isBlank c = false) (text : List Char) :
    trimEnd (text ++ [c]) = text ++ [c] := by
  rw [trimEnd, List.reverse_concat, List.dropWhile_cons_of_neg (by simp [h]), List.reverse_cons,
    List.reverse_reverse]

theorem tokens_trimStart (text : List Char) : tokens (trimStart text) = tokens text := by
  induction text with
  | nil => rfl
  | cons c text ih =>
    cases h : isBlank c with
    | true => rw [trimStart_cons_of_blank h, tokens_cons_of_blank h, ih]
    | false => rw [trimStart_cons_of_visible h]

theorem tokens_trimEnd (text : List Char) : tokens (trimEnd text) = tokens text := by
  induction text using List.reverseRecOn with
  | nil => rfl
  | append_singleton text c ih =>
    cases h : isBlank c with
    | true => rw [trimEnd_concat_of_blank h, tokens_concat_of_blank h, ih]
    | false => rw [trimEnd_concat_of_visible h]

@[simp]
theorem tokens_trim (text : List Char) : tokens (trim text) = tokens text := by
  rw [trim, tokens_trimEnd, tokens_trimStart]

/-- No blank at either end. -/
structure Trimmed (text : List Char) : Prop where
  first : ∀ c rest, text = c :: rest → isBlank c = false
  last : ∀ front c, text = front ++ [c] → isBlank c = false

theorem trimStart_first {text rest : List Char} {c : Char} (h : trimStart text = c :: rest) :
    isBlank c = false := by
  have hfirst := List.head?_dropWhile_not isBlank text
  rw [show text.dropWhile isBlank = c :: rest from h] at hfirst
  exact hfirst

theorem trimEnd_isPrefix (text : List Char) : trimEnd text <+: text := by
  have h := List.dropWhile_suffix (l := text.reverse) isBlank
  rwa [← List.reverse_prefix, List.reverse_reverse] at h

theorem trimmed_trim (text : List Char) : Trimmed (trim text) := by
  constructor
  · intro c rest h
    obtain ⟨back, hb⟩ := trimEnd_isPrefix (trimStart text)
    rw [show trimEnd (trimStart text) = c :: rest from h] at hb
    exact trimStart_first hb.symm
  · intro front c h
    have hlast := congrArg List.reverse h
    rw [trim, trimEnd, List.reverse_reverse, List.reverse_concat] at hlast
    exact trimStart_first hlast

theorem trim_of_trimmed {text : List Char} (h : Trimmed text) : trim text = text := by
  have hstart : trimStart text = text := by
    cases text with
    | nil => rfl
    | cons c rest => exact trimStart_cons_of_visible (h.first c rest rfl) rest
  rw [trim, hstart]
  rcases List.eq_nil_or_concat text with rfl | ⟨front, c, rfl⟩
  · rfl
  · rw [List.concat_eq_append] at h ⊢
    exact trimEnd_concat_of_visible (h.last front c rfl) front

theorem trimmed_of_visible {text : List Char} (h : ∀ c ∈ text, isBlank c = false) : Trimmed text := by
  constructor
  · rintro c rest rfl
    exact h c List.mem_cons_self
  · rintro front c rfl
    exact h c List.mem_concat_self

/-- The first character of a trimmed text is that of its first token. -/
theorem Trimmed.head?_eq {text first : List Char} {rest : List (List Char)} (h : Trimmed text)
    (ht : tokens text = first :: rest) : text.head? = first.head? := by
  cases text with
  | nil => cases ht
  | cons c text =>
    obtain ⟨run, others, hr⟩ := tokens_cons_of_visible (h.first c text rfl) text
    rw [hr] at ht
    obtain ⟨rfl, -⟩ := List.cons.inj ht
    rfl

/-- The last character of a trimmed text is that of its last token. -/
theorem Trimmed.getLast?_eq {text last : List Char} {front : List (List Char)} (h : Trimmed text)
    (ht : tokens text = front ++ [last]) : text.getLast? = last.getLast? := by
  rcases List.eq_nil_or_concat text with rfl | ⟨body, c, rfl⟩
  · exact absurd ht.symm (by simp [tokens, split])
  · rw [List.concat_eq_append] at h ht ⊢
    obtain ⟨others, run, -, hr⟩ := tokens_concat_of_visible (h.last body c rfl) body
    rw [hr] at ht
    obtain rfl := List.head_eq_of_cons_eq (List.append_inj' ht rfl).2
    rw [List.getLast?_concat, List.getLast?_concat]

end Trim

section Map

/-- Replaces each token where it stands; `run` is the part of the current one that was passed already. -/
def mapTokens (f : List Char → List Char) : (run text : List Char) → List Char
  | run, [] => (word run).flatMap f
  | run, c :: text =>
    if isBlank c then (word run).flatMap f ++ c :: mapTokens f [] text
    else mapTokens f (run ++ [c]) text

/-- Replaces each token but the first. -/
def mapOperands (f : List Char → List Char) (text : List Char) : List Char :=
  let body := trimStart text
  text.takeWhile isBlank ++ body.takeWhile (!isBlank ·) ++ mapTokens f [] (body.dropWhile (!isBlank ·))

/-- Tokens stay tokens. -/
def KeepsTokens (f : List Char → List Char) : Prop :=
  ∀ token, token ≠ [] → (∀ c ∈ token, isBlank c = false) → f token ≠ [] ∧ ∀ c ∈ f token, isBlank c = false

variable {f : List Char → List Char}

theorem tokens_flatMap_word (hf : KeepsTokens f) {run : List Char} (h : ∀ c ∈ run, isBlank c = false) :
    tokens ((word run).flatMap f) = (tokens run).map f := by
  rw [tokens_of_visible h]
  by_cases hr : run = []
  · subst hr
    rfl
  · obtain ⟨hne, hvisible⟩ := hf run hr h
    rw [word_of_ne_nil hr, List.flatMap_singleton, tokens_of_visible hvisible, word_of_ne_nil hne]
    rfl

theorem tokens_mapTokens (hf : KeepsTokens f) (text : List Char) {run : List Char}
    (h : ∀ c ∈ run, isBlank c = false) :
    tokens (mapTokens f run text) = (tokens (run ++ text)).map f := by
  induction text generalizing run with
  | nil => rw [mapTokens, List.append_nil, tokens_flatMap_word hf h]
  | cons c text ih =>
    cases hc : isBlank c with
    | true =>
      have hrest : tokens (mapTokens f [] text) = (tokens text).map f :=
        ih fun d hd => absurd hd List.not_mem_nil
      rw [mapTokens, if_pos hc, tokens_append_cons hc, tokens_append_cons hc, tokens_flatMap_word hf h,
        hrest, List.map_append]
    | false =>
      have hrun : ∀ d ∈ run ++ [c], isBlank d = false := by
        intro d hd
        rcases List.mem_append.mp hd with hd | hd
        · exact h d hd
        · rw [List.mem_singleton.mp hd, hc]
      rw [mapTokens, if_neg (by simp [hc]), ih hrun, List.append_assoc, List.singleton_append]

theorem forall_mapTokens {p : Char → Prop} (hf : ∀ token, (∀ c ∈ token, p c) → ∀ c ∈ f token, p c)
    {text run : List Char} (hrun : ∀ c ∈ run, p c) (htext : ∀ c ∈ text, p c) :
    ∀ c ∈ mapTokens f run text, p c := by
  have hword {run : List Char} (hrun : ∀ c ∈ run, p c) : ∀ c ∈ (word run).flatMap f, p c := by
    intro c hc
    obtain ⟨token, ht, hmem⟩ := List.mem_flatMap.mp hc
    obtain rfl : token = run := List.mem_singleton.mp (List.mem_filter.mp ht).1
    exact hf token hrun c hmem
  induction text generalizing run with
  | nil => exact hword hrun
  | cons d text ih =>
    obtain ⟨hd, htext⟩ := List.forall_mem_cons.mp htext
    rw [mapTokens]
    split
    · have hnone : ∀ c ∈ ([] : List Char), p c := fun c hc => absurd hc List.not_mem_nil
      exact List.forall_mem_append.mpr ⟨hword hrun, List.forall_mem_cons.mpr ⟨hd, ih hnone htext⟩⟩
    · exact ih (List.forall_mem_append.mpr ⟨hrun, List.forall_mem_singleton.mpr hd⟩) htext

theorem forall_mapOperands {p : Char → Prop} (hf : ∀ token, (∀ c ∈ token, p c) → ∀ c ∈ f token, p c)
    {text : List Char} (h : ∀ c ∈ text, p c) : ∀ c ∈ mapOperands f text, p c := by
  have hbody : ∀ c ∈ trimStart text, p c := fun c hc => h c ((List.dropWhile_sublist _).mem hc)
  refine List.forall_mem_append.mpr ⟨List.forall_mem_append.mpr ⟨?_, ?_⟩, forall_mapTokens hf ?_ ?_⟩
  · exact fun c hc => h c ((List.takeWhile_sublist _).mem hc)
  · exact fun c hc => hbody c ((List.takeWhile_sublist _).mem hc)
  · exact fun c hc => absurd hc List.not_mem_nil
  · exact fun c hc => hbody c ((List.dropWhile_sublist _).mem hc)

theorem tokens_append_of_blanks {lead : List Char} (h : ∀ c ∈ lead, isBlank c = true)
    (text : List Char) : tokens (lead ++ text) = tokens text := by
  induction lead with
  | nil => rfl
  | cons c lead ih =>
    obtain ⟨hc, hlead⟩ := List.forall_mem_cons.mp h
    rw [List.cons_append, tokens_cons_of_blank hc, ih hlead]

/-- A run of visible characters is the first token of a text that goes on with a blank. -/
theorem tokens_append_of_run {run text : List Char} (hrun : ∀ c ∈ run, isBlank c = false)
    (htext : ∀ c rest, text = c :: rest → isBlank c = true) :
    tokens (run ++ text) = word run ++ tokens text := by
  cases text with
  | nil => rw [List.append_nil, tokens_of_visible hrun]; exact (List.append_nil _).symm
  | cons c rest =>
    have hc := htext c rest rfl
    rw [tokens_append_cons hc, tokens_of_visible hrun, tokens_cons_of_blank hc]

theorem tokens_mapOperands (hf : KeepsTokens f) {text first : List Char} {rest : List (List Char)}
    (h : tokens text = first :: rest) : tokens (mapOperands f text) = first :: rest.map f := by
  have hlead : ∀ c ∈ text.takeWhile isBlank, isBlank c = true := fun c hc => List.mem_takeWhile_imp hc
  have hstart : ∀ c back, trimStart text = c :: back → isBlank c = false := fun c back => trimStart_first
  rw [← tokens_trimStart] at h
  rw [mapOperands, List.append_assoc, tokens_append_of_blanks hlead]
  generalize trimStart text = body at h hstart
  have hrun : ∀ c ∈ body.takeWhile (!isBlank ·), isBlank c = false := by
    intro c hc
    simpa using List.mem_takeWhile_imp hc
  have htail : ∀ c back, body.dropWhile (!isBlank ·) = c :: back → isBlank c = true := by
    intro c back hb
    have hfirst := List.head?_dropWhile_not (!isBlank ·) body
    rw [hb] at hfirst
    simpa using hfirst
  have hne : body.takeWhile (!isBlank ·) ≠ [] := by
    intro hempty
    cases body with
    | nil => cases h
    | cons c back => simp [hstart c back rfl] at hempty
  rw [← List.takeWhile_append_dropWhile (p := (!isBlank ·)) (l := body),
    tokens_append_of_run hrun htail, word_of_ne_nil hne] at h
  obtain ⟨rfl, rfl⟩ := List.cons.inj h
  generalize body.dropWhile (!isBlank ·) = tail at htail
  have hmapped : ∀ c back, mapTokens f [] tail = c :: back → isBlank c = true := by
    intro c back hm
    cases tail with
    | nil => cases hm
    | cons d tail =>
      have hd := htail d tail rfl
      rw [mapTokens, if_pos hd] at hm
      obtain ⟨rfl, -⟩ := List.cons.inj hm
      exact hd
  have hnone : ∀ c ∈ ([] : List Char), isBlank c = false := fun c hc => absurd hc List.not_mem_nil
  rw [tokens_append_of_run hrun hmapped, word_of_ne_nil hne, tokens_mapTokens hf tail hnone]
  rfl

end Map

end Microcomputer.Text
