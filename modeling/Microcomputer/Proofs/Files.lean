import Microcomputer.FileSystem
import Microcomputer.Proofs.Codec

/-!
# Files before and after a write

A write replaces what one file holds, or creates it, and does nothing else: paths lead where they led, and a
path that leads elsewhere reads as before.
-/
namespace Microcomputer

namespace FileSystem

/-- Both paths lead to one place. -/
def Same (files : FileSystem) (path other : String) : Prop :=
  ∃ place, files.locate path = .ok place ∧ files.locate other = .ok place

/-- The path leads to `place`, where there is a file of `bytes` that the host opens for reading. -/
structure Holds (files : FileSystem) (path : String) (place : Location) (bytes : Bytes) : Prop where
  leads : files.locate path = .ok place
  short : place.hasLongName = false
  node : files.node? place = some (.file bytes)
  plain : asksDirectory path = false
  opens : files.openFor .read place = .ok ()

variable {files : FileSystem} {path : String} {place : Location} {bytes : Bytes}

theorem look_of_short (h : place.hasLongName = false) : files.look place = .ok (files.node? place) := by
  rw [look, h]
  rfl

theorem look_eq_ok {node : Option Node} :
    files.look place = .ok node ↔ place.hasLongName = false ∧ files.node? place = node := by
  cases h : place.hasLongName <;> simp [look, h]

theorem look_put_of_ne {other : Location} {node : Node} (h : other ≠ place) :
    (files.put place node).look other = files.look other := by
  rw [look, look, node?_put_of_ne h]

theorem Holds.read (h : files.Holds path place bytes) : files.read path = .ok bytes := by
  simp only [FileSystem.read, h.leads, look_of_short h.short, h.node, h.plain, h.opens, bind_of_ok rfl]
  rfl

/-- A file that a path leads to is read unless the host refuses. -/
theorem read_of_leads (leads : files.locate path = .ok place) (short : place.hasLongName = false)
    (node : files.node? place = some (.file bytes)) (plain : asksDirectory path = false) :
    files.read path =
      match files.refusal? .read place with
      | some refusal => .error (.refused refusal)
      | none => .ok bytes := by
  simp only [FileSystem.read, leads, look_of_short short, node, plain, bind_of_ok rfl, Bool.false_eq_true,
    ↓reduceIte, openFor]
  cases files.refusal? .read place <;> rfl

theorem holds_of_read (h : files.read path = .ok bytes) : ∃ place, files.Holds path place bytes := by
  obtain ⟨place, hleads, h⟩ := bind_eq_ok.mp h
  obtain ⟨node, hlook, h⟩ := bind_eq_ok.mp h
  obtain ⟨hshort, hnode⟩ := look_eq_ok.mp hlook
  -- Only the branch of a file that is opened answers with bytes.
  match node with
  | none => cases h
  | some .directory => cases h
  | some (.file found) =>
    cases hplain : asksDirectory path with
    | true => simp [hplain] at h
    | false =>
      simp only [hplain, Bool.false_eq_true, ↓reduceIte] at h
      obtain ⟨⟨⟩, hopens, hbytes⟩ := bind_eq_ok.mp h
      cases hbytes
      exact ⟨place, hleads, hshort, hnode, hplain, hopens⟩

theorem read_eq_ok : files.read path = .ok bytes ↔ ∃ place, files.Holds path place bytes :=
  ⟨holds_of_read, fun ⟨_, h⟩ => h.read⟩

section Put

variable {old : Bytes} (file : files.node? place = some (.file old)) (new : Bytes)

include file

/-- A file is no directory, whatever it holds. -/
theorem enter_put_file : (files.put place (.file new)).enter = files.enter := by
  funext location name
  by_cases hp : location = place
  · subst hp
    simp only [enter, look, node?_put_self, file]
    split <;> rfl
  · rw [enter, enter, look_put_of_ne hp]

theorem locate_put_file (path : String) : (files.put place (.file new)).locate path = files.locate path := by
  rw [locate, locate, enter_put_file file]

theorem read_put_file_of_not_leads {other : String} (h : files.locate other ≠ .ok place) :
    (files.put place (.file new)).read other = files.read other := by
  rw [read, read, locate_put_file file]
  cases hl : files.locate other with
  | error cause => rfl
  | ok location =>
    have hne : location ≠ place := by
      rintro rfl
      exact h hl
    simp only [bind_of_ok rfl, look_put_of_ne hne]
    rfl

end Put

theorem Holds.put (h : files.Holds path place bytes) (new : Bytes) :
    (files.put place (.file new)).Holds path place new where
  leads := by rw [locate_put_file h.node, h.leads]
  short := h.short
  node := node?_put_self ..
  plain := h.plain
  opens := h.opens

/-- Writing to a file that can be read fails only if the host refuses. -/
theorem Holds.write (h : files.Holds path place bytes) (new : Bytes) :
    files.write path new =
      match files.refusal? .write place with
      | some refusal => .error (.refused refusal)
      | none => .ok (files.put place (.file new)) := by
  simp only [FileSystem.write, h.leads, h.plain, look_of_short h.short, h.node, bind_of_ok rfl,
    Bool.false_eq_true, ↓reduceIte, openFor]
  cases files.refusal? .write place <;> rfl

/-- The path leads to `place`, where there is no directory and the host opens a file for writing. -/
structure Takes (files : FileSystem) (path : String) (place : Location) : Prop where
  leads : files.locate path = .ok place
  short : place.hasLongName = false
  free : files.node? place ≠ some .directory
  plain : asksDirectory path = false
  opens : files.openFor .write place = .ok ()

theorem takes_of_write {later : FileSystem} (h : files.write path bytes = .ok later) :
    ∃ place, files.Takes path place ∧ later = files.put place (.file bytes) := by
  obtain ⟨place, hleads, h⟩ := bind_eq_ok.mp h
  cases hplain : asksDirectory path with
  | true => simp [hplain] at h
  | false =>
    simp only [hplain, Bool.false_eq_true, ↓reduceIte] at h
    obtain ⟨node, hlook, h⟩ := bind_eq_ok.mp h
    obtain ⟨hshort, hnode⟩ := look_eq_ok.mp hlook
    -- A file is opened for writing whether it is there or not.
    match node with
    | some .directory => cases h
    | some (.file _) | none =>
      obtain ⟨⟨⟩, hopens, hlater⟩ := bind_eq_ok.mp h
      exact ⟨place, ⟨hleads, hshort, by simp [hnode], hplain, hopens⟩, (Except.ok.inj hlater).symm⟩

/-- A walk leads to the same place if each of its steps does. -/
theorem foldlM_eq_ok_congr {ε α β : Type} {walk walk' : α → β → Except ε α}
    (h : ∀ start step next, walk start step = .ok next ↔ walk' start step = .ok next)
    (steps : List β) (start final : α) :
    steps.foldlM walk start = .ok final ↔ steps.foldlM walk' start = .ok final := by
  induction steps generalizing start with
  | nil => exact Iff.rfl
  | cons step steps ih => simp only [List.foldlM_cons, bind_eq_ok, h, ih]

theorem directory_of_enter {location inner : Location} {name : List Char}
    (h : files.enter location name = .ok inner) : files.node? location = some .directory := by
  obtain ⟨node, hlook, h⟩ := bind_eq_ok.mp h
  obtain ⟨-, hnode⟩ := look_eq_ok.mp hlook
  match node with
  | none => cases h
  | some (.file _) => cases h
  | some .directory => exact hnode

section Lay

variable (free : files.node? place ≠ some .directory) (new : Bytes)

include free

/-- Nothing is reached through a file, and nothing was reached through what was there before. -/
theorem enter_put_eq_ok (location : Location) (name : List Char) (inner : Location) :
    (files.put place (.file new)).enter location name = .ok inner ↔
      files.enter location name = .ok inner := by
  by_cases hp : location = place
  · subst hp
    constructor
    · intro h
      have hdirectory := directory_of_enter h
      rw [node?_put_self] at hdirectory
      cases hdirectory
    · exact fun h => absurd (directory_of_enter h) free
  · rw [enter, enter, look_put_of_ne hp]

theorem locate_put_eq_ok {location : Location} :
    (files.put place (.file new)).locate path = .ok location ↔ files.locate path = .ok location := by
  unfold locate
  split
  · exact Iff.rfl
  · split
    · exact Iff.rfl
    · split
      · exact Iff.rfl
      · exact foldlM_eq_ok_congr (enter_put_eq_ok free new) ..

/-- A file that the path does not lead to reads as before. -/
theorem read_put_eq_ok (h : files.locate path ≠ .ok place) :
    (files.put place (.file new)).read path = .ok bytes ↔ files.read path = .ok bytes := by
  rw [read_eq_ok, read_eq_ok]
  refine exists_congr fun location => ?_
  have hleads : (files.put place (.file new)).locate path = .ok location ↔
      files.locate path = .ok location := locate_put_eq_ok free new
  constructor
  · rintro ⟨hl, hshort, hnode, hplain, hopens⟩
    have hne : location ≠ place := fun heq => h (heq ▸ hleads.mp hl)
    exact ⟨hleads.mp hl, hshort, (node?_put_of_ne hne).symm.trans hnode, hplain, hopens⟩
  · rintro ⟨hl, hshort, hnode, hplain, hopens⟩
    have hne : location ≠ place := fun heq => h (heq ▸ hl)
    exact ⟨hleads.mpr hl, hshort, (node?_put_of_ne hne).trans hnode, hplain, hopens⟩

end Lay

end FileSystem
end Microcomputer
