/-! Runs of bytes: reading a window of an array, and laying bytes over one. -/
namespace Microcomputer

abbrev Bytes := Array UInt8

namespace Bytes

/-- The `length` bytes from `start` on, or as many as there are. -/
def window (bytes : Bytes) (start length : Nat) : List UInt8 :=
  (bytes.extract start (start + length)).toList

/-- Bytes that would fall past the end are dropped. -/
def overlay (bytes : Bytes) (start : Nat) : List UInt8 → Bytes
  | [] => bytes
  | b :: rest => overlay (bytes.setIfInBounds start b) (start + 1) rest

theorem length_window {bytes : Bytes} {start length : Nat} (h : start + length ≤ bytes.size) :
    (window bytes start length).length = length := by
  simp only [window, Array.length_toList, Array.size_extract]
  omega

theorem getElem?_window (bytes : Bytes) (start length i : Nat) :
    (window bytes start length)[i]? = if i < length then bytes[start + i]? else none := by
  simp only [window, Array.getElem?_toList, Array.getElem?_extract]
  by_cases h : i < length
  · by_cases hs : start + i < bytes.size
    · rw [if_pos (by omega), if_pos h]
    · rw [if_neg (by omega), if_pos h, Array.getElem?_eq_none (by omega)]
  · rw [if_neg (by omega), if_neg h]

@[simp]
theorem size_overlay (bytes : Bytes) (start : Nat) (data : List UInt8) :
    (overlay bytes start data).size = bytes.size := by
  induction data generalizing bytes start with
  | nil => rfl
  | cons b rest ih => simp [overlay, ih]

theorem getElem?_overlay (bytes : Bytes) (start : Nat) (data : List UInt8) (i : Nat) :
    (overlay bytes start data)[i]? =
      if i < bytes.size ∧ start ≤ i ∧ i < start + data.length then data[i - start]? else bytes[i]? := by
  induction data generalizing bytes start with
  | nil =>
    rw [if_neg (by simp)]
    rfl
  | cons b rest ih =>
    rw [overlay, ih, Array.size_setIfInBounds, Array.getElem?_setIfInBounds]
    by_cases he : start = i
    · subst he
      by_cases hs : start < bytes.size
      · rw [if_neg (by omega)]
        simp [hs]
      · simp [hs]
    · by_cases hi : i < bytes.size ∧ start ≤ i ∧ i < start + (b :: rest).length
      · have hp : i - start = i - (start + 1) + 1 := by omega
        rw [if_pos hi, if_pos (by simp at hi; omega), hp, List.getElem?_cons_succ]
      · rw [if_neg hi, if_neg (by simp at hi ⊢; omega), if_neg he]

/-- Bytes outside the overlaid range stay as they were. -/
theorem getElem?_overlay_of_outside {bytes : Bytes} {start : Nat} {data : List UInt8} {i : Nat}
    (h : i < start ∨ start + data.length ≤ i) : (overlay bytes start data)[i]? = bytes[i]? := by
  rw [getElem?_overlay, if_neg (by omega)]

theorem overlay_eq {bytes : Bytes} {start : Nat} {data : List UInt8}
    (h : start + data.length ≤ bytes.size) :
    overlay bytes start data =
      (bytes.toList.take start ++ data ++ bytes.toList.drop (start + data.length)).toArray := by
  apply Array.ext'
  apply List.ext_getElem?
  intro i
  have htake : (bytes.toList.take start).length = start := by
    rw [List.length_take, Array.length_toList]
    omega
  rw [Array.getElem?_toList, getElem?_overlay]
  show _ = (bytes.toList.take start ++ data ++ bytes.toList.drop (start + data.length))[i]?
  rw [List.append_assoc]
  by_cases hi : i < start
  · rw [if_neg (by omega), List.getElem?_append_left (by omega), List.getElem?_take_of_lt hi,
      Array.getElem?_toList]
  · rw [List.getElem?_append_right (by omega), htake]
    by_cases hd : i < start + data.length
    · rw [if_pos (by omega), List.getElem?_append_left (by omega)]
    · rw [if_neg (by omega), List.getElem?_append_right (by omega), List.getElem?_drop,
        Array.getElem?_toList]
      congr 1
      omega

theorem window_overlay_self {bytes : Bytes} {start : Nat} {data : List UInt8}
    (h : start + data.length ≤ bytes.size) :
    window (overlay bytes start data) start data.length = data := by
  apply List.ext_getElem?
  intro i
  rw [getElem?_window, getElem?_overlay]
  by_cases hi : i < data.length
  · rw [if_pos hi, if_pos (by omega), Nat.add_sub_cancel_left]
  · rw [if_neg hi, List.getElem?_eq_none (by omega)]

/-- Bytes laid over the front of two arrays in a row leave the second as it was. -/
theorem overlay_append_left {front : Bytes} {start : Nat} {data : List UInt8}
    (h : start + data.length ≤ front.size) (back : Bytes) :
    overlay (front ++ back) start data = overlay front start data ++ back := by
  induction data generalizing front start with
  | nil => rfl
  | cons b rest ih =>
    simp only [List.length_cons] at h
    rw [overlay, overlay, Array.setIfInBounds_append_left (by omega), ih]
    rw [Array.size_setIfInBounds]
    omega

theorem overlay_append_right (front back : Bytes) (offset : Nat) (data : List UInt8) :
    overlay (front ++ back) (front.size + offset) data = front ++ overlay back offset data := by
  induction data generalizing back offset with
  | nil => rfl
  | cons b rest ih =>
    rw [overlay, overlay, Array.setIfInBounds_append_right (by omega), Nat.add_sub_cancel_left,
      Nat.add_assoc, ih]

theorem window_eq (bytes : Bytes) (start length : Nat) :
    bytes.window start length = (bytes.toList.drop start).take length := by
  rw [window, Array.toList_extract, List.extract_eq_take_drop, Nat.add_sub_cancel_left]

theorem take_window {bytes : Bytes} {start length count : Nat} (h : count ≤ length) :
    (bytes.window start length).take count = bytes.window start count := by
  rw [window_eq, window_eq, List.take_take, Nat.min_eq_left h]

theorem window_append_left {front : Bytes} {start length : Nat} (h : start + length ≤ front.size)
    (back : Bytes) : window (front ++ back) start length = window front start length := by
  apply List.ext_getElem?
  intro i
  rw [getElem?_window, getElem?_window]
  by_cases hi : i < length
  · rw [if_pos hi, if_pos hi, Array.getElem?_append_left (by omega)]
  · rw [if_neg hi, if_neg hi]

theorem window_append (front : Bytes) (data : List UInt8) (back : Bytes) :
    window (front ++ data.toArray ++ back) front.size data.length = data := by
  simp [window_eq]

end Bytes
end Microcomputer
