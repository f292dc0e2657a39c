/-
  AscendEmulator.Lib.Overlay — lines of bytes written in parts: a part written at an offset (`splice`), and the
  bytes a mask selects laid over a line (`overlay`).

  Parts gathered under a mask and laid over a line later are the parts written to the line one by one
  (`overlay_splice`).
-/

import Mathlib.Data.List.Basic

namespace AscendEmulator.Lib

variable {α : Type}

/-- `xs` copied over `l` at `offset`. -/
def splice (l : List α) (offset : Nat) (xs : List α) : List α := l.take offset ++ xs ++ l.drop (offset + xs.length)

theorem length_splice {l xs : List α} {offset : Nat} (h : offset + xs.length ≤ l.length) :
    (splice l offset xs).length = l.length := by
  simp only [splice, List.length_append, List.length_take, List.length_drop]
  omega

theorem getElem?_splice {l xs : List α} {offset : Nat} (h : offset + xs.length ≤ l.length) (i : Nat) :
    (splice l offset xs)[i]? = if offset ≤ i ∧ i < offset + xs.length then xs[i - offset]? else l[i]? := by
  have htake : (l.take offset).length = offset := by
    rw [List.length_take]
    omega
  unfold splice
  rw [List.append_assoc, List.getElem?_append, htake]
  split
  · rw [List.getElem?_take_of_lt ‹_›, if_neg (by omega)]
  · rw [List.getElem?_append]
    split
    · rw [if_pos (by omega)]
    · rw [if_neg (by omega), List.getElem?_drop]
      congr 1
      omega

/-- The values that the mask selects replace those of the line. -/
def overlay (line values : List α) (mask : List Bool) : List α :=
  line.zipWith (fun old new => new.getD old) (values.zipWith (fun new selected => if selected then some new else none) mask)

theorem length_overlay {line values : List α} {mask : List Bool} (hv : values.length = line.length)
    (hm : mask.length = line.length) : (overlay line values mask).length = line.length := by
  simp [overlay, hv, hm]

theorem getElem?_overlay {base values : List α} {mask : List Bool} (hv : values.length = base.length)
    (hm : mask.length = base.length) (i : Nat) :
    (overlay base values mask)[i]? = if mask[i]? = some true then values[i]? else base[i]? := by
  unfold overlay
  rw [List.getElem?_zipWith, List.getElem?_zipWith]
  rcases Nat.lt_or_ge i base.length with hi | hi
  · rw [List.getElem?_eq_getElem hi, List.getElem?_eq_getElem (hv ▸ hi), List.getElem?_eq_getElem (hm ▸ hi)]
    have hi' : i < mask.length := hm ▸ hi
    cases mask[i] <;> simp
  · rw [List.getElem?_eq_none hi, List.getElem?_eq_none (hv ▸ hi)]
    simp

/-- A part gathered under the mask is a part written to the line. -/
theorem overlay_splice {line values xs : List α} {mask : List Bool} {offset : Nat} (hv : values.length = line.length)
    (hm : mask.length = line.length) (h : offset + xs.length ≤ line.length) :
    overlay line (splice values offset xs) (splice mask offset (List.replicate xs.length true)) =
      splice (overlay line values mask) offset xs := by
  have hmask : (List.replicate xs.length true).length = xs.length := List.length_replicate
  refine List.ext_getElem? fun i => ?_
  rw [getElem?_overlay (by rw [length_splice (hv ▸ h), hv]) (by rw [length_splice (by omega), hm]),
    getElem?_splice (by omega), getElem?_splice (by omega),
    getElem?_splice (by rw [length_overlay hv hm]; omega), getElem?_overlay hv hm, hmask]
  by_cases hin : offset ≤ i ∧ i < offset + xs.length
  · rw [if_pos hin, if_pos hin, if_pos hin, List.getElem?_replicate_of_lt (by omega), if_pos rfl]
  · rw [if_neg hin, if_neg hin, if_neg hin]

theorem overlay_nothing {line values : List α} (hv : values.length = line.length) :
    overlay line values (List.replicate line.length false) = line := by
  refine List.ext_getElem? fun i => ?_
  rw [getElem?_overlay hv List.length_replicate, if_neg]
  rw [List.getElem?_replicate]
  split <;> simp

/-- Where the mask selects everything, the line below does not matter. -/
theorem overlay_everything {line values : List α} {mask : List Bool} (hv : values.length = line.length)
    (hm : mask.length = line.length) (hall : ∀ selected ∈ mask, selected = true) : overlay line values mask = values := by
  refine List.ext_getElem? fun i => ?_
  rw [getElem?_overlay hv hm]
  split
  · rfl
  · rename_i hne
    rcases Nat.lt_or_ge i mask.length with hi | hi
    · exact absurd (by rw [List.getElem?_eq_getElem hi, hall _ (List.getElem_mem hi)]) hne
    · rw [List.getElem?_eq_none (hm ▸ hi), List.getElem?_eq_none (by omega)]

end AscendEmulator.Lib
