import Bahasa.Value
import Mathlib.Data.List.Induction

namespace Bahasa

/-- The slots that are set by the pairs, one after another. -/
def slotsOf (pairs : List (String × Value)) : List (String × Value) :=
  pairs.foldl (fun slots pair => setSlot pair.1 pair.2 slots) []

/-- The value of the last pair with the key, or null if there is none. -/
def lastValue (key : String) (pairs : List (String × Value)) : Value :=
  (pairs.reverse.lookup key).getD .null

section Setting

variable {key : String} {v : Value} {slots : List (String × Value)}

theorem keys_setSlot : (setSlot key v slots).map Prod.fst =
    if key ∈ slots.map Prod.fst then slots.map Prod.fst else slots.map Prod.fst ++ [key] := by
  induction slots with
  | nil => rfl
  | cons slot slots ih =>
    obtain ⟨k, old⟩ := slot
    rw [setSlot]
    by_cases hk : k = key
    · subst hk
      simp
    · rw [if_neg hk, List.map_cons, ih]
      by_cases hm : key ∈ slots.map Prod.fst
      · simp [hm]
      · simp [hm, Ne.symm hk]

theorem lookup_slot (k : String) : List.lookup k ((key, v) :: slots) =
    if k = key then some v else slots.lookup k := by
  rw [List.lookup_cons]
  by_cases hk : k = key
  · rw [if_pos hk, beq_iff_eq.mpr hk]
  · rw [if_neg hk, beq_eq_false_iff_ne.mpr hk]

theorem lookup_setSlot (k : String) :
    (setSlot key v slots).lookup k = if k = key then some v else slots.lookup k := by
  induction slots with
  | nil => exact lookup_slot k
  | cons slot slots ih =>
    obtain ⟨first, old⟩ := slot
    rw [setSlot]
    by_cases hfirst : first = key
    · subst hfirst
      rw [if_pos rfl, lookup_slot, lookup_slot]
      by_cases hk : k = first <;> simp only [hk, if_true, if_false]
    · rw [if_neg hfirst, lookup_slot, lookup_slot, ih]
      by_cases hk : k = first
      · subst hk
        simp only [if_true, hfirst, if_false]
      · simp only [hk, if_false]

end Setting

theorem slotsOf_concat (pairs : List (String × Value)) (pair : String × Value) :
    slotsOf (pairs ++ [pair]) = setSlot pair.1 pair.2 (slotsOf pairs) := by
  rw [slotsOf, List.foldl_append, List.foldl_cons, List.foldl_nil, slotsOf]

/-- The keys of the slots are the different keys of the pairs, in the order in which they occur
first. -/
theorem keys_slotsOf (pairs : List (String × Value)) :
    (slotsOf pairs).map Prod.fst = (pairs.map Prod.fst).eraseDups := by
  induction pairs using List.reverseRecOn with
  | nil => rfl
  | append_singleton pairs pair ih =>
    rw [slotsOf_concat, keys_setSlot, ih, List.map_append, List.eraseDups_append,
      List.map_singleton]
    by_cases hm : pair.1 ∈ pairs.map Prod.fst
    · simp [hm, List.removeAll]
    · simp [hm, List.removeAll, List.eraseDups_cons]

theorem lookup_slotsOf (key : String) (pairs : List (String × Value)) :
    ((slotsOf pairs).lookup key).getD .null = lastValue key pairs := by
  unfold lastValue
  congr 1
  induction pairs using List.reverseRecOn with
  | nil => rfl
  | append_singleton pairs pair ih =>
    rw [slotsOf_concat, lookup_setSlot, ih, List.reverse_append, List.reverse_singleton,
      List.singleton_append, lookup_slot]

end Bahasa
