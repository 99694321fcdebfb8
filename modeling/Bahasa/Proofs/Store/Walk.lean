import Bahasa.Store
import Mathlib.Data.List.Nodup
import Mathlib.Data.List.Perm.Subperm

namespace Bahasa.Store

variable {s : Store} {name : String} {id owner : FrameId} {ids : List FrameId}

/-- The frames on the way from a frame to the nearest one that has the name. -/
inductive Walk (s : Store) (name : String) : FrameId → List FrameId → FrameId → Prop
  | here {id : FrameId} {f : Frame} (hf : s.frame? id = some f) (hn : f.has name = true) :
      Walk s name id [id] id
  | outwards {id p owner : FrameId} {f : Frame} {ids : List FrameId} (hf : s.frame? id = some f)
      (hn : f.has name = false) (hp : f.parent = some p) (h : Walk s name p ids owner) :
      Walk s name id (id :: ids) owner

theorem Walk.lt_size (h : s.Walk name id ids owner) : ∀ j ∈ ids, j < s.frames.size := by
  induction h with
  | here hf _ =>
    intro j hj
    obtain rfl := List.mem_singleton.mp hj
    exact (Array.getElem?_eq_some_iff.mp hf).1
  | outwards hf _ _ _ ih =>
    intro j hj
    obtain rfl | hj := List.mem_cons.mp hj
    · exact (Array.getElem?_eq_some_iff.mp hf).1
    · exact ih j hj

theorem Walk.from (h : s.Walk name id ids owner) {j : FrameId} (hj : j ∈ ids) :
    ∃ rest, rest <:+ ids ∧ s.Walk name j rest owner := by
  induction h with
  | here hf hn =>
    obtain rfl := List.mem_singleton.mp hj
    exact ⟨_, List.suffix_rfl, .here hf hn⟩
  | outwards hf hn hp h ih =>
    obtain rfl | hj := List.mem_cons.mp hj
    · exact ⟨_, List.suffix_rfl, .outwards hf hn hp h⟩
    · obtain ⟨rest, hrest, hw⟩ := ih hj
      exact ⟨rest, hrest.trans (List.suffix_cons ..), hw⟩

theorem Walk.nodup (h : s.Walk name id ids owner) :
    ∃ path, path.Nodup ∧ s.Walk name id path owner := by
  induction h with
  | here hf hn => exact ⟨_, List.nodup_singleton _, .here hf hn⟩
  | @outwards id p owner f ids hf hn hp _ ih =>
    obtain ⟨path, hnodup, hw⟩ := ih
    by_cases hid : id ∈ path
    · obtain ⟨rest, hrest, hw⟩ := hw.from hid
      exact ⟨rest, hnodup.sublist hrest.sublist, hw⟩
    · exact ⟨id :: path, List.nodup_cons.mpr ⟨hid, hnodup⟩, .outwards hf hn hp hw⟩

theorem Walk.resolveWithin_eq (h : s.Walk name id ids owner) {steps : Nat}
    (hs : ids.length ≤ steps) : s.resolveWithin name steps id = some owner := by
  induction h generalizing steps with
  | here hf hn =>
    cases steps with
    | zero => exact absurd hs (by simp)
    | succ steps => simp only [resolveWithin, hf, hn, if_true]
  | outwards hf hn hp _ ih =>
    cases steps with
    | zero => exact absurd hs (by simp)
    | succ steps =>
      have htail := ih (Nat.le_of_succ_le_succ hs)
      simp only [resolveWithin, hf, hn, Bool.false_eq_true, if_false, hp, htail]

theorem walk_of_resolveWithin {steps : Nat} (h : s.resolveWithin name steps id = some owner) :
    ∃ ids, s.Walk name id ids owner := by
  induction steps generalizing id with
  | zero => cases h
  | succ steps ih =>
    unfold resolveWithin at h
    cases hf : s.frame? id with
    | none =>
      rw [hf] at h
      cases h
    | some f =>
      rw [hf] at h
      dsimp only at h
      cases hn : f.has name with
      | true =>
        rw [hn, if_pos rfl] at h
        cases h
        exact ⟨_, .here hf hn⟩
      | false =>
        rw [hn, if_neg Bool.false_ne_true] at h
        cases hp : f.parent with
        | none =>
          rw [hp] at h
          cases h
        | some p =>
          rw [hp] at h
          obtain ⟨ids, hw⟩ := ih h
          exact ⟨_, .outwards hf hn hp hw⟩

/-- A way with no more frames on it than there are. -/
theorem Walk.short (h : s.Walk name id ids owner) :
    ∃ path, path.length ≤ s.frames.size ∧ s.Walk name id path owner := by
  obtain ⟨path, hnodup, hw⟩ := h.nodup
  have hsub : path ⊆ List.range s.frames.size := fun j hj => List.mem_range.mpr (hw.lt_size j hj)
  have hle := (hnodup.subperm hsub).length_le
  rw [List.length_range] at hle
  exact ⟨path, hle, hw⟩

theorem resolveWithin_eq_resolve? {steps : Nat} (h : s.frames.size ≤ steps) :
    s.resolveWithin name steps id = s.resolve? id name := by
  cases hr : s.resolveWithin name steps id with
  | some owner =>
    obtain ⟨ids, hw⟩ := walk_of_resolveWithin hr
    obtain ⟨path, hle, hw⟩ := hw.short
    exact (hw.resolveWithin_eq hle).symm
  | none =>
    cases hq : s.resolve? id name with
    | none => rfl
    | some owner =>
      obtain ⟨ids, hw⟩ := walk_of_resolveWithin hq
      obtain ⟨path, hle, hw⟩ := hw.short
      rw [hw.resolveWithin_eq (Nat.le_trans hle h)] at hr
      cases hr

end Bahasa.Store
