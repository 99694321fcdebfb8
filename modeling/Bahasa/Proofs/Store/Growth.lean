import Bahasa.Proofs.Eval.Invariant

namespace Bahasa

/-- The store or world that a run leaves, whether it ends with a result or with an error. -/
def stateAfter {ε σ α : Type} : EStateM.Result ε σ α → σ
  | .ok _ s => s
  | .error _ s => s

/-- The old names stand before the new ones, as constant or variable as they were, and the constants
have their old values. -/
structure Frame.Grows (f g : Frame) : Prop where
  parent : g.parent = f.parent
  names : f.names <+: g.names
  flags : f.bindings.map (·.constant) <+: g.bindings.map (·.constant)
  constants : ∀ (i : Nat) (b : Binding), f.bindings[i]? = some b → b.constant = true →
    g.bindings[i]? = some b

namespace Frame.Grows

variable {f g h : Frame}

theorem refl (f : Frame) : f.Grows f :=
  ⟨rfl, List.prefix_rfl, List.prefix_rfl, fun _ _ hb _ => hb⟩

theorem trans (hf : f.Grows g) (hg : g.Grows h) : f.Grows h where
  parent := hg.parent.trans hf.parent
  names := hf.names.trans hg.names
  flags := hf.flags.trans hg.flags
  constants i b hb hc := hg.constants i b (hf.constants i b hb hc) hc

theorem declare (f : Frame) (b : Binding) : f.Grows (f.declare b) where
  parent := rfl
  names := by
    rw [Frame.names, Frame.names, Frame.declare, List.map_append]
    exact List.prefix_append _ _
  flags := by
    rw [Frame.declare, List.map_append]
    exact List.prefix_append _ _
  constants i c hc _ := by
    have hi := (List.getElem?_eq_some_iff.mp hc).1
    rw [Frame.declare, List.getElem?_append_left hi]
    exact hc

end Frame.Grows

namespace Binding

variable (name : String) (v : Value) (bs : List Binding)

theorem map_name_set : (set name v bs).map (·.name) = bs.map (·.name) := by
  induction bs with
  | nil => rfl
  | cons b bs ih =>
    unfold set
    split
    · rfl
    · rw [List.map_cons, ih, List.map_cons]

theorem map_constant_set : (set name v bs).map (·.constant) = bs.map (·.constant) := by
  induction bs with
  | nil => rfl
  | cons b bs ih =>
    unfold set
    split
    · rfl
    · rw [List.map_cons, ih, List.map_cons]

variable {name} {bs}

theorem getElem?_set (h : (bs.find? (·.name == name)).any (·.constant) = false) {i : Nat}
    {b : Binding} (hb : bs[i]? = some b) (hc : b.constant = true) :
    (set name v bs)[i]? = some b := by
  induction bs generalizing i with
  | nil => cases hb
  | cons first bs ih =>
    unfold set
    by_cases hn : first.name = name
    · rw [if_pos hn]
      have hfind : (first :: bs).find? (·.name == name) = some first := by simp [hn]
      rw [hfind] at h
      cases i with
      | zero =>
        cases hb
        exact absurd hc (by simpa using h)
      | succ i => exact hb
    · rw [if_neg hn]
      have hfind : (first :: bs).find? (·.name == name) = bs.find? (·.name == name) := by simp [hn]
      rw [hfind] at h
      cases i with
      | zero => exact hb
      | succ i => exact ih h hb

end Binding

theorem Frame.Grows.update {f : Frame} {name : String}
    (h : (f.find? name).any (·.constant) = false) (v : Value) : f.Grows (f.update name v) where
  parent := rfl
  names := by
    have heq : (f.update name v).names = f.names := Binding.map_name_set ..
    exact heq ▸ List.prefix_rfl
  flags := by
    have heq : (f.update name v).bindings.map (·.constant) = f.bindings.map (·.constant) :=
      Binding.map_constant_set ..
    exact heq ▸ List.prefix_rfl
  constants _ _ hb hc := Binding.getElem?_set v h hb hc

/-- Every frame is still there and has grown. -/
def Store.Grows (s t : Store) : Prop :=
  ∀ id f, s.frame? id = some f → ∃ g, t.frame? id = some g ∧ f.Grows g

namespace Store.Grows

variable {s t u : Store}

theorem refl (s : Store) : s.Grows s :=
  fun _ f hf => ⟨f, hf, .refl f⟩

theorem trans (hs : s.Grows t) (ht : t.Grows u) : s.Grows u := by
  intro id f hf
  obtain ⟨g, hg, hfg⟩ := hs id f hf
  obtain ⟨h, hh, hgh⟩ := ht id g hg
  exact ⟨h, hh, hfg.trans hgh⟩

theorem push (s : Store) (parent : Option FrameId) : s.Grows (s.push parent).2 := by
  intro id f hf
  have hid : id ≠ s.frames.size := Nat.ne_of_lt (Array.getElem?_eq_some_iff.mp hf).1
  rw [frame?_push, if_neg hid]
  exact ⟨f, hf, .refl f⟩

theorem modify (s : Store) (id : FrameId) {k : Frame → Frame}
    (hk : ∀ f, s.frame? id = some f → f.Grows (k f)) : s.Grows (s.modify id k) := by
  intro j f hf
  rw [frame?_modify]
  by_cases hj : id = j
  · subst hj
    rw [if_pos rfl, hf]
    exact ⟨k f, rfl, hk f hf⟩
  · rw [if_neg hj]
    exact ⟨f, hf, .refl f⟩

end Store.Grows

namespace Access

variable (s : Store) (id : FrameId) (name : String)

theorem declare_grows (v : Value) (constant : Bool) :
    s.Grows (stateAfter (declare id name v constant s)) := by
  unfold declare
  split
  · exact .refl s
  · exact .modify s id fun f _ => .declare f ⟨name, v, constant⟩

theorem lookup_grows : s.Grows (stateAfter (lookup id name s)) := by
  unfold lookup
  split
  · exact .refl s
  · exact .refl s

theorem assign_grows (v : Value) : s.Grows (stateAfter (assign id name v s)) := by
  unfold assign
  split
  · exact .refl s
  · next owner _ =>
    split
    · exact .refl s
    · next hc =>
      refine .modify s owner fun f hf => .update ?_ v
      rw [hf, Option.bind_some, Bool.not_eq_true] at hc
      exact hc

end Access

end Bahasa
