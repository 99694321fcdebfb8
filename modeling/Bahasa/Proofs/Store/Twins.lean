import Bahasa.Proofs.Eval.Invariant
import Bahasa.Proofs.Eval.Likeness
import Bahasa.Proofs.Store.Walk

namespace Bahasa

structure Binding.Like (F : FrameId → FrameId → Prop) (b b' : Binding) : Prop where
  name : b'.name = b.name
  value : b.value.Like F b'.value
  constant : b'.constant = b.constant

structure Frame.Like (F : FrameId → FrameId → Prop) (f f' : Frame) : Prop where
  parent : Option.Rel F f.parent f'.parent
  bindings : List.Forall₂ (Binding.Like F) f.bindings f'.bindings

section Frames

variable {F : FrameId → FrameId → Prop} {f f' : Frame} {bs bs' : List Binding} {v v' : Value}

theorem Binding.any_like (h : List.Forall₂ (Binding.Like F) bs bs') (name : String) :
    bs'.any (·.name == name) = bs.any (·.name == name) := by
  induction h with
  | nil => rfl
  | cons hb _ ih => rw [List.any_cons, List.any_cons, hb.name, ih]

theorem Binding.find?_like (h : List.Forall₂ (Binding.Like F) bs bs') (name : String) :
    Option.Rel (Binding.Like F) (bs.find? (·.name == name)) (bs'.find? (·.name == name)) := by
  induction h with
  | nil => exact .none
  | @cons b b' _ _ hb _ ih =>
    rw [List.find?_cons, List.find?_cons, hb.name]
    cases b.name == name with
    | true => exact .some hb
    | false => exact ih

theorem Binding.set_like (h : List.Forall₂ (Binding.Like F) bs bs') (name : String)
    (hv : v.Like F v') : List.Forall₂ (Binding.Like F) (set name v bs) (set name v' bs') := by
  induction h with
  | nil => exact .nil
  | @cons b b' _ _ hb hbs ih =>
    unfold set
    rw [hb.name]
    split
    · exact .cons ⟨rfl, hv, hb.constant⟩ hbs
    · exact .cons hb ih

theorem Frame.Like.empty {p p' : FrameId} (h : F p p') :
    (Frame.empty (some p)).Like F (Frame.empty (some p')) :=
  ⟨.some h, .nil⟩

theorem Frame.Like.declare (h : f.Like F f') (name : String) (hv : v.Like F v') (constant : Bool) :
    (f.declare ⟨name, v, constant⟩).Like F (f'.declare ⟨name, v', constant⟩) :=
  ⟨h.parent, List.rel_append h.bindings (.cons ⟨rfl, hv, rfl⟩ .nil)⟩

theorem Frame.Like.update (h : f.Like F f') (name : String) (hv : v.Like F v') :
    (f.update name v).Like F (f'.update name v') :=
  ⟨h.parent, Binding.set_like h.bindings name hv⟩

theorem Frame.like_self (hp : ∀ p, f.parent = some p → F p p)
    (hb : ∀ b ∈ f.bindings, ∀ g, b.value.Captures g → F g g) : f.Like F f := by
  constructor
  · cases hf : f.parent with
    | none => exact .none
    | some p => exact .some (hp p hf)
  · exact List.forall₂_same.mpr fun b hm => ⟨rfl, b.value.like_self (hb b hm), rfl⟩

end Frames

/-- The frames in `R` correspond to themselves, and the frames that are added to `s₁` to those that
are added to `s₂`, one after the other. -/
def Twins (R : FrameId → Prop) (s₁ s₂ : Store) (id id' : FrameId) : Prop :=
  (R id ∧ id' = id) ∨ ∃ k, id = s₁.frames.size + k ∧ id' = s₂.frames.size + k

/-- The stores `s` and `s'` that have come from `s₁` and `s₂` are the same up to the names of the
new frames, as far as `R` goes, and all else is as it was. -/
structure TwinStores (R : FrameId → Prop) (s₁ s₂ s s' : Store) : Prop where
  sizes : ∃ n, s.frames.size = s₁.frames.size + n ∧ s'.frames.size = s₂.frames.size + n
  frames : ∀ id id', Twins R s₁ s₂ id id' →
    Option.Rel (Frame.Like (Twins R s₁ s₂)) (s.frame? id) (s'.frame? id')
  left : ∀ id, id < s₁.frames.size → ¬ R id → s.frame? id = s₁.frame? id
  right : ∀ id, id < s₂.frames.size → ¬ R id → s'.frame? id = s₂.frame? id

def OneToOne (F : FrameId → FrameId → Prop) : Prop :=
  ∀ {id id' j j'}, F id id' → F j j' → (id = j ↔ id' = j')

section Twins

variable {R : FrameId → Prop} {s₁ s₂ s s' : Store} {id id' : FrameId}

theorem Twins.oneToOne_self : OneToOne (Twins R s₁ s₁) := by
  have hsame : ∀ {id id'}, Twins R s₁ s₁ id id' → id' = id := by
    rintro id id' (⟨-, rfl⟩ | ⟨k, rfl, rfl⟩)
    · rfl
    · rfl
  intro id id' j j' hid hj
  rw [hsame hid, hsame hj]

theorem Twins.oneToOne (hR : ∀ id, R id → id < s₁.frames.size ∧ id < s₂.frames.size) :
    OneToOne (Twins R s₁ s₂) := by
  rintro id id' j j' (⟨hid, rfl⟩ | ⟨k, rfl, rfl⟩) (⟨hj, rfl⟩ | ⟨m, rfl, rfl⟩)
  · rfl
  · obtain ⟨hlt, hlt'⟩ := hR _ hid
    exact iff_of_false (Nat.ne_of_lt (Nat.lt_add_right m hlt))
      (Nat.ne_of_lt (Nat.lt_add_right m hlt'))
  · obtain ⟨hlt, hlt'⟩ := hR _ hj
    exact iff_of_false (Nat.ne_of_gt (Nat.lt_add_right k hlt))
      (Nat.ne_of_gt (Nat.lt_add_right k hlt'))
  · exact Nat.add_left_cancel_iff.trans Nat.add_left_cancel_iff.symm

namespace TwinStores

theorem unchanged (h : ∀ id, R id →
    Option.Rel (Frame.Like (Twins R s₁ s₂)) (s₁.frame? id) (s₂.frame? id)) :
    TwinStores R s₁ s₂ s₁ s₂ := by
  refine ⟨⟨0, rfl, rfl⟩, fun id id' hid => ?_, fun _ _ _ => rfl, fun _ _ _ => rfl⟩
  obtain ⟨hR, rfl⟩ | ⟨k, rfl, rfl⟩ := hid
  · exact h id' hR
  · have hnone : ∀ t : Store, t.frame? (t.frames.size + k) = none :=
      fun t => Array.getElem?_eq_none (Nat.le_add_right _ _)
    rw [hnone, hnone]
    exact .none

theorem has_eq (h : TwinStores R s₁ s₂ s s') (hid : Twins R s₁ s₂ id id') (name : String) :
    s'.has id' name = s.has id name := by
  unfold Store.has
  have hf := h.frames id id' hid
  generalize s.frame? id = f?, s'.frame? id' = f'? at hf
  cases hf with
  | none => rfl
  | some hf => exact Binding.any_like hf.bindings name

theorem resolveWithin (h : TwinStores R s₁ s₂ s s') (hid : Twins R s₁ s₂ id id') (name : String)
    (steps : Nat) :
    Option.Rel (Twins R s₁ s₂) (s.resolveWithin name steps id)
      (s'.resolveWithin name steps id') := by
  induction steps generalizing id id' with
  | zero => exact .none
  | succ steps ih =>
    unfold Store.resolveWithin
    have hf := h.frames id id' hid
    generalize s.frame? id = f?, s'.frame? id' = f'? at hf
    cases hf with
    | none => exact .none
    | @some f f' hf =>
      have hhas : f'.has name = f.has name := Binding.any_like hf.bindings name
      have hp := hf.parent
      dsimp only
      rw [hhas]
      cases f.has name with
      | true => exact .some hid
      | false =>
        rw [if_neg Bool.false_ne_true, if_neg Bool.false_ne_true]
        generalize f.parent = p?, f'.parent = p'? at hp
        cases hp with
        | none => exact .none
        | some hp => exact ih hp

theorem resolve? (h : TwinStores R s₁ s₂ s s') (hid : Twins R s₁ s₂ id id') (name : String) :
    Option.Rel (Twins R s₁ s₂) (s.resolve? id name) (s'.resolve? id' name) := by
  -- the stores differ in size, so both are searched with the steps that are enough for either
  rw [← Store.resolveWithin_eq_resolve? (Nat.le_max_left s.frames.size s'.frames.size),
    ← Store.resolveWithin_eq_resolve? (Nat.le_max_right s.frames.size s'.frames.size)]
  exact h.resolveWithin hid name _

theorem found (h : TwinStores R s₁ s₂ s s') (hid : Twins R s₁ s₂ id id') (name : String) :
    Option.Rel (Binding.Like (Twins R s₁ s₂)) ((s.frame? id).bind (·.find? name))
      ((s'.frame? id').bind (·.find? name)) := by
  have hf := h.frames id id' hid
  generalize s.frame? id = f?, s'.frame? id' = f'? at hf
  cases hf with
  | none => exact .none
  | some hf => exact Binding.find?_like hf.bindings name

theorem add (hone : OneToOne (Twins R s₁ s₂)) (h : TwinStores R s₁ s₂ s s') {f f' : Frame}
    (hf : f.Like (Twins R s₁ s₂) f') :
    Twins R s₁ s₂ s.frames.size s'.frames.size ∧
      TwinStores R s₁ s₂ ⟨s.frames.push f⟩ ⟨s'.frames.push f'⟩ := by
  obtain ⟨n, hn, hn'⟩ := h.sizes
  have hnew : Twins R s₁ s₂ s.frames.size s'.frames.size := .inr ⟨n, hn, hn'⟩
  have hframe : ∀ (t : Store) (g : Frame) (id : FrameId), Store.frame? ⟨t.frames.push g⟩ id =
      if id = t.frames.size then some g else t.frame? id := fun _ _ _ => Array.getElem?_push
  refine ⟨hnew, ⟨n + 1, ?_, ?_⟩, fun id id' hid => ?_, fun id hlt hR => ?_, fun id hlt hR => ?_⟩
  · simp only [Array.size_push]
    omega
  · simp only [Array.size_push]
    omega
  · rw [hframe, hframe]
    by_cases heq : id = s.frames.size
    · rw [if_pos heq, if_pos ((hone hid hnew).mp heq)]
      exact .some hf
    · rw [if_neg heq, if_neg fun heq' => heq ((hone hid hnew).mpr heq')]
      exact h.frames id id' hid
  · rw [hframe, if_neg (Nat.ne_of_lt (by omega))]
    exact h.left id hlt hR
  · rw [hframe, if_neg (Nat.ne_of_lt (by omega))]
    exact h.right id hlt hR

theorem push (hone : OneToOne (Twins R s₁ s₂)) (h : TwinStores R s₁ s₂ s s') {p p' : FrameId}
    (hp : Twins R s₁ s₂ p p') :
    Twins R s₁ s₂ (s.push (some p)).1 (s'.push (some p')).1 ∧
      TwinStores R s₁ s₂ (s.push (some p)).2 (s'.push (some p')).2 :=
  h.add hone (.empty hp)

theorem modify (hone : OneToOne (Twins R s₁ s₂)) (h : TwinStores R s₁ s₂ s s')
    (hid : Twins R s₁ s₂ id id') {k k' : Frame → Frame}
    (hk : ∀ {f f'}, f.Like (Twins R s₁ s₂) f' → (k f).Like (Twins R s₁ s₂) (k' f')) :
    TwinStores R s₁ s₂ (s.modify id k) (s'.modify id' k') := by
  refine ⟨?_, fun j j' hj => ?_, fun j hlt hR => ?_, fun j hlt hR => ?_⟩
  · obtain ⟨n, hn, hn'⟩ := h.sizes
    refine ⟨n, ?_, ?_⟩
    · simpa only [Store.modify, Array.size_modify] using hn
    · simpa only [Store.modify, Array.size_modify] using hn'
  · have hf := h.frames j j' hj
    rw [Store.frame?_modify, Store.frame?_modify]
    by_cases heq : id = j
    · rw [if_pos heq, if_pos ((hone hid hj).mp heq)]
      generalize s.frame? j = f?, s'.frame? j' = f'? at hf
      cases hf with
      | none => exact .none
      | some hf => exact .some (hk hf)
    · rw [if_neg heq, if_neg fun heq' => heq ((hone hid hj).mpr heq')]
      exact hf
  · have hne : id ≠ j := by
      rintro rfl
      obtain ⟨hin, -⟩ | ⟨k, rfl, -⟩ := hid
      · exact hR hin
      · omega
    rw [Store.frame?_modify, if_neg hne]
    exact h.left j hlt hR
  · have hne : id' ≠ j := by
      rintro rfl
      obtain ⟨hin, rfl⟩ | ⟨k, -, rfl⟩ := hid
      · exact hR hin
      · omega
    rw [Store.frame?_modify, if_neg hne]
    exact h.right j hlt hR

end TwinStores

end Twins

def Likeness.twins (R : FrameId → Prop) (s₁ s₂ : Store) (hone : OneToOne (Twins R s₁ s₂)) :
    Likeness where
  frames := Twins R s₁ s₂
  stores := TwinStores R s₁ s₂
  push hs hp := hs.push hone hp
  declare := by
    intro s s' id id' v v' name constant hs hid hv
    unfold Access.declare
    rw [hs.has_eq hid]
    cases s.has id name with
    | true => exact .error hs (.same nofun)
    | false => exact .ok (hs.modify hone hid fun hf => hf.declare name hv constant) hv
  lookup := by
    intro s s' id id' name hs hid
    unfold Access.lookup Store.binding?
    have hr := hs.resolve? hid name
    generalize s.resolve? id name = owner?, s'.resolve? id' name = owner'? at hr
    cases hr with
    | none => exact .error hs (.same nofun)
    | @some owner owner' ho =>
      have hb := hs.found ho name
      dsimp only [Option.bind_some]
      generalize (s.frame? owner).bind (·.find? name) = b?,
        (s'.frame? owner').bind (·.find? name) = b'? at hb
      cases hb with
      | none => exact .error hs (.same nofun)
      | some hb => exact .ok hs hb.value
  assign := by
    intro s s' id id' v v' name hs hid hv
    unfold Access.assign
    have hr := hs.resolve? hid name
    generalize s.resolve? id name = owner?, s'.resolve? id' name = owner'? at hr
    cases hr with
    | none => exact .error hs (.same nofun)
    | @some owner owner' ho =>
      have hb := hs.found ho name
      have hc : ((s'.frame? owner').bind (·.find? name)).any (·.constant) =
          ((s.frame? owner).bind (·.find? name)).any (·.constant) := by
        generalize (s.frame? owner).bind (·.find? name) = b?,
          (s'.frame? owner').bind (·.find? name) = b'? at hb
        cases hb with
        | none => rfl
        | some hb => exact hb.constant
      dsimp only
      rw [hc]
      cases ((s.frame? owner).bind (·.find? name)).any (·.constant) with
      | true => exact .error hs (.same nofun)
      | false => exact .ok (hs.modify hone ho fun hf => hf.update name hv) hv

end Bahasa
