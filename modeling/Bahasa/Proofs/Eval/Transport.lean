import Bahasa.Eval.Basic
import Bahasa.Error
import Bahasa.Proofs.Node.Places

namespace Bahasa

/-- Both come to an end with a result or both with an error. -/
inductive Ends {ε ε' σ σ' α β : Type} (E : ε → ε' → Prop) (S : σ → σ' → Prop) (Q : α → β → Prop) :
    EStateM.Result ε σ α → EStateM.Result ε' σ' β → Prop
  | ok {a : α} {b : β} {s : σ} {s' : σ'} (hs : S s s') (hq : Q a b) :
      Ends E S Q (.ok a s) (.ok b s')
  | error {e : ε} {e' : ε'} {s : σ} {s' : σ'} (hs : S s s') (he : E e e') :
      Ends E S Q (.error e s) (.error e' s')

namespace Value

mutual

def relocate (f : Place → Place) : Value → Value
  | .object slots => .object (relocateSlots f slots)
  | .function name params body frame =>
    .function name params (body.map (Node.relocate f)) frame
  | .null => .null
  | .number x => .number x
  | .string s => .string s
  | .bool b => .bool b
  | .native name => .native name

def relocateSlots (f : Place → Place) : List (String × Value) → List (String × Value)
  | [] => []
  | (key, v) :: slots => (key, relocate f v) :: relocateSlots f slots

end

variable {f : Place → Place}

theorem relocateSlots_eq (slots : List (String × Value)) :
    relocateSlots f slots = slots.map (fun slot => (slot.1, slot.2.relocate f)) := by
  induction slots with
  | nil => rfl
  | cons slot slots ih =>
    obtain ⟨key, v⟩ := slot
    rw [relocateSlots, ih, List.map_cons]

@[simp] theorem relocate_null : relocate f .null = .null := rfl

@[simp] theorem relocate_number (x : Float) : relocate f (.number x) = .number x := rfl

@[simp] theorem relocate_string (s : String) : relocate f (.string s) = .string s := rfl

@[simp] theorem relocate_bool (b : Bool) : relocate f (.bool b) = .bool b := rfl

@[simp] theorem relocate_native (name : String) : relocate f (.native name) = .native name := rfl

@[simp] theorem relocate_object (slots : List (String × Value)) :
    relocate f (.object slots) = .object (slots.map fun slot => (slot.1, slot.2.relocate f)) := by
  rw [relocate, relocateSlots_eq]

@[simp] theorem relocate_function (name : String) (params : List String) (body : List Node)
    (frame : FrameId) :
    relocate f (.function name params body frame) =
      .function name params (body.map (Node.relocate f)) frame := rfl

mutual

theorem relocate_id (v : Value) : v.relocate id = v := by
  cases v with
  | object slots => rw [relocate_object, map_relocate_id slots]
  | function name params body frame => rw [relocate_function, Node.relocate_all_id]
  | null => rw [relocate_null]
  | number x => rw [relocate_number]
  | string s => rw [relocate_string]
  | bool b => rw [relocate_bool]
  | native name => rw [relocate_native]

theorem map_relocate_id (slots : List (String × Value)) :
    (slots.map fun slot => (slot.1, slot.2.relocate id)) = slots := by
  cases slots with
  | nil => rfl
  | cons slot slots => rw [List.map_cons, relocate_id slot.2, map_relocate_id slots]

end

mutual

theorem render_relocate (v : Value) : (v.relocate f).render = v.render := by
  cases v with
  | object slots =>
    cases slots with
    | nil => rfl
    | cons slot slots =>
      have h := renderSlots_relocate (slot :: slots)
      rw [List.map_cons] at h
      rw [relocate_object, List.map_cons, render, h, render]
  | function name params body frame => rw [relocate_function, render, render]
  | null => rw [relocate_null]
  | number x => rw [relocate_number]
  | string s => rw [relocate_string]
  | bool b => rw [relocate_bool]
  | native name => rw [relocate_native]

theorem renderSlots_relocate (slots : List (String × Value)) :
    renderSlots (slots.map fun slot => (slot.1, slot.2.relocate f)) = renderSlots slots := by
  cases slots with
  | nil => rfl
  | cons slot slots =>
    obtain ⟨key, v⟩ := slot
    rw [List.map_cons, renderSlots, renderSlots, render_relocate v, renderSlots_relocate slots]

end

theorem toText_relocate (v : Value) : (v.relocate f).toText = v.toText := by
  cases v with
  | string s => rw [relocate_string]
  | object slots =>
    have h := render_relocate (f := f) (.object slots)
    rw [relocate_object] at h ⊢
    exact h
  | function name params body frame =>
    have h := render_relocate (f := f) (.function name params body frame)
    rw [relocate_function] at h ⊢
    exact h
  | _ => simp

theorem isTruthy_relocate (v : Value) : (v.relocate f).isTruthy = v.isTruthy := by
  cases v <;> simp [isTruthy]

theorem lookup_relocate (key : String) (slots : List (String × Value)) :
    (slots.map fun slot => (slot.1, slot.2.relocate f)).lookup key =
      (slots.lookup key).map (relocate f) := by
  induction slots with
  | nil => rfl
  | cons slot slots ih =>
    obtain ⟨k, v⟩ := slot
    cases h : key == k with
    | true => simp [List.lookup_cons, h]
    | false => simp [List.lookup_cons, h, ih]

theorem slot_relocate (v key : Value) :
    (v.relocate f).slot (key.relocate f) = (v.slot key).relocate f := by
  cases v with
  | object slots =>
    cases key with
    | string key =>
      simp only [relocate_object, relocate_string, slot, lookup_relocate]
      cases slots.lookup key with
      | none => simp
      | some found => simp
    | _ => simp [slot]
  | _ => simp [slot]

theorem apply_relocate (op : Arith) (a b : Value) :
    op.apply (a.relocate f) (b.relocate f) = (op.apply a b).relocate f := by
  cases a <;> cases b <;> simp [Arith.apply]

theorem compareValues_relocate (test : Float → Float → Bool) (a b : Value) :
    compareValues test (a.relocate f) (b.relocate f) = (compareValues test a b).relocate f := by
  cases a <;> cases b <;> simp [compareValues]

theorem joinValues_relocate (op : Bool → Bool → Bool) (a b : Value) :
    joinValues op (a.relocate f) (b.relocate f) = (joinValues op a b).relocate f := by
  cases a <;> cases b <;> simp [joinValues]

theorem setSlot_relocate (key : String) (v : Value) (slots : List (String × Value)) :
    setSlot key (v.relocate f) (slots.map fun slot => (slot.1, slot.2.relocate f)) =
      (setSlot key v slots).map fun slot => (slot.1, slot.2.relocate f) := by
  induction slots with
  | nil => rfl
  | cons slot slots ih =>
    obtain ⟨k, old⟩ := slot
    rw [List.map_cons, setSlot, setSlot, ih]
    split <;> rfl

end Value

namespace Node

variable {f : Place → Place}

mutual

theorem describe_relocate (n : Node) : (n.relocate f).describe = n.describe := by
  cases n with
  | tree label children p =>
    rw [relocate_tree, describe, describe, describeAll_relocate children]
  | leaf kind text p => rw [relocate_leaf, describe, describe]
  | absent => rw [relocate_absent]
  | datum d => rw [relocate_datum]

theorem describeAll_relocate (ns : List Node) :
    describeAll (ns.map (relocate f)) = describeAll ns := by
  cases ns with
  | nil => rfl
  | cons n ns =>
    rw [List.map_cons, describeAll, describeAll, describe_relocate n, describeAll_relocate ns]

end

theorem kindName_relocate (n : Node) : (n.relocate f).kindName = n.kindName := by
  cases n <;> simp [kindName]

theorem targetName_relocate (n : Node) : (n.relocate f).targetName = n.targetName := by
  cases n <;> simp [targetName]

@[simp] theorem ident?_relocate (n : Node) : (n.relocate f).ident? = n.ident? := by
  cases n with
  | leaf kind text p => cases kind <;> simp [ident?]
  | _ => simp [ident?]

@[simp] theorem isAbsent_relocate (n : Node) : (n.relocate f).isAbsent = n.isAbsent := by
  cases n <;> simp [isAbsent]

@[simp] theorem children_relocate (n : Node) :
    (n.relocate f).children = n.children.map (relocate f) := by
  cases n <;> simp [children]

@[simp] theorem place?_relocate (n : Node) : (n.relocate f).place? = n.place?.map f := by
  cases n <;> simp [place?]

end Node

namespace Cause

def relocate (f : Place → Place) : Cause → Cause
  | target operator node => target operator (node.relocate f)
  | notCallable v => notCallable (v.relocate f)
  | noMeaning node => noMeaning (node.relocate f)
  | malformedParam node => malformedParam (node.relocate f)
  | malformedEntry node => malformedEntry (node.relocate f)
  | cause => cause

theorem message_relocate (f : Place → Place) (cause : Cause) :
    (cause.relocate f).message = cause.message := by
  cases cause with
  | target operator node =>
    have h := Node.targetName_relocate (f := f) node
    unfold relocate message
    dsimp only
    rw [h]
  | notCallable v =>
    have h := Value.render_relocate (f := f) v
    unfold relocate message
    dsimp only
    rw [h]
  | noMeaning node =>
    have h := Node.kindName_relocate (f := f) node
    unfold relocate message
    dsimp only
    rw [h]
  | malformedParam node =>
    have h := Node.describe_relocate (f := f) node
    unfold relocate message
    dsimp only
    rw [h]
  | malformedEntry node =>
    have h := Node.describe_relocate (f := f) node
    unfold relocate message
    dsimp only
    rw [h]
  | _ => rfl

theorem relocate_id (cause : Cause) : cause.relocate id = cause := by
  cases cause <;> simp only [relocate, Node.relocate_id, Value.relocate_id]

end Cause

def Failure.relocate (f : Place → Place) : Failure → Failure
  | error cause place? => error (cause.relocate f) (place?.map f)
  | failure => failure

theorem Failure.locate_relocate (f : Place → Place) (failure : Failure) (place? : Option Place) :
    (failure.locate place?).relocate f = (failure.relocate f).locate (place?.map f) := by
  cases failure with
  | error cause place =>
    cases place with
    | none => rfl
    | some place => rfl
  | _ => rfl

theorem Failure.relocate_id (failure : Failure) : failure.relocate id = failure := by
  cases failure with
  | error cause place? => rw [relocate, Cause.relocate_id, Option.map_id_apply]
  | _ => rfl

def Binding.relocate (f : Place → Place) (b : Binding) : Binding :=
  ⟨b.name, b.value.relocate f, b.constant⟩

def Frame.relocate (f : Place → Place) (frame : Frame) : Frame :=
  ⟨frame.parent, frame.bindings.map (Binding.relocate f)⟩

def Store.relocate (f : Place → Place) (s : Store) : Store :=
  ⟨s.frames.map (Frame.relocate f)⟩

theorem Binding.set_relocate (f : Place → Place) (name : String) (v : Value) (bs : List Binding) :
    Binding.set name (v.relocate f) (bs.map (Binding.relocate f)) =
      (Binding.set name v bs).map (Binding.relocate f) := by
  induction bs with
  | nil => rfl
  | cons b bs ih =>
    rw [List.map_cons, Binding.set, Binding.set, ih]
    change (if b.name = name then _ else _) = _
    by_cases h : b.name = name
    · rw [if_pos h, if_pos h]
      rfl
    · rw [if_neg h, if_neg h]
      rfl

namespace Frame

variable (f : Place → Place)

theorem has_relocate (frame : Frame) (name : String) :
    (frame.relocate f).has name = frame.has name := by
  simp only [has, relocate, List.any_map]
  rfl

theorem find?_relocate (frame : Frame) (name : String) :
    (frame.relocate f).find? name = (frame.find? name).map (Binding.relocate f) := by
  simp only [find?, relocate, List.find?_map]
  rfl

theorem declare_relocate (frame : Frame) (b : Binding) :
    (frame.relocate f).declare (b.relocate f) = (frame.declare b).relocate f := by
  simp [declare, relocate]

theorem update_relocate (frame : Frame) (name : String) (v : Value) :
    (frame.relocate f).update name (v.relocate f) = (frame.update name v).relocate f := by
  simp only [update, relocate, Binding.set_relocate]

end Frame

namespace Store

variable (f : Place → Place)

theorem frame?_relocate (s : Store) (id : FrameId) :
    (s.relocate f).frame? id = (s.frame? id).map (Frame.relocate f) := by
  simp [frame?, relocate]

theorem has_relocate (s : Store) (id : FrameId) (name : String) :
    (s.relocate f).has id name = s.has id name := by
  rw [has, frame?_relocate, has]
  cases s.frame? id with
  | none => rfl
  | some frame => exact Frame.has_relocate f frame name

theorem resolveWithin_relocate (s : Store) (name : String) (steps : Nat) (id : FrameId) :
    (s.relocate f).resolveWithin name steps id = s.resolveWithin name steps id := by
  induction steps generalizing id with
  | zero => rfl
  | succ steps ih =>
    rw [resolveWithin, resolveWithin, frame?_relocate]
    cases s.frame? id with
    | none => rfl
    | some frame =>
      have hparent : (frame.relocate f).parent = frame.parent := rfl
      simp only [Option.map_some, Frame.has_relocate, hparent]
      split
      · rfl
      · cases frame.parent with
        | none => rfl
        | some outer => exact ih outer

theorem resolve?_relocate (s : Store) (id : FrameId) (name : String) :
    (s.relocate f).resolve? id name = s.resolve? id name := by
  have hsize : (s.relocate f).frames.size = s.frames.size := Array.size_map ..
  rw [resolve?, hsize, resolveWithin_relocate]
  rfl

theorem binding?_relocate (s : Store) (id : FrameId) (name : String) :
    (s.relocate f).binding? id name = (s.binding? id name).map (Binding.relocate f) := by
  rw [binding?, resolve?_relocate, binding?]
  cases s.resolve? id name with
  | none => rfl
  | some owner =>
    simp only [Option.bind_some, frame?_relocate]
    cases s.frame? owner with
    | none => rfl
    | some frame => exact Frame.find?_relocate f frame name

theorem relocate_id (s : Store) : s.relocate id = s := by
  have hb : ∀ b : Binding, b.relocate id = b := fun b => by rw [Binding.relocate, Value.relocate_id]
  have hf : ∀ frame : Frame, frame.relocate id = frame := by
    intro frame
    rw [Frame.relocate, List.map_congr_left fun b _ => hb b, List.map_id']
  obtain ⟨frames⟩ := s
  rw [relocate, Array.map_congr_left fun frame _ => hf frame, Array.map_id']

theorem push_relocate (s : Store) (parent : Option FrameId) :
    (s.relocate f).push parent = ((s.push parent).1, (s.push parent).2.relocate f) := by
  simp [push, relocate, Frame.relocate, Frame.empty]

theorem modify_relocate (s : Store) (id : FrameId) {g h : Frame → Frame}
    (hgh : ∀ frame, h (frame.relocate f) = (g frame).relocate f) :
    (s.relocate f).modify id h = (s.modify id g).relocate f := by
  simp only [modify, relocate, mk.injEq]
  refine Array.ext_getElem? fun j => ?_
  rw [Array.getElem?_modify, Array.getElem?_map, Array.getElem?_map, Array.getElem?_modify]
  cases s.frames[j]? with
  | none => split <;> rfl
  | some frame =>
    split
    · simp [hgh]
    · rfl

end Store

end Bahasa
