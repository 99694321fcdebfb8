import Bahasa.Eval.Basic
import Bahasa.Proofs.Shape

namespace Bahasa

/-- The text of a number leaf that can be evaluated. -/
def Readable (text : String) : Prop :=
  (Decimal.read? text).isSome

inductive Value.Sound : Value → Prop
  | null : Sound .null
  | number (x : Float) : Sound (.number x)
  | string (s : String) : Sound (.string s)
  | bool (b : Bool) : Sound (.bool b)
  | object {slots : List (String × Value)} (h : ∀ slot ∈ slots, Sound slot.2) :
      Sound (.object slots)
  | function (name : String) (params : List String) {body : List Node} (frame : FrameId)
      (h : ∀ n ∈ body, n.Fits Readable .statement) : Sound (.function name params body frame)
  | native {name : String} (h : name ∈ Native.names) : Sound (.native name)

def Store.Every (S : Value → Prop) (s : Store) : Prop :=
  ∀ id f, s.frame? id = some f → ∀ b ∈ f.bindings, S b.value

def Store.Sound (s : Store) : Prop :=
  ∀ id f, s.frame? id = some f → ∀ b ∈ f.bindings, b.value.Sound

/-- The causes that a program can bring about itself. -/
def Cause.Ordinary : Cause → Prop
  | .redeclared _ | .undeclared _ | .constant _ | .target _ _ | .notCallable _ => True
  | _ => False

def Failure.Ordinary : Failure → Prop
  | .error cause _ => cause.Ordinary
  | .tooDeep | .unfinished => True
  | .stuck => False

theorem Failure.Ordinary.locate {f : Failure} (h : f.Ordinary) (place? : Option Place) :
    (f.locate place?).Ordinary := by
  cases f with
  | error cause place =>
    cases place with
    | none => exact h
    | some _ => exact h
  | tooDeep => exact h
  | unfinished => exact h
  | stuck => exact h

namespace Store

theorem frame?_modify (s : Store) (id j : FrameId) (g : Frame → Frame) :
    (s.modify id g).frame? j = if id = j then (s.frame? j).map g else s.frame? j := by
  simp only [frame?, modify, Array.getElem?_modify]

theorem frame?_push (s : Store) (parent : Option FrameId) (j : FrameId) :
    (s.push parent).2.frame? j =
      if j = s.frames.size then some (.empty parent) else s.frame? j := by
  simp only [frame?, push, Array.getElem?_push]

theorem Every.modify {S : Value → Prop} {s : Store} (hs : s.Every S) (id : FrameId)
    {g : Frame → Frame}
    (hg : ∀ f, (∀ b ∈ f.bindings, S b.value) → ∀ b ∈ (g f).bindings, S b.value) :
    (s.modify id g).Every S := by
  intro j f hf
  rw [frame?_modify] at hf
  split at hf
  · obtain ⟨old, hold, rfl⟩ := Option.map_eq_some_iff.mp hf
    exact hg old (hs j old hold)
  · exact hs j f hf

theorem Every.push {S : Value → Prop} {s : Store} (hs : s.Every S) (parent : Option FrameId) :
    (s.push parent).2.Every S := by
  intro j f hf
  rw [frame?_push] at hf
  split at hf
  · cases hf
    simp [Frame.empty]
  · exact hs j f hf

end Store

theorem Binding.mem_set {name : String} {v : Value} {bs : List Binding} {b : Binding}
    (h : b ∈ Binding.set name v bs) : b ∈ bs ∨ b.value = v := by
  induction bs with
  | nil => cases h
  | cons c bs ih =>
    unfold Binding.set at h
    split at h
    · obtain rfl | h := List.mem_cons.mp h
      · exact .inr rfl
      · exact .inl (List.mem_cons_of_mem _ h)
    · obtain rfl | h := List.mem_cons.mp h
      · exact .inl (List.mem_cons_self ..)
      · exact (ih h).imp_left (List.mem_cons_of_mem _)

namespace Access

variable {S : Value → Prop}

structure Keeps (S : Value → Prop) (op : Access Value) : Prop where
  ends : ∀ s : Store, s.Every S →
    match op s with
    | .ok v s' => s'.Every S ∧ S v
    | .error cause s' => s'.Every S ∧ cause.Ordinary

theorem Keeps.declare (id : FrameId) (name : String) {v : Value} (constant : Bool) (hv : S v) :
    Keeps S (Access.declare id name v constant) := by
  refine ⟨fun s hs => ?_⟩
  by_cases h : s.has id name = true
  · simp only [Access.declare, h, if_true]
    exact ⟨hs, trivial⟩
  · simp only [Access.declare, h]
    refine ⟨hs.modify id ?_, hv⟩
    intro f hf b hb
    obtain hb | hb := List.mem_append.mp hb
    · exact hf b hb
    · obtain rfl := List.mem_singleton.mp hb
      exact hv

theorem Keeps.lookup (id : FrameId) (name : String) : Keeps S (Access.lookup id name) := by
  refine ⟨fun s hs => ?_⟩
  cases h : s.binding? id name with
  | none =>
    simp only [Access.lookup, h]
    exact ⟨hs, trivial⟩
  | some b =>
    simp only [Access.lookup, h]
    refine ⟨hs, ?_⟩
    obtain ⟨owner, -, h⟩ := Option.bind_eq_some_iff.mp h
    obtain ⟨f, hf, h⟩ := Option.bind_eq_some_iff.mp h
    exact hs owner f hf b (List.mem_of_find?_eq_some h)

theorem Keeps.assign (id : FrameId) (name : String) {v : Value} (hv : S v) :
    Keeps S (Access.assign id name v) := by
  refine ⟨fun s hs => ?_⟩
  simp only [Access.assign]
  cases s.resolve? id name with
  | none => exact ⟨hs, trivial⟩
  | some owner =>
    by_cases h : ((s.frame? owner).bind (·.find? name)).any (·.constant) = true
    · simp only [h, if_true]
      exact ⟨hs, trivial⟩
    · simp only [h]
      refine ⟨hs.modify owner ?_, hv⟩
      intro f hf b hb
      obtain hb | hb := Binding.mem_set hb
      · exact hf b hb
      · exact hb ▸ hv

end Access

namespace Run

variable {α β : Type} {Q : α → Prop} {P : β → Prop}

/-- From a sound store the run ends with a sound store, and with a result as asked for or an
ordinary failure. -/
structure Safe (Q : α → Prop) (r : Run α) : Prop where
  keeps : ∀ w, w.store.Sound →
    match r w with
    | .ok a w' => w'.store.Sound ∧ Q a
    | .error f w' => w'.store.Sound ∧ f.Ordinary

theorem Safe.pure {a : α} (h : Q a) : Safe Q (Pure.pure a) :=
  ⟨fun _ hw => ⟨hw, h⟩⟩

theorem Safe.throw {f : Failure} (h : f.Ordinary) : Safe Q (MonadExcept.throw f : Run α) :=
  ⟨fun _ hw => ⟨hw, h⟩⟩

theorem Safe.bind {r : Run α} {k : α → Run β} (hr : Safe Q r) (hk : ∀ a, Q a → Safe P (k a)) :
    Safe P (r >>= k) := by
  refine ⟨fun w hw => ?_⟩
  have h := hr.keeps w hw
  change match EStateM.bind r k w with
    | .ok b w' => w'.store.Sound ∧ P b
    | .error f w' => w'.store.Sound ∧ f.Ordinary
  unfold EStateM.bind
  cases hrw : r w with
  | ok a w' =>
    rw [hrw] at h
    exact (hk a h.2).keeps w' h.1
  | error f w' =>
    rw [hrw] at h
    exact h

theorem Safe.imp {Q' : α → Prop} {r : Run α} (hr : Safe Q r) (hQ : ∀ a, Q a → Q' a) :
    Safe Q' r := by
  refine ⟨fun w hw => ?_⟩
  have h := hr.keeps w hw
  cases hrw : r w with
  | ok a w' =>
    rw [hrw] at h
    exact ⟨h.1, hQ a h.2⟩
  | error f w' =>
    rw [hrw] at h
    exact h

theorem Safe.located {r : Run α} (hr : Safe Q r) (place? : Option Place) :
    Safe Q (Run.located place? r) := by
  refine ⟨fun w hw => ?_⟩
  have h := hr.keeps w hw
  unfold Run.located
  cases hrw : r w with
  | ok a w' =>
    rw [hrw] at h
    exact h
  | error f w' =>
    rw [hrw] at h
    exact ⟨h.1, h.2.locate place?⟩

theorem Safe.record (r : Record) : Safe (fun _ => True) (Run.record r) :=
  ⟨fun _ hw => ⟨hw, trivial⟩⟩

theorem Safe.emit (text : String) : Safe (fun _ => True) (Run.emit text) :=
  ⟨fun _ hw => ⟨hw, trivial⟩⟩

theorem Safe.tick : Safe (fun _ => True) Run.tick :=
  ⟨fun _ hw => ⟨hw, trivial⟩⟩

theorem Safe.pushFrame (parent : FrameId) : Safe (fun _ => True) (Run.pushFrame parent) :=
  ⟨fun _ hw => ⟨Store.Every.push hw _, trivial⟩⟩

theorem Safe.access {op : Access Value} (h : op.Keeps Value.Sound) :
    Safe Value.Sound (Run.access op) := by
  refine ⟨fun w hw => ?_⟩
  have hop := h.ends w.store hw
  unfold Run.access
  cases ho : op w.store with
  | ok v store' | error cause store' =>
    rw [ho] at hop
    exact hop

theorem Safe.declare (id : FrameId) (name : String) {v : Value} (constant : Bool) (hv : v.Sound) :
    Safe Value.Sound (Run.access (Access.declare id name v constant)) :=
  .access (.declare id name constant hv)

theorem Safe.lookup (id : FrameId) (name : String) :
    Safe Value.Sound (Run.access (Access.lookup id name)) :=
  .access (.lookup id name)

theorem Safe.assign (id : FrameId) (name : String) {v : Value} (hv : v.Sound) :
    Safe Value.Sound (Run.access (Access.assign id name v)) :=
  .access (.assign id name hv)

end Run

end Bahasa
