import Bahasa.Proofs.Eval.Invariant
import Bahasa.Proofs.Eval.Likeness

namespace Bahasa

variable {P : Node → Prop}

/-- The functions in the value, at whatever depth of its objects, have bodies of nodes with the
property. -/
inductive Value.Holds (P : Node → Prop) : Value → Prop
  | null : Holds P .null
  | number (x : Float) : Holds P (.number x)
  | string (s : String) : Holds P (.string s)
  | bool (b : Bool) : Holds P (.bool b)
  | object {slots : List (String × Value)} (h : ∀ slot ∈ slots, Holds P slot.2) :
      Holds P (.object slots)
  | function (name : String) (params : List String) {body : List Node} (frame : FrameId)
      (h : ∀ n ∈ body, P n) : Holds P (.function name params body frame)
  | native (name : String) : Holds P (.native name)

namespace Value

mutual

theorem holds_of_forall (h : ∀ n, P n) (v : Value) : v.Holds P := by
  cases v with
  | null => exact .null
  | number x => exact .number x
  | string s => exact .string s
  | bool b => exact .bool b
  | object slots => exact .object (slots_hold_of_forall h slots)
  | function name params body frame => exact .function name params frame fun n _ => h n
  | native name => exact .native name

theorem slots_hold_of_forall (h : ∀ n, P n) (slots : List (String × Value)) :
    ∀ slot ∈ slots, slot.2.Holds P := by
  cases slots with
  | nil => exact nofun
  | cons slot slots =>
    obtain ⟨key, v⟩ := slot
    intro other hm
    obtain rfl | hm := List.mem_cons.mp hm
    · exact holds_of_forall h v
    · exact slots_hold_of_forall h slots other hm

end

theorem inherits_holds : Inherits P (Holds P) where
  null := .null
  number := .number
  string := .string
  bool := .bool
  object := ⟨fun | .object h => h, .object⟩
  function := ⟨fun | .function _ _ _ h => h, .function _ _ _⟩

end Value

def Reply.Holds (P : Node → Prop) : Reply → Prop
  | .value v => v.Holds P
  | _ => True

abbrev World.Holds (P : Node → Prop) (w : World) : Prop :=
  w.store.Every (Value.Holds P)

theorem Reply.holds_of_forall (h : ∀ n, P n) (reply : Reply) : reply.Holds P := by
  cases reply with
  | value v => exact Value.holds_of_forall h v
  | _ => trivial

theorem World.holds_of_forall (h : ∀ n, P n) (w : World) : w.Holds P :=
  fun _ _ _ _ _ => Value.holds_of_forall h _

namespace Failure

def bare : Failure → Failure
  | error cause _ => error cause none
  | f => f

structure Same (exact : Prop) (f g : Failure) : Prop where
  bare : g.bare = f.bare
  whole : exact → g = f

theorem bare_locate (f : Failure) (place? : Option Place) : (f.locate place?).bare = f.bare := by
  cases f with
  | error cause place =>
    cases place with
    | none => rfl
    | some p => rfl
  | _ => rfl

variable {exact : Prop} {f g : Failure}

theorem Same.refl (f : Failure) : Same exact f f :=
  ⟨rfl, fun _ => rfl⟩

theorem Same.locate (h : Same exact f g) (place? : Option Place) :
    Same exact (f.locate place?) (g.locate place?) := by
  refine ⟨?_, fun he => congrArg (Failure.locate place?) (h.whole he)⟩
  rw [bare_locate, bare_locate, h.bare]

/-- The failure is given no other place any more. -/
def Settled : Failure → Prop
  | error _ place? => place?.isSome
  | _ => True

theorem Settled.locate (h : f.Settled) (place? : Option Place) : f.locate place? = f := by
  cases f with
  | error cause place =>
    obtain ⟨p, rfl⟩ := Option.isSome_iff_exists.mp h
    rfl
  | _ => rfl

theorem settled_locate {place? : Option Place} (hp : place?.isSome) (f : Failure) :
    (f.locate place?).Settled := by
  cases f with
  | error cause place =>
    cases place with
    | none => exact hp
    | some p => exact rfl
  | _ => trivial

structure SameSettled (exact : Prop) (f g : Failure) : Prop extends Same exact f g where
  settled : exact → f.Settled

theorem SameSettled.locate (h : SameSettled exact f g) (p p' : Option Place) :
    SameSettled exact (f.locate p) (g.locate p') := by
  refine ⟨⟨?_, fun he => ?_⟩, fun he => ?_⟩
  · rw [bare_locate, bare_locate, h.bare]
  · obtain rfl := h.whole he
    rw [(h.settled he).locate, (h.settled he).locate]
  · rw [(h.settled he).locate]
    exact h.settled he

end Failure

namespace Run

variable {α β : Type} {E : Failure → Failure → Prop} {Q : α → Prop} {Q' : β → Prop} {r : Run α}
  {s : Nat → Run α}

structure Preserves (P : Node → Prop) (Q : α → Prop) (r : Run α) : Prop where
  ends : ∀ w : World, w.Holds P →
    match r w with
    | .ok a w' => w'.Holds P ∧ Q a
    | .error _ w' => w'.Holds P

namespace Preserves

theorem pure {a : α} (h : Q a) : Preserves P Q (Pure.pure a) :=
  ⟨fun _ hw => ⟨hw, h⟩⟩

theorem throw (f : Failure) : Preserves P Q (MonadExcept.throw f : Run α) :=
  ⟨fun _ hw => hw⟩

theorem raise (cause : Cause) : Preserves P Q (Run.raise cause : Run α) :=
  throw _

theorem bind {k : α → Run β} (hr : Preserves P Q r) (hk : ∀ a, Q a → Preserves P Q' (k a)) :
    Preserves P Q' (r >>= k) := by
  refine ⟨fun w hw => ?_⟩
  have h := hr.ends w hw
  change match EStateM.bind r k w with
    | .ok b w' => w'.Holds P ∧ Q' b
    | .error _ w' => w'.Holds P
  unfold EStateM.bind
  cases hrw : r w with
  | ok a w' =>
    rw [hrw] at h
    exact (hk a h.2).ends w' h.1
  | error f w' =>
    rw [hrw] at h
    exact h

theorem of_forall (h : ∀ n, P n) (hq : ∀ a, Q a) (r : Run α) : Preserves P Q r := by
  refine ⟨fun w _ => ?_⟩
  cases r w with
  | ok a w' => exact ⟨w'.holds_of_forall h, hq a⟩
  | error f w' => exact w'.holds_of_forall h

theorem record (r : Record) : Preserves P (fun _ => True) (Run.record r) :=
  ⟨fun _ hw => ⟨hw, trivial⟩⟩

theorem emit (text : String) : Preserves P (fun _ => True) (Run.emit text) :=
  ⟨fun _ hw => ⟨hw, trivial⟩⟩

theorem tick : Preserves P (fun _ => True) Run.tick :=
  ⟨fun _ hw => ⟨hw, trivial⟩⟩

theorem pushFrame (parent : FrameId) : Preserves P (fun _ => True) (Run.pushFrame parent) :=
  ⟨fun _ hw => ⟨Store.Every.push hw _, trivial⟩⟩

theorem access {op : Access Value} (h : op.Keeps (Value.Holds P)) :
    Preserves P (Value.Holds P) (Run.access op) := by
  refine ⟨fun w hw => ?_⟩
  have hop := h.ends w.store hw
  unfold Run.access
  cases ho : op w.store with
  | ok v store' =>
    rw [ho] at hop
    exact hop
  | error cause store' =>
    rw [ho] at hop
    exact hop.1

end Preserves

/-- Unless the run gives up at its depth, the runs `s` come from some number on to the end that it
comes to, in the same world, with the same result or with failures that `E` relates. -/
structure Reproduces (P : Node → Prop) (E : Failure → Failure → Prop) (Q : α → Prop) (r : Run α)
    (s : Nat → Run α) : Prop where
  ends : ∀ w : World, w.Holds P → (∃ w', r w = .error .tooDeep w') ∨ ∃ k, ∀ j, k ≤ j →
    Ends E (fun w₁ w₂ => w₂ = w₁ ∧ w₁.Holds P) (fun a b => b = a ∧ Q a) (r w) (s j w)

theorem Preserves.reproduces (h : Preserves P Q r) (hE : ∀ f, E f f) :
    Reproduces P E Q r fun _ => r := by
  refine ⟨fun w hw => .inr ⟨0, fun _ _ => ?_⟩⟩
  have hend := h.ends w hw
  cases hr : r w with
  | ok a w' =>
    rw [hr] at hend
    exact .ok ⟨rfl, hend.1⟩ ⟨rfl, hend.2⟩
  | error f w' =>
    rw [hr] at hend
    exact .error ⟨rfl, hend⟩ (hE f)

namespace Reproduces

theorem tooDeep : Reproduces P E Q (throw .tooDeep) s :=
  ⟨fun w _ => .inl ⟨w, rfl⟩⟩

theorem bind {k : α → Run β} {l : Nat → α → Run β} (hr : Reproduces P E Q r s)
    (hk : ∀ a, Q a → Reproduces P E Q' (k a) fun j => l j a) :
    Reproduces P E Q' (r >>= k) fun j => s j >>= l j := by
  refine ⟨fun w hw => ?_⟩
  change (∃ w', EStateM.bind r k w = .error .tooDeep w') ∨ ∃ i, ∀ j, i ≤ j →
    Ends E _ _ (EStateM.bind r k w) (EStateM.bind (s j) (l j) w)
  unfold EStateM.bind
  obtain ⟨w', hrw⟩ | ⟨i, hi⟩ := hr.ends w hw
  · rw [hrw]
    exact .inl ⟨w', rfl⟩
  · cases hrw : r w with
    | error f w' =>
      rw [hrw] at hi
      refine .inr ⟨i, fun j hj => ?_⟩
      have hend := hi j hj
      generalize s j w = other at hend
      cases hend with
      | error hs he => exact .error hs he
    | ok a w' =>
      rw [hrw] at hi
      have hsame : ∀ j, i ≤ j → s j w = .ok a w' ∧ w'.Holds P ∧ Q a := by
        intro j hj
        have hend := hi j hj
        generalize s j w = other at hend
        cases hend with
        | ok hs hq => exact ⟨by rw [hs.1, hq.1], hs.2, hq.2⟩
      obtain ⟨-, hw', ha⟩ := hsame i (Nat.le_refl i)
      obtain hdeep | ⟨i', hi'⟩ := (hk a ha).ends w' hw'
      · exact .inl hdeep
      · refine .inr ⟨max i i', fun j hj => ?_⟩
        rw [(hsame j (Nat.le_trans (Nat.le_max_left ..) hj)).1]
        exact hi' j (Nat.le_trans (Nat.le_max_right ..) hj)

theorem imp {R : α → Prop} (hr : Reproduces P E Q r s) (hQ : ∀ a, Q a → R a) :
    Reproduces P E R r s := by
  refine ⟨fun w hw => (hr.ends w hw).imp_right fun ⟨i, hi⟩ => ⟨i, fun j hj => ?_⟩⟩
  have hend := hi j hj
  generalize r w = end₁, s j w = end₂ at hend
  cases hend with
  | ok hs hq => exact .ok hs ⟨hq.1, hQ _ hq.2⟩
  | error hs he => exact .error hs he

theorem located {E' : Failure → Failure → Prop} (hr : Reproduces P E Q r s) (p p' : Option Place)
    (hE : ∀ f g, E f g → E' (f.locate p) (g.locate p')) :
    Reproduces P E' Q (Run.located p r) fun j => Run.located p' (s j) := by
  refine ⟨fun w hw => ?_⟩
  unfold Run.located
  obtain ⟨w', hrw⟩ | ⟨i, hi⟩ := hr.ends w hw
  · rw [hrw]
    exact .inl ⟨w', rfl⟩
  · refine .inr ⟨i, fun j hj => ?_⟩
    have hend := hi j hj
    generalize r w = end₁, s j w = end₂ at hend
    cases hend with
    | ok hs hq => exact .ok hs hq
    | error hs he => exact .error hs (hE _ _ he)

theorem settled {exact : Prop} (hr : Reproduces P (Failure.Same exact) Q r s)
    (hf : exact → ∀ w f w', r w = .error f w' → f.Settled) :
    Reproduces P (Failure.SameSettled exact) Q r s := by
  refine ⟨fun w hw => (hr.ends w hw).imp_right fun ⟨i, hi⟩ => ⟨i, fun j hj => ?_⟩⟩
  have hend := hi j hj
  cases hrw : r w with
  | ok a w' =>
    rw [hrw] at hend
    generalize s j w = other at hend
    cases hend with
    | ok hs hq => exact .ok hs hq
  | error f w' =>
    rw [hrw] at hend
    generalize s j w = other at hend
    cases hend with
    | error hs he => exact .error hs ⟨he, fun h => hf h w f w' hrw⟩

theorem shift (hr : Reproduces P E Q r fun j => s (j + 1)) : Reproduces P E Q r s := by
  refine ⟨fun w hw => (hr.ends w hw).imp_right fun ⟨i, hi⟩ => ⟨i + 1, fun j hj => ?_⟩⟩
  obtain ⟨j, rfl⟩ : ∃ j', j = j' + 1 := ⟨j - 1, by omega⟩
  exact hi j (Nat.le_of_succ_le_succ hj)

end Reproduces

theorem located_none (r : Run α) : Run.located none r = r := by
  funext w
  unfold Run.located
  cases r w with
  | ok a w' => rfl
  | error f w' =>
    cases f with
    | error cause place? => cases place? <;> rfl
    | _ => rfl

theorem located_settled {p : Option Place} (hp : p.isSome) {w w' : World} {f : Failure}
    (h : Run.located p r w = .error f w') : f.Settled := by
  unfold Run.located at h
  cases hr : r w with
  | ok a w₁ =>
    rw [hr] at h
    cases h
  | error g w₁ =>
    rw [hr] at h
    cases h
    exact g.settled_locate hp

end Run

end Bahasa
