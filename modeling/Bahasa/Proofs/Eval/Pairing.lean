import Bahasa.Eval.Basic
import Bahasa.Proofs.Eval.Transport
import Bahasa.Proofs.Node.Regular
import Bahasa.Proofs.Value.Like

namespace Bahasa

def Failure.Raw : Failure → Prop
  | error _ place? => place? = none
  | _ => True

theorem Arith.apply_cases (op : Arith) (a b : Value) :
    op.apply a b = .null ∨ ∃ x, op.apply a b = .number x := by
  unfold Arith.apply
  split
  · exact .inr ⟨_, rfl⟩
  · exact .inl rfl

namespace Value

theorem forall_setSlot {S : Value → Prop} {key : String} {v : Value}
    {slots : List (String × Value)} (hv : S v) (hs : ∀ slot ∈ slots, S slot.2) :
    ∀ slot ∈ setSlot key v slots, S slot.2 := by
  intro slot hm
  induction slots with
  | nil =>
    obtain rfl := List.mem_singleton.mp hm
    exact hv
  | cons first slots ih =>
    obtain ⟨k, old⟩ := first
    obtain ⟨hfirst, hs⟩ := List.forall_mem_cons.mp hs
    rw [setSlot] at hm
    split at hm
    · obtain rfl | hm := List.mem_cons.mp hm
      · exact hv
      · exact hs slot hm
    · obtain rfl | hm := List.mem_cons.mp hm
      · exact hfirst
      · exact ih hs hm

/-- A property of values that an object takes from its slots and a function from its body. -/
structure Inherits (parts : Node → Prop) (fit : Value → Prop) : Prop where
  null : fit .null
  number (x : Float) : fit (.number x)
  string (s : String) : fit (.string s)
  bool (b : Bool) : fit (.bool b)
  object {slots : List (String × Value)} : fit (.object slots) ↔ ∀ slot ∈ slots, fit slot.2
  function {name : String} {params : List String} {body : List Node} {frame : FrameId} :
    fit (.function name params body frame) ↔ ∀ n ∈ body, parts n

namespace Inherits

variable {parts : Node → Prop} {fit : Value → Prop} (h : Inherits parts fit)

include h

theorem slot {v : Value} (key : Value) (hv : fit v) : fit (v.slot key) := by
  unfold Value.slot
  split
  · next slots key =>
    cases hl : slots.lookup key with
    | none => exact h.null
    | some found =>
      obtain ⟨before, after, rfl, -⟩ := List.lookup_eq_some_iff.mp hl
      exact h.object.mp hv (key, found) (by simp)
  · exact h.null

theorem apply (op : Arith) (a b : Value) : fit (op.apply a b) := by
  unfold Arith.apply
  split
  · exact h.number _
  · exact h.null

theorem compareValues (test : Float → Float → Bool) (a b : Value) :
    fit (compareValues test a b) := by
  unfold Bahasa.compareValues
  split
  · exact h.bool _
  · exact h.null

theorem joinValues (join : Bool → Bool → Bool) (a b : Value) : fit (joinValues join a b) := by
  unfold Bahasa.joinValues
  split
  · exact h.bool _
  · exact h.null

theorem len (args : List Value) : fit (Native.len args) := by
  unfold Native.len
  split
  · exact h.number _
  · exact h.number _
  · exact h.null

theorem str (args : List Value) : fit (Native.str args) := by
  unfold Native.str
  split
  · exact h.string _
  · exact h.string _

end Inherits

theorem inherits_true : Inherits (fun _ => True) fun _ => True where
  null := trivial
  number _ := trivial
  string _ := trivial
  bool _ := trivial
  object := iff_of_true trivial fun _ _ => trivial
  function := iff_of_true trivial fun _ _ => trivial

end Value

/-- What corresponds to what in two runs of a rule. The second run has its nodes at other places
and its frames under other names, as far as there are any when the store has some size. -/
structure Pairing where
  place : Place → Place
  homes : Nat → FrameId → FrameId → Prop
  parts : Node → Prop
  fit : Value → Prop
  strays : Prop
  grow : ∀ {size size' frame frame'}, size ≤ size' → homes size frame frame' →
    homes size' frame frame'
  inherits : Value.Inherits parts fit

namespace Pairing

structure Values (K : Pairing) (size : Nat) (v v' : Value) : Prop where
  fit : K.fit v
  like : (v.relocate K.place).Like (K.homes size) v'

structure Slots (K : Pairing) (size : Nat) (slots slots' : List (String × Value)) : Prop where
  fit : ∀ slot ∈ slots, K.fit slot.2
  like : Value.SlotsLike (K.homes size) (slots.map fun slot => (slot.1, slot.2.relocate K.place))
    slots'

variable {K : Pairing} {size size' : Nat}

namespace Values

variable {v v' a a' b b' : Value}

theorem null : K.Values size .null .null :=
  ⟨K.inherits.null, by simpa using .null⟩

theorem number (x : Float) : K.Values size (.number x) (.number x) :=
  ⟨K.inherits.number x, by simpa using .number x⟩

theorem string (s : String) : K.Values size (.string s) (.string s) :=
  ⟨K.inherits.string s, by simpa using .string s⟩

theorem function (name : String) (params : List String) {body : List Node}
    {frame frame' : FrameId} (hb : ∀ n ∈ body, K.parts n) (hf : K.homes size frame frame') :
    K.Values size (.function name params body frame)
      (.function name params (body.map (Node.relocate K.place)) frame') :=
  ⟨K.inherits.function.mpr hb, by simpa using .function name params _ hf⟩

theorem object {slots slots' : List (String × Value)} (h : K.Slots size slots slots') :
    K.Values size (.object slots) (.object slots') :=
  ⟨K.inherits.object.mpr h.fit, by simpa using .object h.like⟩

theorem slots {slots slots' : List (String × Value)}
    (h : K.Values size (.object slots) (.object slots')) : K.Slots size slots slots' := by
  have hlike := h.like
  rw [Value.relocate_object] at hlike
  cases hlike with
  | object hs => exact ⟨K.inherits.object.mp h.fit, hs⟩

theorem eq_null (h : K.Values size .null v') : v' = .null := by
  have hlike := h.like
  rw [Value.relocate_null] at hlike
  cases hlike
  rfl

theorem eq_number {x : Float} (h : K.Values size (.number x) v') : v' = .number x := by
  have hlike := h.like
  rw [Value.relocate_number] at hlike
  cases hlike
  rfl

theorem grow (h : K.Values size v v') (hs : size ≤ size') : K.Values size' v v' :=
  ⟨h.fit, h.like.mono fun _ _ => K.grow hs⟩

theorem isTruthy_eq (h : K.Values size v v') : v'.isTruthy = v.isTruthy := by
  rw [h.like.isTruthy_eq, Value.isTruthy_relocate]

theorem slot (hv : K.Values size v v') {key key' : Value} (hk : K.Values size key key') :
    K.Values size (v.slot key) (v'.slot key') := by
  refine ⟨K.inherits.slot key hv.fit, ?_⟩
  rw [← Value.slot_relocate]
  exact hv.like.slot hk.like

theorem apply (op : Arith) (ha : K.Values size a a') (hb : K.Values size b b') :
    K.Values size (op.apply a b) (op.apply a' b') := by
  refine ⟨K.inherits.apply op a b, ?_⟩
  rw [← Value.apply_relocate]
  exact ha.like.apply op hb.like

theorem compareValues (test : Float → Float → Bool) (ha : K.Values size a a')
    (hb : K.Values size b b') :
    K.Values size (compareValues test a b) (compareValues test a' b') := by
  refine ⟨K.inherits.compareValues test a b, ?_⟩
  rw [← Value.compareValues_relocate]
  exact ha.like.compareValues test hb.like

theorem joinValues (join : Bool → Bool → Bool) (ha : K.Values size a a')
    (hb : K.Values size b b') : K.Values size (joinValues join a b) (joinValues join a' b') := by
  refine ⟨K.inherits.joinValues join a b, ?_⟩
  rw [← Value.joinValues_relocate]
  exact ha.like.joinValues join hb.like

end Values

theorem Slots.nil : K.Slots size [] [] :=
  ⟨by simp, .nil⟩

theorem Slots.grow {slots slots' : List (String × Value)} (h : K.Slots size slots slots')
    (hs : size ≤ size') : K.Slots size' slots slots' :=
  ⟨h.fit, h.like.mono fun _ _ => K.grow hs⟩

theorem Slots.set {slots slots' : List (String × Value)} {v v' : Value} (key : String)
    (h : K.Slots size slots slots') (hv : K.Values size v v') :
    K.Slots size (setSlot key v slots) (setSlot key v' slots') := by
  refine ⟨Value.forall_setSlot hv.fit h.fit, ?_⟩
  rw [← Value.setSlot_relocate]
  exact h.like.setSlot key hv.like

/-- Nothing tells a value from itself. -/
def Blind (K : Pairing) : Prop :=
  ∀ size v, K.Values size v v

structure Yield (K : Pairing) (α : Type) where
  holds : Nat → α → α → Prop
  grow : ∀ {size size' a a'}, size ≤ size' → holds size a a' → holds size' a a'
  self : K.Blind → ∀ size a, holds size a a

def value (K : Pairing) : K.Yield Value :=
  ⟨K.Values, fun hs h => h.grow hs, fun hK size v => hK size v⟩

def values (K : Pairing) : K.Yield (List Value) :=
  ⟨fun size => List.Forall₂ (K.Values size), fun hs h => h.imp fun _ _ hv => hv.grow hs,
    fun hK size _ => List.forall₂_same.mpr fun v _ => hK size v⟩

def slots (K : Pairing) : K.Yield (List (String × Value)) :=
  ⟨K.Slots, fun hs h => h.grow hs, fun hK size slots => (hK size (.object slots)).slots⟩

def same (K : Pairing) {α : Type} : K.Yield α :=
  ⟨fun _ a a' => a = a', fun _ h => h, fun _ _ _ => rfl⟩

inductive Fails (K : Pairing) (size : Nat) : Failure → Failure → Prop
  | unfinished : Fails K size .unfinished .unfinished
  | target (operator : String) (n : Node) :
      Fails K size (.error (.target operator n) none)
        (.error (.target operator (n.relocate K.place)) none)
  | notCallable {v v' : Value} (h : K.Values size v v') :
      Fails K size (.error (.notCallable v) none) (.error (.notCallable v') none)
  | stuck (h : K.strays) : Fails K size .stuck .stuck
  | malformed {cause : Cause} (h : K.strays) (hc : ∀ v, cause ≠ .notCallable v) :
      Fails K size (.error cause none) (.error (cause.relocate K.place) none)

def moved (place : Place → Place) : Pairing where
  place := place
  homes _ frame frame' := frame = frame'
  parts _ := True
  fit _ := True
  strays := True
  grow _ h := h
  inherits := Value.inherits_true

theorem values_moved {place : Place → Place} {v v' : Value} :
    (moved place).Values size v v' ↔ v.relocate place = v' := by
  refine ⟨fun h => h.like.eq, fun h => ⟨trivial, ?_⟩⟩
  subst h
  exact Value.like_self _ fun _ _ => rfl

end Pairing

/-- What a routine may do in its frame. -/
structure Rights where
  asks : Node → Prop
  declares : Prop
  calls : Prop

def Pairing.full (K : Pairing) : Rights :=
  ⟨K.parts, True, True⟩

/-- Two runs, in frames of their own, that leave the evaluation of nodes to an evaluator and that
do at each step what corresponds. -/
inductive Paired (host : Host) (K : Pairing) : Rights → Nat → FrameId → FrameId → {α : Type} →
    K.Yield α → (Evaluator → Run α) → (Evaluator → Run α) → Prop
  | pure {R : Rights} {size : Nat} {frame frame' : FrameId} {α : Type} {Q : K.Yield α} {a a' : α}
      (h : Q.holds size a a') :
      Paired host K R size frame frame' Q (fun _ => Pure.pure a) fun _ => Pure.pure a'
  | fail {R : Rights} {size : Nat} {frame frame' : FrameId} {α : Type} {Q : K.Yield α}
      {f f' : Failure} (h : K.Fails size f f') :
      Paired host K R size frame frame' Q (fun _ => (throw f : Run α)) fun _ => throw f'
  | bind {R : Rights} {size : Nat} {frame frame' : FrameId} {α β : Type} {Q : K.Yield α}
      {P : K.Yield β} {r r' : Evaluator → Run α} {k k' : α → Evaluator → Run β}
      (hr : Paired host K R size frame frame' Q r r')
      (hk : ∀ size' a a', size ≤ size' → Q.holds size' a a' →
        Paired host K R size' frame frame' P (k a) (k' a')) :
      Paired host K R size frame frame' P (fun eval => r eval >>= fun a => k a eval)
        fun eval => r' eval >>= fun a => k' a eval
  | ask {R : Rights} {size : Nat} {frame frame' : FrameId} {n : Node} (h : R.asks n) :
      Paired host K R size frame frame' K.value (fun eval => eval n frame)
        fun eval => eval (n.relocate K.place) frame'
  | lookup {R : Rights} {size : Nat} {frame frame' : FrameId} (name : String) :
      Paired host K R size frame frame' K.value
        (fun _ => Run.access (Access.lookup frame name))
        fun _ => Run.access (Access.lookup frame' name)
  | assign {R : Rights} {size : Nat} {frame frame' : FrameId} (name : String) {v v' : Value}
      (hv : K.Values size v v') :
      Paired host K R size frame frame' K.value
        (fun _ => Run.access (Access.assign frame name v))
        fun _ => Run.access (Access.assign frame' name v')
  | declare {R : Rights} {size : Nat} {frame frame' : FrameId} (name : String) {v v' : Value}
      (constant : Bool) (hv : K.Values size v v') (h : R.declares) :
      Paired host K R size frame frame' K.value
        (fun _ => Run.access (Access.declare frame name v constant))
        fun _ => Run.access (Access.declare frame' name v' constant)
  | dropped {R : Rights} {size : Nat} {frame frame' : FrameId} (name : String) (extra : Nat) :
      Paired host K R size frame frame' K.same (fun _ => Run.record (.dropped name extra))
        fun _ => Run.record (.dropped name extra)
  | native {R : Rights} {size : Nat} {frame frame' : FrameId} {name : String}
      {args args' : List Value} (hn : K.fit (.native name))
      (ha : List.Forall₂ (K.Values size) args args') (h : R.calls) :
      Paired host K R size frame frame' K.value
        (fun _ => host name args frame >>= Reply.toValue)
        fun _ => host name args' frame' >>= Reply.toValue
  | call {R : Rights} {size : Nat} {frame frame' : FrameId} {α : Type} {Q : K.Yield α}
      (name : String) {args args' : Nat} {home home' : FrameId}
      {k k' : FrameId → Evaluator → Run α} (ha : args = args')
      (hh : K.homes size home home') (h : R.calls)
      (hk : ∀ size' scope scope', size ≤ size' → K.homes size' scope scope' →
        Paired host K K.full size' scope scope' Q (k scope) (k' scope')) :
      Paired host K R size frame frame' Q
        (fun eval => do
          Run.record (.call name args)
          let scope ← Run.pushFrame home
          k scope eval)
        fun eval => do
          Run.record (.call name args')
          let scope ← Run.pushFrame home'
          k' scope eval

end Bahasa
