import Bahasa.Cause
import Bahasa.Operator
import Bahasa.Eval.Native
import Mathlib.Data.List.Forall2

namespace Bahasa

variable {F : FrameId → FrameId → Prop}

namespace Value

inductive Captures : Value → FrameId → Prop
  | function (name : String) (params : List String) (body : List Node) (frame : FrameId) :
      Captures (.function name params body frame) frame
  | object {slots : List (String × Value)} {slot : String × Value} {frame : FrameId}
      (hs : slot ∈ slots) (h : Captures slot.2 frame) : Captures (.object slots) frame

mutual

/-- The same value, with frames that correspond by `F`. -/
inductive Like (F : FrameId → FrameId → Prop) : Value → Value → Prop
  | null : Like F .null .null
  | number (x : Float) : Like F (.number x) (.number x)
  | string (s : String) : Like F (.string s) (.string s)
  | bool (b : Bool) : Like F (.bool b) (.bool b)
  | object {slots slots' : List (String × Value)} (h : SlotsLike F slots slots') :
      Like F (.object slots) (.object slots')
  | function (name : String) (params : List String) (body : List Node) {frame frame' : FrameId}
      (h : F frame frame') :
      Like F (.function name params body frame) (.function name params body frame')
  | native (name : String) : Like F (.native name) (.native name)

inductive SlotsLike (F : FrameId → FrameId → Prop) :
    List (String × Value) → List (String × Value) → Prop
  | nil : SlotsLike F [] []
  | cons (key : String) {v v' : Value} {slots slots' : List (String × Value)} (hv : Like F v v')
      (hs : SlotsLike F slots slots') : SlotsLike F ((key, v) :: slots) ((key, v') :: slots')

end

variable {v v' key key' : Value} {slots slots' : List (String × Value)}

mutual

theorem like_self (v : Value) (h : ∀ g, v.Captures g → F g g) : v.Like F v := by
  cases v with
  | null => exact .null
  | number x => exact .number x
  | string s => exact .string s
  | bool b => exact .bool b
  | object slots => exact .object (slotsLike_self slots fun _ hm g hg => h g (.object hm hg))
  | function name params body frame => exact .function name params body (h frame (.function ..))
  | native name => exact .native name

theorem slotsLike_self (slots : List (String × Value))
    (h : ∀ slot ∈ slots, ∀ g, slot.2.Captures g → F g g) : SlotsLike F slots slots := by
  cases slots with
  | nil => exact .nil
  | cons slot slots =>
    obtain ⟨key, v⟩ := slot
    refine .cons key (like_self v (h (key, v) (List.mem_cons_self ..))) ?_
    exact slotsLike_self slots fun other hm => h other (List.mem_cons_of_mem _ hm)

end

mutual

theorem Like.mono {G : FrameId → FrameId → Prop} (hFG : ∀ g g', F g g' → G g g') {v v' : Value}
    (h : v.Like F v') : v.Like G v' := by
  cases h with
  | null => exact .null
  | number x => exact .number x
  | string s => exact .string s
  | bool b => exact .bool b
  | object hs => exact .object (hs.mono hFG)
  | function name params body hf => exact .function name params body (hFG _ _ hf)
  | native name => exact .native name

theorem SlotsLike.mono {G : FrameId → FrameId → Prop} (hFG : ∀ g g', F g g' → G g g')
    {slots slots' : List (String × Value)} (h : SlotsLike F slots slots') :
    SlotsLike G slots slots' := by
  cases h with
  | nil => exact .nil
  | cons key hv hs => exact .cons key (hv.mono hFG) (hs.mono hFG)

end

mutual

theorem Like.eq {v v' : Value} (h : v.Like Eq v') : v = v' := by
  cases h with
  | object hs => rw [hs.eq]
  | function name params body hf => rw [hf]
  | _ => rfl

theorem SlotsLike.eq {slots slots' : List (String × Value)} (h : SlotsLike Eq slots slots') :
    slots = slots' := by
  cases h with
  | nil => rfl
  | cons key hv hs => rw [hv.eq, hs.eq]

end

mutual

theorem Like.render_eq {v v' : Value} (h : v.Like F v') : v'.render = v.render := by
  cases h with
  | object hs =>
    cases hs with
    | nil => rfl
    | cons key hv hs =>
      have htail := (SlotsLike.cons key hv hs).renderSlots_eq
      rw [render, render, htail]
  | function name params body _ => rw [render, render]
  | _ => rfl

theorem SlotsLike.renderSlots_eq {slots slots' : List (String × Value)}
    (h : SlotsLike F slots slots') : renderSlots slots' = renderSlots slots := by
  cases h with
  | nil => rfl
  | cons key hv hs => rw [renderSlots, renderSlots, hv.render_eq, hs.renderSlots_eq]

end

theorem Like.toText_eq (h : v.Like F v') : v'.toText = v.toText := by
  have hr := h.render_eq
  cases h with
  | string s => rfl
  | _ => exact hr

theorem Like.isTruthy_eq (h : v.Like F v') : v'.isTruthy = v.isTruthy := by
  cases h <;> rfl

theorem SlotsLike.length_eq (h : SlotsLike F slots slots') : slots'.length = slots.length := by
  induction slots generalizing slots' with
  | nil =>
    cases h
    rfl
  | cons slot slots ih =>
    cases h with
    | cons key hv hs => rw [List.length_cons, List.length_cons, ih hs]

theorem SlotsLike.lookup (h : SlotsLike F slots slots') (key : String) :
    Option.Rel (Like F) (slots.lookup key) (slots'.lookup key) := by
  induction slots generalizing slots' with
  | nil =>
    cases h
    exact .none
  | cons slot slots ih =>
    cases h with
    | cons k hv hs =>
      rw [List.lookup_cons, List.lookup_cons]
      cases key == k with
      | true => exact .some hv
      | false => exact ih hs

theorem like_getD {found found' : Option Value} (h : Option.Rel (Like F) found found') :
    (found.getD .null).Like F (found'.getD .null) := by
  cases h with
  | some hv => exact hv
  | none => exact .null

theorem Like.slot (hv : v.Like F v') (hk : key.Like F key') :
    (v.slot key).Like F (v'.slot key') := by
  cases hv with
  | object hs =>
    cases hk with
    | string key => exact like_getD (hs.lookup key)
    | _ => exact .null
  | _ => exact .null

theorem Like.apply (op : Arith) {a a' b b' : Value} (ha : a.Like F a') (hb : b.Like F b') :
    (op.apply a b).Like F (op.apply a' b') := by
  cases ha with
  | number x =>
    cases hb with
    | number y => exact .number _
    | _ => exact .null
  | _ => exact .null

theorem Like.compareValues (test : Float → Float → Bool) {a a' b b' : Value} (ha : a.Like F a')
    (hb : b.Like F b') : (compareValues test a b).Like F (compareValues test a' b') := by
  cases ha with
  | number x =>
    cases hb with
    | number y => exact .bool _
    | _ => exact .null
  | _ => exact .null

theorem Like.joinValues (join : Bool → Bool → Bool) {a a' b b' : Value} (ha : a.Like F a')
    (hb : b.Like F b') : (joinValues join a b).Like F (joinValues join a' b') := by
  cases ha with
  | bool x =>
    cases hb with
    | bool y => exact .bool _
    | _ => exact .null
  | _ => exact .null

theorem SlotsLike.setSlot (key : String) (hs : SlotsLike F slots slots') (hv : v.Like F v') :
    SlotsLike F (setSlot key v slots) (setSlot key v' slots') := by
  induction slots generalizing slots' with
  | nil =>
    cases hs
    exact .cons key hv .nil
  | cons slot slots ih =>
    cases hs with
    | cons k hold hs =>
      unfold Bahasa.setSlot
      by_cases hk : k = key
      · rw [if_pos hk, if_pos hk]
        exact .cons k hv hs
      · rw [if_neg hk, if_neg hk]
        exact .cons k hold (ih hs)

/-- Lists of values that are alike one by one. -/
abbrev AllLike (F : FrameId → FrameId → Prop) : List Value → List Value → Prop :=
  List.Forall₂ (Like F)

variable {args args' : List Value}

theorem AllLike.texts_eq (h : AllLike F args args') : args'.map toText = args.map toText := by
  induction h with
  | nil => rfl
  | cons ha _ ih => rw [List.map_cons, List.map_cons, ha.toText_eq, ih]

theorem AllLike.len (h : AllLike F args args') : (Native.len args).Like F (Native.len args') := by
  cases h with
  | nil => exact .null
  | cons ha _ =>
    cases ha with
    | string s => exact .number _
    | object hs =>
      rw [Native.len, Native.len, hs.length_eq]
      exact .number _
    | _ => exact .null

theorem AllLike.str (h : AllLike F args args') : (Native.str args).Like F (Native.str args') := by
  cases h with
  | nil => exact .string ""
  | cons ha _ =>
    rw [Native.str, Native.str, ha.toText_eq]
    exact .string _

end Value

inductive Cause.Like (F : FrameId → FrameId → Prop) : Cause → Cause → Prop
  | notCallable {v v' : Value} (h : v.Like F v') : Like F (.notCallable v) (.notCallable v')
  | same {cause : Cause} (h : ∀ v, cause ≠ .notCallable v) : Like F cause cause

end Bahasa
