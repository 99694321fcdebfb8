import Bahasa.Proofs.Eval.Likeness

namespace Bahasa

/-- The same nodes, in frames that correspond. -/
def Likeness.pairing (l : Likeness) : Pairing where
  place := id
  homes _ := l.frames
  parts _ := True
  fit _ := True
  strays := True
  grow _ h := h
  inherits := Value.inherits_true

namespace Likeness

variable {l : Likeness} {size : Nat}

theorem values_iff {v v' : Value} : l.pairing.Values size v v' ↔ v.Like l.frames v' := by
  have hplace : v.relocate l.pairing.place = v := v.relocate_id
  refine ⟨fun h => hplace ▸ h.like, fun h => ⟨trivial, ?_⟩⟩
  rw [hplace]
  exact h

theorem fails_like {f f' : Failure} (h : l.pairing.Fails size f f') : f.Like l.frames f' := by
  cases h with
  | unfinished => exact .unfinished
  | stuck _ => exact .stuck
  | target operator n =>
    rw [show n.relocate l.pairing.place = n from n.relocate_id]
    exact .error none (.same (by simp))
  | notCallable hv => exact .error none (.notCallable (values_iff.mp hv))
  | @malformed cause _ hc =>
    rw [show cause.relocate l.pairing.place = cause from cause.relocate_id]
    exact .error none (.same hc)

end Likeness

namespace Eval

open Run (Alike)

def AlikeOn (l : Likeness) (eval : Evaluator) : Prop :=
  ∀ n frame frame', l.frames frame frame' →
    Alike l (Value.Like l.frames) (eval n frame) (eval n frame')

variable {l : Likeness}

section Natives

inductive ReplyLike (F : FrameId → FrameId → Prop) : Reply → Reply → Prop
  | value {v v' : Value} (h : v.Like F v') : ReplyLike F (.value v) (.value v')
  | nothing : ReplyLike F .nothing .nothing
  | foreign (typeName : String) : ReplyLike F (.foreign typeName) (.foreign typeName)

theorem toValue_alike {r r' : Reply} (hr : ReplyLike l.frames r r') :
    Alike l (Value.Like l.frames) r.toValue r'.toValue := by
  cases hr with
  | value hv => exact .pure hv
  | nothing => exact .pure .null
  | foreign typeName => exact .raise (.same nofun)

def AlikeHost (l : Likeness) (host : Host) : Prop :=
  ∀ name {args args'} frame frame', Value.AllLike l.frames args args' →
    Alike l (ReplyLike l.frames) (host name args frame) (host name args' frame')

theorem standard_alike (clock : Nat → Int) : AlikeHost l (Native.standard clock) := by
  intro name args args' frame frame' ha
  unfold Native.standard
  split
  · unfold Native.print
    rw [ha.texts_eq]
    exact (Alike.emit _).bind fun _ _ _ => .pure (.value .null)
  · exact Alike.tick.bind fun _ _ hab => .pure (hab ▸ .value (.number _))
  · exact .pure (.value ha.len)
  · exact .pure (.value ha.str)
  · exact .stuck

end Natives

end Eval

open Run (Alike)

variable {l : Likeness} {host : Host} {eval : Evaluator} {frame frame' : FrameId}

theorem Paired.alike {R : Rights} {size : Nat} {α : Type} {Q : l.pairing.Yield α}
    {r r' : Evaluator → Run α} (hhost : Eval.AlikeHost l host) (he : Eval.AlikeOn l eval)
    (h : Paired host l.pairing R size frame frame' Q r r') (hf : l.frames frame frame') :
    Alike l (Q.holds size) (r eval) (r' eval) := by
  have hv : ∀ {size} v v', Value.Like l.frames v v' → l.pairing.value.holds size v v' :=
    fun _ _ => Likeness.values_iff.mpr
  induction h with
  | pure h => exact .pure h
  | fail h => exact .throw (Likeness.fails_like h)
  | @bind _ size _ _ _ _ _ _ _ _ _ _ _ _ ihr ihk =>
    exact (ihr hf).bind fun a a' h => ihk size a a' (Nat.le_refl size) h hf
  | @ask _ _ _ _ n _ =>
    rw [show n.relocate l.pairing.place = n from n.relocate_id]
    exact (he n _ _ hf).imp hv
  | lookup name => exact (Alike.lookup hf name).imp hv
  | assign name h => exact (Alike.assign hf name (Likeness.values_iff.mp h)).imp hv
  | declare name constant h _ =>
    exact (Alike.declare hf name (Likeness.values_iff.mp h) constant).imp hv
  | dropped name extra => exact .record _
  | @native _ _ frame frame' name args args' _ ha _ =>
    have hargs : Value.AllLike l.frames args args' := ha.imp fun _ _ => Likeness.values_iff.mp
    exact ((hhost name frame frame' hargs).bind fun _ _ h => Eval.toValue_alike h).imp hv
  | @call _ size _ _ _ _ name _ _ _ _ _ _ ha hh _ _ ihk =>
    subst ha
    refine (Alike.record _).bind fun _ _ _ => (Alike.pushFrame hh).bind fun scope scope' h => ?_
    exact ihk size scope scope' (Nat.le_refl size) h h

namespace Eval

variable {m : Machine}

/-- A call does alike wherever it comes from: the caller's frame has no part in it. -/
theorem apply_alike (hh : AlikeHost l host) (he : AlikeOn l eval) {callee callee' : Value}
    {args args' : List Value} (hc : callee.Like l.frames callee')
    (ha : Value.AllLike l.frames args args') (frame frame' : FrameId) :
    Alike l (Value.Like l.frames) (apply host eval frame callee args)
      (apply host eval frame' callee' args') := by
  have hv := Cause.Like.notCallable hc
  cases hc with
  | native name => exact (hh name frame frame' ha).bind fun _ _ h => toValue_alike h
  | function name params body hhome =>
    have hargs : List.Forall₂ (l.pairing.Values 0) args args' :=
      ha.imp fun _ _ => Likeness.values_iff.mpr
    have hrecord : Alike l Eq (Run.record (.call name args.length))
        (Run.record (.call name args'.length)) := ha.length_eq ▸ .record _
    refine hrecord.bind fun _ _ _ => (Alike.pushFrame hhome).bind fun scope scope' hs => ?_
    have hbody : ∀ n ∈ body, l.pairing.parts n := fun _ _ => trivial
    have hends := ((entered_paired name params hbody hargs).alike hh he hs).imp
      fun _ _ => Likeness.values_iff.mp
    have hbody : body.map (Node.relocate l.pairing.place) = body := Node.relocate_all_id body
    rwa [hbody] at hends
  | _ => exact .raise hv

theorem step_alike (hh : AlikeHost l m.host) (he : AlikeOn l eval) (n : Node)
    (hf : l.frames frame frame') :
    Alike l (Value.Like l.frames) (step m eval n frame) (step m eval n frame') := by
  have hn : Given l.pairing l.pairing.full n := .of_strays trivial fun _ _ => trivial
  have hstep : Paired m.host l.pairing l.pairing.full 0 frame frame' l.pairing.value
      (fun eval => step m eval n frame) fun eval => step m eval (n.relocate id) frame' :=
    step_paired m hn (.inl trivial) (fun _ _ => trivial) (fun _ => trivial) (fun _ => trivial) hf
  rw [Node.relocate_id] at hstep
  exact (hstep.alike hh he hf).imp fun _ _ => Likeness.values_iff.mp

theorem node_alike (hh : AlikeHost l m.host) (depth : Nat) : AlikeOn l (node m depth) := by
  induction depth with
  | zero => exact fun n frame frame' hf => .throw .tooDeep
  | succ depth ih =>
    exact fun n frame frame' hf => (step_alike hh ih n hf).located n.place?

end Eval

end Bahasa
