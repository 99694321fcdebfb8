import Bahasa.Proofs.Eval.Reproducing

namespace Bahasa

namespace Eval

open Run (Preserves Reproduces)

/-- What `eval` makes of the nodes with the property, the evaluators `evals` reproduce. -/
def ReproducesOn (P : Node → Prop) (exact : Prop) (eval : Evaluator) (evals : Nat → Evaluator) :
    Prop :=
  ∀ n frame, P n →
    Reproduces P (Failure.Same exact) (Value.Holds P) (eval n frame) fun k => evals k n frame

def Hereditary (P : Node → Prop) : Prop :=
  ∀ n, P n → ∀ c ∈ n.children, P c

variable {P : Node → Prop} {exact : Prop}

theorem Hereditary.within (hP : Hereditary P) {n x : Node} (hn : P n) (hx : x.Within n) : P x := by
  induction hx with
  | child hx => exact hP _ hn _ hx
  | deeper _ hc ih => exact ih (hP _ hn _ hc)

theorem same {α : Type} {Q : α → Prop} {r : Run α} (h : Preserves P Q r) :
    Reproduces P (Failure.Same exact) Q r fun _ => r :=
  h.reproduces Failure.Same.refl

def PreservingHost (P : Node → Prop) (host : Host) : Prop :=
  ∀ name args frame, (∀ v ∈ args, v.Holds P) →
    Preserves P (Reply.Holds P) (host name args frame)

theorem standard_preserves (clock : Nat → Int) : PreservingHost P (Native.standard clock) := by
  intro name args frame _
  unfold Native.standard
  split
  · exact (Preserves.emit _).bind fun _ _ => .pure (Q := Reply.Holds P) .null
  · exact Preserves.tick.bind fun _ _ => .pure (Q := Reply.Holds P) (.number _)
  · exact .pure (Q := Reply.Holds P) (Value.inherits_holds.len args)
  · exact .pure (Q := Reply.Holds P) (Value.inherits_holds.str args)
  · exact .throw _

theorem toValue_preserves {reply : Reply} (hr : reply.Holds P) :
    Preserves P (Value.Holds P) reply.toValue := by
  cases reply with
  | value v => exact .pure hr
  | nothing => exact .pure .null
  | foreign typeName => exact .raise _

end Eval

/-- Each value with itself, if the bodies of its functions are made of nodes with the property. -/
def Pairing.holding (P : Node → Prop) : Pairing where
  place := id
  homes _ frame frame' := frame = frame'
  parts := P
  fit := Value.Holds P
  strays := True
  grow _ h := h
  inherits := Value.inherits_holds

variable {P : Node → Prop} {exact : Prop} {eval : Evaluator} {evals : Nat → Evaluator}

theorem Pairing.values_holding {size : Nat} {v : Value} (h : v.Holds P) :
    (Pairing.holding P).Values size v v := by
  refine ⟨h, ?_⟩
  rw [show v.relocate (holding P).place = v from v.relocate_id]
  exact v.like_self fun _ _ => rfl

open Run (Preserves Reproduces)
open Eval (same)

theorem Paired.reproduces {host : Host} {R : Rights} {size : Nat} {frame frame' : FrameId}
    {α : Type} {Q : (Pairing.holding P).Yield α} {r r' : Evaluator → Run α}
    (hhost : Eval.PreservingHost P host) (he : Eval.ReproducesOn P exact eval evals)
    (h : Paired host (.holding P) R size frame frame' Q r r') (hR : ∀ n, R.asks n → P n) :
    Reproduces P (Failure.Same exact) (fun a => ∃ a', Q.holds size a a') (r eval)
      fun k => r (evals k) := by
  have hv : ∀ {size} v, v.Holds P → ∃ v', (Pairing.holding P).value.holds size v v' :=
    fun v h => ⟨v, Pairing.values_holding h⟩
  induction h with
  | pure h => exact same (.pure ⟨_, h⟩)
  | fail _ => exact same (.throw _)
  | @bind _ size _ _ _ _ _ _ _ _ _ _ _ _ ihr ihk =>
    exact (ihr hR).bind fun a ⟨a', h⟩ => ihk size a a' (Nat.le_refl size) h hR
  | ask h => exact (he _ _ (hR _ h)).imp hv
  | lookup name => exact (same (.access (.lookup _ name))).imp hv
  | assign name h => exact (same (.access (.assign _ name h.fit))).imp hv
  | declare name constant h _ => exact (same (.access (.declare _ name constant h.fit))).imp hv
  | dropped _ _ => exact (same (.record _)).imp fun _ _ => ⟨_, rfl⟩
  | @native _ _ frame _ name args _ _ ha _ =>
    have hargs : ∀ v ∈ args, v.Holds P := by
      induction ha with
      | nil => exact List.forall_mem_nil _
      | cons h _ ih => exact List.forall_mem_cons.mpr ⟨h.fit, ih⟩
    exact (same ((hhost name args frame hargs).bind fun _ hr => Eval.toValue_preserves hr)).imp hv
  | @call _ size _ _ _ _ name _ _ home _ _ _ _ _ _ _ ihk =>
    refine (same (.record _)).bind fun _ _ => (same (.pushFrame home)).bind fun scope _ => ?_
    exact ihk size scope scope (Nat.le_refl size) rfl fun _ h => h

namespace Eval

theorem step_reproduces {m : Machine} {frame : FrameId} (hP : Hereditary P)
    (hh : PreservingHost P m.host) (he : ReproducesOn P exact eval evals) {n : Node} (hn : P n) :
    Reproduces P (Failure.Same exact) (Value.Holds P) (step m eval n frame)
      fun k => step m (evals k) n frame := by
  have hgiven : Given (.holding P) (Pairing.holding P).full n :=
    .of_strays trivial fun _ => hP.within hn
  have hstep : Paired m.host (.holding P) (Pairing.holding P).full 0 frame frame
      (Pairing.holding P).value (fun eval => step m eval n frame) fun eval =>
        step m eval (n.relocate id) frame :=
    step_paired m hgiven (.inl trivial) (fun _ h => h) (fun _ => trivial) (fun _ => trivial) rfl
  exact (hstep.reproduces hh he fun _ h => h).imp fun _ ⟨_, h⟩ => h.fit

end Eval

end Bahasa
