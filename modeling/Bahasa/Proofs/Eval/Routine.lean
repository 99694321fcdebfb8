import Bahasa.Proofs.Eval.Paired

namespace Bahasa

def Rights.full : Rights := ⟨fun _ => True, True, True⟩

/-- A run in a frame that leaves the evaluation of nodes to an evaluator. -/
inductive Routine (host : Host) :
    Rights → FrameId → {α : Type} → (Evaluator → Run α) → Prop
  | pure {R : Rights} {frame : FrameId} {α : Type} (a : α) :
      Routine host R frame fun _ => Pure.pure a
  | fail {R : Rights} {frame : FrameId} {α : Type} {f : Failure} (h : f.Raw) :
      Routine host R frame fun _ => (throw f : Run α)
  | bind {R : Rights} {frame : FrameId} {α β : Type} {r : Evaluator → Run α}
      {k : α → Evaluator → Run β} (hr : Routine host R frame r)
      (hk : ∀ a, Routine host R frame (k a)) :
      Routine host R frame fun eval => r eval >>= fun a => k a eval
  | ask {R : Rights} {frame : FrameId} {n : Node} (h : R.asks n) :
      Routine host R frame fun eval => eval n frame
  | lookup {R : Rights} {frame : FrameId} (name : String) :
      Routine host R frame fun _ => Run.access (Access.lookup frame name)
  | assign {R : Rights} {frame : FrameId} (name : String) (v : Value) :
      Routine host R frame fun _ => Run.access (Access.assign frame name v)
  | declare {R : Rights} {frame : FrameId} (name : String) (v : Value) (constant : Bool)
      (h : R.declares) :
      Routine host R frame fun _ => Run.access (Access.declare frame name v constant)
  | dropped {R : Rights} {frame : FrameId} (name : String) (extra : Nat) :
      Routine host R frame fun _ => Run.record (.dropped name extra)
  | native {R : Rights} {frame : FrameId} (name : String) (args : List Value) (h : R.calls) :
      Routine host R frame fun _ => host name args frame
  | call {R : Rights} {frame : FrameId} {α : Type} (name : String) (args : Nat) (home : FrameId)
      {k : FrameId → Evaluator → Run α} (h : R.calls)
      (hk : ∀ scope, Routine host .full scope (k scope)) :
      Routine host R frame fun eval => do
        Run.record (.call name args)
        let scope ← Run.pushFrame home
        k scope eval

def Pairing.diagonal : Pairing :=
  .moved id

theorem Pairing.diagonal_blind : Pairing.diagonal.Blind := by
  refine fun size v => ⟨trivial, ?_⟩
  change (v.relocate id).Like (fun frame frame' => frame = frame') v
  rw [Value.relocate_id]
  exact v.like_self fun _ _ => rfl

theorem Pairing.Fails.raw {K : Pairing} {size : Nat} {f f' : Failure} (h : K.Fails size f f') :
    f.Raw := by
  cases h with
  | unfinished | stuck _ => trivial
  | target _ _ | notCallable _ | malformed _ _ => rfl

theorem Paired.routine {host : Host} {R : Rights} {size : Nat} {frame frame' : FrameId}
    {α : Type} {Q : Pairing.diagonal.Yield α} {r r' : Evaluator → Run α}
    (h : Paired host .diagonal R size frame frame' Q r r') : Routine host R frame r := by
  induction h with
  | pure _ => exact .pure _
  | fail h => exact .fail h.raw
  | @bind _ size _ _ _ _ Q _ _ _ _ _ _ _ ihr ihk =>
    exact .bind ihr fun a => ihk size a a (Nat.le_refl size) (Q.self Pairing.diagonal_blind size a)
  | ask h => exact .ask h
  | lookup name => exact .lookup name
  | assign name _ => exact .assign name _
  | declare name constant _ h => exact .declare name _ constant h
  | dropped name extra => exact .dropped name extra
  | native _ _ h =>
    refine .bind (.native _ _ h) fun reply => ?_
    cases reply with
    | value v => exact .pure v
    | nothing => exact .pure Value.null
    | foreign typeName => exact .fail rfl
  | @call _ size _ _ _ _ name args _ home _ _ _ _ _ h _ ihk =>
    exact .call name args home h fun scope => ihk size scope scope (Nat.le_refl size) rfl

namespace Eval

variable {host : Host} {R : Rights} {frame : FrameId}

theorem given_diagonal {n : Node} (h : ∀ x : Node, x.Within n → R.asks x) :
    Given .diagonal R n :=
  .of_strays trivial h

theorem body_routine (n : Node) : Routine host .full frame fun eval => body eval frame n := by
  have hn : Given .diagonal .full n := given_diagonal fun _ _ => trivial
  have hbody : Paired host .diagonal .full 0 frame frame Pairing.diagonal.same
      (fun eval => body eval frame n) fun eval => body eval frame (n.relocate id) :=
    body_paired hn (.inl trivial)
  exact hbody.routine

theorem loop_routine (cond increment statements : Node) (turns : Nat) :
    Routine host .full frame fun eval => loop eval frame cond increment statements turns := by
  have hn : Given .diagonal .full statements := given_diagonal fun _ _ => trivial
  have hloop : Paired host .diagonal .full 0 frame frame Pairing.diagonal.value
      (fun eval => loop eval frame cond increment statements turns)
      fun eval => loop eval frame (cond.relocate id) (increment.relocate id)
        (statements.relocate id) turns :=
    loop_paired trivial trivial hn (.inl trivial) turns
  exact hloop.routine

theorem step_routine (m : Machine) {n : Node} (h : ∀ x : Node, x.Within n → R.asks x)
    (hd : n.label? = some .declaration ∨ n.label? = some .function → R.declares)
    (hc : n.label? = some .call → R.calls) :
    Routine m.host R frame fun eval => step m eval n frame := by
  have hstep : Paired m.host .diagonal R 0 frame frame Pairing.diagonal.value
      (fun eval => step m eval n frame) fun eval => step m eval (n.relocate id) frame :=
    step_paired m (given_diagonal h) (.inl trivial) (fun _ _ => trivial) hd hc rfl
  exact hstep.routine

theorem step_routine_full (m : Machine) (n : Node) (frame : FrameId) :
    Routine m.host .full frame fun eval => step m eval n frame :=
  step_routine m (fun _ _ => trivial) (fun _ => trivial) fun _ => trivial

end Eval

end Bahasa
