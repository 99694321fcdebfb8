import Bahasa.Proofs.Eval.Routine
import Bahasa.Proofs.Eval.Sequel

namespace Bahasa

def Failure.Silent : Failure → Prop
  | error _ _ => False
  | _ => True

namespace Eval

/-- Evaluation that marks errors in place of placing them. Whatever the rule of a node raises is
marked with the nodes being evaluated, that node first and the outermost one last. -/
def marked (m : Machine) (mark : List Node → Place) : Nat → List Node → Evaluator
  | 0, _, _, _ => throw .tooDeep
  | depth + 1, live, n, frame =>
    Run.located (some (mark (n :: live))) (step m (marked m mark depth (n :: live)) n frame)

/-- Natives that leave it to the evaluation to place their errors. -/
def RawHost (host : Host) : Prop :=
  ∀ name args frame w f w', host name args frame w = .error f w' → f.Raw

theorem standard_raw (clock : Nat → Int) : RawHost (Native.standard clock) := by
  intro name args frame w f w' h
  unfold Native.standard at h
  split at h
  · cases h
  · cases h
  · cases h
  · cases h
  · cases h
    exact trivial

end Eval

/-- The run `r` ends like all of the marked ones. Either its failure is its own, and the same
everywhere; or it was raised by a node at the end of a trail, is marked with the trail and the nodes
above, and is placed at the first place on the trail. -/
inductive Told {α : Type} (own : Failure → Prop) (trails : List Node → Prop) (above : List Node)
    (rs : (List Node → Place) → EStateM.Result Failure World α) :
    EStateM.Result Failure World α → Prop
  | ok {a : α} {w : World} (h : ∀ mark, rs mark = .ok a w) : Told own trails above rs (.ok a w)
  | own {f : Failure} {w : World} (hf : own f) (h : ∀ mark, rs mark = .error f w) :
      Told own trails above rs (.error f w)
  | inner {cause : Cause} {trail : List Node} {w : World} (ht : trails trail)
      (h : ∀ mark, rs mark = .error (.error cause (some (mark (trail ++ above)))) w) :
      Told own trails above rs (.error (.error cause (trail.findSome? Node.place?)) w)

namespace Told

variable {α : Type} {own own' : Failure → Prop} {trails trails' : List Node → Prop}
  {above : List Node} {rs : (List Node → Place) → EStateM.Result Failure World α}
  {r : EStateM.Result Failure World α}

theorem mono (h : Told own trails above rs r) (ho : ∀ f, own f → own' f)
    (ht : ∀ trail, trails trail → trails' trail) : Told own' trails' above rs r := by
  cases h with
  | ok h => exact .ok h
  | own hf h => exact .own (ho _ hf) h
  | inner hl h => exact .inner (ht _ hl) h

theorem located {n : Node} {live : List Node} {w : World} {run : Run α}
    {runs : (List Node → Place) → Run α}
    (h : Told Failure.Raw (fun _ => True) (n :: live) (fun mark => runs mark w) (run w)) :
    Told Failure.Silent (·.getLast? = some n) live
      (fun mark => Run.located (some (mark (n :: live))) (runs mark) w)
      (Run.located n.place? run w) := by
  generalize he : run w = r at h
  cases h with
  | ok h =>
    rw [Run.located_ok he]
    exact .ok fun mark => Run.located_ok (h mark)
  | @own f w' hf h =>
    rw [Run.located_error he]
    cases f with
    | error cause place? =>
      obtain rfl : place? = none := hf
      have hplace : (Failure.error cause none).locate n.place? =
          .error cause ([n].findSome? Node.place?) := by
        simp [Failure.locate]
      rw [hplace]
      exact .inner rfl fun mark => Run.located_error (h mark)
    | _ => exact .own trivial fun mark => Run.located_error (h mark)
  | @inner cause trail w' _ h =>
    rw [Run.located_error he]
    have hplace : (Failure.error cause (trail.findSome? Node.place?)).locate n.place? =
        .error cause ((trail ++ [n]).findSome? Node.place?) := by
      rw [List.findSome?_append]
      cases trail.findSome? Node.place? with
      | none => simp [Failure.locate]
      | some place => rfl
    rw [hplace]
    refine .inner (by simp) fun mark => ?_
    rw [Run.located_error (h mark), List.append_assoc]
    rfl

theorem self {run : Run α} (h : ∀ w f w', run w = .error f w' → own f) (w : World) :
    Told own trails above (fun _ => run w) (run w) := by
  cases he : run w with
  | ok a w' => exact .ok fun _ => rfl
  | error f w' => exact .own (h w f w' he) fun _ => rfl

theorem bind {β : Type} {run : Run α} {runs : (List Node → Place) → Run α} {k : α → Run β}
    {ks : α → (List Node → Place) → Run β} {w : World}
    (hr : Told own trails above (fun mark => runs mark w) (run w))
    (hk : ∀ a w', Told own trails above (fun mark => ks a mark w') (k a w')) :
    Told own trails above (fun mark => (runs mark >>= fun a => ks a mark) w) ((run >>= k) w) := by
  generalize he : run w = end₁ at hr
  cases hr with
  | @ok a w' h =>
    have hruns : (fun mark => (runs mark >>= fun a => ks a mark) w) = fun mark => ks a mark w' :=
      funext fun mark => Run.bind_ok (h mark)
    rw [hruns, Run.bind_ok he]
    exact hk a w'
  | own hf h =>
    rw [Run.bind_error he]
    exact .own hf fun mark => Run.bind_error (h mark)
  | inner ht h =>
    rw [Run.bind_error he]
    exact .inner ht fun mark => Run.bind_error (h mark)

end Told

theorem Run.access_raw {α : Type} (op : Access α) (w : World) (f : Failure) (w' : World)
    (h : Run.access op w = .error f w') : f.Raw := by
  cases he : op w.store with
  | ok a t =>
    simp only [Run.access, he] at h
    cases h
  | error cause t =>
    simp only [Run.access, he] at h
    cases h
    exact rfl

theorem Failure.Silent.raw {f : Failure} (h : f.Silent) : f.Raw := by
  cases f with
  | error cause place? => exact h.elim
  | _ => exact trivial

theorem Routine.told {host : Host} {R : Rights} {frame : FrameId} {α : Type}
    {r : Evaluator → Run α} (h : Routine host R frame r) (hhost : Eval.RawHost host)
    {above : List Node} {eval : Evaluator} {evals : (List Node → Place) → Evaluator}
    (heval : ∀ n f w, Told Failure.Silent (·.getLast? = some n) above
      (fun mark => evals mark n f w) (eval n f w)) (w : World) :
    Told Failure.Raw (fun _ => True) above (fun mark => r (evals mark) w) (r eval w) := by
  induction h generalizing w with
  | pure a => exact .ok fun _ => rfl
  | fail h => exact .own h fun _ => rfl
  | bind _ _ ihr ihk => exact (ihr w).bind ihk
  | ask _ => exact (heval _ _ w).mono (fun _ hf => hf.raw) fun _ _ => trivial
  | lookup name => exact .self (Run.access_raw _) w
  | assign name v => exact .self (Run.access_raw _) w
  | declare name v constant _ => exact .self (Run.access_raw _) w
  | dropped name extra => exact .ok fun _ => rfl
  | native name args => exact .self (hhost name args _) w
  | call name args home _ _ ih => exact ih w.store.frames.size _

namespace Eval

theorem node_told {m : Machine} (hm : RawHost m.host) (depth : Nat) (live : List Node) (n : Node)
    (frame : FrameId) (w : World) :
    Told Failure.Silent (·.getLast? = some n) live (fun mark => marked m mark depth live n frame w)
      (node m depth n frame w) := by
  induction depth generalizing live n frame w with
  | zero => exact .own trivial fun _ => rfl
  | succ depth ih =>
    exact .located ((step_routine_full m n frame).told hm (ih (n :: live)) w)

theorem node_error {m : Machine} (hm : RawHost m.host) {depth : Nat} {n : Node} {frame : FrameId}
    {w w' : World} {cause : Cause} {place? : Option Place}
    (h : node m depth n frame w = .error (.error cause place?) w') :
    ∃ live, live.getLast? = some n ∧ place? = live.findSome? Node.place? ∧
      ∀ mark, marked m mark depth [] n frame w = .error (.error cause (some (mark live))) w' := by
  have htold := node_told hm depth [] n frame w
  rw [h] at htold
  cases htold with
  | own hf _ => exact hf.elim
  | @inner _ trail _ ht hmarked =>
    rw [List.append_nil] at hmarked
    exact ⟨trail, ht, rfl, hmarked⟩

end Eval

end Bahasa
