import Bahasa.Proofs.Eval.Likeness
import Bahasa.Proofs.Eval.Routine

namespace Bahasa

/-- The same world but for what was recorded. -/
structure World.Matches (w w' : World) : Prop where
  store : w'.store = w.store
  out : w'.out = w.out
  ticks : w'.ticks = w.ticks

namespace Run

variable {α β : Type} {r r' : Run α}

structure Agrees (r r' : Run α) : Prop where
  ends : ∀ w w', World.Matches w w' → Ends Eq World.Matches Eq (r w) (r' w')

namespace Agrees

theorem pure (a : α) : Agrees (Pure.pure a) (Pure.pure a) :=
  ⟨fun _ _ hw => .ok hw rfl⟩

theorem throw (f : Failure) : Agrees (MonadExcept.throw f : Run α) (MonadExcept.throw f) :=
  ⟨fun _ _ hw => .error hw rfl⟩

theorem record (r : Record) : Agrees (Run.record r) (Run.record r) :=
  ⟨fun _ _ hw => .ok ⟨hw.store, hw.out, hw.ticks⟩ rfl⟩

theorem emit (text : String) : Agrees (Run.emit text) (Run.emit text) :=
  ⟨fun _ _ hw => .ok { hw with out := congrArg (· ++ text) hw.out } rfl⟩

theorem tick : Agrees Run.tick Run.tick :=
  ⟨fun _ _ hw => .ok { hw with ticks := congrArg (· + 1) hw.ticks } hw.ticks.symm⟩

theorem pushFrame (parent : FrameId) : Agrees (Run.pushFrame parent) (Run.pushFrame parent) := by
  constructor
  rintro ⟨_, _, log, _⟩ ⟨store, out, log', ticks⟩ ⟨rfl, rfl, rfl⟩
  exact .ok ⟨rfl, rfl, rfl⟩ rfl

theorem access (op : Access α) : Agrees (Run.access op) (Run.access op) := by
  constructor
  rintro ⟨_, _, log, _⟩ ⟨store, out, log', ticks⟩ ⟨rfl, rfl, rfl⟩
  unfold Run.access
  dsimp only
  cases op store with
  | ok a s => exact .ok ⟨rfl, rfl, rfl⟩ rfl
  | error cause s => exact .error ⟨rfl, rfl, rfl⟩ rfl

theorem bind {k k' : α → Run β} (hr : Agrees r r') (hk : ∀ a, Agrees (k a) (k' a)) :
    Agrees (r >>= k) (r' >>= k') := by
  refine ⟨fun w w' hw => ?_⟩
  have h := hr.ends w w' hw
  change Ends Eq World.Matches Eq (EStateM.bind r k w) (EStateM.bind r' k' w')
  unfold EStateM.bind
  generalize r w = end₁, r' w' = end₂ at h
  cases h with
  | ok hw hq => exact hq ▸ (hk _).ends _ _ hw
  | error hw he => exact .error hw he

theorem located (hr : Agrees r r') (place? : Option Place) :
    Agrees (Run.located place? r) (Run.located place? r') := by
  refine ⟨fun w w' hw => ?_⟩
  have h := hr.ends w w' hw
  unfold Run.located
  generalize r w = end₁, r' w' = end₂ at h
  cases h with
  | ok hw hq => exact .ok hw hq
  | error hw he => exact .error hw (congrArg _ he)

end Agrees

end Run

open Run (Agrees)

def Eval.UnrecordedHost (host : Host) : Prop :=
  ∀ name args frame, Agrees (host name args frame) (host name args frame)

variable {host : Host} {eval eval' : Evaluator} {frame : FrameId}

theorem Routine.agrees {R : Rights} {α : Type} {r : Evaluator → Run α}
    (hh : Eval.UnrecordedHost host) (he : ∀ n frame, Agrees (eval n frame) (eval' n frame))
    (h : Routine host R frame r) : Agrees (r eval) (r eval') := by
  induction h with
  | pure a => exact .pure a
  | fail _ => exact .throw _
  | bind _ _ ihr ihk => exact ihr.bind ihk
  | ask _ => exact he _ _
  | lookup name => exact .access _
  | assign name v => exact .access _
  | declare name v constant _ => exact .access _
  | dropped name extra => exact .record _
  | native name args _ => exact hh name args _
  | call name args home _ _ ih =>
    exact (Agrees.record _).bind fun _ => (Agrees.pushFrame home).bind ih

namespace Eval

end Eval

end Bahasa
