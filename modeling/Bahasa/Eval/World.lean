import Bahasa.Store

namespace Bahasa

inductive Record
  | run (count statements : Nat)
  | call (name : String) (args : Nat)
  | dropped (name : String) (extra : Nat)
  | note (source text : String)
  deriving DecidableEq, Repr

namespace Record

def source : Record → String
  | run _ _ => "kustom.runner"
  | call _ _ => "kustom.eval.chains"
  | dropped _ _ => "kustom.runtime"
  | note source _ => source

def message : Record → String
  | run count statements => s!"session run #{count}: {statements} top-level statement(s)"
  | call name args => s!"call {name} with {args} argument(s)"
  | dropped name extra => s!"{name}: dropping {extra} extra argument(s)"
  | note _ text => text

end Record

structure World where
  store : Store
  out : String
  log : List Record
  ticks : Nat

inductive Failure
  | error (cause : Cause) (place? : Option Place)
  | tooDeep
  | unfinished
  /-- A tree that no source text gives, with children missing or of the wrong sort. -/
  | stuck

namespace Failure

/-- Puts an error that has no place yet at the given one. -/
def locate (place? : Option Place) : Failure → Failure
  | error cause none => error cause place?
  | f => f

end Failure

abbrev Run := EStateM Failure World

namespace Run

variable {α : Type}

def raise (cause : Cause) : Run α :=
  throw (.error cause none)

def access (op : Access α) : Run α := fun w =>
  match op w.store with
  | .ok a store => .ok a { w with store }
  | .error cause store => .error (.error cause none) { w with store }

def pushFrame (parent : FrameId) : Run FrameId := fun w =>
  let (id, store) := w.store.push (some parent)
  .ok id { w with store }

def emit (text : String) : Run Unit := fun w =>
  .ok () { w with out := w.out ++ text }

def record (r : Record) : Run Unit := fun w =>
  .ok () { w with log := r :: w.log }

/-- A reading of the clock is known by the number of those before it. -/
def tick : Run Nat := fun w =>
  .ok w.ticks { w with ticks := w.ticks + 1 }

def located (place? : Option Place) (run : Run α) : Run α :=
  fun w =>
    match run w with
    | .ok a w => .ok a w
    | .error f w => .error (f.locate place?) w

end Run

end Bahasa
