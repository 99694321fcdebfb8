import Bahasa.Proofs.Eval.Paired

namespace Bahasa

inductive Failure.Like (F : FrameId → FrameId → Prop) : Failure → Failure → Prop
  | error {cause cause' : Cause} (place? : Option Place) (h : cause.Like F cause') :
      Like F (.error cause place?) (.error cause' place?)
  | tooDeep : Like F .tooDeep .tooDeep
  | unfinished : Like F .unfinished .unfinished
  | stuck : Like F .stuck .stuck

theorem Failure.Like.locate {F : FrameId → FrameId → Prop} {f f' : Failure} (h : f.Like F f')
    (place? : Option Place) : (f.locate place?).Like F (f'.locate place?) := by
  cases h with
  | error place hc =>
    cases place with
    | none => exact .error place? hc
    | some place => exact .error (some place) hc
  | tooDeep => exact .tooDeep
  | unfinished => exact .unfinished
  | stuck => exact .stuck

/-- Frames that correspond and stores that look alike through them, whatever is done to both. -/
structure Likeness where
  frames : FrameId → FrameId → Prop
  stores : Store → Store → Prop
  push : ∀ {s s' p p'}, stores s s' → frames p p' →
    frames (s.push (some p)).1 (s'.push (some p')).1 ∧
      stores (s.push (some p)).2 (s'.push (some p')).2
  declare : ∀ {s s' id id' v v'} (name : String) (constant : Bool), stores s s' → frames id id' →
    v.Like frames v' → Ends (Cause.Like frames) stores (Value.Like frames)
      (Access.declare id name v constant s) (Access.declare id' name v' constant s')
  lookup : ∀ {s s' id id'} (name : String), stores s s' → frames id id' →
    Ends (Cause.Like frames) stores (Value.Like frames)
      (Access.lookup id name s) (Access.lookup id' name s')
  assign : ∀ {s s' id id' v v'} (name : String), stores s s' → frames id id' →
    v.Like frames v' → Ends (Cause.Like frames) stores (Value.Like frames)
      (Access.assign id name v s) (Access.assign id' name v' s')

structure Likeness.Worlds (l : Likeness) (w w' : World) : Prop where
  store : l.stores w.store w'.store
  out : w'.out = w.out
  log : w'.log = w.log
  ticks : w'.ticks = w.ticks

namespace Run

variable {α β γ δ : Type} {l : Likeness} {Q : α → β → Prop} {P : γ → δ → Prop}

/-- From worlds alike both runs end alike, with results that `Q` relates or failures alike. -/
structure Alike (l : Likeness) (Q : α → β → Prop) (r : Run α) (r' : Run β) : Prop where
  ends : ∀ w w', l.Worlds w w' → Ends (Failure.Like l.frames) l.Worlds Q (r w) (r' w')

namespace Alike

theorem pure {a : α} {b : β} (h : Q a b) : Alike l Q (Pure.pure a) (Pure.pure b) :=
  ⟨fun _ _ hw => .ok hw h⟩

theorem throw {f f' : Failure} (h : f.Like l.frames f') :
    Alike l Q (MonadExcept.throw f : Run α) (MonadExcept.throw f' : Run β) :=
  ⟨fun _ _ hw => .error hw h⟩

theorem stuck : Alike l Q (MonadExcept.throw .stuck : Run α) (MonadExcept.throw .stuck) :=
  throw .stuck

theorem raise {cause cause' : Cause} (h : cause.Like l.frames cause') :
    Alike l Q (Run.raise cause : Run α) (Run.raise cause' : Run β) :=
  throw (.error none h)

theorem bind {r : Run α} {r' : Run β} {k : α → Run γ} {k' : β → Run δ} (hr : Alike l Q r r')
    (hk : ∀ a b, Q a b → Alike l P (k a) (k' b)) : Alike l P (r >>= k) (r' >>= k') := by
  refine ⟨fun w w' hw => ?_⟩
  have h := hr.ends w w' hw
  change Ends (Failure.Like l.frames) l.Worlds P (EStateM.bind r k w) (EStateM.bind r' k' w')
  unfold EStateM.bind
  generalize r w = end₁, r' w' = end₂ at h
  cases h with
  | ok hs hq => exact (hk _ _ hq).ends _ _ hs
  | error hs he => exact .error hs he

theorem imp {Q' : α → β → Prop} {r : Run α} {r' : Run β} (hr : Alike l Q r r')
    (hQ : ∀ a b, Q a b → Q' a b) : Alike l Q' r r' := by
  refine ⟨fun w w' hw => ?_⟩
  have h := hr.ends w w' hw
  generalize r w = end₁, r' w' = end₂ at h
  cases h with
  | ok hs hq => exact .ok hs (hQ _ _ hq)
  | error hs he => exact .error hs he

theorem located {r : Run α} {r' : Run β} (hr : Alike l Q r r') (place? : Option Place) :
    Alike l Q (Run.located place? r) (Run.located place? r') := by
  refine ⟨fun w w' hw => ?_⟩
  have h := hr.ends w w' hw
  unfold Run.located
  generalize r w = end₁, r' w' = end₂ at h
  cases h with
  | ok hs hq => exact .ok hs hq
  | error hs he => exact .error hs (he.locate place?)

theorem record (r : Record) : Alike l Eq (Run.record r) (Run.record r) :=
  ⟨fun _ _ hw => .ok { hw with log := congrArg (r :: ·) hw.log } rfl⟩

theorem emit (text : String) : Alike l Eq (Run.emit text) (Run.emit text) :=
  ⟨fun _ _ hw => .ok { hw with out := congrArg (· ++ text) hw.out } rfl⟩

theorem tick : Alike l Eq Run.tick Run.tick :=
  ⟨fun _ _ hw => .ok { hw with ticks := congrArg (· + 1) hw.ticks } hw.ticks.symm⟩

theorem pushFrame {p p' : FrameId} (hp : l.frames p p') :
    Alike l l.frames (Run.pushFrame p) (Run.pushFrame p') := by
  refine ⟨fun w w' hw => ?_⟩
  obtain ⟨hid, hs⟩ := l.push hw.store hp
  exact .ok { hw with store := hs } hid

theorem access {op op' : Access Value}
    (h : ∀ s s', l.stores s s' →
      Ends (Cause.Like l.frames) l.stores (Value.Like l.frames) (op s) (op' s')) :
    Alike l (Value.Like l.frames) (Run.access op) (Run.access op') := by
  refine ⟨fun w w' hw => ?_⟩
  have ho := h w.store w'.store hw.store
  unfold Run.access
  generalize op w.store = end₁, op' w'.store = end₂ at ho
  cases ho with
  | ok hs hv => exact .ok { hw with store := hs } hv
  | error hs hc => exact .error { hw with store := hs } (.error none hc)

variable {id id' : FrameId} {v v' : Value}

theorem declare (hid : l.frames id id') (name : String) (hv : v.Like l.frames v')
    (constant : Bool) :
    Alike l (Value.Like l.frames) (Run.access (Access.declare id name v constant))
      (Run.access (Access.declare id' name v' constant)) :=
  access fun _ _ hs => l.declare name constant hs hid hv

theorem lookup (hid : l.frames id id') (name : String) :
    Alike l (Value.Like l.frames) (Run.access (Access.lookup id name))
      (Run.access (Access.lookup id' name)) :=
  access fun _ _ hs => l.lookup name hs hid

theorem assign (hid : l.frames id id') (name : String) (hv : v.Like l.frames v') :
    Alike l (Value.Like l.frames) (Run.access (Access.assign id name v))
      (Run.access (Access.assign id' name v')) :=
  access fun _ _ hs => l.assign name hs hid hv

end Alike

end Run

end Bahasa
