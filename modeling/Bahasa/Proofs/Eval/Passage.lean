import Bahasa.Proofs.Eval.Transport

namespace Bahasa

/-- A change of places, with what was printed and recorded before. -/
structure Passage where
  place : Place → Place
  out : String
  log : List Record

namespace Passage

variable (t : Passage)

def world (w : World) : World :=
  ⟨w.store.relocate t.place, t.out ++ w.out, w.log ++ t.log, w.ticks⟩

variable {α β : Type}

def outcome (g : α → β) : EStateM.Result Failure World α → EStateM.Result Failure World β
  | .ok a w => .ok (g a) (t.world w)
  | .error f w => .error (f.relocate t.place) (t.world w)

theorem outcome_eq {g : α → β} {x : EStateM.Result Failure World α}
    {y : EStateM.Result Failure World β}
    (h : Ends (fun f f' => f.relocate t.place = f') (fun w w' => t.world w = w')
      (fun a b => g a = b) x y) : y = t.outcome g x := by
  cases h with
  | ok hs hq => rw [outcome, hs, hq]
  | error hs hf => rw [outcome, hs, hf]

abbrev values (v v' : Value) : Prop :=
  v.relocate t.place = v'

def still : Passage :=
  ⟨id, "", []⟩

theorem still_world (w : World) : still.world w = w := by
  simp [still, world, Store.relocate_id]

theorem still_outcome {g : α → α} (hg : ∀ a, g a = a) (r : EStateM.Result Failure World α) :
    still.outcome g r = r := by
  cases r with
  | ok a w => rw [outcome, still_world, hg]
  | error f w =>
    rw [outcome, still_world]
    exact congrArg (EStateM.Result.error · w) f.relocate_id

end Passage

namespace Run

variable {α β γ δ : Type} {deep : Prop} {t : Passage} {Q : α → β → Prop} {P : γ → δ → Prop}

/-- From a carried world `r'` ends as `r` does, carried, with results that `Q` relates. If `deep`
allows it, `r` may give up. -/
structure Carries (deep : Prop) (t : Passage) (Q : α → β → Prop) (r : Run α) (r' : Run β) :
    Prop where
  ends : ∀ w, (deep ∧ ∃ w', r w = .error .tooDeep w') ∨
    Ends (fun f f' => f.relocate t.place = f') (fun w w' => t.world w = w') Q (r w)
      (r' (t.world w))

namespace Carries

theorem pure {a : α} {b : β} (hab : Q a b) : Carries deep t Q (Pure.pure a) (Pure.pure b) :=
  ⟨fun _ => .inr (.ok rfl hab)⟩

theorem throw {f f' : Failure} (hf : f.relocate t.place = f') :
    Carries deep t Q (MonadExcept.throw f : Run α) (MonadExcept.throw f' : Run β) :=
  ⟨fun _ => .inr (.error rfl hf)⟩

theorem bind {r : Run α} {r' : Run β} {k : α → Run γ} {k' : β → Run δ}
    (hr : Carries deep t Q r r') (hk : ∀ a b, Q a b → Carries deep t P (k a) (k' b)) :
    Carries deep t P (r >>= k) (r' >>= k') := by
  refine ⟨fun w => ?_⟩
  change (deep ∧ ∃ w', EStateM.bind r k w = .error .tooDeep w') ∨
    Ends _ _ _ (EStateM.bind r k w) (EStateM.bind r' k' (t.world w))
  unfold EStateM.bind
  obtain ⟨hd, w', hw⟩ | hw := hr.ends w
  · rw [hw]
    exact .inl ⟨hd, w', rfl⟩
  · generalize r w = end₁, r' (t.world w) = end₂ at hw
    cases hw with
    | ok hs hq =>
      subst hs
      exact (hk _ _ hq).ends _
    | error hs hf => exact .inr (.error hs hf)

theorem imp {Q' : α → β → Prop} {r : Run α} {r' : Run β} (hr : Carries deep t Q r r')
    (hQ : ∀ a b, Q a b → Q' a b) : Carries deep t Q' r r' := by
  refine ⟨fun w => (hr.ends w).imp_right fun hw => ?_⟩
  generalize r w = end₁, r' (t.world w) = end₂ at hw
  cases hw with
  | ok hs hq => exact .ok hs (hQ _ _ hq)
  | error hs hf => exact .error hs hf

theorem located {r : Run α} {r' : Run β} (hr : Carries deep t Q r r') (place? : Option Place) :
    Carries deep t Q (Run.located place? r) (Run.located (place?.map t.place) r') := by
  refine ⟨fun w => ?_⟩
  unfold Run.located
  obtain ⟨hd, w', hw⟩ | hw := hr.ends w
  · rw [hw]
    exact .inl ⟨hd, w', rfl⟩
  · apply Or.inr
    generalize r w = end₁, r' (t.world w) = end₂ at hw
    cases hw with
    | ok hs hq => exact .ok hs hq
    | @error f f' _ _ hs hf =>
      subst hf
      exact .error hs (f.locate_relocate t.place place?)

theorem outcome {g : α → β} {r : Run α} {r' : Run β}
    (hr : Carries False t (fun a b => g a = b) r r') (w : World) :
    r' (t.world w) = t.outcome g (r w) :=
  t.outcome_eq ((hr.ends w).resolve_left fun h => h.1)

theorem record (r : Record) : Carries deep t Eq (Run.record r) (Run.record r) :=
  ⟨fun _ => .inr (.ok rfl rfl)⟩

theorem emit (text : String) : Carries deep t Eq (Run.emit text) (Run.emit text) := by
  refine ⟨fun w => .inr (.ok ?_ rfl)⟩
  change { t.world w with out := t.out ++ (w.out ++ text) } =
    { t.world w with out := t.out ++ w.out ++ text }
  rw [String.append_assoc]

theorem tick : Carries deep t Eq Run.tick Run.tick :=
  ⟨fun _ => .inr (.ok rfl rfl)⟩

theorem pushFrame (parent : FrameId) :
    Carries deep t Eq (Run.pushFrame parent) (Run.pushFrame parent) := by
  refine ⟨fun w => .inr ?_⟩
  have hp := w.store.push_relocate t.place (some parent)
  unfold Run.pushFrame Passage.world
  dsimp only
  rw [hp]
  exact .ok rfl rfl

theorem access {op op' : Access Value}
    (ho : ∀ s, op' (s.relocate t.place) = match op s with
      | .ok v s' => .ok (v.relocate t.place) (s'.relocate t.place)
      | .error cause s' => .error (cause.relocate t.place) (s'.relocate t.place)) :
    Carries deep t t.values (Run.access op) (Run.access op') := by
  refine ⟨fun w => .inr ?_⟩
  unfold Run.access Passage.world
  simp only [ho]
  cases op w.store with
  | ok v s' => exact .ok rfl rfl
  | error cause s' => exact .error rfl rfl

theorem declare (id : FrameId) (name : String) (v : Value) (constant : Bool) :
    Carries deep t t.values
      (Run.access (Access.declare id name v constant))
      (Run.access (Access.declare id name (v.relocate t.place) constant)) := by
  refine access fun s => ?_
  unfold Access.declare
  rw [Store.has_relocate]
  cases s.has id name with
  | true => rfl
  | false =>
    refine congrArg (EStateM.Result.ok (v.relocate t.place)) ?_
    exact s.modify_relocate t.place id fun frame =>
      frame.declare_relocate t.place ⟨name, v, constant⟩

theorem lookup (id : FrameId) (name : String) :
    Carries deep t t.values (Run.access (Access.lookup id name))
      (Run.access (Access.lookup id name)) := by
  refine access fun s => ?_
  unfold Access.lookup
  rw [Store.binding?_relocate]
  cases s.binding? id name with
  | none => rfl
  | some b => rfl

theorem assign (id : FrameId) (name : String) (v : Value) :
    Carries deep t t.values (Run.access (Access.assign id name v))
      (Run.access (Access.assign id name (v.relocate t.place))) := by
  refine access fun s => ?_
  unfold Access.assign
  rw [Store.resolve?_relocate]
  cases s.resolve? id name with
  | none => rfl
  | some owner =>
    have hc : (((s.relocate t.place).frame? owner).bind (·.find? name)).any (·.constant) =
        ((s.frame? owner).bind (·.find? name)).any (·.constant) := by
      rw [Store.frame?_relocate]
      cases s.frame? owner with
      | none => rfl
      | some frame =>
        simp only [Option.map_some, Option.bind_some, Frame.find?_relocate]
        cases frame.find? name with
        | none => rfl
        | some b => rfl
    dsimp only
    rw [hc]
    cases ((s.frame? owner).bind (·.find? name)).any (·.constant) with
    | true => rfl
    | false =>
      refine congrArg (EStateM.Result.ok (v.relocate t.place)) ?_
      exact s.modify_relocate t.place owner fun frame => frame.update_relocate t.place name v

end Carries

end Run

end Bahasa
