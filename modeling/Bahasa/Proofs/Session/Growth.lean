import Bahasa.Proofs.Eval.Alike
import Bahasa.Proofs.Session.Safety
import Bahasa.Proofs.Store.Growth

namespace Bahasa

theorem Cause.like_self (cause : Cause) : cause.Like Eq cause := by
  cases cause with
  | notCallable v => exact .notCallable (v.like_self fun _ _ => rfl)
  | _ => exact .same fun v h => by cases h

structure Store.GrownFrom (s₀ s s' : Store) : Prop where
  same : s' = s
  grows : s₀.Grows s

theorem Store.GrownFrom.ends {s₀ s : Store} {r : EStateM.Result Cause Store Value}
    (hs : s₀.Grows s) (hr : s.Grows (stateAfter r)) :
    Ends (Cause.Like Eq) s₀.GrownFrom (Value.Like Eq) r r := by
  cases r with
  | ok v t => exact .ok ⟨rfl, hs.trans hr⟩ (v.like_self fun _ _ => rfl)
  | error cause t => exact .error ⟨rfl, hs.trans hr⟩ cause.like_self

/-- A store that has grown goes on growing. -/
def Likeness.growth (s₀ : Store) : Likeness where
  frames := Eq
  stores := s₀.GrownFrom
  push := by
    rintro s s' p p' ⟨rfl, hs⟩ rfl
    exact ⟨rfl, rfl, hs.trans (.push s' (some p))⟩
  declare := by
    rintro s s' id id' v v' name constant ⟨rfl, hs⟩ rfl hv
    obtain rfl := hv.eq
    exact Store.GrownFrom.ends hs (Access.declare_grows s' id name v constant)
  lookup := by
    rintro s s' id id' name ⟨rfl, hs⟩ rfl
    exact Store.GrownFrom.ends hs (Access.lookup_grows s' id name)
  assign := by
    rintro s s' id id' v v' name ⟨rfl, hs⟩ rfl hv
    obtain rfl := hv.eq
    exact Store.GrownFrom.ends hs (Access.assign_grows s' id name v)

theorem Run.Alike.grows {α β : Type} {Q : α → β → Prop} {r : Run α} {r' : Run β} {w : World}
    (h : Run.Alike (.growth w.store) Q r r') : w.store.Grows (stateAfter (r w)).store := by
  have hends := h.ends w w ⟨⟨rfl, .refl w.store⟩, rfl, rfl, rfl⟩
  generalize r w = end₁, r' w = end₂ at hends
  cases hends with
  | ok hw _ => exact hw.store.grows
  | error hw _ => exact hw.store.grows

def Eval.GrowingHost (host : Host) : Prop :=
  ∀ s, Eval.AlikeHost (.growth s) host

theorem Eval.node_grown {m : Machine} (hm : GrowingHost m.host) (depth : Nat) (n : Node)
    (frame : FrameId) (w : World) : w.store.Grows (stateAfter (node m depth n frame w)).store :=
  (node_alike (hm w.store) depth n frame frame rfl).grows

namespace Session

theorem runTree_grown {i : Interpreter} (hi : Eval.GrowingHost i.machine.host) (s : Session)
    (tree : Node) : s.store.Grows (s.runTree i tree).2.store := by
  have h := Eval.node_grown hi i.depth tree globalId
    ⟨s.store, "", [.run (s.runs + 1) tree.children.length], s.ticks⟩
  change s.store.Grows (stateAfter (i.eval tree globalId _)).store at h
  unfold runTree
  dsimp only
  generalize i.eval tree globalId _ = ended at h
  cases ended with
  | ok v w => exact h
  | error f w => exact h

theorem run_grown {i : Interpreter} (hi : Eval.GrowingHost i.machine.host) (s : Session)
    (source : String) : s.store.Grows (s.run i source).2.store := by
  unfold run
  cases i.parse source with
  | error e => exact .refl s.store
  | ok tree => exact runTree_grown hi s tree

theorem performAll_grown (turns nesting depth : Nat) (clock : Nat → Int) {s : Session}
    (hs : new.store.Grows s.store) (steps : List Step) :
    new.store.Grows (s.performAll (.limited turns nesting depth clock) steps).store := by
  induction steps generalizing s with
  | nil => exact hs
  | cons step steps ih =>
    apply ih
    cases step with
    | run source => exact hs.trans (run_grown (fun _ => Eval.standard_alike clock) s source)
    | parse source => exact hs
    | reset => exact .refl new.store

end Session

theorem Frame.Grows.begins {f g : Frame} (h : f.Grows g)
    (hc : ∀ b ∈ f.bindings, b.constant = true) : f.bindings <+: g.bindings := by
  rw [List.prefix_iff_getElem?]
  intro i hi
  have hget : f.bindings[i]? = some f.bindings[i] := List.getElem?_eq_getElem hi
  rw [h.constants i _ hget (hc _ (List.getElem_mem hi))]

/-- Evaluation adds frames and names and gives variables new values, and does nothing else to the
frames there are. So a session's global frame begins with the three words of the language and the
four natives. -/
theorem Session.evaluation_grows (turns nesting depth : Nat) (clock : Nat → Int) :
    (∀ (n : Node) (frame : FrameId) (w : World),
      w.store.Grows (stateAfter (Eval.node ⟨Native.standard clock, turns⟩ depth n frame w)).store) ∧
    ∀ steps : List Step, ∃ more,
      (new.performAll (.limited turns nesting depth clock) steps).store.frame? globalId =
        some ⟨none,
        [⟨"true", .bool true, true⟩, ⟨"false", .bool false, true⟩, ⟨"null", .null, true⟩,
          ⟨"print", .native "print", true⟩, ⟨"time", .native "time", true⟩,
          ⟨"len", .native "len", true⟩, ⟨"str", .native "str", true⟩] ++ more⟩ := by
  refine ⟨fun n frame w => ?_, fun steps => ?_⟩
  · exact Eval.node_grown (fun _ => Eval.standard_alike clock) depth n frame w
  · have hgrown := performAll_grown turns nesting depth clock (.refl new.store) steps
    obtain ⟨⟨parent, bindings⟩, hf, hg⟩ := hgrown globalId Frame.global rfl
    obtain ⟨more, hmore⟩ := hg.begins (by decide)
    obtain rfl : parent = none := hg.parent
    obtain rfl : builtins ++ more = bindings := hmore
    exact ⟨more, hf⟩

end Bahasa
