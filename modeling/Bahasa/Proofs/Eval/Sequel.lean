import Bahasa.Proofs.Eval.Carrying

namespace Bahasa

def Place.anyLine (p : Place) : Place :=
  ⟨0, p.column⟩

theorem Node.move_down_anyLine (k : Int) (n : Node) :
    (n.move (.down k)).relocate Place.anyLine = n.relocate Place.anyLine :=
  Node.relocate_relocate Place.anyLine n

namespace Failure

/-- What a failure says apart from where it happened. -/
def anywhere (f : Failure) : Failure :=
  match f.relocate Place.anyLine with
  | error cause _ => error cause none
  | f => f

theorem anywhere_locate (f : Failure) (place? : Option Place) :
    (f.locate place?).anywhere = f.anywhere := by
  cases f with
  | error cause place =>
    cases place with
    | none => rfl
    | some place => rfl
  | _ => rfl

end Failure

namespace Run

variable {α β : Type} {r : Run α} {w w' : World} {a : α} {f : Failure}

theorem bind_ok {k : α → Run β} (h : r w = .ok a w') : (r >>= k) w = k a w' := by
  change EStateM.bind r k w = _
  rw [EStateM.bind, h]

theorem bind_error {k : α → Run β} (h : r w = .error f w') : (r >>= k) w = .error f w' := by
  change EStateM.bind r k w = _
  rw [EStateM.bind, h]

theorem located_ok {place? : Option Place} (h : r w = .ok a w') :
    located place? r w = .ok a w' := by
  rw [located, h]

theorem located_error {place? : Option Place} (h : r w = .error f w') :
    located place? r w = .error (f.locate place?) w' := by
  rw [located, h]

end Run

/-- The world is as `w'`, at whatever lines its functions stand, after text and records from
before. -/
structure World.Follows (out : String) (log : List Record) (w w' : World) : Prop where
  store : w.store.relocate Place.anyLine = w'.store.relocate Place.anyLine
  out : w.out = out ++ w'.out
  log : w.log = w'.log ++ log
  ticks : w.ticks = w'.ticks

inductive Run.Follows (out : String) (log : List Record) :
    EStateM.Result Failure World Value → EStateM.Result Failure World Value → Prop
  | ok {v v' : Value} {w w' : World}
      (hv : v.relocate Place.anyLine = v'.relocate Place.anyLine) (hw : w.Follows out log w') :
      Follows out log (.ok v w) (.ok v' w')
  | error {f f' : Failure} {w w' : World} (hf : f.anywhere = f'.anywhere)
      (hw : w.Follows out log w') : Follows out log (.error f w) (.error f' w')

theorem World.Follows.of_passage {out : String} {log : List Record} {w w' : World}
    (h : (Passage.mk Place.anyLine "" []).world w = (Passage.mk Place.anyLine out log).world w') :
    w.Follows out log w' := by
  simp only [Passage.world, mk.injEq, String.empty_append, List.append_nil] at h
  exact ⟨h.1, h.2.1, h.2.2.1, h.2.2.2⟩

theorem Run.Follows.of_passage {out : String} {log : List Record}
    {r r' : EStateM.Result Failure World Value}
    (h : (Passage.mk Place.anyLine "" []).outcome (Value.relocate Place.anyLine) r =
      (Passage.mk Place.anyLine out log).outcome (Value.relocate Place.anyLine) r') :
    Run.Follows out log r r' := by
  cases r with
  | ok v w =>
    cases r' with
    | ok v' w' =>
      simp only [Passage.outcome, EStateM.Result.ok.injEq] at h
      exact .ok h.1 (.of_passage h.2)
    | error f' w' => cases h
  | error f w =>
    cases r' with
    | ok v' w' => cases h
    | error f' w' =>
      simp only [Passage.outcome, EStateM.Result.error.injEq] at h
      refine .error ?_ (.of_passage h.2)
      unfold Failure.anywhere
      rw [h.1]

theorem Run.Follows.located {out : String} {log : List Record} {r r' : Run Value} {w w' : World}
    (h : Run.Follows out log (r w) (r' w')) (place? place?' : Option Place) :
    Run.Follows out log (Run.located place? r w) (Run.located place?' r' w') := by
  unfold Run.located
  generalize r w = x at h ⊢
  generalize r' w' = y at h ⊢
  cases h with
  | ok hv hw => exact .ok hv hw
  | error hf hw =>
    refine .error ?_ hw
    rw [Failure.anywhere_locate, Failure.anywhere_locate, hf]

namespace Eval

variable {m : Machine} {frame : FrameId} {ns ms : List Node} {p q : Option Place} {w w' : World}

theorem sequence_append (eval : Evaluator) (last : Value) (ns ms : List Node) :
    sequence eval frame last (ns ++ ms) =
      sequence eval frame last ns >>= fun v => sequence eval frame v ms := by
  induction ns generalizing last with
  | nil => rfl
  | cons n ns ih =>
    rw [List.cons_append, sequence, sequence, bind_assoc]
    exact bind_congr ih

theorem node_program (d : Nat) : node m (d + 1) (.tree .program ns p) frame =
    Run.located p (sequence (node m d) frame .null ns) := rfl

theorem node_append_error {d : Nat} {f : Failure}
    (h : node m d (.tree .program ns p) frame w = .error f w') (hp : ns ≠ [] → q = p) :
    node m d (.tree .program (ns ++ ms) q) frame w = .error f w' := by
  cases d with
  | zero => exact h
  | succ d =>
    rw [node_program] at h ⊢
    rw [sequence_append]
    cases hs : sequence (node m d) frame .null ns w with
    | ok v w₁ =>
      rw [Run.located_ok hs] at h
      cases h
    | error g w₁ =>
      have hne : ns ≠ [] := by
        rintro rfl
        cases hs
      rw [Run.located_error hs] at h
      rw [Run.located_error (Run.bind_error hs), hp hne, h]

theorem node_append_ok {d : Nat} {v : Value}
    (h : node m d (.tree .program ns p) frame w = .ok v w') :
    ∃ d', d = d' + 1 ∧ node m d (.tree .program (ns ++ ms) q) frame w =
      Run.located q (sequence (node m d') frame v ms) w' := by
  cases d with
  | zero => cases h
  | succ d =>
    refine ⟨d, rfl, ?_⟩
    rw [node_program] at h ⊢
    rw [sequence_append]
    cases hs : sequence (node m d) frame .null ns w with
    | ok v₁ w₁ =>
      rw [Run.located_ok hs] at h
      cases h
      unfold Run.located
      rw [Run.bind_ok hs]
    | error g w₁ =>
      rw [Run.located_error hs] at h
      cases h

def BlindHost (host : Host) : Prop :=
  ∀ t, CarriesHost False t host

theorem node_carries_blind (hh : BlindHost m.host) (t : Passage) (d : Nat) :
    CarriesOn False t (node m d) (node m d) :=
  node_carries (hh t) (Nat.le_refl d) (fun h => Nat.lt_irrefl d h)

/-- The statements of a sequel, run further down in the store that they find. -/
theorem sequence_follows (hh : BlindHost m.host) (frame : FrameId) (k : Int) (d : Nat) (v : Value)
    (n : Node) (ns : List Node) (w : World) :
    Run.Follows w.out w.log
      (sequence (node m d) frame v ((n :: ns).map (Node.move (.down k))) w)
      (sequence (node m d) frame .null (n :: ns) ⟨w.store, "", [], w.ticks⟩) := by
  have hdown : ((n :: ns).map (Node.move (.down k))).map (Node.relocate Place.anyLine) =
      (n :: ns).map (Node.relocate Place.anyLine) := by
    rw [List.map_map]
    exact List.map_congr_left fun n _ => Node.move_down_anyLine k n
  have hworld : (Passage.mk Place.anyLine "" []).world w =
      (Passage.mk Place.anyLine w.out w.log).world ⟨w.store, "", [], w.ticks⟩ := by
    simp [Passage.world]
  have hjoined := (sequence_carries (hh _) (node_carries_blind hh ⟨Place.anyLine, "", []⟩ d) frame
    v ((n :: ns).map (Node.move (.down k)))).outcome w
  have halone := (sequence_carries (hh _) (node_carries_blind hh ⟨Place.anyLine, w.out, w.log⟩ d)
    frame .null (n :: ns)).outcome ⟨w.store, "", [], w.ticks⟩
  -- both are the same run at no line in particular, since the value before does not matter
  rw [hworld, hdown] at hjoined
  exact .of_passage (hjoined.symm.trans halone)

end Eval

end Bahasa
