import Bahasa.Proofs.Eval.Paired
import Bahasa.Proofs.Eval.Passage

namespace Bahasa

namespace Eval

open Run (Carries)

def CarriesOn (deep : Prop) (t : Passage) (eval eval' : Evaluator) : Prop :=
  ∀ n frame, Carries deep t t.values (eval n frame)
    (eval' (n.relocate t.place) frame)

variable {deep : Prop} {t : Passage} {eval eval' : Evaluator}

section Natives

def relocateReply (f : Place → Place) : Reply → Reply
  | .value v => .value (v.relocate f)
  | .nothing => .nothing
  | .foreign typeName => .foreign typeName

theorem toValue_carries (r : Reply) :
    Carries deep t t.values r.toValue (relocateReply t.place r).toValue := by
  cases r with
  | value v => exact .pure rfl
  | nothing => exact .pure Value.relocate_null
  | foreign typeName => exact .throw rfl

/-- The natives of a host do not look at places. -/
def CarriesHost (deep : Prop) (t : Passage) (host : Host) : Prop :=
  ∀ name args frame,
    Carries deep t (fun r r' => relocateReply t.place r = r') (host name args frame)
    (host name (args.map (Value.relocate t.place)) frame)

theorem len_relocate (f : Place → Place) (args : List Value) :
    Native.len (args.map (Value.relocate f)) = (Native.len args).relocate f := by
  cases args with
  | nil => exact Value.relocate_null.symm
  | cons a args =>
    cases a with
    | object slots =>
      simp only [List.map_cons, Value.relocate_object, Native.len, List.length_map,
        Value.relocate_number]
    | _ => simp [Native.len]

theorem str_relocate (f : Place → Place) (args : List Value) :
    Native.str (args.map (Value.relocate f)) = (Native.str args).relocate f := by
  cases args with
  | nil => exact (Value.relocate_string "").symm
  | cons a args =>
    rw [List.map_cons, Native.str, Native.str, Value.toText_relocate, Value.relocate_string]

theorem print_carries (args : List Value) :
    Carries deep t (fun r r' => relocateReply t.place r = r') (Native.print args)
      (Native.print (args.map (Value.relocate t.place))) := by
  have ht : (args.map (Value.relocate t.place)).map Value.toText = args.map Value.toText := by
    rw [List.map_map]
    exact List.map_congr_left fun v _ => Value.toText_relocate v
  unfold Native.print
  rw [ht]
  exact (Carries.emit _).bind fun _ _ _ => .pure (congrArg Reply.value Value.relocate_null)

theorem standard_eq_stuck (clock : Nat → Int) {name : String} (hn : name ∉ Native.names)
    (args : List Value) (frame : FrameId) :
    Native.standard clock name args frame = throw .stuck := by
  unfold Native.standard
  split
  all_goals first | rfl | exact absurd (by decide) hn

theorem standard_carries (clock : Nat → Int) : CarriesHost deep t (Native.standard clock) := by
  intro name args frame
  by_cases hn : name ∈ Native.names
  · simp only [Native.names, List.mem_cons, List.not_mem_nil, or_false] at hn
    obtain rfl | rfl | rfl | rfl := hn
    · exact print_carries args
    · exact Carries.tick.bind fun _ _ hab =>
        .pure (hab ▸ congrArg Reply.value (Value.relocate_number _))
    · exact .pure (congrArg Reply.value (len_relocate t.place args).symm)
    · exact .pure (congrArg Reply.value (str_relocate t.place args).symm)
  · rw [standard_eq_stuck clock hn, standard_eq_stuck clock hn]
    exact .throw rfl

end Natives

end Eval

section Routines

open Run (Carries)

variable {deep : Prop} {t : Passage} {eval eval' : Evaluator} {host : Host} {R : Rights}
  {size : Nat} {frame frame' : FrameId} {α : Type} {Q : (Pairing.moved t.place).Yield α}
  {r r' : Evaluator → Run α}

theorem Pairing.Fails.moved {f f' : Failure} (h : (Pairing.moved t.place).Fails size f f') :
    f.relocate t.place = f' := by
  cases h with
  | notCallable hv =>
    obtain rfl := values_moved.mp hv
    rfl
  | _ => rfl

theorem Paired.carries (hhost : Eval.CarriesHost deep t host)
    (he : Eval.CarriesOn deep t eval eval')
    (h : Paired host (.moved t.place) R size frame frame' Q r r') (hf : frame = frame') :
    Carries deep t (Q.holds size) (r eval) (r' eval') := by
  have hv : ∀ {size} v v', t.values v v' → (Pairing.moved t.place).value.holds size v v' :=
    fun _ _ => Pairing.values_moved.mpr
  induction h with
  | pure h => exact .pure h
  | fail h => exact .throw h.moved
  | @bind _ size _ _ _ _ _ _ _ _ _ _ _ _ ihr ihk =>
    exact (ihr hf).bind fun a a' h => ihk size a a' (Nat.le_refl size) h hf
  | ask _ => exact hf ▸ (he _ _).imp hv
  | lookup name => exact hf ▸ (Carries.lookup _ name).imp hv
  | assign name h =>
    obtain rfl := Pairing.values_moved.mp h
    exact hf ▸ (Carries.assign _ name _).imp hv
  | declare name constant h _ =>
    obtain rfl := Pairing.values_moved.mp h
    exact hf ▸ (Carries.declare _ name _ constant).imp hv
  | dropped name extra => exact .record _
  | @native _ _ _ _ name args args' _ ha _ =>
    obtain rfl : args.map (Value.relocate t.place) = args' := by
      induction ha with
      | nil => rfl
      | cons h _ ih => rw [List.map_cons, ih, Pairing.values_moved.mp h]
    subst hf
    exact ((hhost name args _).bind fun reply _ h => h ▸ Eval.toValue_carries reply).imp hv
  | @call _ size _ _ _ _ name _ _ home _ _ _ ha hh _ _ ihk =>
    subst ha
    obtain rfl : home = _ := hh
    refine (Carries.record _).bind fun _ _ _ => ?_
    refine (Carries.pushFrame home).bind fun scope scope' h => ?_
    exact ihk size scope scope' (Nat.le_refl size) h h

end Routines

namespace Eval

open Run (Carries)

variable {deep : Prop} {t : Passage} {eval eval' : Evaluator} {m : Machine}

theorem sequence_carries (hh : CarriesHost deep t m.host) (he : CarriesOn deep t eval eval')
    (frame : FrameId) (last : Value) (ns : List Node) :
    Carries deep t t.values (sequence eval frame last ns)
      (sequence eval' frame (last.relocate t.place) (ns.map (Node.relocate t.place))) := by
  have hlast : (Pairing.moved t.place).Values 0 last (last.relocate t.place) :=
    Pairing.values_moved.mpr rfl
  have hsequence : Paired m.host (.moved t.place) (Pairing.moved t.place).full 0 frame frame
      (Pairing.moved t.place).value (fun eval => sequence eval frame last ns) fun eval =>
        sequence eval frame (last.relocate t.place) (ns.map (Node.relocate t.place)) :=
    sequence_paired (fun _ _ => trivial) hlast
  exact (hsequence.carries hh he rfl).imp fun _ _ => Pairing.values_moved.mp

theorem step_carries (hh : CarriesHost deep t m.host) (he : CarriesOn deep t eval eval') (n : Node)
    (frame : FrameId) :
    Carries deep t t.values (step m eval n frame) (step m eval' (n.relocate t.place) frame) := by
  have hn : Given (.moved t.place) (Pairing.moved t.place).full n :=
    .of_strays trivial fun _ _ => trivial
  have hstep : Paired m.host (.moved t.place) (Pairing.moved t.place).full 0 frame frame
      (Pairing.moved t.place).value (fun eval => step m eval n frame) fun eval =>
        step m eval (n.relocate t.place) frame :=
    step_paired m hn (.inl trivial) (fun _ _ => trivial) (fun _ => trivial) (fun _ => trivial) rfl
  exact (hstep.carries hh he rfl).imp fun _ _ => Pairing.values_moved.mp

theorem node_carries (hh : CarriesHost deep t m.host) {d d' : Nat} (hle : d ≤ d')
    (hd : d < d' → deep) : CarriesOn deep t (node m d) (node m d') := by
  induction d generalizing d' with
  | zero =>
    intro n frame
    cases d' with
    | zero => exact .throw rfl
    | succ d' => exact ⟨fun w => .inl ⟨hd (Nat.succ_pos d'), w, rfl⟩⟩
  | succ d ih =>
    intro n frame
    cases d' with
    | zero => exact absurd hle (Nat.not_succ_le_zero d)
    | succ d' =>
      have he : CarriesOn deep t (node m d) (node m d') :=
        ih (Nat.le_of_succ_le_succ hle) fun h => hd (Nat.succ_lt_succ h)
      have hs := (step_carries hh he n frame).located n.place?
      rw [← Node.place?_relocate] at hs
      exact hs

theorem carriesHost_still (host : Host) : CarriesHost deep .still host := by
  intro name args frame
  have hargs : args.map (Value.relocate id) = args :=
    (List.map_congr_left fun v _ => v.relocate_id).trans (List.map_id args)
  have hreply : ∀ r : Reply, relocateReply id r = r := by
    intro r
    cases r with
    | value v => exact congrArg Reply.value v.relocate_id
    | _ => rfl
  refine ⟨fun w => .inr ?_⟩
  change Ends _ _ _ _ (host name (args.map (Value.relocate id)) frame (Passage.still.world w))
  rw [hargs, Passage.still_world]
  cases host name args frame w with
  | ok reply w' => exact .ok (Passage.still_world w') (hreply reply)
  | error f w' => exact .error (Passage.still_world w') f.relocate_id

/-- With one more level of depth a node comes to the same end, unless it gave up before. -/
theorem node_succ (d : Nat) (n : Node) (frame : FrameId) (w : World) :
    node m (d + 1) n frame w = node m d n frame w ∨
      ∃ w', node m d n frame w = .error .tooDeep w' := by
  have hcarries : CarriesOn True .still (node m d) (node m (d + 1)) :=
    node_carries (carriesHost_still m.host) (Nat.le_succ d) fun _ => trivial
  obtain ⟨-, hdeep⟩ | h := (hcarries n frame).ends w
  · exact .inr hdeep
  · have h := Passage.still.outcome_eq h
    change node m (d + 1) (n.relocate id) frame (Passage.still.world w) =
      Passage.still.outcome (Value.relocate id) (node m d n frame w) at h
    rw [Node.relocate_id, Passage.still_world, Passage.still_outcome Value.relocate_id] at h
    exact .inl h

end Eval

end Bahasa
