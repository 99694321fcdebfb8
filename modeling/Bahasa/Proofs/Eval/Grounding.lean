import Bahasa.Proofs.Eval.Paired
import Bahasa.Proofs.Store.Grounding

namespace Bahasa

namespace Run

variable {α β : Type} {n : Nat} {Q : Nat → α → Prop} {P : Nat → β → Prop}

/-- Whenever there are at least `n` frames, the run keeps them and keeps the store grounded; its
result is as `Q` asks for, given how many frames there are then. -/
structure Grounded (n : Nat) (Q : Nat → α → Prop) (r : Run α) : Prop where
  ends : ∀ w : World, n ≤ w.store.frames.size → w.store.Grounded →
    match r w with
    | .ok a w' => w'.store.Grounded ∧ n ≤ w'.store.frames.size ∧ Q w'.store.frames.size a
    | .error _ w' => w'.store.Grounded ∧ n ≤ w'.store.frames.size

abbrev Anything {α : Type} (_ : Nat) (_ : α) : Prop := True

namespace Grounded

theorem pure {a : α} (h : ∀ m, n ≤ m → Q m a) : Grounded n Q (Pure.pure a) :=
  ⟨fun _ hn hs => ⟨hs, hn, h _ hn⟩⟩

theorem value {v : Value} (h : v.Rooted n) : Grounded n Value.Rooted (Pure.pure v) :=
  pure fun _ hm => h.mono hm

theorem throw (f : Failure) : Grounded n Q (MonadExcept.throw f : Run α) :=
  ⟨fun _ hn hs => ⟨hs, hn⟩⟩

theorem raise (cause : Cause) : Grounded n Q (Run.raise cause : Run α) :=
  throw _

theorem bind {r : Run α} {k : α → Run β} (hr : Grounded n Q r)
    (hk : ∀ m a, n ≤ m → Q m a → Grounded m P (k a)) : Grounded n P (r >>= k) := by
  refine ⟨fun w hn hs => ?_⟩
  have h := hr.ends w hn hs
  change match EStateM.bind r k w with
    | .ok b w' => w'.store.Grounded ∧ n ≤ w'.store.frames.size ∧ P w'.store.frames.size b
    | .error _ w' => w'.store.Grounded ∧ n ≤ w'.store.frames.size
  unfold EStateM.bind
  cases hrw : r w with
  | error f w' =>
    rw [hrw] at h
    exact h
  | ok a w' =>
    rw [hrw] at h
    obtain ⟨hs', hn', hq⟩ := h
    have hnext := (hk _ a hn' hq).ends w' (Nat.le_refl _) hs'
    dsimp only
    cases hkw : k a w' with
    | error f w'' =>
      rw [hkw] at hnext
      exact ⟨hnext.1, Nat.le_trans hn' hnext.2⟩
    | ok b w'' =>
      rw [hkw] at hnext
      exact ⟨hnext.1, Nat.le_trans hn' hnext.2.1, hnext.2.2⟩

theorem imp {Q' : Nat → α → Prop} {r : Run α} (hr : Grounded n Q r)
    (hQ : ∀ m a, Q m a → Q' m a) : Grounded n Q' r := by
  refine ⟨fun w hn hs => ?_⟩
  have h := hr.ends w hn hs
  cases hrw : r w with
  | ok a w' =>
    rw [hrw] at h
    exact ⟨h.1, h.2.1, hQ _ _ h.2.2⟩
  | error f w' =>
    rw [hrw] at h
    exact h

theorem located {r : Run α} (hr : Grounded n Q r) (place? : Option Place) :
    Grounded n Q (Run.located place? r) := by
  refine ⟨fun w hn hs => ?_⟩
  have h := hr.ends w hn hs
  unfold Run.located
  cases hrw : r w with
  | ok a w' | error f w' =>
    rw [hrw] at h
    exact h

theorem record (r : Record) : Grounded n Anything (Run.record r) :=
  ⟨fun _ hn hs => ⟨hs, hn, trivial⟩⟩

theorem emit (text : String) : Grounded n Anything (Run.emit text) :=
  ⟨fun _ hn hs => ⟨hs, hn, trivial⟩⟩

theorem tick : Grounded n Anything Run.tick :=
  ⟨fun _ hn hs => ⟨hs, hn, trivial⟩⟩

theorem pushFrame {parent : FrameId} (hp : parent < n) :
    Grounded n (fun m id => id < m) (Run.pushFrame parent) := by
  refine ⟨fun w hn hs => ?_⟩
  have hgrounded : (w.store.push (some parent)).2.Grounded := by
    refine hs.push fun p h => ?_
    cases h
    exact Nat.lt_of_lt_of_le hp hn
  have hsize : (w.store.push (some parent)).2.frames.size = w.store.frames.size + 1 :=
    Array.size_push ..
  refine ⟨hgrounded, ?_, ?_⟩
  · exact hsize ▸ Nat.le_succ_of_le hn
  · exact hsize ▸ Nat.lt_succ_self _

variable {id : FrameId} {name : String} {v : Value}

theorem declare (hv : v.Rooted n) (constant : Bool) :
    Grounded n Value.Rooted (Run.access (Access.declare id name v constant)) := by
  refine ⟨fun ⟨store, out, log, ticks⟩ hn hs => ?_⟩
  have hv := hv.mono hn
  by_cases h : store.has id name = true
  · simp only [Run.access, Access.declare, h, if_true]
    exact ⟨hs, hn⟩
  · simp only [Run.access, Access.declare, h]
    have hsize : (store.modify id (·.declare ⟨name, v, constant⟩)).frames.size =
        store.frames.size := Array.size_modify
    exact ⟨hs.declare id name hv constant, hsize ▸ hn, hsize ▸ hv⟩

theorem lookup : Grounded n Value.Rooted (Run.access (Access.lookup id name)) := by
  refine ⟨fun ⟨store, out, log, ticks⟩ hn hs => ?_⟩
  cases h : store.binding? id name with
  | none =>
    simp only [Run.access, Access.lookup, h]
    exact ⟨hs, hn⟩
  | some b =>
    simp only [Run.access, Access.lookup, h]
    exact ⟨hs, hn, hs.binding? h⟩

theorem assign (hv : v.Rooted n) :
    Grounded n Value.Rooted (Run.access (Access.assign id name v)) := by
  refine ⟨fun ⟨store, out, log, ticks⟩ hn hs => ?_⟩
  have hv := hv.mono hn
  simp only [Run.access, Access.assign]
  cases store.resolve? id name with
  | none => exact ⟨hs, hn⟩
  | some owner =>
    by_cases h : ((store.frame? owner).bind (·.find? name)).any (·.constant) = true
    · simp only [h, if_true]
      exact ⟨hs, hn⟩
    · simp only [h]
      have hsize : (store.modify owner (·.update name v)).frames.size = store.frames.size :=
        Array.size_modify
      exact ⟨hs.update owner name hv, hsize ▸ hn, hsize ▸ hv⟩

end Grounded

end Run

namespace Eval

open Run (Grounded Anything)

def GroundedOn (eval : Evaluator) : Prop :=
  ∀ x {n frame}, frame < n → Grounded n Value.Rooted (eval x frame)

def AllRooted (n : Nat) (vs : List Value) : Prop :=
  ∀ v ∈ vs, v.Rooted n

/-- What a native gives back is rooted, if it is a value. -/
def ReplyRooted (n : Nat) (reply : Reply) : Prop :=
  ∀ v, reply = .value v → v.Rooted n

def GroundedHost (host : Host) : Prop :=
  ∀ name {args} frame {n}, AllRooted n args → Grounded n ReplyRooted (host name args frame)

theorem standard_grounded (clock : Nat → Int) : GroundedHost (Native.standard clock) := by
  intro name args frame n _
  have hplain : ∀ {m : Nat} {v : Value}, (∀ g, ¬ v.Captures g) →
      Grounded m ReplyRooted (pure (.value v)) := by
    intro m v hv
    refine .pure fun k _ u hu => ?_
    cases hu
    exact .plain hv
  unfold Native.standard
  split
  · exact (Grounded.emit _).bind fun _ _ _ _ => hplain nofun
  · exact Grounded.tick.bind fun _ _ _ _ => hplain nofun
  · refine hplain fun g hg => ?_
    unfold Native.len at hg
    split at hg <;> cases hg
  · refine hplain fun g hg => ?_
    unfold Native.str at hg
    split at hg <;> cases hg
  · exact .throw _

end Eval

def Pairing.rooted : Pairing where
  place := id
  homes := Value.Among
  parts _ := True
  fit _ := True
  strays := True
  grow hn h := ⟨h.1, Nat.lt_of_lt_of_le h.2 hn⟩
  inherits := Value.inherits_true

namespace Pairing

variable {n : Nat} {v v' : Value}

theorem values_rooted (h : v.Rooted n) : rooted.Values n v v := by
  refine ⟨trivial, ?_⟩
  rw [show v.relocate rooted.place = v from v.relocate_id]
  exact Value.rooted_iff.mp h

theorem Values.rooted (h : rooted.Values n v v') : v.Rooted n := by
  have hlike := h.like
  rw [show v.relocate Pairing.rooted.place = v from v.relocate_id] at hlike
  exact hlike.captured

end Pairing

open Run (Grounded)

theorem Paired.grounded {host : Host} {R : Rights} {eval : Evaluator} {n : Nat}
    {frame frame' : FrameId} {α : Type} {Q : Pairing.rooted.Yield α} {r r' : Evaluator → Run α}
    (hhost : Eval.GroundedHost host) (he : Eval.GroundedOn eval)
    (h : Paired host .rooted R n frame frame' Q r r') (hf : frame < n) :
    Grounded n (fun m a => ∃ a', Q.holds m a a') (r eval) := by
  -- what the second run does is of no account here
  have hv : ∀ m v, v.Rooted m → ∃ v', Pairing.rooted.value.holds m v v' :=
    fun _ v h => ⟨v, Pairing.values_rooted h⟩
  induction h with
  | @pure _ _ _ _ _ Q _ _ h => exact .pure fun _ hm => ⟨_, Q.grow hm h⟩
  | fail _ => exact .throw _
  | bind _ _ ihr ihk =>
    refine (ihr hf).bind fun m a hm h => ?_
    obtain ⟨a', h⟩ := h
    exact ihk m a a' hm h (Nat.lt_of_lt_of_le hf hm)
  | ask _ => exact (he _ hf).imp hv
  | lookup _ => exact Grounded.lookup.imp hv
  | assign _ h => exact (Grounded.assign h.rooted).imp hv
  | declare _ constant h _ => exact (Grounded.declare h.rooted constant).imp hv
  | dropped _ _ => exact (Grounded.record _).imp fun _ _ _ => ⟨_, rfl⟩
  | @native _ n frame _ name args _ _ ha _ =>
    have hargs : Eval.AllRooted n args := by
      induction ha with
      | nil => exact List.forall_mem_nil _
      | cons h _ ih => exact List.forall_mem_cons.mpr ⟨h.rooted, ih⟩
    refine ((hhost name frame hargs).bind fun m reply _ hr => ?_).imp hv
    cases reply with
    | value v => exact .value (hr v rfl)
    | nothing => exact .value .null
    | foreign typeName => exact .raise _
  | call name ha hh _ _ ihk =>
    refine (Grounded.record _).bind fun m _ hm _ => ?_
    refine (Grounded.pushFrame (Nat.lt_of_lt_of_le hh.2 hm)).bind fun m' scope hm' hs => ?_
    exact ihk m' scope scope (Nat.le_trans hm hm') ⟨rfl, hs⟩ hs

namespace Eval

theorem step_grounded {m : Machine} {eval : Evaluator} {n : Nat} {frame : FrameId}
    (hm : GroundedHost m.host) (he : GroundedOn eval) (hf : frame < n) (x : Node) :
    Grounded n Value.Rooted (step m eval x frame) := by
  have hx : Given .rooted Pairing.rooted.full x := .of_strays trivial fun _ _ => trivial
  have hstep : Paired m.host .rooted Pairing.rooted.full n frame frame Pairing.rooted.value
      (fun eval => step m eval x frame) fun eval => step m eval (x.relocate id) frame :=
    step_paired m hx (.inl trivial) (fun _ _ => trivial) (fun _ => trivial) (fun _ => trivial)
      ⟨rfl, hf⟩
  exact (hstep.grounded hm he hf).imp fun _ _ h => h.elim fun _ => Pairing.Values.rooted

theorem node_grounded {m : Machine} (hm : GroundedHost m.host) (depth : Nat) :
    GroundedOn (node m depth) := by
  induction depth with
  | zero => exact fun _ _ _ _ => .throw _
  | succ depth ih => exact fun x _ _ hf => (step_grounded hm ih hf x).located x.place?

end Eval

end Bahasa
