import Bahasa.Proofs.Eval.Objects
import Bahasa.Proofs.Eval.Plain

namespace Bahasa

/-- A left-deep chain of so many operators of a family, with its operands from left to right. What
stands below the innermost operator is no operator of the family. -/
inductive Chain (f : Family) : Nat → Node → List Node → Prop
  | operand {n : Node} (h : n.family? ≠ some f) : Chain f 0 n [n]
  | operator {count : Nat} {label : Label} {left right : Node} {rest operands : List Node}
      {p : Option Place} (hf : Family.of? label = some f) (hl : Chain f count left operands)
      (hr : (left :: rest).getLast? = some right) :
      Chain f (count + 1) (.tree label (left :: rest) p) (operands ++ [right])

namespace Chain

variable {f : Family} {count : Nat} {n : Node} {operands : List Node}

theorem length_operands (h : Chain f count n operands) : operands.length = count + 1 := by
  induction h with
  | operand => rfl
  | operator _ _ _ ih => rw [List.length_append, ih, List.length_singleton]

theorem family? (h : Chain f (count + 1) n operands) : n.family? = some f := by
  cases h with
  | operator hf _ _ => exact hf

end Chain

namespace Run

variable {α β : Type}

/-- The run changes nothing and does not go deeper. -/
def Flat (r : Run α) : Prop :=
  ∀ w, (∃ a, r w = .ok a w) ∨ ∃ e, e ≠ .tooDeep ∧ r w = .error e w

theorem flat_pure (a : α) : Flat (pure a) :=
  fun _ => .inl ⟨a, rfl⟩

theorem flat_stuck : Flat (throw .stuck : Run α) :=
  fun _ => .inr ⟨.stuck, nofun, rfl⟩

theorem flat_raise (cause : Cause) : Flat (raise cause : Run α) :=
  fun _ => .inr ⟨.error cause none, nofun, rfl⟩

theorem flat_lookup (frame : FrameId) (name : String) :
    Flat (access (Access.lookup frame name)) := by
  intro w
  cases hb : w.store.binding? frame name with
  | some b => exact .inl ⟨b.value, by simp [access, Access.lookup, hb]⟩
  | none =>
    have hdeep : Failure.error (.undeclared name) none ≠ .tooDeep := by simp
    exact .inr ⟨_, hdeep, by simp [access, Access.lookup, hb]⟩

theorem Flat.ne_tooDeep {r : Run α} (h : Flat r) {w w' : World} :
    r w ≠ .error .tooDeep w' := by
  intro hr
  obtain ⟨a, ha⟩ | ⟨e, hne, he⟩ := h w
  · cases ha.symm.trans hr
  · cases he.symm.trans hr
    exact hne rfl

/-- Where `r` has succeeded so has `s`, with the same effects, and where `r` gave up for its depth
so did `s`. -/
structure Tracks (r : Run α) (s : Run β) : Prop where
  ok : ∀ w a w', r w = .ok a w' → ∃ b, s w = .ok b w'
  tooDeep : ∀ w w', r w = .error .tooDeep w' → s w = .error .tooDeep w'

namespace Tracks

variable {α' β' : Type} {r : Run α} {s : Run β}

theorem refl (r : Run α) : Tracks r r :=
  ⟨fun _ a _ h => ⟨a, h⟩, fun _ _ h => h⟩

theorem of_flat (h : Flat r) (b : β) : Tracks r (pure b) where
  ok := by
    intro w a w' hr
    obtain ⟨a', ha⟩ | ⟨e, -, he⟩ := h w
    · cases ha.symm.trans hr
      exact ⟨b, rfl⟩
    · cases he.symm.trans hr
  tooDeep := fun _ _ hr => absurd hr h.ne_tooDeep

theorem bind {k : α → Run α'} {l : β → Run β'} (h : Tracks r s) (hk : ∀ a b, Tracks (k a) (l b)) :
    Tracks (r >>= k) (s >>= l) where
  ok := by
    intro w c w' hc
    obtain ⟨a, w₁, ha, hc⟩ := bind_eq_ok hc
    obtain ⟨b, hb⟩ := h.ok w a w₁ ha
    rw [bind_ok hb]
    exact (hk a b).ok w₁ c w' hc
  tooDeep := by
    intro w w' hc
    cases ha : r w with
    | error e w₁ =>
      rw [bind_error ha] at hc
      cases hc
      exact bind_error (h.tooDeep w w' ha)
    | ok a w₁ =>
      rw [bind_ok ha] at hc
      obtain ⟨b, hb⟩ := h.ok w a w₁ ha
      rw [bind_ok hb]
      exact (hk a b).tooDeep w₁ w' hc

end Tracks

theorem located_eq_tooDeep {p : Option Place} {r : Run α} {w w' : World}
    (h : located p r w = .error .tooDeep w') : r w = .error .tooDeep w' := by
  cases hr : r w with
  | ok a w₁ =>
    rw [located_ok hr] at h
    cases h
  | error e w₁ =>
    rw [located_error hr] at h
    obtain ⟨he, rfl⟩ : e.locate p = .tooDeep ∧ w₁ = w' := by simpa using h
    cases e with
    | error cause place? => cases place? <;> cases he
    | tooDeep => rfl
    | _ => cases he

end Run

namespace Eval

variable {m : Machine} {eval : Evaluator} {frame : FrameId} {f : Family} {count : Nat} {n : Node}
  {operands : List Node} {w w' : World}

theorem join_flat (f : Family) (link : Link) (a b : Value) : Run.Flat (f.join link a b) := by
  cases f with
  | arithmetic =>
    change Run.Flat (joinArith link a b)
    unfold joinArith arithmetic
    split
    · split
      · exact Run.flat_pure _
      · exact Run.flat_raise _
    · exact Run.flat_stuck
  | comparison =>
    change Run.Flat (joinComparison link a b)
    unfold joinComparison
    split
    · exact Run.flat_pure _
    · exact Run.flat_stuck
  | connective =>
    change Run.Flat (joinLogical link a b)
    unfold joinLogical
    split
    · exact Run.flat_pure _
    · exact Run.flat_stuck

theorem leaf_flat (kind : LeafKind) (text : String) (n : Node) (frame : FrameId) :
    Run.Flat (leaf kind text n frame) := by
  unfold leaf
  split
  · split
    · exact Run.flat_pure _
    · exact Run.flat_stuck
  · exact Run.flat_pure _
  · exact Run.flat_lookup frame text
  · exact Run.flat_raise _

/-- The operands of a chain, one after another. -/
def evaluateAll (eval : Evaluator) (frame : FrameId) (operands : List Node) : Run (List Value) :=
  operands.mapM fun n => eval n frame

theorem evaluateAll_single (n : Node) :
    evaluateAll eval frame [n] = eval n frame >>= fun v => pure [v] := by
  simp [evaluateAll]

theorem evaluateAll_concat (ns : List Node) (n : Node) :
    evaluateAll eval frame (ns ++ [n]) =
      evaluateAll eval frame ns >>= fun vs => eval n frame >>= fun v => pure (vs ++ [v]) := by
  simp [evaluateAll]

/-- A chain does what its operands do, and its operators add nothing to that. -/
theorem chain_tracks (h : Chain f count n operands) :
    Run.Tracks (chain eval frame f.has f.join n) (evaluateAll eval frame operands) := by
  induction h with
  | @operand n h =>
    have hoperand : Run.Tracks (eval n frame >>= pure) (eval n frame >>= fun v => pure [v]) :=
      (Run.Tracks.refl _).bind fun v _ => .of_flat (Run.flat_pure v) _
    rw [bind_pure] at hoperand
    rwa [chain_operand h, evaluateAll_single]
  | operator hf _ hr ih =>
    rw [chain_cons (has_of_family hf) hr, evaluateAll_concat]
    refine ih.bind fun left vs => (Run.Tracks.refl _).bind fun right v => ?_
    exact .of_flat (join_flat f _ left right) _

theorem evaluateAll_eq_error {ns : List Node} {e : Failure} :
    evaluateAll eval frame ns w = .error e w' ↔ ∃ before n after vs w₁, ns = before ++ n :: after ∧
      evaluateAll eval frame before w = .ok vs w₁ ∧ eval n frame w₁ = .error e w' :=
  Run.mapM_eq_error

theorem operands_tooDeep (hc : Chain f (count + 1) n operands) {depth : Nat}
    (h : node m (depth + 1) n frame w = .error .tooDeep w') :
    evaluateAll (node m depth) frame operands w = .error .tooDeep w' := by
  obtain ⟨label, children, p, rfl, hf⟩ := Node.family?_eq_some hc.family?
  have hstep := Run.located_eq_tooDeep h
  rw [step_of_family hf] at hstep
  exact (chain_tracks hc).tooDeep w w' hstep

/-- A chain of operators gives up for its depth only if one of its operands does, one level below
the chain and in the world that the operands on its left have left behind. With no level left
neither the chain nor its operands are evaluated. How many operators there are makes no
difference. -/
theorem chains_cost_no_depth (m : Machine) (hc : Chain f (count + 1) n operands) (depth : Nat)
    (frame : FrameId) (w w' : World) :
    operands.length = (count + 1) + 1 ∧ (node m depth n frame w = .error .tooDeep w' →
      ∃ before operand after vs w₁, operands = before ++ operand :: after ∧
        evaluateAll (node m (depth - 1)) frame before w = .ok vs w₁ ∧
        node m (depth - 1) operand frame w₁ = .error .tooDeep w') := by
  refine ⟨hc.length_operands, fun h => evaluateAll_eq_error.mp ?_⟩
  cases depth with
  | zero =>
    cases h
    cases operands with
    | nil => cases hc.length_operands
    | cons first rest => rfl
  | succ depth => exact operands_tooDeep hc h

def nestedOperands : List Node :=
  [.tree .call [.leaf .ident "print" none, .tree .args [.leaf .string "a" none] none] none,
    .tree .lt [.leaf .string "b" none,
      .tree .lt [.leaf .string "c" none, .leaf .string "d" none] none] none,
    .leaf .string "e" none]

def nestedSum : Node :=
  .tree .binop
    [.tree .binop [nestedOperands[0], .leaf .operator "+" none, nestedOperands[1]] none,
      .leaf .operator "-" none, nestedOperands[2]] none

theorem chains_cost_no_depth_comparison :
    let m : Machine := ⟨Native.standard fun _ => 0, 9⟩
    let w : World := ⟨⟨#[⟨none, [⟨"print", .native "print", true⟩]⟩]⟩, "", [], 0⟩
    ∃ w', node m 3 nestedSum 0 w = .error .tooDeep w' ∧
      ∃ before operand after vs w₁, nestedOperands = before ++ operand :: after ∧
        evaluateAll (node m 2) 0 before w = .ok vs w₁ ∧
        node m 2 operand 0 w₁ = .error .tooDeep w' := by
  -- with three levels the inner comparison is out of reach: the call has been made, and then the
  -- outer comparison gives up
  intro m w
  have hcall : Chain .arithmetic 0 nestedOperands[0] [nestedOperands[0]] := .operand (by decide)
  have hchain : Chain .arithmetic 2 nestedSum nestedOperands :=
    .operator rfl (.operator rfl hcall rfl) rfl
  obtain ⟨w', hdeep⟩ : ∃ w', node m 3 nestedSum 0 w = .error .tooDeep w' := ⟨_, rfl⟩
  exact ⟨w', hdeep, (chains_cost_no_depth m hchain 3 0 w w').2 hdeep⟩

/-- Literals and names are joined by any number of operators two levels deep. -/
theorem chain_of_leaves (hc : Chain f (count + 1) n operands)
    (hl : ∀ o ∈ operands, ∃ kind text p, o = .leaf kind text p) (depth : Nat) :
    node m (depth + 2) n frame w ≠ .error .tooDeep w' := by
  intro h
  obtain ⟨before, operand, after, vs, w₁, rfl, -, ho⟩ :=
    evaluateAll_eq_error.mp (operands_tooDeep hc h)
  obtain ⟨kind, text, p, rfl⟩ := hl operand (by simp)
  exact (leaf_flat kind text _ frame).ne_tooDeep (Run.located_eq_tooDeep ho)

end Eval

end Bahasa
