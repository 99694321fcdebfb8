import Bahasa.Proofs.Eval.Plain
import Bahasa.Proofs.Eval.Sequel

namespace Bahasa

inductive Shorthand
  | plus | minus
  deriving DecidableEq, Repr

namespace Shorthand

def op : Shorthand → Arith
  | plus => .add
  | minus => .sub

def sign : Shorthand → String
  | plus => "+"
  | minus => "-"

def label : Shorthand → Label
  | plus => .plusAssign
  | minus => .minusAssign

def symbol : Shorthand → String
  | plus => "+="
  | minus => "-="

theorem arithmetic_sign (k : Shorthand) (a b : Value) :
    Eval.arithmetic k.sign a b = pure (k.op.apply a b) := by
  cases k <;> rfl

end Shorthand

namespace Run

variable {α β : Type} {r s : Run α}

def bare : EStateM.Result Failure World α → EStateM.Result Failure World α
  | .ok a w => .ok a w
  | .error f w => .error f.bare w

/-- Both runs come to the same end, wherever their errors are placed. -/
structure Matches (r s : Run α) : Prop where
  ends : ∀ w, bare (r w) = bare (s w)

namespace Matches

theorem refl (r : Run α) : Matches r r :=
  ⟨fun _ => rfl⟩

theorem symm (h : Matches r s) : Matches s r :=
  ⟨fun w => (h.ends w).symm⟩

theorem trans {t : Run α} (h : Matches r s) (h' : Matches s t) : Matches r t :=
  ⟨fun w => (h.ends w).trans (h'.ends w)⟩

theorem located (h : Matches r s) (place? : Option Place) : Matches (Run.located place? r) s := by
  refine ⟨fun w => ?_⟩
  rw [← h.ends w]
  unfold Run.located
  cases r w with
  | ok a w' => rfl
  | error f w' => rw [bare, bare, Failure.bare_locate]

theorem ok (h : Matches r s) {a : α} {w w' : World} (hr : r w = .ok a w') : s w = .ok a w' := by
  have hw := h.ends w
  rw [hr, bare] at hw
  cases hs : s w with
  | ok b w'' =>
    rw [hs] at hw
    cases hw
    rfl
  | error g w'' =>
    rw [hs] at hw
    cases hw

theorem error (h : Matches r s) {f : Failure} {w w' : World} (hr : r w = .error f w') :
    ∃ g, s w = .error g w' ∧ g.bare = f.bare := by
  have hw := h.ends w
  rw [hr, bare] at hw
  cases hs : s w with
  | ok b w'' =>
    rw [hs] at hw
    cases hw
  | error g w'' =>
    rw [hs, bare, EStateM.Result.error.injEq] at hw
    obtain ⟨hf, rfl⟩ := hw
    exact ⟨g, rfl, hf.symm⟩

theorem bind {k k' : α → Run β} (h : Matches r s) (hk : ∀ a, Matches (k a) (k' a)) :
    Matches (r >>= k) (s >>= k') := by
  refine ⟨fun w => ?_⟩
  cases hr : r w with
  | ok a w' =>
    rw [bind_ok hr, bind_ok (h.ok hr)]
    exact (hk a).ends w'
  | error f w' =>
    obtain ⟨g, hs, hg⟩ := h.error hr
    rw [bind_error hr, bind_error hs, bare, bare, hg]

end Matches

end Run

namespace Eval

open Run (Matches)

def operate (eval : Evaluator) (frame : FrameId) (k : Shorthand) (left right : Node) :
    Run Value := do
  let a ← eval left frame
  let b ← eval right frame
  return k.op.apply a b

/-- Gives the name a new value, unless that is null. -/
def keep (frame : FrameId) (name : String) : Value → Run Value
  | .null => return .null
  | v => Run.access (Access.assign frame name v)

variable {m : Machine} {eval : Evaluator} {d : Nat} {frame : FrameId} (k : Shorthand) (x : String)
  (e : Node) (p q r s : Option Place)

theorem operate_ok {left right : Node} {v : Value} {w w' : World}
    (h : operate eval frame k left right w = .ok v w') :
    ∃ a b w₁, eval left frame w = .ok a w₁ ∧ eval right frame w₁ = .ok b w' := by
  rw [operate] at h
  cases hl : eval left frame w with
  | error f w₁ =>
    rw [Run.bind_error hl] at h
    cases h
  | ok a w₁ =>
    rw [Run.bind_ok hl] at h
    cases hr : eval right frame w₁ with
    | error f w₂ =>
      rw [Run.bind_error hr] at h
      cases h
    | ok b w₂ =>
      rw [Run.bind_ok hr] at h
      cases h
      exact ⟨a, b, w₁, rfl, hr⟩

theorem chain_operate :
    chain eval frame (· = .binop) joinArith
        (.tree .binop [.leaf .ident x p, .leaf .operator k.sign q, e] r) =
      operate eval frame k (.leaf .ident x p) e := by
  have hname : chain eval frame (· = .binop) joinArith (.leaf .ident x p) =
      eval (.leaf .ident x p) frame := bind_pure _
  rw [chain_cons rfl rfl, hname, operate]
  refine bind_congr fun a => bind_congr fun b => ?_
  exact k.arithmetic_sign a b

theorem step_compound :
    step m eval (.tree k.label [.leaf .ident x p, e] q) frame =
      operate eval frame k (.leaf .ident x p) e >>= keep frame x := by
  have hcompound : step m eval (.tree k.label [.leaf .ident x p, e] q) frame =
      compound eval frame k.op k.symbol [.leaf .ident x p, e] := by
    cases k <;> rfl
  rw [hcompound, compound, target, operate, bind_assoc]
  change (pure x >>= _) = _
  rw [pure_bind]
  refine bind_congr fun a => ?_
  rw [bind_assoc]
  refine bind_congr fun b => ?_
  rw [pure_bind]
  cases k.op.apply a b <;> rfl

theorem name_matches :
    Matches (node m d (.leaf .ident x p) frame) (node m d (.leaf .ident x q) frame) := by
  cases d with
  | zero => exact .refl _
  | succ d => exact ((Matches.refl _).located p).trans ((Matches.refl _).located q).symm

theorem operate_matches :
    Matches (operate (node m d) frame k (.leaf .ident x p) e)
      (operate (node m d) frame k (.leaf .ident x q) e) :=
  (name_matches x p q).bind fun _ => .refl _

theorem operation_matches :
    Matches (node m (d + 1) (.tree .binop [.leaf .ident x p, .leaf .operator k.sign q, e] r) frame)
      (operate (node m d) frame k (.leaf .ident x s) e) := by
  have hstep : step m (node m d)
      (.tree .binop [.leaf .ident x p, .leaf .operator k.sign q, e] r) frame =
        operate (node m d) frame k (.leaf .ident x p) e :=
    chain_operate k x e p q r
  rw [node, hstep]
  exact (operate_matches k x e p s).located r

theorem compound_matches :
    Matches (node m (d + 1) (.tree k.label [.leaf .ident x p, e] q) frame)
      (operate (node m d) frame k (.leaf .ident x p) e >>= keep frame x) := by
  rw [node, step_compound]
  exact (Matches.refl _).located q

theorem assign_matches {sum : Node} {run : Run Value} (h : Matches (node m d sum frame) run) :
    Matches (node m (d + 1) (.tree .assign [.leaf .ident x p, sum] q) frame)
      (run >>= fun v => Run.access (Access.assign frame x v)) :=
  (h.bind fun v => .refl (Run.access (Access.assign frame x v))).located q

/-- `x += e` against `x = x + e`, whose sum stands one level deeper, and the same with a minus. If
the sum is a number, then both end alike; if it fails, then both fail with it; if it is null, then
the first one is null and does nothing but evaluate `x` and `e`. With one level less the second one
ends as it does with it, unless it gives up. -/
theorem compound_expands (w : World) (k : Shorthand) (x : String) (e : Node)
    (p₁ p₂ p₃ q₁ q₂ r₁ r₂ : Option Place) :
    let sum : Node := .tree .binop [.leaf .ident x p₁, .leaf .operator k.sign p₂, e] p₃
    let short : Node := .tree k.label [.leaf .ident x q₁, e] q₂
    let long : Node := .tree .assign [.leaf .ident x r₁, sum] r₂
    (∀ y w', node m (d + 1) sum frame w = .ok (.number y) w' →
      Run.bare (node m (d + 1) short frame w) = Run.bare (node m (d + 2) long frame w)) ∧
    (∀ f w', node m (d + 1) sum frame w = .error f w' →
      Run.bare (node m (d + 1) short frame w) = .error f.bare w' ∧
      Run.bare (node m (d + 2) long frame w) = .error f.bare w') ∧
    (∀ w', node m (d + 1) sum frame w = .ok .null w' →
      node m (d + 1) short frame w = .ok .null w' ∧
      ∃ a b w₁, node m d (.leaf .ident x q₁) frame w = .ok a w₁ ∧
        node m d e frame w₁ = .ok b w') ∧
    (node m (d + 2) long frame w = node m (d + 1) long frame w ∨
      ∃ w', node m (d + 1) long frame w = .error .tooDeep w') := by
  intro sum short long
  have hsum : Matches (node m (d + 1) sum frame)
      (operate (node m d) frame k (.leaf .ident x q₁) e) := operation_matches ..
  have hshort : Matches (node m (d + 1) short frame)
      (operate (node m d) frame k (.leaf .ident x q₁) e >>= keep frame x) := compound_matches ..
  have hlong := assign_matches x r₁ r₂ hsum
  refine ⟨fun y w' h => ?_, fun f w' h => ?_, fun w' h => ?_, node_succ (d + 1) long frame w⟩
  · have hrun := hsum.ok h
    rw [hshort.ends w, hlong.ends w, Run.bind_ok hrun, Run.bind_ok hrun]
    rfl
  · obtain ⟨g, hrun, hg⟩ := hsum.error h
    rw [hshort.ends w, hlong.ends w, Run.bind_error hrun, Run.bind_error hrun, ← hg]
    exact ⟨rfl, rfl⟩
  · have hrun := hsum.ok h
    exact ⟨hshort.symm.ok (Run.bind_ok hrun), operate_ok k hrun⟩

theorem compound_expands_three :
    let w : World := ⟨⟨#[⟨none, [⟨"a", .number 1, false⟩, ⟨"s", .string "s", true⟩]⟩]⟩, "", [], 0⟩
    let m : Machine := ⟨fun _ _ _ => throw .stuck, 0⟩
    let name (x : String) : Node := .leaf .ident x none
    let plus (x : String) : Node :=
      .tree .binop [name x, .leaf .operator "+" none, name "a"] (some ⟨1, some 5⟩)
    Run.bare (node m 2 (.tree .plusAssign [name "a", name "a"] none) 0 w) =
      Run.bare (node m 3 (.tree .assign [name "a", plus "a"] none) 0 w) ∧
    (Run.bare (node m 2 (.tree .plusAssign [name "b", name "a"] none) 0 w) =
        .error (.error (.undeclared "b") none) w ∧
      Run.bare (node m 3 (.tree .assign [name "b", plus "b"] none) 0 w) =
        .error (.error (.undeclared "b") none) w) ∧
    node m 2 (.tree .plusAssign [name "s", name "a"] none) 0 w = .ok .null w := by
  -- a sum of numbers, a name without a declaration and a constant that is no number
  intro w m name plus
  have hnumber : node m 2 (plus "a") 0 w = .ok (.number (1 + 1)) w := rfl
  have hfails : node m 2 (plus "b") 0 w =
      .error (.error (.undeclared "b") (some ⟨1, some 5⟩)) w := rfl
  have hnull : node m 2 (plus "s") 0 w = .ok .null w := rfl
  have hexpands := fun x => @compound_expands m 1 0 w .plus x (name "a") none none
    (some ⟨1, some 5⟩) none none none none
  exact ⟨(hexpands "a").1 _ _ hnumber, (hexpands "b").2.1 _ _ hfails,
    ((hexpands "s").2.2.1 _ hnull).1⟩

end Eval

end Bahasa
