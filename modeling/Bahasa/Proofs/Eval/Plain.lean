import Bahasa.Proofs.Eval.Reproduced
import Bahasa.Proofs.Eval.Safety

namespace Bahasa

inductive Family
  | arithmetic | comparison | connective
  deriving DecidableEq, Repr

namespace Family

def of? : Label → Option Family
  | .binop => some arithmetic
  | .gt | .gte | .lt | .lte | .eq | .neq => some comparison
  | .and | .or => some connective
  | _ => none

def has (f : Family) (label : Label) : Bool :=
  of? label = some f

def join : Family → Eval.Link → Value → Value → Run Value
  | arithmetic => Eval.joinArith
  | comparison => Eval.joinComparison
  | connective => Eval.joinLogical

end Family

def Node.family? (n : Node) : Option Family :=
  n.label?.bind Family.of?

theorem Node.family?_eq_some {n : Node} {f : Family} (h : n.family? = some f) :
    ∃ label children p, n = .tree label children p ∧ Family.of? label = some f := by
  cases n with
  | tree label children p => exact ⟨label, children, p, rfl, h⟩
  | _ => cases h

namespace Eval

def operation (eval : Evaluator) (frame : FrameId) (f : Family) (label : Label)
    (children : List Node) : Run Value :=
  match children.head?, children.getLast? with
  | some first, some last => do
    let left ← eval first frame
    let right ← eval last frame
    f.join ⟨label, children⟩ left right
  | _, _ => throw .stuck

def plainStep (m : Machine) (eval : Evaluator) (node : Node) (frame : FrameId) : Run Value :=
  match node with
  | .tree label children place =>
    match Family.of? label with
    | some f => operation eval frame f label children
    | none => step m eval (.tree label children place) frame
  | _ => step m eval node frame

/-- The evaluator that goes one level deeper with each operator of a chain. -/
def plain (m : Machine) : Nat → Evaluator
  | 0, _, _ => throw .tooDeep
  | depth + 1, n, frame => Run.located n.place? (plainStep m (plain m depth) n frame)

section Chains

variable {m : Machine} {eval : Evaluator} {frame : FrameId} {f : Family} {label : Label}
  {children : List Node} {p : Option Place}

theorem step_of_family (h : Family.of? label = some f) :
    step m eval (.tree label children p) frame =
      chain eval frame f.has f.join (.tree label children p) := by
  have harith : (fun l : Label => decide (l = .binop)) = Family.has .arithmetic := by
    funext l
    cases l <;> rfl
  have hcomparison : (fun l : Label => l.comparison?.isSome) = Family.has .comparison := by
    funext l
    cases l <;> rfl
  have hconnective : (fun l : Label => l.connective?.isSome) = Family.has .connective := by
    funext l
    cases l <;> rfl
  cases f with
  | arithmetic =>
    rw [← harith]
    cases label <;> first | rfl | cases h
  | comparison =>
    rw [← hcomparison]
    cases label <;> first | rfl | cases h
  | connective =>
    rw [← hconnective]
    cases label <;> first | rfl | cases h

theorem spine_append (family : Label → Bool) (links : List Link) :
    (n : Node) → spine family links n = (spine family [] n).map fun x => (x.1, x.2 ++ links)
  | .tree label [] place => by
    rw [spine, spine]
    split <;> rfl
  | .tree label (first :: rest) place => by
    rw [spine, spine]
    split
    · rw [spine_append family (⟨label, first :: rest⟩ :: links) first,
        spine_append family [⟨label, first :: rest⟩] first, Option.map_map]
      refine congrArg (Option.map · _) (funext fun x => ?_)
      simp
    · rfl
  | .leaf .. | .absent | .datum _ => rfl

theorem fold_append (join : Link → Value → Value → Run Value) (left : Value)
    (links more : List Link) :
    fold eval frame join left (links ++ more) =
      fold eval frame join left links >>= fun v => fold eval frame join v more := by
  induction links generalizing left with
  | nil => rw [List.nil_append, fold, pure_bind]
  | cons link links ih =>
    rw [List.cons_append, fold, fold]
    cases link.children.getLast? with
    | none => rfl
    | some operand =>
      simp only [bind_assoc]
      exact congrArg _ (funext fun right => congrArg _ (funext fun v => ih v))

variable {family : Label → Bool} {join : Link → Value → Value → Run Value}

theorem chain_cons {first last : Node} {rest : List Node} (h : family label = true)
    (hl : (first :: rest).getLast? = some last) :
    chain eval frame family join (.tree label (first :: rest) p) =
      chain eval frame family join first >>= fun left => eval last frame >>= fun right =>
        join ⟨label, first :: rest⟩ left right := by
  have hs : spine family [] (.tree label (first :: rest) p) =
      (spine family [] first).map fun x => (x.1, x.2 ++ [⟨label, first :: rest⟩]) := by
    rw [spine, if_pos h, spine_append]
  rw [chain, chain, hs]
  cases spine family [] first with
  | none => rfl
  | some x =>
    simp only [Option.map_some, bind_assoc, fold_append, fold, hl, bind_pure]

theorem chain_nil (h : family label = true) :
    chain eval frame family join (.tree label [] p) = throw .stuck := by
  rw [chain, spine, if_pos h]

theorem operation_cons {first last : Node} {rest : List Node}
    (hl : (first :: rest).getLast? = some last) :
    operation eval frame f label (first :: rest) =
      eval first frame >>= fun left => eval last frame >>= fun right =>
        f.join ⟨label, first :: rest⟩ left right := by
  rw [operation, hl, List.head?_cons]

theorem plain_operator (h : Family.of? label = some f) (depth : Nat) :
    plain m (depth + 1) (.tree label children p) frame =
      Run.located p (operation (plain m depth) frame f label children) := by
  rw [plain, plainStep, h]
  rfl

theorem plain_other {n : Node} (h : n.family? = none) (depth : Nat) :
    plain m (depth + 1) n frame = Run.located n.place? (step m (plain m depth) n frame) := by
  rw [plain]
  cases n with
  | tree label children place =>
    have hno : Family.of? label = none := h
    rw [plainStep, hno]
  | _ => rfl

theorem chain_operand {n : Node} (h : n.family? ≠ some f) :
    chain eval frame f.has f.join n = eval n frame := by
  have hs : spine f.has [] n = some (n, []) := by
    cases n with
    | tree label children place =>
      have hno : Family.of? label ≠ some f := h
      have hf : f.has label = false := by simpa [Family.has] using hno
      cases children <;> rw [spine, if_neg (by simp [hf])]
    | _ => rfl
  rw [chain, hs]
  exact bind_pure _

end Chains

end Eval

/-- Wherever an operator stands in the tree, its operands have places, and its sign, if it has one,
is an arithmetic one. So it is in a tree all of whose nodes have places, with known signs. -/
inductive Node.Sited : Node → Prop
  | leaf (kind : LeafKind) (text : String) (p : Option Place) : Sited (.leaf kind text p)
  | absent : Sited .absent
  | datum (d : Datum) : Sited (.datum d)
  | tree {label : Label} {children : List Node} (p : Option Place)
      (hc : ∀ c ∈ children, Sited c)
      (hp : (Family.of? label).isSome → ∀ c ∈ children, c.place?.isSome)
      (hs : label = .binop → ∀ l kind sign q more, children = l :: .leaf kind sign q :: more →
        sign ∈ arithmeticSigns) : Sited (.tree label children p)

/-- Where the places of errors have to be `exact`, the tree has all that they need. -/
def Node.Clear (exact : Prop) (n : Node) : Prop :=
  exact → n.Sited

namespace Eval

open Run (Preserves Reproduces)

abbrev Retold (exact : Prop) (r : Run Value) (s : Nat → Run Value) : Prop :=
  Reproduces (Node.Clear exact) (Failure.SameSettled exact) (Value.Holds (Node.Clear exact)) r s

variable {m : Machine} {exact : Prop} {eval : Evaluator} {evals : Nat → Evaluator}
  {frame : FrameId} {f : Family} {label : Label} {children : List Node} {p : Option Place}

theorem clear_hereditary : Hereditary (Node.Clear exact) := by
  intro n hn c hc hexact
  cases hn hexact with
  | tree p hchildren _ _ => exact hchildren c hc
  | _ => cases hc

theorem join_preserves {P : Node → Prop} (f : Family) (link : Link) (a b : Value) :
    Preserves P (Value.Holds P) (f.join link a b) := by
  cases f with
  | arithmetic =>
    change Preserves P (Value.Holds P) (joinArith link a b)
    unfold joinArith arithmetic
    split
    · split
      · exact .pure (Value.inherits_holds.apply _ a b)
      · exact .raise _
    · exact .throw _
  | comparison =>
    change Preserves P (Value.Holds P) (joinComparison link a b)
    unfold joinComparison
    split
    · exact .pure (Value.inherits_holds.compareValues _ a b)
    · exact .throw _
  | connective =>
    change Preserves P (Value.Holds P) (joinLogical link a b)
    unfold joinLogical
    split
    · exact .pure (Value.inherits_holds.joinValues _ a b)
    · exact .throw _

/-- An operator with a sign that is known raises no error. -/
theorem join_raises_not (h : Family.of? label = some f) (hn : (Node.tree label children p).Sited)
    (a b : Value) :
    (∃ v, f.join ⟨label, children⟩ a b = pure v) ∨ f.join ⟨label, children⟩ a b = throw .stuck := by
  cases f with
  | arithmetic =>
    obtain rfl : label = .binop := by cases label <;> first | rfl | cases h
    simp only [Family.join, joinArith]
    split
    · cases hn with
      | tree p hc hp hs =>
        obtain ⟨op, hop⟩ := ofSign?_isSome (hs rfl _ _ _ _ _ rfl)
        exact .inl ⟨op.apply a b, by rw [arithmetic, hop]⟩
    · exact .inr rfl
  | comparison =>
    simp only [Family.join, joinComparison]
    split
    · exact .inl ⟨_, rfl⟩
    · exact .inr rfl
  | connective =>
    simp only [Family.join, joinLogical]
    split
    · exact .inl ⟨_, rfl⟩
    · exact .inr rfl

theorem join_retold (h : Family.of? label = some f)
    (hn : (Node.tree label children p).Clear exact) (a b : Value) :
    Retold exact (f.join ⟨label, children⟩ a b) fun _ => f.join ⟨label, children⟩ a b :=
  (same (join_preserves f _ a b)).settled fun hexact w e w' he => by
    obtain ⟨v, hv⟩ | hstuck := join_raises_not h (hn hexact) a b
    · rw [hv] at he
      cases he
    · rw [hstuck] at he
      cases he
      trivial

def Settles (eval : Evaluator) : Prop :=
  ∀ n frame w e w', n.place?.isSome → eval n frame w = .error e w' → e.Settled

theorem node_settles (depth : Nat) : Settles (node m depth) := by
  intro n frame w e w' hp he
  cases depth with
  | zero =>
    cases he
    trivial
  | succ depth => exact Run.located_settled hp he

theorem plain_settles (depth : Nat) : Settles (plain m depth) := by
  intro n frame w e w' hp he
  cases depth with
  | zero =>
    cases he
    trivial
  | succ depth => exact Run.located_settled hp he

theorem stuck_retold : Retold exact (throw .stuck) fun _ => throw .stuck :=
  (same (.throw .stuck)).settled fun _ _ _ _ he => by
    cases he
    trivial

section Operators

variable (h : Family.of? label = some f) (hn : (Node.tree label children p).Clear exact)

include h hn

theorem operand_retold (hs : Settles eval)
    (he : ReproducesOn (Node.Clear exact) exact eval evals) {c : Node} (hc : c ∈ children) :
    Retold exact (eval c frame) fun k => evals k c frame := by
  refine (he c frame (clear_hereditary _ hn c hc)).settled fun hexact w e w' herror => ?_
  cases hn hexact with
  | tree p _ hplaced _ => exact hs c frame w e w' (hplaced (by simp [h]) c hc) herror

theorem operation_retold (hs : Settles eval) (he : ReproducesOn (Node.Clear exact) exact eval evals)
    {last : Node} (hl : last ∈ children) {r : Run Value} {s : Nat → Run Value}
    (hr : Retold exact r s) :
    Retold exact
      (r >>= fun left => eval last frame >>= fun right => f.join ⟨label, children⟩ left right)
      fun k => s k >>= fun left => evals k last frame >>= fun right =>
        f.join ⟨label, children⟩ left right := by
  refine hr.bind fun left _ => ?_
  exact (operand_retold h hn hs he hl).bind fun right _ => join_retold h hn left right

end Operators

theorem has_of_family (h : Family.of? label = some f) : f.has label = true := by
  simp [Family.has, h]

theorem Retold.weaken {r : Run Value} {s : Nat → Run Value} (h : Retold exact r s) :
    Reproduces (Node.Clear exact) (Failure.Same exact) (Value.Holds (Node.Clear exact)) r s := by
  have hsame := h.located none none fun _ _ hs => hs.toSame.locate none
  simpa only [Run.located_none] using hsame

theorem retold_located {r : Run Value} {s : Nat → Run Value} (h : Retold exact r s)
    (p p' : Option Place) : Retold exact (Run.located p r) fun k => Run.located p' (s k) :=
  h.located p p' fun _ _ hsame => hsame.locate p p'

theorem chain_retold (hs : Settles eval)
    (he : ReproducesOn (Node.Clear exact) exact eval (plain m)) :
    (n : Node) → n.Clear exact → n.family? = some f →
      Retold exact (chain eval frame f.has f.join n) fun k => plain m k n frame
  | .tree label children p, hn, h => by
    change Family.of? label = some f at h
    have hoperation : Retold exact (chain eval frame f.has f.join (.tree label children p))
        fun k => operation (plain m k) frame f label children := by
      cases children with
      | nil =>
        rw [chain_nil (has_of_family h)]
        exact stuck_retold
      | cons first rest =>
        obtain ⟨last, hlast⟩ : ∃ last, (first :: rest).getLast? = some last :=
          ⟨_, List.getLast?_cons⟩
        have hfirst : Retold exact (chain eval frame f.has f.join first)
            fun k => plain m k first frame := by
          by_cases hfamily : first.family? = some f
          · exact chain_retold hs he first
              (clear_hereditary _ hn first (List.mem_cons_self ..)) hfamily
          · rw [chain_operand hfamily]
            exact operand_retold h hn hs he (List.mem_cons_self ..)
        simp only [chain_cons (has_of_family h) hlast, operation_cons hlast]
        exact operation_retold h hn hs he (List.mem_of_getLast? hlast) hfirst
    have hlocated := retold_located hoperation none p
    rw [Run.located_none] at hlocated
    refine .shift ?_
    simp only [plain_operator h]
    exact hlocated
  | .leaf .., _, h | .absent, _, h | .datum _, _, h => by cases h

theorem operator_retold {depth : Nat}
    (hn : ReproducesOn (Node.Clear exact) exact (plain m depth) (node m))
    (hc : ∀ n frame, n.Clear exact → n.family? = some f →
      Retold exact (plain m depth n frame) fun k => chain (node m k) frame f.has f.join n)
    {n : Node} (hclear : n.Clear exact) (hf : n.family? = some f) :
    Retold exact (plain m (depth + 1) n frame) fun k => chain (node m k) frame f.has f.join n := by
  obtain ⟨label, children, p, rfl, h⟩ := Node.family?_eq_some hf
  have hoperation : Retold exact (operation (plain m depth) frame f label children)
      fun k => chain (node m k) frame f.has f.join (.tree label children p) := by
    cases children with
    | nil =>
      simp only [chain_nil (has_of_family h)]
      exact stuck_retold
    | cons first rest =>
      obtain ⟨last, hlast⟩ : ∃ last, (first :: rest).getLast? = some last :=
        ⟨_, List.getLast?_cons⟩
      have hfirst : Retold exact (plain m depth first frame)
          fun k => chain (node m k) frame f.has f.join first := by
        by_cases hfamily : first.family? = some f
        · exact hc first frame (clear_hereditary _ hclear first (List.mem_cons_self ..)) hfamily
        · simp only [chain_operand hfamily]
          exact operand_retold h hclear (plain_settles depth) hn (List.mem_cons_self ..)
      simp only [chain_cons (has_of_family h) hlast, operation_cons hlast]
      exact operation_retold h hclear (plain_settles depth) hn (List.mem_of_getLast? hlast) hfirst
  have hlocated := retold_located hoperation p none
  simp only [Run.located_none] at hlocated
  rw [plain_operator h]
  exact hlocated

variable (hh : PreservingHost (Node.Clear exact) m.host)

include hh

theorem node_reproduced (depth : Nat) :
    ReproducesOn (Node.Clear exact) exact (node m depth) (plain m) := by
  induction depth with
  | zero => exact fun _ _ _ => .tooDeep
  | succ depth ih =>
    intro n frame hn
    rw [node]
    cases hf : n.family? with
    | some f =>
      have hretold : Retold exact (chain (node m depth) frame f.has f.join n)
          fun k => plain m k n frame := chain_retold (node_settles depth) ih n hn hf
      have hchain := retold_located hretold n.place? none
      simp only [Run.located_none] at hchain
      obtain ⟨label, children, p, rfl, h⟩ := Node.family?_eq_some hf
      rw [step_of_family h]
      exact hchain.weaken
    | none =>
      refine .shift ?_
      simp only [plain_other hf]
      exact (step_reproduces clear_hereditary hh ih hn).located n.place? n.place?
        fun _ _ hsame => hsame.locate n.place?

theorem plain_reproduced (depth : Nat) :
    ReproducesOn (Node.Clear exact) exact (plain m depth) (node m) ∧
      ∀ f n frame, n.Clear exact → n.family? = some f →
        Retold exact (plain m depth n frame) fun k => chain (node m k) frame f.has f.join n := by
  induction depth with
  | zero => exact ⟨fun _ _ _ => .tooDeep, fun _ _ _ _ _ => .tooDeep⟩
  | succ depth ih =>
    obtain ⟨ihn, ihc⟩ := ih
    refine ⟨fun n frame hn => ?_, fun f n frame hn hf => operator_retold ihn (ihc f) hn hf⟩
    refine .shift ?_
    simp only [node]
    cases hf : n.family? with
    | some f =>
      have hretold : Retold exact (plain m (depth + 1) n frame)
          fun k => chain (node m k) frame f.has f.join n := operator_retold ihn (ihc f) hn hf
      have hnode := retold_located hretold none n.place?
      rw [Run.located_none] at hnode
      obtain ⟨label, children, p, rfl, h⟩ := Node.family?_eq_some hf
      simp only [step_of_family h]
      exact hnode.weaken
    | none =>
      rw [plain_other hf]
      exact (step_reproduces clear_hereditary hh ihn hn).located n.place? n.place?
        fun _ _ hsame => hsame.locate n.place?

omit hh

/-- Unless the limit on the depth cuts `x` short, `y` comes to its end with every depth from some
depth on: to the same value or the same failure, in the same world. -/
def EndsLike (exact : Prop) (x y : Nat → EStateM.Result Failure World Value) : Prop :=
  ∀ d, (∃ w, x d = .error .tooDeep w) ∨ ∃ k, ∀ j, k ≤ j →
    Ends (Failure.Same exact) Eq Eq (x d) (y j)

theorem endsLike_of_reproduces {P : Node → Prop} {x y : Nat → Evaluator} {n : Node} (hn : P n)
    {w : World} (hw : w.Holds P) (h : ∀ d, ReproducesOn P exact (x d) y) :
    EndsLike exact (fun d => x d n frame w) fun d => y d n frame w := by
  refine fun d => ((h d n frame hn).ends w hw).imp_right fun ⟨k, hk⟩ => ⟨k, fun j hj => ?_⟩
  have hend := hk j hj
  dsimp only
  generalize x d n frame w = end₁, y j n frame w = end₂ at hend ⊢
  cases hend with
  | ok hs hq => exact .ok hs.1.symm hq.1.symm
  | error hs he => exact .error hs.1.symm he

/-- To evaluate chains of operators at once and to evaluate each operator on its own come to the
same value or failure, and to the same world, whatever the tree; where errors happen is the same
too, if operands have places and signs are known. -/
theorem chains_plain (m : Machine) (n : Node) (frame : FrameId) (w : World) :
    (EndsLike False (fun d => node m d n frame w) (fun d => plain m d n frame w) ∧
      EndsLike False (fun d => plain m d n frame w) fun d => node m d n frame w) ∧
    (n.Sited → w.Holds Node.Sited → PreservingHost Node.Sited m.host →
      EndsLike True (fun d => node m d n frame w) (fun d => plain m d n frame w) ∧
        EndsLike True (fun d => plain m d n frame w) fun d => node m d n frame w) := by
  constructor
  · have hclear : ∀ n, Node.Clear False n := fun _ h => h.elim
    have hw : w.Holds (Node.Clear False) := World.holds_of_forall hclear w
    have hh : PreservingHost (Node.Clear False) m.host := fun _ _ _ _ =>
      .of_forall hclear (Reply.holds_of_forall hclear) _
    exact ⟨endsLike_of_reproduces (hclear n) hw (node_reproduced hh),
      endsLike_of_reproduces (hclear n) hw fun d => (plain_reproduced hh d).1⟩
  · have heq : Node.Sited = Node.Clear True :=
      funext fun _ => propext ⟨fun h _ => h, fun h => h trivial⟩
    rw [heq]
    exact fun hn hw hh => ⟨endsLike_of_reproduces hn hw (node_reproduced hh),
      endsLike_of_reproduces hn hw fun d => (plain_reproduced hh d).1⟩

/-- An operator on strings, whose left operand calls a function that fails in its own body. -/
def failingSum : Node :=
  let place column : Option Place := some ⟨1, some column⟩
  .tree .binop
    [.tree .binop
      [.leaf .string "a" (place 1), .leaf .operator "+" (place 5),
        .tree .call [.leaf .ident "f" (place 7), .tree .args [] (place 8)] (place 8)] (place 5),
      .leaf .operator "*" (place 11), .leaf .ident "y" (place 13)] (place 11)

def failingBody : List Node :=
  let place column : Option Place := some ⟨2, some column⟩
  [.tree .lt
    [.tree .neq [.leaf .string "b" (place 1), .leaf .ident "x" (place 8)] (place 5),
      .leaf .string "c" (place 12)] (place 10)]

theorem chains_plain_failing :
    let m : Machine := ⟨Native.standard fun _ => 0, 9⟩
    let w : World := ⟨⟨#[⟨none, [⟨"f", .function "f" [] failingBody 0, true⟩]⟩]⟩, "", [], 0⟩
    ∃ w' k, ∀ depth, k ≤ depth → plain m depth failingSum 0 w =
      .error (.error (.undeclared "x") (some ⟨2, some 8⟩)) w' := by
  -- the error is placed at the name that is not declared, in the middle of the function's chain
  intro m w
  have hleaf : ∀ kind text p, (Node.leaf kind text p).Sited := .leaf
  have hcall : ∀ p q r, (Node.tree .call [.leaf .ident "f" p, .tree .args [] q] r).Sited := by
    intro p q r
    refine .tree r ?_ nofun nofun
    simpa using ⟨hleaf .ident "f" p, .tree q nofun nofun nofun⟩
  have hsum : failingSum.Sited := by
    refine .tree _ ?_ (fun _ => by decide) (by rintro - _ _ _ _ _ ⟨⟩; decide)
    refine List.forall_mem_cons.mpr ⟨?_, by simp [hleaf]⟩
    exact .tree _ (by simp [hleaf, hcall]) (fun _ => by decide) (by rintro - _ _ _ _ _ ⟨⟩; decide)
  have hbody : ∀ n ∈ failingBody, n.Sited := by
    refine List.forall_mem_singleton.mpr (.tree _ ?_ (fun _ => by decide) nofun)
    refine List.forall_mem_cons.mpr ⟨?_, by simp [hleaf]⟩
    exact .tree _ (by simp [hleaf]) (fun _ => by decide) nofun
  have hw : w.Holds Node.Sited := by
    rintro id frame hframe b hb
    cases id with
    | zero =>
      cases hframe
      obtain rfl := List.mem_singleton.mp hb
      exact .function "f" [] 0 hbody
    | succ id => cases hframe
  obtain ⟨w', hnode⟩ : ∃ w', node m 9 failingSum 0 w =
      .error (.error (.undeclared "x") (some ⟨2, some 8⟩)) w' := ⟨_, rfl⟩
  obtain ⟨-, hplaced⟩ := chains_plain m failingSum 0 w
  obtain ⟨w'', hdeep⟩ | ⟨k, hk⟩ := (hplaced hsum hw (standard_preserves fun _ => 0)).1 9
  · cases hdeep
  · refine ⟨w', k, fun depth hdepth => ?_⟩
    have hend := hk depth hdepth
    dsimp only at hend
    rw [hnode] at hend
    generalize plain m depth failingSum 0 w = other at hend ⊢
    cases hend with
    | error hs he => rw [he.whole trivial, ← hs]

end Eval

end Bahasa
