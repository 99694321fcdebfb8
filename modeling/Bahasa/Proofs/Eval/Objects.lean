import Bahasa.Proofs.Eval.Declaring
import Bahasa.Proofs.Node.Preorder
import Bahasa.Proofs.Parser.Soundness
import Bahasa.Proofs.Value.Slots
import Mathlib.Data.List.Forall2

namespace Bahasa

/-- A property of an object literal: its key and the expression of its value. Without an expression
the value is that of the variable with the same name. -/
structure Property where
  key : String
  value? : Option Node

namespace Property

inductive IsNode : Property → Node → Prop
  | shorthand {key : String} {p q : Option Place} :
      IsNode ⟨key, none⟩ (.tree .property [.leaf .ident key q, .absent] p)
  | explicit {key : String} {n : Node} {p q : Option Place} (h : n.isAbsent = false) :
      IsNode ⟨key, some n⟩ (.tree .property [.leaf .ident key q, n] p)

def value (eval : Evaluator) (frame : FrameId) (e : Property) : Run Value :=
  match e.value? with
  | some n => eval n frame
  | none => Run.access (Access.lookup frame e.key)

end Property

namespace Node

variable {numeral : String → Prop}

theorem Fits.property_node {n : Node} (h : n.Fits numeral .property) :
    ∃ e : Property, e.IsNode n := by
  cases h with
  | property key p q hv =>
    cases hv with
    | noValue => exact ⟨_, .shorthand⟩
    | value hn => exact ⟨_, .explicit hn.isAbsent_eq⟩

theorem Fits.property_nodes {ns : List Node} (h : ∀ n ∈ ns, n.Fits numeral .property) :
    ∃ properties, List.Forall₂ Property.IsNode properties ns := by
  induction ns with
  | nil => exact ⟨[], .nil⟩
  | cons n ns ih =>
    obtain ⟨hn, hns⟩ := List.forall_mem_cons.mp h
    obtain ⟨e, he⟩ := hn.property_node
    obtain ⟨es, hes⟩ := ih hns
    exact ⟨e :: es, .cons he hes⟩

/-- The children of every object literal in the node are the nodes of properties. -/
def Propertied (n : Node) : Prop :=
  ∀ children p, .tree .object children p ∈ n.preorder →
    ∃ properties, List.Forall₂ Property.IsNode properties children

@[simp] theorem propertied_leaf (kind : LeafKind) (text : String) (p : Option Place) :
    (leaf kind text p).Propertied := by
  simp [Propertied]

@[simp] theorem propertied_absent : absent.Propertied := by
  simp [Propertied]

@[simp] theorem propertied_tree {label : Label} {children : List Node} {p : Option Place} :
    (tree label children p).Propertied ↔
      (label = .object → ∃ properties, List.Forall₂ Property.IsNode properties children) ∧
        ∀ c ∈ children, c.Propertied := by
  simp only [Propertied, preorder_tree, List.mem_cons, List.mem_flatMap]
  constructor
  · intro h
    refine ⟨?_, fun c hc ns q hm => h ns q (.inr ⟨c, hc, hm⟩)⟩
    rintro rfl
    exact h children p (.inl rfl)
  · rintro ⟨hself, hbelow⟩ ns q (heq | ⟨c, hc, hm⟩)
    · cases heq
      exact hself rfl
    · exact hbelow c hc ns q hm

theorem Fits.propertied {form : Form} {n : Node} (h : n.Fits numeral form) : n.Propertied := by
  induction h with
  | @join label l r p hl _ _ ihl ihr =>
    refine propertied_tree.mpr ⟨?_, by simpa using ⟨ihl, ihr⟩⟩
    rintro rfl
    exact absurd hl (by decide)
  | @assign label target value p hl _ _ iht ihv =>
    refine propertied_tree.mpr ⟨?_, by simpa using ⟨iht, ihv⟩⟩
    rintro rfl
    exact absurd hl (by decide)
  | object p he ih => exact propertied_tree.mpr ⟨fun _ => property_nodes he, ih⟩
  | _ => simp_all [or_imp]

end Node

namespace Run

theorem mapM_eq_error {α β : Type} {f : α → Run β} {l : List α} {g : Failure} {w w' : World} :
    l.mapM f w = .error g w' ↔ ∃ before a after bs w₁, l = before ++ a :: after ∧
      before.mapM f w = .ok bs w₁ ∧ f a w₁ = .error g w' := by
  constructor
  · intro h
    induction l generalizing w with
    | nil => cases h
    | cons a l ih =>
      rw [List.mapM_cons] at h
      cases ha : f a w with
      | error g' w₁ =>
        rw [bind_error ha] at h
        exact ⟨[], a, l, [], w, rfl, rfl, by cases h; exact ha⟩
      | ok b w₁ =>
        rw [bind_ok ha] at h
        cases hl : l.mapM f w₁ with
        | ok bs w₂ =>
          rw [bind_ok hl] at h
          cases h
        | error g' w₂ =>
          rw [bind_error hl] at h
          obtain ⟨before, c, after, bs, w₃, rfl, hbs, hc⟩ := ih (hl.trans h)
          refine ⟨a :: before, c, after, b :: bs, w₃, rfl, ?_, hc⟩
          rw [List.mapM_cons, bind_ok ha, bind_ok hbs]
          rfl
  · rintro ⟨before, a, after, bs, w₁, rfl, hbs, ha⟩
    rw [List.mapM_append, bind_ok hbs, List.mapM_cons, bind_error (bind_error ha)]

end Run

namespace Eval

variable {eval : Evaluator} {frame : FrameId} {properties : List Property} {children : List Node}

def values (eval : Evaluator) (frame : FrameId) (properties : List Property) : Run (List Value) :=
  properties.mapM (Property.value eval frame)

theorem slots_property {e : Property} {n : Node} (h : e.IsNode n) (done : List (String × Value))
    (ns : List Node) : slots eval frame done (n :: ns) =
      e.value eval frame >>= fun v => slots eval frame (setSlot e.key v done) ns := by
  cases h with
  | shorthand => rfl
  | explicit hn =>
    rw [slots, hn]
    rfl

/-- The slots are set after all values are there. -/
theorem slots_eq (h : List.Forall₂ Property.IsNode properties children)
    (done : List (String × Value)) :
    slots eval frame done children = (do
      let vs ← values eval frame properties
      return ((properties.map Property.key).zip vs).foldl
        (fun slots pair => setSlot pair.1 pair.2 slots) done) := by
  induction h generalizing done with
  | nil => rfl
  | @cons e n es ns he hes ih =>
    rw [slots_property he, values, List.mapM_cons]
    simp only [bind_assoc, pure_bind]
    refine bind_congr fun v => ?_
    rw [ih]
    rfl

section Literal

variable {m : Machine} {d : Nat} {p : Option Place} {w w' : World}

theorem literal_ok {vs : List Value} (h : List.Forall₂ Property.IsNode properties children)
    (hvs : values (node m d) frame properties w = .ok vs w') :
    node m (d + 1) (.tree .object children p) frame w =
      .ok (.object (slotsOf ((properties.map Property.key).zip vs))) w' := by
  refine Run.located_ok (r := object (node m d) frame children) ?_
  rw [object, slots_eq h, bind_assoc, Run.bind_ok hvs]
  rfl

theorem literal_error {g : Failure} (h : List.Forall₂ Property.IsNode properties children)
    (hvs : values (node m d) frame properties w = .error g w') :
    node m (d + 1) (.tree .object children p) frame w = .error (g.locate p) w' := by
  refine Run.located_error (r := object (node m d) frame children) ?_
  rw [object, slots_eq h, bind_assoc, Run.bind_error hvs]

end Literal

theorem values_length {vs : List Value} {w w' : World}
    (h : values eval frame properties w = .ok vs w') : vs.length = properties.length := by
  induction properties generalizing vs w with
  | nil => cases h; rfl
  | cons e es ih =>
    rw [values, List.mapM_cons] at h
    obtain ⟨v, w₁, -, h⟩ := Run.bind_eq_ok h
    obtain ⟨us, w₂, hus, h⟩ := Run.bind_eq_ok h
    cases h
    rw [List.length_cons, List.length_cons, ih hus]

/-- The value is an object whose keys are the different keys of the pairs, in the order in which
they occur first. Read with a dot or in brackets it gives the value of the last pair with the key,
or null, and its length is the number of different keys. -/
structure Maps (v : Value) (pairs : List (String × Value)) : Prop where
  keys : ∃ slots, v = .object slots ∧ slots.map Prod.fst = (pairs.map Prod.fst).eraseDups
  member : ∀ {m : Machine} {d : Nat} {receiver : Node} {frame : FrameId} {w w' : World}
    (key : String) (p q : Option Place), node m d receiver frame w = .ok v w' →
      node m (d + 1) (.tree .member [receiver, .leaf .ident key q] p) frame w =
        .ok (lastValue key pairs) w'
  index : ∀ {m : Machine} {d : Nat} {receiver name : Node} {frame : FrameId} {w w₁ w₂ : World}
    (key : String) (p : Option Place), node m d receiver frame w = .ok v w₁ →
      node m d name frame w₁ = .ok (.string key) w₂ →
      node m (d + 1) (.tree .index [receiver, name] p) frame w = .ok (lastValue key pairs) w₂
  length : ∀ {m : Machine} {d : Nat} {callee args : Node} {frame : FrameId} {w w₁ w₂ : World}
    {more : List Value} (clock : Nat → Int) (p : Option Place),
      m.host "len" = Native.standard clock "len" →
      all (node m d) frame args.children w = .ok (v :: more) w₁ →
      node m d callee frame w₁ = .ok (.native "len") w₂ →
      node m (d + 1) (.tree .call [callee, args] p) frame w =
        .ok (.number (Float.ofNat (pairs.map Prod.fst).eraseDups.length)) w₂

theorem slotsOf_maps (pairs : List (String × Value)) : Maps (.object (slotsOf pairs)) pairs where
  keys := ⟨_, rfl, keys_slotsOf pairs⟩
  member := by
    intro m d receiver frame w w' key p q h
    refine Run.located_ok (r := member (node m d) frame [receiver, .leaf .ident key q]) ?_
    rw [member, Run.bind_ok h, ← lookup_slotsOf]
    rfl
  index := by
    intro m d receiver name frame w w₁ w₂ key p h hname
    refine Run.located_ok (r := index (node m d) frame [receiver, name]) ?_
    rw [index, Run.bind_ok h, Run.bind_ok hname, ← lookup_slotsOf]
    rfl
  length := by
    intro m d callee args frame w w₁ w₂ more clock p hhost hargs hcallee
    refine Run.located_ok (r := call m.host (node m d) frame [callee, args]) ?_
    rw [call, Run.bind_ok hargs, Run.bind_ok hcallee, apply, hhost, ← keys_slotsOf, List.length_map]
    rfl

/-- An object literal of a program, whatever its values change while they are evaluated. It maps
each key to its last value, or it fails with the first value that does, behind those before it. -/
theorem literal_maps {depth : Nat} {tokens : List Token} {program : Node} {children : List Node}
    {p : Option Place} (h : Parser.parseTokens depth tokens = .ok program)
    (hl : .tree .object children p ∈ program.preorder) :
    ∃ properties, List.Forall₂ Property.IsNode properties children ∧
      ∀ (m : Machine) (d : Nat) (frame : FrameId) (w : World),
        let literal := node m (d + 1) (.tree .object children p) frame
        (∀ v w', literal w = .ok v w' → ∃ vs, vs.length = properties.length ∧
          values (node m d) frame properties w = .ok vs w' ∧
          Maps v ((properties.map Property.key).zip vs)) ∧
        (∀ vs w', values (node m d) frame properties w = .ok vs w' →
          ∃ v, literal w = .ok v w') ∧
        ∀ f w', literal w = .error f w' ↔ ∃ before e after vs w₁ g,
          properties = before ++ e :: after ∧
          values (node m d) frame before w = .ok vs w₁ ∧
          e.value (node m d) frame w₁ = .error g w' ∧ f = g.locate p := by
  have hfits : program.Fits (fun _ => True) .program :=
    (Parser.parseTokens_spells _ h).shaped fun _ _ _ => trivial
  obtain ⟨properties, hp⟩ := hfits.propertied children p hl
  refine ⟨properties, hp, fun m d frame w => ⟨fun v w' hv => ?_, fun vs w' hvs => ?_, ?_⟩⟩
  · cases hvs : values (node m d) frame properties w with
    | ok vs w₁ =>
      cases (literal_ok hp hvs).symm.trans hv
      exact ⟨vs, values_length hvs, rfl, slotsOf_maps _⟩
    | error g w₁ => cases (literal_error hp hvs).symm.trans hv
  · exact ⟨_, literal_ok hp hvs⟩
  · refine fun f w' => ⟨fun hf => ?_, ?_⟩
    · cases hvs : values (node m d) frame properties w with
      | ok vs w₁ => cases (literal_ok hp hvs).symm.trans hf
      | error g w₁ =>
        cases (literal_error hp hvs).symm.trans hf
        obtain ⟨before, e, after, vs, w₂, he, hbefore, hg⟩ := Run.mapM_eq_error.mp hvs
        exact ⟨before, e, after, vs, w₂, g, he, hbefore, hg, rfl⟩
    · rintro ⟨before, e, after, vs, w₁, g, he, hbefore, hg, rfl⟩
      exact literal_error hp (Run.mapM_eq_error.mpr ⟨before, e, after, vs, w₁, he, hbefore, hg⟩)

theorem literal_maps_repeated :
    let tokens : List Token :=
      [⟨.lbrace, "\x7b", ⟨1, 1⟩⟩, ⟨.ident, "a", ⟨1, 3⟩⟩, ⟨.colon, ":", ⟨1, 4⟩⟩,
        ⟨.ident, "b", ⟨1, 6⟩⟩, ⟨.assign, "=", ⟨1, 8⟩⟩, ⟨.string, "y", ⟨1, 10⟩⟩,
        ⟨.comma, ",", ⟨1, 13⟩⟩, ⟨.ident, "c", ⟨1, 15⟩⟩, ⟨.comma, ",", ⟨1, 16⟩⟩,
        ⟨.ident, "a", ⟨1, 18⟩⟩, ⟨.colon, ":", ⟨1, 19⟩⟩, ⟨.string, "z", ⟨1, 21⟩⟩,
        ⟨.rbrace, "\x7d", ⟨1, 25⟩⟩, .endMark ⟨1, 26⟩]
    let m : Machine := ⟨Native.standard fun _ => 0, 0⟩
    let world (bindings : List Binding) : World := ⟨⟨#[⟨none, bindings⟩]⟩, "", [], 0⟩
    let b (s : String) : Binding := ⟨"b", .string s, false⟩
    let c : Binding := ⟨"c", .bool true, true⟩
    ∃ children p properties, List.Forall₂ Property.IsNode properties children ∧
      Parser.parseTokens 9 tokens =
        .ok (.tree .program [.tree .object children p] (some ⟨1, some 1⟩)) ∧
      (∃ v vs, node m 4 (.tree .object children p) 0 (world [b "x", c]) =
          .ok v (world [b "y", c]) ∧
        values (node m 3) 0 properties (world [b "x", c]) = .ok vs (world [b "y", c]) ∧
        Maps v ((properties.map Property.key).zip vs)) ∧
      ∃ before e after vs w₁ g, properties = before ++ e :: after ∧
        values (node m 3) 0 before (world [b "x"]) = .ok vs w₁ ∧
        e.value (node m 3) 0 w₁ = .error g (world [b "y"]) := by
  -- the tokens of `{ a: b = "y", c, a: "z" }`, run with and without a declaration of `c`
  intro tokens m world b c
  have hparse : ∃ children p, Parser.parseTokens 9 tokens =
      .ok (.tree .program [.tree .object children p] (some ⟨1, some 1⟩)) ∧
      (∃ v, node m 4 (.tree .object children p) 0 (world [b "x", c]) =
        .ok v (world [b "y", c])) ∧
      ∃ f, node m 4 (.tree .object children p) 0 (world [b "x"]) = .error f (world [b "y"]) :=
    ⟨_, _, rfl, ⟨_, rfl⟩, ⟨_, rfl⟩⟩
  obtain ⟨children, p, hparse, ⟨v, hok⟩, f, herror⟩ := hparse
  obtain ⟨properties, hp, hall⟩ := @literal_maps 9 tokens _ children p hparse (by simp)
  obtain ⟨vs, -, hvs, hmaps⟩ := (hall m 3 0 (world [b "x", c])).1 v _ hok
  obtain ⟨before, e, after, us, w₁, g, he, hus, hg, -⟩ :=
    ((hall m 3 0 (world [b "x"])).2.2 f _).mp herror
  exact ⟨children, p, properties, hp, hparse, ⟨v, vs, hok, hvs, hmaps⟩,
    before, e, after, us, w₁, g, he, hus, hg⟩

end Eval

end Bahasa
