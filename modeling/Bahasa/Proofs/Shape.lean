import Bahasa.Proofs.Grammar

namespace Bahasa

inductive Form
  | expression
  | value
  | property
  | parameter
  | declaration | statement | block
  | clause | lastClause | final
  | start
  | program
  deriving DecidableEq, Repr

namespace Label

def joiners : List Label := [or, and, eq, neq, lt, lte, gt, gte]

def assignments : List Label := [assign, plusAssign, minusAssign]

end Label

def arithmeticSigns : List String := ["+", "-", "*", "/", "%"]

/-- The node is a tree that a program can have in the given role. -/
inductive Node.Fits (numeral : String → Prop) : Form → Node → Prop
  | ident (name : String) (p : Option Place) : Fits numeral .expression (.leaf .ident name p)
  | number {text : String} (p : Option Place) (h : numeral text) :
      Fits numeral .expression (.leaf .number text p)
  | string (text : String) (p : Option Place) : Fits numeral .expression (.leaf .string text p)
  | join {label : Label} {l r : Node} (p : Option Place) (h : label ∈ Label.joiners)
      (hl : Fits numeral .expression l) (hr : Fits numeral .expression r) :
      Fits numeral .expression (.tree label [l, r] p)
  | binop {sign : String} {l r : Node} (p q : Option Place) (h : sign ∈ arithmeticSigns)
      (hl : Fits numeral .expression l) (hr : Fits numeral .expression r) :
      Fits numeral .expression (.tree .binop [l, .leaf .operator sign q, r] p)
  | assign {label : Label} {target value : Node} (p : Option Place) (h : label ∈ Label.assignments)
      (ht : Fits numeral .expression target) (hv : Fits numeral .expression value) :
      Fits numeral .expression (.tree label [target, value] p)
  | call {callee : Node} {args : List Node} (p q : Option Place)
      (hc : Fits numeral .expression callee) (ha : ∀ a ∈ args, Fits numeral .expression a) :
      Fits numeral .expression (.tree .call [callee, .tree .args args q] p)
  | member {receiver : Node} (name : String) (p q : Option Place)
      (hr : Fits numeral .expression receiver) :
      Fits numeral .expression (.tree .member [receiver, .leaf .ident name q] p)
  | index {receiver key : Node} (p : Option Place) (hr : Fits numeral .expression receiver)
      (hk : Fits numeral .expression key) :
      Fits numeral .expression (.tree .index [receiver, key] p)
  | object {entries : List Node} (p : Option Place) (he : ∀ e ∈ entries, Fits numeral .property e) :
      Fits numeral .expression (.tree .object entries p)
  | noValue : Fits numeral .value .absent
  | value {n : Node} (h : Fits numeral .expression n) : Fits numeral .value n
  | property {value : Node} (key : String) (p q : Option Place) (hv : Fits numeral .value value) :
      Fits numeral .property (.tree .property [.leaf .ident key q, value] p)
  | parameter (name : String) (p : Option Place) : Fits numeral .parameter (.leaf .ident name p)
  | variable {value : Node} (name keyword : String) (p q r : Option Place)
      (hv : Fits numeral .value value) :
      Fits numeral .declaration
        (.tree .declaration [.leaf .ident name q, .leaf .letWord keyword r, value] p)
  | constant {value : Node} (name keyword : String) (p q r : Option Place)
      (hv : Fits numeral .expression value) :
      Fits numeral .declaration
        (.tree .declaration [.leaf .ident name q, .leaf .constWord keyword r, value] p)
  | declaration {n : Node} (h : Fits numeral .declaration n) : Fits numeral .statement n
  | expression {n : Node} (h : Fits numeral .expression n) : Fits numeral .statement n
  | function {params : List Node} {body : Node} (name : String) (p q r : Option Place)
      (hp : ∀ x ∈ params, Fits numeral .parameter x) (hb : Fits numeral .block body) :
      Fits numeral .statement
        (.tree .function [.leaf .ident name q, .tree .params params r, body] p)
  | block {statements : List Node} (p : Option Place)
      (hs : ∀ s ∈ statements, Fits numeral .statement s) :
      Fits numeral .block (.tree .body statements p)
  | ifElse {cond body final : Node} (p : Option Place) (hc : Fits numeral .expression cond)
      (hb : Fits numeral .block body) (hf : Fits numeral .final final) :
      Fits numeral .statement (.tree .ifElse [cond, body, .absent, final] p)
  | ifElifs {cond body last : Node} {clauses : List Node} (p q : Option Place)
      (hc : Fits numeral .expression cond) (hb : Fits numeral .block body)
      (hs : ∀ c ∈ clauses, Fits numeral .clause c) (hl : Fits numeral .lastClause last) :
      Fits numeral .statement
        (.tree .ifElse [cond, body, .tree .elifs (clauses ++ [last]) q, .absent] p)
  | clause {cond body : Node} (p : Option Place) (hc : Fits numeral .expression cond)
      (hb : Fits numeral .block body) :
      Fits numeral .clause (.tree .elifClause [cond, body, .absent] p)
  | lastClause {cond body final : Node} (p : Option Place) (hc : Fits numeral .expression cond)
      (hb : Fits numeral .block body) (hf : Fits numeral .final final) :
      Fits numeral .lastClause (.tree .elifClause [cond, body, final] p)
  | noFinal : Fits numeral .final .absent
  | final {body : Node} (p : Option Place) (hb : Fits numeral .block body) :
      Fits numeral .final (.tree .elseClause [body] p)
  | startDeclaration {n : Node} (h : Fits numeral .declaration n) : Fits numeral .start n
  | startExpression {n : Node} (h : Fits numeral .expression n) : Fits numeral .start n
  | forLoop {start cond increment body : Node} (p : Option Place) (hs : Fits numeral .start start)
      (hc : Fits numeral .expression cond) (hi : Fits numeral .expression increment)
      (hb : Fits numeral .block body) :
      Fits numeral .statement (.tree .forLoop [start, cond, increment, body] p)
  | program {statements : List Node} (p : Option Place)
      (hs : ∀ s ∈ statements, Fits numeral .statement s) :
      Fits numeral .program (.tree .program statements p)

theorem Node.Fits.isAbsent_eq {numeral : String → Prop} {n : Node}
    (h : n.Fits numeral .expression) : n.isAbsent = false := by
  cases h <;> rfl

/-- The number tokens have texts of the given kind. -/
def Numerals (numeral : String → Prop) (ts : List Token) : Prop :=
  ∀ t ∈ ts, t.kind = .number → numeral t.text

namespace Numerals

variable {numeral : String → Prop} {t : Token} {ts us : List Token}

@[simp] theorem append_iff :
    Numerals numeral (ts ++ us) ↔ Numerals numeral ts ∧ Numerals numeral us := by
  simp only [Numerals, List.mem_append, or_imp, forall_and]

@[simp] theorem cons_iff :
    Numerals numeral (t :: ts) ↔ (t.kind = .number → numeral t.text) ∧ Numerals numeral ts := by
  simp [Numerals]

end Numerals

namespace Phrase

def Shaped (numeral : String → Prop) : Phrase → Prop
  | level _ n => n.Fits numeral .expression
  | item .argument n => n.Fits numeral .expression
  | item .parameter n => n.Fits numeral .parameter
  | items .argument ns | list .argument ns => ∀ n ∈ ns, n.Fits numeral .expression
  | items .parameter ns | list .parameter ns => ∀ n ∈ ns, n.Fits numeral .parameter
  | initial n => n.Fits numeral .value
  | properties ns => ∀ n ∈ ns, n.Fits numeral .property
  | condition n => n.Fits numeral .expression
  | _ => True

end Phrase

theorem Level.label?_mem {level : Level} {kind : Kind} {label : Label}
    (h : level.label? kind = some label) : label ∈ Label.joiners := by
  cases level <;> cases kind <;> simp_all [Level.label?, Label.joiners]

theorem Kind.assignment?_mem {kind : Kind} {label : Label} (h : kind.assignment? = some label) :
    label ∈ Label.assignments := by
  cases kind <;> simp_all [Kind.assignment?, Label.assignments]

theorem Level.signs_subset (level : Level) {sign : String} (h : sign ∈ level.signs) :
    sign ∈ arithmeticSigns := by
  cases level with
  | sum =>
    obtain rfl | rfl : sign = "+" ∨ sign = "-" := by simpa [Level.signs] using h
    · decide
    · decide
  | product =>
    obtain rfl | rfl | rfl : sign = "*" ∨ sign = "/" ∨ sign = "%" := by simpa [Level.signs] using h
    · decide
    · decide
    · decide
  | _ => cases h

theorem forall_mem_snoc {α : Type} {P : α → Prop} {xs : List α} {x : α} (hs : ∀ y ∈ xs, P y)
    (hx : P x) : ∀ y ∈ xs ++ [x], P y := by
  simpa [or_imp, forall_and] using ⟨hs, hx⟩

theorem Derives.shaped {numeral : String → Prop} {φ : Phrase} {ts : List Token} (h : Derives φ ts)
    (hn : Numerals numeral ts) : φ.Shaped numeral := by
  induction h with
  | @literal t kind p ht =>
    cases hk : t.kind <;> simp [hk, Kind.leaf?] at ht <;> subst ht
    · exact .number p (hn t (by simp) hk)
    · exact .string _ p
    · exact .ident _ p
  | group _ _ _ ih =>
    simp only [List.cons_append, Numerals.cons_iff, Numerals.append_iff] at hn
    exact ih hn.2.1
  | member _ _ _ ih =>
    rw [Numerals.append_iff] at hn
    exact .member _ _ _ (ih hn.1)
  | index _ _ _ _ ihr ihk =>
    simp only [Numerals.append_iff, Numerals.cons_iff] at hn
    exact .index _ (ihr hn.1.1) (ihk hn.1.2.2)
  | call _ _ _ _ ihc iha =>
    simp only [Numerals.append_iff, Numerals.cons_iff] at hn
    exact .call _ _ (ihc hn.1.1) (iha hn.1.2.2)
  | join _ ho _ _ ihl ihr =>
    simp only [Numerals.append_iff, Numerals.cons_iff] at hn
    exact .join _ (Level.label?_mem ho) (ihl hn.1) (ihr hn.2.2)
  | arithmetic _ _ hs _ _ ihl ihr =>
    simp only [Numerals.append_iff, Numerals.cons_iff] at hn
    exact .binop _ _ (Level.signs_subset _ hs) (ihl hn.1) (ihr hn.2.2)
  | object _ _ _ ih =>
    simp only [List.cons_append, Numerals.cons_iff, Numerals.append_iff] at hn
    exact .object _ (ih hn.2.1)
  | assign _ ho _ iht ihv =>
    simp only [Numerals.append_iff, Numerals.cons_iff] at hn
    exact .assign _ (Kind.assignment?_mem ho) (iht hn.1) (ihv hn.2.2)
  | tighter _ _ ih => exact ih hn
  | parameter _ => exact .parameter _ _
  | argument _ ih => exact ih hn
  | @itemsOne i _ _ _ ih =>
    have hi := ih hn
    cases i <;> simpa [Phrase.Shaped] using hi
  | @itemsMore i _ _ _ _ _ _ _ _ ihs ih =>
    simp only [Numerals.append_iff, Numerals.cons_iff] at hn
    have hs := ihs hn.1
    have hi := ih hn.2.2
    cases i
    · exact forall_mem_snoc hs hi
    · exact forall_mem_snoc hs hi
  | @listNone i => cases i <;> simp [Phrase.Shaped]
  | @listSome i _ _ _ ih =>
    have hi := ih hn
    cases i <;> exact hi
  | initialNone => exact .noValue
  | initialSome _ _ ih => exact .value (ih (Numerals.cons_iff.mp hn).2)
  | propertiesNone => simp [Phrase.Shaped]
  | propertiesMore _ _ _ _ ihs ihv =>
    simp only [Numerals.append_iff, Numerals.cons_iff] at hn
    exact forall_mem_snoc (ihs hn.1.1) (.property _ _ _ (ihv hn.1.2.2))
  | condition _ _ _ ih =>
    simp only [List.cons_append, Numerals.cons_iff, Numerals.append_iff] at hn
    exact ih hn.2.1
  | _ => exact trivial

end Bahasa
