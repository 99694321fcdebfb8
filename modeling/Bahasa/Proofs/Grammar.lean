import Bahasa.Node.Basic

namespace Bahasa

inductive Level
  | assignment | object | disjunction | conjunction | equality | relation | sum | product
  | call | member | primary
  deriving DecidableEq, Repr

namespace Level

def tighter? : Level → Option Level
  | assignment => some object
  | object => some disjunction
  | disjunction => some conjunction
  | conjunction => some equality
  | equality => some relation
  | relation => some sum
  | sum => some product
  | product => some call
  | call => some member
  | member => some primary
  | primary => none

def rank : Level → Nat
  | assignment => 0
  | object => 1
  | disjunction => 2
  | conjunction => 3
  | equality => 4
  | relation => 5
  | sum => 6
  | product => 7
  | call => 8
  | member => 9
  | primary => 10

theorem rank_tighter {level next : Level} (h : level.tighter? = some next) :
    next.rank = level.rank + 1 := by
  cases level <;> cases h <;> rfl

theorem rank_inj {l k : Level} (h : l.rank = k.rank) : l = k := by
  cases l <;> cases k <;> first | rfl | cases h

def label? : Level → Kind → Option Label
  | disjunction, .or => some .or
  | conjunction, .and => some .and
  | equality, .eq => some .eq
  | equality, .neq => some .neq
  | relation, .lt => some .lt
  | relation, .lte => some .lte
  | relation, .gt => some .gt
  | relation, .gte => some .gte
  | _, _ => none

def signs : Level → List String
  | sum => ["+", "-"]
  | product => ["*", "/", "%"]
  | _ => []

end Level

def Kind.leaf? : Kind → Option LeafKind
  | .ident => some .ident
  | .number => some .number
  | .string => some .string
  | _ => none

def Kind.assignment? : Kind → Option Label
  | .assign => some .assign
  | .plusAssign => some .plusAssign
  | .minusAssign => some .minusAssign
  | _ => none

inductive Item
  | parameter | argument
  deriving DecidableEq, Repr

/-- The symbols of the grammar, each with its trees. -/
inductive Phrase
  | level (l : Level) (n : Node)
  | item (i : Item) (n : Node)
  | items (i : Item) (ns : List Node)
  | list (i : Item) (ns : List Node)
  | initial (n : Node)
  | properties (ns : List Node)
  | condition (n : Node)
  | clauses (ns : List Node)
  | final (n : Node)
  | statement (n : Node)
  | statements (ns : List Node)
  | block (n : Node)
  | program (n : Node)

def Optional (kind : Kind) (ts : List Token) : Prop :=
  ts = [] ∨ ∃ t, ts = [t] ∧ t.kind = kind

/-- The rules of the grammar. Repetition is written with the repeated part last, which nests
operators, members and calls to the left. -/
inductive Derives : Phrase → List Token → Prop
  | literal {t : Token} {kind : LeafKind} {p : Option Place} (ht : t.kind.leaf? = some kind) :
      Derives (.level .primary (.leaf kind t.text p)) [t]
  | group {left right : Token} {n : Node} {ts : List Token} (hl : left.kind = .lparen)
      (hn : Derives (.level .assignment n) ts) (hr : right.kind = .rparen) :
      Derives (.level .primary n) (left :: ts ++ [right])
  | member {receiver : Node} {dot name : Token} {ts : List Token} {p q : Option Place}
      (hn : Derives (.level .member receiver) ts) (hd : dot.kind = .dot) (hi : name.kind = .ident) :
      Derives (.level .member (.tree .member [receiver, .leaf .ident name.text q] p))
        (ts ++ [dot, name])
  | index {receiver key : Node} {left right : Token} {ts us : List Token} {p : Option Place}
      (hn : Derives (.level .member receiver) ts) (hl : left.kind = .lbracket)
      (hk : Derives (.level .assignment key) us) (hr : right.kind = .rbracket) :
      Derives (.level .member (.tree .index [receiver, key] p)) (ts ++ left :: us ++ [right])
  | call {callee : Node} {args : List Node} {left right : Token} {ts us : List Token}
      {p q : Option Place} (hn : Derives (.level .call callee) ts) (hl : left.kind = .lparen)
      (ha : Derives (.list .argument args) us) (hr : right.kind = .rparen) :
      Derives (.level .call (.tree .call [callee, .tree .args args q] p))
        (ts ++ left :: us ++ [right])
  | join {level next : Level} {label : Label} {op : Token} {l r : Node} {ts us : List Token}
      {p : Option Place} (hl : Derives (.level level l) ts)
      (ho : level.label? op.kind = some label) (ht : level.tighter? = some next)
      (hr : Derives (.level next r) us) :
      Derives (.level level (.tree label [l, r] p)) (ts ++ op :: us)
  | arithmetic {level next : Level} {op : Token} {l r : Node} {ts us : List Token}
      {p q : Option Place} (hl : Derives (.level level l) ts) (ho : op.kind = .arith)
      (hs : op.text ∈ level.signs) (ht : level.tighter? = some next)
      (hr : Derives (.level next r) us) :
      Derives (.level level (.tree .binop [l, .leaf .operator op.text q, r] p)) (ts ++ op :: us)
  | object {left right : Token} {entries : List Node} {ts : List Token} {p : Option Place}
      (hl : left.kind = .lbrace) (he : Derives (.properties entries) ts)
      (hr : right.kind = .rbrace) :
      Derives (.level .object (.tree .object entries p)) (left :: ts ++ [right])
  | assign {label : Label} {op : Token} {target value : Node} {ts us : List Token}
      {p : Option Place} (ht : Derives (.level .object target) ts)
      (ho : op.kind.assignment? = some label) (hv : Derives (.level .assignment value) us) :
      Derives (.level .assignment (.tree label [target, value] p)) (ts ++ op :: us)
  | tighter {level next : Level} {n : Node} {ts : List Token} (ht : level.tighter? = some next)
      (hn : Derives (.level next n) ts) : Derives (.level level n) ts
  | parameter {t : Token} {p : Option Place} (ht : t.kind = .ident) :
      Derives (.item .parameter (.leaf .ident t.text p)) [t]
  | argument {n : Node} {ts : List Token} (hn : Derives (.level .assignment n) ts) :
      Derives (.item .argument n) ts
  | itemsOne {i : Item} {n : Node} {ts : List Token} (hn : Derives (.item i n) ts) :
      Derives (.items i [n]) ts
  | itemsMore {i : Item} {ns : List Node} {n : Node} {comma : Token} {ts us : List Token}
      (hs : Derives (.items i ns) ts) (hc : comma.kind = .comma) (hn : Derives (.item i n) us) :
      Derives (.items i (ns ++ [n])) (ts ++ comma :: us)
  | listNone {i : Item} : Derives (.list i []) []
  | listSome {i : Item} {ns : List Node} {ts : List Token} (hs : Derives (.items i ns) ts) :
      Derives (.list i ns) ts
  | initialNone : Derives (.initial .absent) []
  | initialSome {colon : Token} {n : Node} {ts : List Token} (hc : colon.kind = .colon)
      (hn : Derives (.level .assignment n) ts) : Derives (.initial n) (colon :: ts)
  | propertiesNone : Derives (.properties []) []
  | propertiesMore {entries : List Node} {key : Token} {value : Node} {ts us vs : List Token}
      {p q : Option Place} (hs : Derives (.properties entries) ts) (hk : key.kind = .ident)
      (hv : Derives (.initial value) us) (hc : Optional .comma vs) :
      Derives (.properties (entries ++ [.tree .property [.leaf .ident key.text q, value] p]))
        (ts ++ key :: us ++ vs)
  | condition {left right : Token} {n : Node} {ts : List Token} (hl : left.kind = .lparen)
      (hn : Derives (.level .assignment n) ts) (hr : right.kind = .rparen) :
      Derives (.condition n) (left :: ts ++ [right])
  | clausesNone : Derives (.clauses []) []
  | clausesMore {clauses : List Node} {keyword : Token} {cond body : Node} {ts us vs : List Token}
      {p : Option Place} (hs : Derives (.clauses clauses) ts) (hk : keyword.kind = .elifWord)
      (hc : Derives (.condition cond) us) (hb : Derives (.block body) vs) :
      Derives (.clauses (clauses ++ [.tree .elifClause [cond, body, .absent] p]))
        (ts ++ keyword :: us ++ vs)
  | finalNone : Derives (.final .absent) []
  | finalSome {keyword : Token} {body : Node} {ts : List Token} {p : Option Place}
      (hk : keyword.kind = .elseWord) (hb : Derives (.block body) ts) :
      Derives (.final (.tree .elseClause [body] p)) (keyword :: ts)
  | variable {keyword name semi : Token} {value : Node} {ts : List Token} {p q r : Option Place}
      (hk : keyword.kind = .letWord) (hi : name.kind = .ident) (hv : Derives (.initial value) ts)
      (hs : semi.kind = .semicolon) :
      Derives (.statement (.tree .declaration
        [.leaf .ident name.text q, .leaf .letWord keyword.text r, value] p))
        (keyword :: name :: ts ++ [semi])
  /-- A constant is never declared without a value. -/
  | constant {keyword name colon semi : Token} {value : Node} {ts : List Token}
      {p q r : Option Place} (hk : keyword.kind = .constWord) (hi : name.kind = .ident)
      (hc : colon.kind = .colon) (hv : Derives (.level .assignment value) ts)
      (hs : semi.kind = .semicolon) :
      Derives (.statement (.tree .declaration
        [.leaf .ident name.text q, .leaf .constWord keyword.text r, value] p))
        (keyword :: name :: colon :: ts ++ [semi])
  | function {keyword name left right : Token} {params : List Node} {body : Node}
      {ts us : List Token} {p q r : Option Place} (hk : keyword.kind = .fnWord)
      (hi : name.kind = .ident) (hl : left.kind = .lparen)
      (hp : Derives (.list .parameter params) ts) (hr : right.kind = .rparen)
      (hb : Derives (.block body) us) :
      Derives (.statement (.tree .function
        [.leaf .ident name.text q, .tree .params params r, body] p))
        (keyword :: name :: left :: ts ++ right :: us)
  /-- Without further clauses the final branch belongs to the statement. -/
  | ifElse {keyword : Token} {cond body final : Node} {ts us vs : List Token} {p : Option Place}
      (hk : keyword.kind = .ifWord) (hc : Derives (.condition cond) ts)
      (hb : Derives (.block body) us) (hf : Derives (.final final) vs) :
      Derives (.statement (.tree .ifElse [cond, body, .absent, final] p))
        (keyword :: ts ++ us ++ vs)
  /-- With further clauses the final branch belongs to the last of them. -/
  | ifElifs {keyword clause : Token} {cond body lastCond lastBody final : Node}
      {clauses : List Node} {ts us vs ws xs ys : List Token} {p q r : Option Place}
      (hk : keyword.kind = .ifWord) (hc : Derives (.condition cond) ts)
      (hb : Derives (.block body) us) (hs : Derives (.clauses clauses) vs)
      (hl : clause.kind = .elifWord) (hlc : Derives (.condition lastCond) ws)
      (hlb : Derives (.block lastBody) xs) (hf : Derives (.final final) ys) :
      Derives (.statement (.tree .ifElse [cond, body,
        .tree .elifs (clauses ++ [.tree .elifClause [lastCond, lastBody, final] r]) q, .absent] p))
        (keyword :: ts ++ us ++ vs ++ clause :: ws ++ xs ++ ys)
  | forLoop {keyword left semi right : Token} {start cond increment body : Node}
      {ts us vs ws : List Token} {p : Option Place} (hk : keyword.kind = .forWord)
      (hl : left.kind = .lparen) (hs : Derives (.statement start) ts)
      (hc : Derives (.level .assignment cond) us) (hm : semi.kind = .semicolon)
      (hi : Derives (.statement increment) vs) (hr : right.kind = .rparen)
      (hb : Derives (.block body) ws) :
      Derives (.statement (.tree .forLoop [start, cond, increment, body] p))
        (keyword :: left :: ts ++ us ++ semi :: vs ++ right :: ws)
  | expression {n : Node} {ts us : List Token} (hn : Derives (.level .assignment n) ts)
      (hs : Optional .semicolon us) : Derives (.statement n) (ts ++ us)
  | statementsNone : Derives (.statements []) []
  | statementsMore {ns : List Node} {n : Node} {ts us : List Token}
      (hs : Derives (.statements ns) ts) (hn : Derives (.statement n) us) :
      Derives (.statements (ns ++ [n])) (ts ++ us)
  | block {left right : Token} {ns : List Node} {ts : List Token} {p : Option Place}
      (hl : left.kind = .lbrace) (hs : Derives (.statements ns) ts) (hr : right.kind = .rbrace) :
      Derives (.block (.tree .body ns p)) (left :: ts ++ [right])
  | program {ns : List Node} {ts : List Token} {p : Option Place}
      (hs : Derives (.statements ns) ts) : Derives (.program (.tree .program ns p)) ts

namespace Derives

theorem level_ne_nil {l : Level} {n : Node} {ts : List Token} (h : Derives (.level l n) ts) :
    ts ≠ [] := by
  generalize hφ : Phrase.level l n = φ at h
  induction h generalizing l n with
  | tighter _ _ ih => exact ih rfl
  | _ => simp_all

/-- What is derived at a level is derived at the looser ones too. -/
theorem looser {l k : Level} {n : Node} {ts : List Token} (h : Derives (.level l n) ts)
    (hk : k.rank ≤ l.rank) : Derives (.level k n) ts := by
  obtain ⟨steps, hsteps⟩ := Nat.exists_eq_add_of_le hk
  induction steps generalizing k with
  | zero =>
    have hkl := Level.rank_inj hsteps
    exact hkl ▸ h
  | succ steps ih =>
    have hlast : l.rank ≤ 10 := by cases l <;> decide
    cases ht : k.tighter? with
    | none =>
      have hprimary : k.rank = 10 := by cases k <;> first | rfl | cases ht
      omega
    | some next =>
      have hr := Level.rank_tighter ht
      exact .tighter ht (ih (by omega) (by omega))

theorem statement_ne_nil {n : Node} {ts : List Token} (h : Derives (.statement n) ts) :
    ts ≠ [] := by
  cases h with
  | expression hn _ => simp [hn.level_ne_nil]
  | _ => simp

end Derives

end Bahasa
