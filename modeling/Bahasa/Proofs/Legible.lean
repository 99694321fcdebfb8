import Bahasa.Proofs.Edges

namespace Bahasa

namespace Parser

/-- The second stream does not go on with a statement of the first: it starts with no parenthesis,
or no operand stands before it. -/
def Separate (ts us : List Token) : Prop :=
  (∀ t ∈ us.head?, t.kind ≠ .lparen) ∨ ts = [] ∨
    ∃ t ∈ ts.getLast?, t.kind = .semicolon ∨ t.kind = .rbrace

namespace Separate

variable {ts us vs : List Token}

theorem nil (us : List Token) : Separate [] us :=
  .inr (.inl rfl)

theorem of_finished (h : Finished ts) (us : List Token) : Separate ts us :=
  .inr (.inr h)

theorem append_right (h : Separate ts us) (hu : us ≠ []) : Separate ts (us ++ vs) := by
  cases us with
  | nil => exact absurd rfl hu
  | cons t us => exact h

theorem of_append_right (h : Separate ts (us ++ vs)) (hu : us ≠ []) : Separate ts us := by
  cases us with
  | nil => exact absurd rfl hu
  | cons t us => exact h

theorem append_left (h : Separate us vs) (hu : us ≠ []) : Separate (ts ++ us) vs := by
  exact h.imp_right (Or.imp (fun hn => absurd hn hu) (Finished.append ts))

end Separate

end Parser

open Bahasa.Parser (Separate)

inductive Simple : Node → List Token → Prop
  | declaration {n : Node} {ts : List Token} (hn : Derives (.statement n) ts)
      (hk : ∃ t ∈ ts.head?, t.kind = .letWord ∨ t.kind = .constWord) : Simple n ts
  | expression {n : Node} {ts us : List Token} (hn : Derives (.level .assignment n) ts)
      (hs : Optional .semicolon us) : Simple n (ts ++ us)

/-- The rules for statements, with statements kept apart from what stands next to them. A loop
starts with a simple statement, and no semicolon closes its increment. -/
inductive Legible : Phrase → List Token → Prop
  | simple {n : Node} {ts : List Token} (hn : Simple n ts) : Legible (.statement n) ts
  | function {keyword name left right : Token} {params : List Node} {body : Node}
      {ts us : List Token} {p q r : Option Place} (hk : keyword.kind = .fnWord)
      (hi : name.kind = .ident) (hl : left.kind = .lparen)
      (hp : Derives (.list .parameter params) ts) (hr : right.kind = .rparen)
      (hb : Legible (.block body) us) :
      Legible (.statement (.tree .function
        [.leaf .ident name.text q, .tree .params params r, body] p))
        (keyword :: name :: left :: ts ++ right :: us)
  | clausesNone : Legible (.clauses []) []
  | clausesMore {clauses : List Node} {keyword : Token} {cond body : Node} {ts us vs : List Token}
      {p : Option Place} (hs : Legible (.clauses clauses) ts) (hk : keyword.kind = .elifWord)
      (hc : Derives (.condition cond) us) (hb : Legible (.block body) vs) :
      Legible (.clauses (clauses ++ [.tree .elifClause [cond, body, .absent] p]))
        (ts ++ keyword :: us ++ vs)
  | finalNone : Legible (.final .absent) []
  | finalSome {keyword : Token} {body : Node} {ts : List Token} {p : Option Place}
      (hk : keyword.kind = .elseWord) (hb : Legible (.block body) ts) :
      Legible (.final (.tree .elseClause [body] p)) (keyword :: ts)
  | ifElse {keyword : Token} {cond body final : Node} {ts us vs : List Token} {p : Option Place}
      (hk : keyword.kind = .ifWord) (hc : Derives (.condition cond) ts)
      (hb : Legible (.block body) us) (hf : Legible (.final final) vs) :
      Legible (.statement (.tree .ifElse [cond, body, .absent, final] p))
        (keyword :: ts ++ us ++ vs)
  | ifElifs {keyword clause : Token} {cond body lastCond lastBody final : Node}
      {clauses : List Node} {ts us vs ws xs ys : List Token} {p q r : Option Place}
      (hk : keyword.kind = .ifWord) (hc : Derives (.condition cond) ts)
      (hb : Legible (.block body) us) (hs : Legible (.clauses clauses) vs)
      (hl : clause.kind = .elifWord) (hlc : Derives (.condition lastCond) ws)
      (hlb : Legible (.block lastBody) xs) (hf : Legible (.final final) ys) :
      Legible (.statement (.tree .ifElse [cond, body,
        .tree .elifs (clauses ++ [.tree .elifClause [lastCond, lastBody, final] r]) q, .absent] p))
        (keyword :: ts ++ us ++ vs ++ clause :: ws ++ xs ++ ys)
  | forLoop {keyword left semi right : Token} {start cond increment body : Node}
      {ts us vs ws : List Token} {p : Option Place} (hk : keyword.kind = .forWord)
      (hl : left.kind = .lparen) (hs : Simple start ts) (hsep : Separate ts us)
      (hc : Derives (.level .assignment cond) us) (hm : semi.kind = .semicolon)
      (hi : Derives (.level .assignment increment) vs) (hr : right.kind = .rparen)
      (hb : Legible (.block body) ws) :
      Legible (.statement (.tree .forLoop [start, cond, increment, body] p))
        (keyword :: left :: ts ++ us ++ semi :: vs ++ right :: ws)
  | statementsNone : Legible (.statements []) []
  | statementsMore {ns : List Node} {n : Node} {ts us : List Token}
      (hs : Legible (.statements ns) ts) (hsep : Separate ts us) (hn : Legible (.statement n) us) :
      Legible (.statements (ns ++ [n])) (ts ++ us)
  | block {left right : Token} {ns : List Node} {ts : List Token} {p : Option Place}
      (hl : left.kind = .lbrace) (hs : Legible (.statements ns) ts) (hr : right.kind = .rbrace) :
      Legible (.block (.tree .body ns p)) (left :: ts ++ [right])
  | program {ns : List Node} {ts : List Token} {p : Option Place}
      (hs : Legible (.statements ns) ts) : Legible (.program (.tree .program ns p)) ts

theorem Simple.derives {n : Node} {ts : List Token} (h : Simple n ts) :
    Derives (.statement n) ts := by
  cases h with
  | declaration hn _ => exact hn
  | expression hn hs => exact .expression hn hs

namespace Legible

theorem derives {φ : Phrase} {ts : List Token} (h : Legible φ ts) : Derives φ ts := by
  induction h with
  | simple hn => exact hn.derives
  | function hk hi hl hp hr _ ihb => exact .function hk hi hl hp hr ihb
  | clausesNone => exact .clausesNone
  | clausesMore _ hk hc _ ihs ihb => exact .clausesMore ihs hk hc ihb
  | finalNone => exact .finalNone
  | finalSome hk _ ihb => exact .finalSome hk ihb
  | ifElse hk hc _ _ ihb ihf => exact .ifElse hk hc ihb ihf
  | ifElifs hk hc _ _ hl hlc _ _ ihb ihs ihlb ihf =>
    exact .ifElifs hk hc ihb ihs hl hlc ihlb ihf
  | @forLoop _ _ _ _ _ _ _ _ _ _ vs _ _ hk hl hs _ hc hm hi hr _ ihb =>
    have hi' : Derives (.statement _) (vs ++ []) := .expression hi (.inl rfl)
    rw [List.append_nil] at hi'
    exact .forLoop hk hl hs.derives hc hm hi' hr ihb
  | statementsNone => exact .statementsNone
  | statementsMore _ _ _ ihs ihn => exact .statementsMore ihs ihn
  | block hl _ hr ihs => exact .block hl ihs hr
  | program _ ihs => exact .program ihs

end Legible

end Bahasa
