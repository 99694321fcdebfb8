import Bahasa.Eval.Basic
import Bahasa.Proofs.Parser.Soundness
import Mathlib.Data.List.Forall2

namespace Bahasa

structure Branch where
  cond : Node
  statements : List Node

/-- An if statement as it is written: a branch, any number of further ones and possibly a final
one. -/
structure Choice where
  first : Branch
  further : List Branch
  otherwise : Option (List Node)

inductive Branch.Spelled (word : Kind) (b : Branch) : List Token → Prop
  | intro {keyword : Token} {ts us : List Token} {p : Option Place} (hk : keyword.kind = word)
      (hc : Derives (.condition b.cond) ts)
      (hs : Legible (.block (.tree .body b.statements p)) us) :
      Spelled word b (keyword :: ts ++ us)

namespace Choice

inductive FinalSpelled : Option (List Node) → List Token → Prop
  | none : FinalSpelled none []
  | some {keyword : Token} {ns : List Node} {ts : List Token} {p : Option Place}
      (hk : keyword.kind = .elseWord) (hs : Legible (.block (.tree .body ns p)) ts) :
      FinalSpelled (some ns) (keyword :: ts)

inductive Spelled (c : Choice) : List Token → Prop
  | intro {ts us : List Token} {further : List (List Token)} (hf : c.first.Spelled .ifWord ts)
      (hs : List.Forall₂ (Branch.Spelled .elifWord) c.further further)
      (ho : FinalSpelled c.otherwise us) : Spelled c (ts ++ further.flatten ++ us)

end Choice

namespace Eval

variable {eval : Evaluator} {frame : FrameId}

def runAll (eval : Evaluator) (frame : FrameId) (ns : List Node) : Run Unit :=
  ns.forM fun n => do
    let _ ← eval n frame

/-- The first branch whose condition holds, or else the final one. No condition after that is
evaluated. -/
def choose (eval : Evaluator) (frame : FrameId) (branches : List Branch) (final : List Node) :
    Run Unit := do
  match ← branches.findM? fun b => return (← eval b.cond frame).isTruthy with
  | some b => runAll eval frame b.statements
  | none => runAll eval frame final

/-- What an if statement does; its value is always null. -/
def choice (eval : Evaluator) (frame : FrameId) (c : Choice) : Run Value := do
  choose eval frame (c.first :: c.further) (c.otherwise.getD [])
  return .null

theorem choose_nil (final : List Node) : choose eval frame [] final = runAll eval frame final := rfl

theorem choose_cons (b : Branch) (bs : List Branch) (final : List Node) :
    choose eval frame (b :: bs) final = (do
      if (← eval b.cond frame).isTruthy then runAll eval frame b.statements
      else choose eval frame bs final) := by
  simp only [choose, List.findM?, bind_assoc, pure_bind]
  refine bind_congr fun v => ?_
  cases v.isTruthy <;> simp

theorem sequence_runAll (last : Value) (ns : List Node) :
    (do let _ ← sequence eval frame last ns) = runAll eval frame ns := by
  induction ns generalizing last with
  | nil => rfl
  | cons n ns ih =>
    rw [sequence, bind_assoc]
    simp only [runAll, List.forM_eq_forM, List.forM_cons, bind_assoc, pure_bind]
    exact bind_congr ih

theorem body_tree (ns : List Node) (p : Option Place) :
    body eval frame (.tree .body ns p) = runAll eval frame ns :=
  sequence_runAll .null ns

end Eval

inductive Node.IsFinal : Option (List Node) → Node → Prop
  | none : IsFinal none .absent
  | some {ns : List Node} {p q : Option Place} :
      IsFinal (some ns) (.tree .elseClause [.tree .body ns q] p)

inductive Parser.Clause.IsBranch : Parser.Clause → Branch → Prop
  | intro {keyword : Token} {cond : Node} {ns : List Node} {p : Option Place} :
      IsBranch ⟨keyword, cond, .tree .body ns p⟩ ⟨cond, ns⟩

section Evaluation

open Bahasa.Parser (Clause clauseNodes ifNode)

namespace Eval

variable {eval : Evaluator} {frame : FrameId} {final : Option (List Node)} {rest : Node}
  {cs : List Clause} {bs : List Branch}

theorem otherwise_final (ho : rest.IsFinal final) :
    otherwise eval frame rest = runAll eval frame (final.getD []) := by
  cases ho with
  | none => rfl
  | some =>
    rw [otherwise, body_tree]
    rfl

/-- The clauses do what their branches do; the last of them goes on with the final branch. -/
theorem clauses_choose (hne : cs ≠ []) (h : List.Forall₂ Clause.IsBranch cs bs)
    (ho : rest.IsFinal final) :
    clauses eval frame (clauseNodes rest cs) = choose eval frame bs (final.getD []) := by
  induction h with
  | nil => exact absurd rfl hne
  | @cons _ _ cs bs hc hcs ih =>
    obtain ⟨⟩ := hc
    rw [choose_cons]
    cases hcs with
    | nil =>
      rw [clauseNodes, Clause.node, Node.build, clauses]
      refine bind_congr fun v => ?_
      rw [body_tree]
      cases ho with
      | none => rfl
      | some => rw [choose_nil, otherwise_final .some]; rfl
    | cons hd hds =>
      rw [clauseNodes, Clause.node, Node.build, clauses]
      · refine bind_congr fun v => ?_
        rw [body_tree, ih (List.cons_ne_nil _ _)]
        rfl
      · exact List.cons_ne_nil _ _

theorem ifElse_choice (keyword : Token) {cond : Node} {ns : List Node} {p : Option Place}
    (h : List.Forall₂ Clause.IsBranch cs bs) (ho : rest.IsFinal final) :
    ifElse eval frame (ifNode keyword cond (.tree .body ns p) cs rest).children =
      choice eval frame ⟨⟨cond, ns⟩, bs, final⟩ := by
  -- only without further clauses the final branch is the statement's own
  rw [choice, choose_cons, bind_assoc]
  cases h with
  | nil =>
    rw [ifNode, Node.build, Node.children, ifElse]
    refine bind_congr fun v => ?_
    rw [body_tree, otherwise_final ho, choose_nil]
    cases v.isTruthy <;> rfl
  | cons hc hcs =>
    rw [ifNode, Node.build, Node.build, Node.children, ifElse]
    refine bind_congr fun v => ?_
    rw [body_tree, Node.children, clauses_choose (List.cons_ne_nil _ _) (.cons hc hcs) ho]
    cases v.isTruthy <;> rfl

end Eval

end Evaluation

namespace Parser

variable {numeral : String → Prop} {stop : Token} {expression statement : Parser Node}

theorem block_body {n : Node} {ts : List Token} (h : Legible (.block n) ts) :
    ∃ ns p, n = .tree .body ns p := by
  cases h
  exact ⟨_, _, rfl⟩

theorem ClausesRead.branches {cs : List Clause} {ts : List Token} (h : ClausesRead numeral cs ts) :
    ∃ bs tss, List.Forall₂ Clause.IsBranch cs.reverse bs ∧
      List.Forall₂ (Branch.Spelled .elifWord) bs tss ∧ ts = tss.flatten := by
  induction h with
  | nil => exact ⟨[], [], .nil, .nil, rfl⟩
  | @cons c cs ts us vs _ hk hc hb ih =>
    obtain ⟨bs, tss, hbs, hts, rfl⟩ := ih
    obtain ⟨keyword, cond, body⟩ := c
    obtain ⟨ns, p, rfl⟩ := block_body hb.legible
    refine ⟨bs ++ [⟨cond, ns⟩], tss ++ [keyword :: us ++ vs], ?_, ?_, by simp⟩
    · rw [List.reverse_cons]
      exact List.rel_append hbs (.cons .intro .nil)
    · exact List.rel_append hts (.cons (.intro hk hc hb.legible) .nil)

theorem elseClause_final (hs : stop.kind = .endOfInput) (hr : ReadsStatement numeral stop statement)
    {ahead rest : List Token} {n : Node} (h : elseClause statement stop ahead = .ok (n, rest)) :
    ∃ final used, ahead = used ++ rest ∧ n.IsFinal final ∧ Choice.FinalSpelled final used ∧
      (final = none → ahead = rest ∧ (rest.headD stop).kind ≠ .elseWord) := by
  obtain ⟨keyword, mid, body, rfl, hk, hb, rfl⟩ | ⟨hk, rfl, rfl⟩ := (elseClause_eq_ok hs).mp h
  · obtain ⟨ts, rfl, hd⟩ := block_reads hs hr _ _ _ hb
    obtain ⟨ns, p, rfl⟩ := block_body hd.legible
    exact ⟨some ns, keyword :: ts, rfl, .some, .some hk hd.legible, nofun⟩
  · exact ⟨none, [], rfl, .none, .none, fun _ => ⟨rfl, hk⟩⟩

theorem ifElse_branches (hs : stop.kind = .endOfInput)
    (he : ReadsLevel stop expression .assignment) (hr : ReadsStatement numeral stop statement)
    {ahead rest : List Token} {n : Node} (hk : (ahead.headD stop).kind = .ifWord)
    (h : ifElse expression statement stop ahead = .ok (n, rest)) :
    ∃ keyword cond ns p cs final bs otherwise used,
      n = ifNode keyword cond (.tree .body ns p) cs otherwise ∧
      List.Forall₂ Clause.IsBranch cs bs ∧ otherwise.IsFinal final ∧
      ahead = used ++ rest ∧ Choice.Spelled ⟨⟨cond, ns⟩, bs, final⟩ used ∧
      (final = none → (rest.headD stop).kind ≠ .elifWord ∧ (rest.headD stop).kind ≠ .elseWord) := by
  obtain ⟨keyword, mid, cond, afterCond, body, afterBody, clauses, afterClauses, otherwise, rfl,
    hcond, hbody, hclauses, hfinal, rfl⟩ := (ifElse_eq_ok hs).mp h
  obtain ⟨ts, rfl, hc⟩ := condition_reads hs he _ _ _ _ hcond
  obtain ⟨us, rfl, hb⟩ := block_reads hs hr _ _ _ hbody
  obtain ⟨ns, p, rfl⟩ := block_body hb.legible
  obtain ⟨vs, rfl, hcs, hlast⟩ :=
    (elifStep_reads hs he hr).foldWhile (elifClauses_eq_ok.mp hclauses) .nil
  rw [List.nil_append] at hcs
  obtain ⟨bs, tss, hbs, hts, rfl⟩ := hcs.branches
  rw [List.reverse_reverse] at hbs
  obtain ⟨final, ws, rfl, hf, hspelled, hnone⟩ := elseClause_final hs hr hfinal
  refine ⟨keyword, cond, ns, p, clauses, final, bs, otherwise, _, rfl, hbs, hf, ?_,
    .intro (.intro hk hc hb.legible) hts hspelled, fun h0 => ?_⟩
  · simp
  · obtain ⟨hrest, helse⟩ := hnone h0
    rw [hrest] at hlast
    exact ⟨(elifStep_eq_none.mp hlast).2, helse⟩

end Parser

/-- However many clauses an if statement has, evaluating it takes the first of its branches whose
condition holds, in the order in which they are written. -/
theorem Eval.ifElse_takes_first {depth : Nat} {stop : Token} {ahead rest : List Token} {n : Node}
    (hs : stop.kind = .endOfInput) (hk : (ahead.headD stop).kind = .ifWord)
    (h : Parser.statement depth stop ahead = .ok (n, rest)) :
    ∃ (c : Choice) (used : List Token), ahead = used ++ rest ∧ c.Spelled used ∧
      (c.otherwise = none →
        (rest.headD stop).kind ≠ .elifWord ∧ (rest.headD stop).kind ≠ .elseWord) ∧
      ∀ m d frame, node m (d + 1) n frame =
        Run.located n.place? (choice (node m d) frame c) := by
  cases depth with
  | zero => exact (Parser.tooDeep_eq_ok.mp h).elim
  | succ depth =>
    have hif : Parser.ifElse (Parser.expression depth) (Parser.statement depth) stop ahead =
        .ok (n, rest) := by
      rw [Parser.statement, Parser.statementWith, Parser.peek_bind, hk] at h
      exact h
    obtain ⟨keyword, cond, ns, p, cs, final, bs, otherwise, used, rfl, hbs, hf, rfl, hu, hend⟩ :=
      Parser.ifElse_branches hs (Parser.expression_reads hs depth)
        (Parser.statement_reads (fun _ => True) hs depth) hk hif
    refine ⟨_, used, rfl, hu, hend, fun m d frame => ?_⟩
    rw [← ifElse_choice keyword hbs hf]
    cases cs <;> rfl

theorem Eval.ifElse_takes_first_three :
    let stop := Token.endMark ⟨1, 51⟩
    let ahead : List Token :=
      -- the tokens of `jika (a) { f() } lainnyajika (b) { } lainnya { c }`
      [⟨.ifWord, "jika", ⟨1, 1⟩⟩, ⟨.lparen, "(", ⟨1, 6⟩⟩, ⟨.ident, "a", ⟨1, 7⟩⟩,
        ⟨.rparen, ")", ⟨1, 8⟩⟩, ⟨.lbrace, "\x7b", ⟨1, 10⟩⟩, ⟨.ident, "f", ⟨1, 12⟩⟩,
        ⟨.lparen, "(", ⟨1, 13⟩⟩, ⟨.rparen, ")", ⟨1, 14⟩⟩, ⟨.rbrace, "\x7d", ⟨1, 16⟩⟩,
        ⟨.elifWord, "lainnyajika", ⟨1, 18⟩⟩, ⟨.lparen, "(", ⟨1, 30⟩⟩, ⟨.ident, "b", ⟨1, 31⟩⟩,
        ⟨.rparen, ")", ⟨1, 32⟩⟩, ⟨.lbrace, "\x7b", ⟨1, 34⟩⟩, ⟨.rbrace, "\x7d", ⟨1, 36⟩⟩,
        ⟨.elseWord, "lainnya", ⟨1, 38⟩⟩, ⟨.lbrace, "\x7b", ⟨1, 46⟩⟩, ⟨.ident, "c", ⟨1, 48⟩⟩,
        ⟨.rbrace, "\x7d", ⟨1, 50⟩⟩]
    ∃ n, Parser.statement 9 stop ahead = .ok (n, []) ∧
      ∃ (c : Choice) (used : List Token), ahead = used ++ [] ∧ c.Spelled used ∧
        (c.otherwise = none → stop.kind ≠ .elifWord ∧ stop.kind ≠ .elseWord) ∧
        ∀ m d frame, node m (d + 1) n frame =
          Run.located n.place? (choice (node m d) frame c) :=
  ⟨_, rfl, @ifElse_takes_first 9 _ _ _ _ rfl rfl rfl⟩

end Bahasa
