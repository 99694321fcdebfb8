import Bahasa.Parser.Statement
import Bahasa.Proofs.Node.Places

namespace Bahasa

def ParseError.move (m : Motion) : ParseError → ParseError
  | openStream => openStream
  | tooDeep token => tooDeep (token.move m)
  | rejected complaint token => rejected complaint (token.move m)

namespace Parser

variable {α β γ δ : Type} {deep : Prop} {m : Motion}

def moved (m : Motion) (g : α → β) :
    Except ParseError (α × List Token) → Except ParseError (β × List Token)
  | .ok (a, rest) => .ok (g a, rest.map (Token.move m))
  | .error e => .error (e.move m)

/-- On a moved stream `q` answers as `p` does, moved. If `deep` allows it, `p` may give up. -/
def Mimics (deep : Prop) (m : Motion) (g : α → β) (p : Parser α) (q : Parser β) : Prop :=
  ∀ stop ahead, (deep ∧ ∃ t, p stop ahead = .error (.tooDeep t)) ∨
    q (stop.move m) (ahead.map (Token.move m)) = moved m g (p stop ahead)

theorem headD_map_move (ahead : List Token) (stop : Token) :
    (ahead.map (Token.move m)).headD (stop.move m) = (ahead.headD stop).move m := by
  cases ahead with
  | nil => rfl
  | cons t ts => rfl

namespace Mimics

section Primitives

variable {g : α → β} {h : γ → δ}

theorem pure {a : α} {b : β} (hab : g a = b) : Mimics deep m g (Pure.pure a) (Pure.pure b) := by
  intro stop ahead
  subst hab
  exact .inr rfl

theorem bind {p : Parser α} {q : Parser β} {r : α → Parser γ} {s : β → Parser δ}
    (hp : Mimics deep m g p q) (hr : ∀ a, Mimics deep m h (r a) (s (g a))) :
    Mimics deep m h (p >>= r) (q >>= s) := by
  intro stop ahead
  change (deep ∧ ∃ t, Except.bind (p stop ahead) (fun x => r x.1 stop x.2) =
      .error (.tooDeep t)) ∨
    Except.bind (q (stop.move m) (ahead.map (Token.move m))) (fun x => s x.1 (stop.move m) x.2) =
      moved m h (Except.bind (p stop ahead) (fun x => r x.1 stop x.2))
  obtain ⟨hd, t, he⟩ | he := hp stop ahead
  · rw [he]
    exact .inl ⟨hd, t, rfl⟩
  · rw [he]
    cases p stop ahead with
    | error e => exact .inr rfl
    | ok x => exact hr x.1 stop x.2

theorem peek : Mimics deep m (Token.move m) peek peek := by
  intro stop ahead
  apply Or.inr
  rw [Parser.peek, headD_map_move]
  rfl

theorem next : Mimics deep m (Token.move m) next next := by
  intro stop ahead
  apply Or.inr
  rw [Parser.next, headD_map_move, ← List.map_tail]
  rfl

theorem reject (complaint : Complaint) :
    Mimics deep m g (Parser.reject complaint) (Parser.reject complaint) := by
  intro stop ahead
  apply Or.inr
  rw [Parser.reject, headD_map_move]
  rfl

theorem tooDeep : Mimics deep m g Parser.tooDeep Parser.tooDeep := by
  intro stop ahead
  apply Or.inr
  rw [Parser.tooDeep, headD_map_move]
  rfl

theorem giveUp {q : Parser β} (hd : deep) : Mimics deep m g Parser.tooDeep q :=
  fun stop ahead => .inl ⟨hd, ahead.headD stop, rfl⟩

theorem ite {c : Prop} [Decidable c] {p p' : Parser α} {q q' : Parser β}
    (hp : Mimics deep m g p q) (hp' : Mimics deep m g p' q') :
    Mimics deep m g (if c then p else p') (if c then q else q') := by
  split
  · exact hp
  · exact hp'

theorem expect (kind : Kind) (complaint : Complaint) :
    Mimics deep m (Token.move m) (Parser.expect kind complaint) (Parser.expect kind complaint) :=
  peek.bind fun _ => ite next (reject complaint)

theorem accept (kind : Kind) : Mimics deep m id (Parser.accept kind) (Parser.accept kind) :=
  peek.bind fun _ => ite (next.bind fun _ => pure rfl) (pure rfl)

end Primitives

section Loops

variable {g : α → β} {step : α → Parser (Option α)} {step' : β → Parser (Option β)}

theorem foldTurns (hs : ∀ a, Mimics deep m (Option.map g) (step a) (step' (g a)))
    (turns : List Token) (a : α) :
    Mimics deep m g (Parser.foldTurns step turns a)
      (Parser.foldTurns step' (turns.map (Token.move m)) (g a)) := by
  induction turns generalizing a with
  | nil =>
    refine (hs a).bind fun found => pure ?_
    cases found with
    | none => rfl
    | some b => rfl
  | cons t turns ih =>
    refine (hs a).bind fun found => ?_
    cases found with
    | none => exact pure rfl
    | some b => exact ih b

theorem foldWhile (hs : ∀ a, Mimics deep m (Option.map g) (step a) (step' (g a))) (a : α) :
    Mimics deep m g (Parser.foldWhile step a) (Parser.foldWhile step' (g a)) :=
  fun stop ahead => foldTurns hs ahead a stop ahead

end Loops

section Lists

variable {g : α → β} {item : Parser α} {item' : Parser β}

theorem commaSeparated (hi : Mimics deep m g item item') :
    Mimics deep m (List.map g) (Parser.commaSeparated item) (Parser.commaSeparated item') := by
  refine hi.bind fun first => ?_
  refine (foldWhile (g := List.map g) (fun items => ?_) [first]).bind fun items => ?_
  · refine (accept .comma).bind fun found => ?_
    cases found with
    | false => exact pure rfl
    | true => exact hi.bind fun a => pure rfl
  · exact pure (by simp)

theorem commaListUntil (close : Kind) (complaint : Complaint) (hi : Mimics deep m g item item') :
    Mimics deep m (List.map g) (Parser.commaListUntil close complaint item)
      (Parser.commaListUntil close complaint item') := by
  refine peek.bind fun t => ?_
  rw [Token.move_kind]
  refine ite ?_ ?_
  · exact (pure (g := List.map g) rfl).bind fun items =>
      (expect close complaint).bind fun _ => pure rfl
  · exact (commaSeparated hi).bind fun items => (expect close complaint).bind fun _ => pure rfl

theorem bracedItems (enclosure : Enclosure) (hi : Mimics deep m g item item') :
    Mimics deep m (List.map g) (Parser.bracedItems enclosure item)
      (Parser.bracedItems enclosure item') := by
  refine (foldWhile (g := List.map g) (fun items => ?_) []).bind fun items => ?_
  · refine peek.bind fun t => ?_
    rw [Token.move_kind]
    split
    · exact pure rfl
    · exact reject _
    · exact hi.bind fun a => pure rfl
  · exact next.bind fun _ => pure (by simp)

end Lists

section Expressions

variable {e e' operand operand' : Parser Node}

theorem primary (he : Mimics deep m (Node.move m) e e') :
    Mimics deep m (Node.move m) (Parser.primary e) (Parser.primary e') := by
  refine peek.bind fun t => ?_
  rw [Token.move_kind]
  split
  · exact next.bind fun t => pure (Node.move_ofToken .ident t)
  · exact next.bind fun t => pure (Node.move_ofToken .number t)
  · exact next.bind fun t => pure (Node.move_ofToken .string t)
  · refine next.bind fun _ => he.bind fun n => ?_
    exact (expect .rparen .groupClose).bind fun _ => pure rfl
  · exact reject _
  · exact reject _

theorem member (he : Mimics deep m (Node.move m) e e') :
    Mimics deep m (Node.move m) (Parser.member e) (Parser.member e') := by
  refine (primary he).bind fun receiver => foldWhile (fun receiver => ?_) receiver
  refine peek.bind fun t => ?_
  rw [Token.move_kind]
  split
  · refine next.bind fun dot => (expect .ident .memberName).bind fun name => pure ?_
    simp
  · refine next.bind fun bracket => he.bind fun key => ?_
    refine (expect .rbracket .indexClose).bind fun _ => pure ?_
    simp
  · exact pure rfl

theorem call (he : Mimics deep m (Node.move m) e e') :
    Mimics deep m (Node.move m) (Parser.call e) (Parser.call e') := by
  refine (member he).bind fun callee => foldWhile (fun callee => ?_) callee
  refine peek.bind fun t => ?_
  rw [Token.move_kind]
  split
  · refine next.bind fun paren => (commaListUntil .rparen .argsClose he).bind fun args => pure ?_
    simp
  · exact pure rfl

def MovesJoin (m : Motion) (join? : Token → Option (Node → Node → Node)) : Prop :=
  ∀ t, (join? t = none ∧ join? (t.move m) = none) ∨
    ∃ join join', join? t = some join ∧ join? (t.move m) = some join' ∧
      ∀ l r, (join l r).move m = join' (l.move m) (r.move m)

theorem chain {join? : Token → Option (Node → Node → Node)} (hj : MovesJoin m join?)
    (ho : Mimics deep m (Node.move m) operand operand') :
    Mimics deep m (Node.move m) (Parser.chain join? operand) (Parser.chain join? operand') := by
  refine ho.bind fun first => foldWhile (fun left => ?_) first
  refine peek.bind fun t => ?_
  obtain ⟨ht, ht'⟩ | ⟨join, join', ht, ht', hjoin⟩ := hj t
  · rw [ht, ht']
    exact pure rfl
  · rw [ht, ht']
    refine next.bind fun _ => ho.bind fun right => pure ?_
    rw [Option.map_some, hjoin]

theorem arithmetic_moves (signs : List String) : MovesJoin m (arithmetic? signs) := by
  intro t
  by_cases h : t.kind = .arith ∧ t.text ∈ signs
  · refine .inr ⟨_, _, if_pos h, if_pos h, fun l r => ?_⟩
    simp
  · exact .inl ⟨if_neg h, if_neg h⟩

theorem labelled_moves (label? : Kind → Option Label) : MovesJoin m (labelled? label?) := by
  intro t
  unfold labelled?
  rw [Token.move_kind]
  cases label? t.kind with
  | none => exact .inl ⟨rfl, rfl⟩
  | some label =>
    refine .inr ⟨_, _, rfl, rfl, fun l r => ?_⟩
    simp

theorem disjunction (he : Mimics deep m (Node.move m) e e') :
    Mimics deep m (Node.move m) (Parser.disjunction e) (Parser.disjunction e') := by
  have hproduct := chain (arithmetic_moves ["*", "/", "%"]) (call he)
  have hsum := chain (arithmetic_moves ["+", "-"]) hproduct
  have hrelation := chain (labelled_moves relation?) hsum
  have hequality := chain (labelled_moves equality?) hrelation
  have hconjunction := chain (labelled_moves conjunction?) hequality
  exact chain (labelled_moves disjunction?) hconjunction

theorem property (he : Mimics deep m (Node.move m) e e') :
    Mimics deep m (Node.move m) (Parser.property e) (Parser.property e') := by
  refine (expect .ident .objectKey).bind fun key => (accept .colon).bind fun found => ?_
  cases found with
  | false =>
    refine (pure (g := Node.move m) Node.move_absent).bind fun value => ?_
    exact (accept .comma).bind fun _ => pure (by simp)
  | true => exact he.bind fun value => (accept .comma).bind fun _ => pure (by simp)

theorem object (he : Mimics deep m (Node.move m) e e') :
    Mimics deep m (Node.move m) (Parser.object e) (Parser.object e') := by
  refine peek.bind fun t => ?_
  rw [Token.move_kind]
  refine ite ?_ (disjunction he)
  refine next.bind fun brace => (bracedItems .object (property he)).bind fun entries => pure ?_
  simp

def movePending (m : Motion) (p : Pending) : Pending :=
  ⟨p.target.move m, p.label, p.operator.move m⟩

theorem foldl_close_move (pending : List Pending) (n : Node) :
    (pending.foldl Pending.close n).move m =
      (pending.map (movePending m)).foldl Pending.close (n.move m) := by
  induction pending generalizing n with
  | nil => rfl
  | cons p pending ih =>
    rw [List.foldl_cons, ih, List.map_cons, List.foldl_cons]
    simp [Pending.close, movePending]

theorem assignment (he : Mimics deep m (Node.move m) e e') :
    Mimics deep m (Node.move m) (Parser.assignment e) (Parser.assignment e') := by
  refine (object he).bind fun first => ?_
  refine (foldWhile (g := Prod.map (List.map (movePending m)) (Node.move m))
    (fun state => ?_) ([], first)).bind fun state => pure (foldl_close_move _ _)
  refine peek.bind fun t => ?_
  rw [Token.move_kind]
  cases assignment? t.kind with
  | none => exact pure rfl
  | some label => exact next.bind fun op => (object he).bind fun value => pure rfl

theorem expression {d d' : Nat} (h : d ≤ d') (hd : d < d' → deep) :
    Mimics deep m (Node.move m) (Parser.expression d) (Parser.expression d') := by
  induction d generalizing d' with
  | zero =>
    cases d' with
    | zero => exact tooDeep
    | succ d' => exact giveUp (hd (Nat.zero_lt_succ d'))
  | succ d ih =>
    cases d' with
    | zero => exact absurd h (Nat.not_succ_le_zero d)
    | succ d' => exact assignment (ih (by omega) fun hlt => hd (by omega))

end Expressions

section Statements

variable {e e' s s' : Parser Node}

theorem declaration (he : Mimics deep m (Node.move m) e e') :
    Mimics deep m (Node.move m) (Parser.declaration e) (Parser.declaration e') := by
  refine next.bind fun keyword => (expect .ident .declaredName).bind fun name => ?_
  refine (accept .colon).bind fun found => ?_
  have hbuild (kind : LeafKind) (value : Node) :
      Node.move m (.build .declaration [.ofToken .ident name, .ofToken kind keyword,
        value] keyword) =
        .build .declaration
          [.ofToken .ident (name.move m), .ofToken kind (keyword.move m), value.move m]
          (keyword.move m) := by
    simp
  refine ite ?_ (ite ?_ ?_)
  · exact he.bind fun value => (expect .semicolon .declarationEnd).bind fun _ => pure (hbuild _ _)
  · refine (reject (g := Node.move m) _).bind fun value => ?_
    exact (expect .semicolon .declarationEnd).bind fun _ => pure (hbuild _ _)
  · refine (pure (g := Node.move m) Node.move_absent).bind fun value => ?_
    exact (expect .semicolon .declarationEnd).bind fun _ => pure (hbuild _ _)

theorem block (enclosure : Enclosure) (hs : Mimics deep m (Node.move m) s s') :
    Mimics deep m (Node.move m) (Parser.block enclosure s) (Parser.block enclosure s') := by
  refine (expect .lbrace _).bind fun brace => (bracedItems enclosure hs).bind fun items => pure ?_
  simp

theorem function (hs : Mimics deep m (Node.move m) s s') :
    Mimics deep m (Node.move m) (Parser.function s) (Parser.function s') := by
  refine next.bind fun keyword => (expect .ident .functionName).bind fun name => ?_
  refine (expect .lparen .paramsOpen).bind fun paren => ?_
  refine (commaListUntil .rparen .paramsClose (expect .ident .paramName)).bind fun params => ?_
  refine (block .functionBody hs).bind fun body => pure ?_
  simp [Function.comp_def]

theorem condition (keyword : String) (he : Mimics deep m (Node.move m) e e') :
    Mimics deep m (Node.move m) (Parser.condition keyword e) (Parser.condition keyword e') := by
  refine (expect .lparen _).bind fun _ => he.bind fun cond => ?_
  exact (expect .rparen _).bind fun _ => pure rfl

def moveClause (m : Motion) (c : Clause) : Clause :=
  ⟨c.keyword.move m, c.cond.move m, c.body.move m⟩

theorem clauseNodes_move (otherwise : Node) (clauses : List Clause) :
    (clauseNodes otherwise clauses).map (Node.move m) =
      clauseNodes (otherwise.move m) (clauses.map (moveClause m)) := by
  fun_induction clauseNodes otherwise clauses with
  | case1 => rfl
  | case2 c => simp [clauseNodes, Clause.node, moveClause]
  | case3 c rest hne ih =>
    cases rest with
    | nil => exact absurd rfl hne
    | cons d rest =>
      rw [List.map_cons, ih]
      simp [clauseNodes, Clause.node, moveClause]

theorem ifNode_move (keyword : Token) (cond body : Node) (clauses : List Clause)
    (otherwise : Node) :
    (ifNode keyword cond body clauses otherwise).move m =
      ifNode (keyword.move m) (cond.move m) (body.move m) (clauses.map (moveClause m))
        (otherwise.move m) := by
  cases clauses with
  | nil => simp [ifNode]
  | cons c clauses =>
    have h := clauseNodes_move (m := m) otherwise (c :: clauses)
    rw [List.map_cons] at h
    simp [ifNode, h, moveClause]

theorem elifClauses (he : Mimics deep m (Node.move m) e e')
    (hs : Mimics deep m (Node.move m) s s') :
    Mimics deep m (List.map (moveClause m)) (Parser.elifClauses e s)
      (Parser.elifClauses e' s') := by
  refine (foldWhile (g := List.map (moveClause m)) (fun clauses => ?_) []).bind fun clauses =>
    pure (by simp)
  refine peek.bind fun t => ite ?_ (pure rfl)
  have hclause : Mimics deep m (moveClause m) (elifClause e s) (elifClause e' s') := by
    refine next.bind fun keyword => (condition _ he).bind fun cond => ?_
    exact (block .elifBody hs).bind fun body => pure rfl
  exact hclause.bind fun c => pure rfl

theorem elseClause (hs : Mimics deep m (Node.move m) s s') :
    Mimics deep m (Node.move m) (Parser.elseClause s) (Parser.elseClause s') := by
  refine peek.bind fun t => ite ?_ (pure Node.move_absent)
  refine next.bind fun keyword => (block .elseBody hs).bind fun body => pure ?_
  simp

theorem ifElse (he : Mimics deep m (Node.move m) e e') (hs : Mimics deep m (Node.move m) s s') :
    Mimics deep m (Node.move m) (Parser.ifElse e s) (Parser.ifElse e' s') := by
  refine next.bind fun keyword => (condition _ he).bind fun cond => ?_
  refine (block .ifBody hs).bind fun body => (elifClauses he hs).bind fun clauses => ?_
  exact (elseClause hs).bind fun otherwise => pure (ifNode_move keyword cond body clauses otherwise)

theorem loopStart (he : Mimics deep m (Node.move m) e e') :
    Mimics deep m (Node.move m) (Parser.loopStart e) (Parser.loopStart e') := by
  refine peek.bind fun t => ?_
  rw [Token.move_kind]
  split
  · exact declaration he
  · exact declaration he
  · exact he.bind fun start => (accept .semicolon).bind fun _ => pure rfl

theorem forLoop (he : Mimics deep m (Node.move m) e e') (hs : Mimics deep m (Node.move m) s s') :
    Mimics deep m (Node.move m) (Parser.forLoop e s) (Parser.forLoop e' s') := by
  refine next.bind fun keyword => (expect .lparen _).bind fun _ => ?_
  refine (loopStart he).bind fun start => he.bind fun cond => ?_
  refine (expect .semicolon .loopConditionEnd).bind fun _ => he.bind fun increment => ?_
  refine (expect .rparen .loopHeadClose).bind fun _ => (block .forBody hs).bind fun body => pure ?_
  simp

theorem statement {d d' : Nat} (h : d ≤ d') (hd : d < d' → deep) :
    Mimics deep m (Node.move m) (Parser.statement d) (Parser.statement d') := by
  induction d generalizing d' with
  | zero =>
    cases d' with
    | zero => exact tooDeep
    | succ d' => exact giveUp (hd (Nat.zero_lt_succ d'))
  | succ d ih =>
    cases d' with
    | zero => exact absurd h (Nat.not_succ_le_zero d)
    | succ d' =>
      have hle : d ≤ d' := Nat.le_of_succ_le_succ h
      have hlt : d < d' → deep := fun hlt => hd (Nat.succ_lt_succ hlt)
      have he := expression (m := m) hle hlt
      have hs := ih hle hlt
      refine peek.bind fun t => ?_
      rw [Token.move_kind]
      split
      · exact declaration he
      · exact declaration he
      · exact function hs
      · exact ifElse he hs
      · exact forLoop he hs
      · exact he.bind fun value => (accept .semicolon).bind fun _ => pure rfl

theorem program {d d' : Nat} (h : d ≤ d') (hd : d < d' → deep) :
    Mimics deep m (Node.move m) (Parser.program d) (Parser.program d') := by
  refine peek.bind fun first => ?_
  refine (foldWhile (g := List.map (Node.move m)) (fun statements => ?_) []).bind
    fun statements => pure (by simp)
  refine peek.bind fun t => ite (pure rfl) ?_
  exact (statement h hd).bind fun n => pure rfl

end Statements

end Mimics

/-- A moved stream with more depth gives the moved answer, unless the reader gave up. -/
theorem parseTokens_move (m : Motion) {d d' : Nat} (h : d ≤ d') (tokens : List Token) :
    (d < d' ∧ ∃ t, parseTokens d tokens = .error (.tooDeep t)) ∨
      parseTokens d' (tokens.map (Token.move m)) =
        ((parseTokens d tokens).map (Node.move m)).mapError (ParseError.move m) := by
  have hkind : (fun t : Token => decide (t.kind ≠ .endOfInput)) ∘ Token.move m =
      fun t => decide (t.kind ≠ .endOfInput) := rfl
  unfold parseTokens
  rw [List.getLast?_map, List.takeWhile_map, List.dropWhile_map, hkind]
  cases tokens.getLast? with
  | none => exact .inr rfl
  | some last =>
    obtain ⟨kind, text, position⟩ := last
    cases kind
    case endOfInput =>
      cases tokens.dropWhile (fun t => decide (t.kind ≠ .endOfInput)) with
      | nil => exact .inr rfl
      | cons stop rest =>
        have hp : Mimics (d < d') m (Node.move m) (program d) (program d') := .program h id
        generalize tokens.takeWhile (fun t => decide (t.kind ≠ .endOfInput)) = ahead
        change (d < d' ∧ ∃ t, (program d stop ahead).map (·.1) = .error (.tooDeep t)) ∨
          (program d' (stop.move m) (ahead.map (Token.move m))).map (·.1) =
            (((program d stop ahead).map (·.1)).map (Node.move m)).mapError (ParseError.move m)
        obtain ⟨hd, t, he⟩ | he := hp stop ahead
        · rw [he]
          exact .inl ⟨hd, t, rfl⟩
        · rw [he]
          cases program d stop ahead with
          | error e => exact .inr rfl
          | ok x => exact .inr rfl
    all_goals exact .inr rfl

end Parser

end Bahasa
