import Bahasa.Proofs.Edges
import Bahasa.Proofs.Parser.Success

namespace Bahasa.Parser

variable {expression statement : Parser Node} {stop : Token} {ahead rest : List Token} {n : Node}

section Expressions

theorem primary_eq_ok (hs : stop.kind = .endOfInput) :
    primary expression stop ahead = .ok (n, rest) ↔
      (∃ t kind, ahead = t :: rest ∧ t.kind.leaf? = some kind ∧ n = .ofToken kind t) ∨
      ∃ left mid right, ahead = left :: mid ∧ left.kind = .lparen ∧
        expression stop mid = .ok (n, right :: rest) ∧ right.kind = .rparen := by
  simp only [primary, peek_bind]
  cases ahead with
  | nil => simp [hs, reject_eq_ok]
  | cons t ts =>
    simp only [List.headD_cons, List.cons.injEq]
    generalize hk : t.kind = k
    split
    case h_4 =>
      simp only [bind_eq_ok, next_eq_ok, expect_eq_ok hs (by decide : Kind.rparen ≠ _), pure_eq_ok]
      simp only [List.headD_cons, List.tail_cons, Kind.leaf?]
      grind
    all_goals
      simp only [bind_eq_ok, next_eq_ok, pure_eq_ok, reject_eq_ok]
      grind [Kind.leaf?]

def memberStep (expression : Parser Node) (receiver : Node) : Parser (Option Node) := do
  match (← peek).kind with
  | .dot =>
    let dot ← next
    let name ← expect .ident .memberName
    return some (.build .member [receiver, .ofToken .ident name] dot)
  | .lbracket =>
    let bracket ← next
    let key ← expression
    let _ ← expect .rbracket .indexClose
    return some (.build .index [receiver, key] bracket)
  | _ => return none

theorem member_eq_ok :
    member expression stop ahead = .ok (n, rest) ↔
      ∃ receiver mid, primary expression stop ahead = .ok (receiver, mid) ∧
        foldWhile (memberStep expression) receiver stop mid = .ok (n, rest) :=
  bind_eq_ok

theorem memberStep_eq_some (hs : stop.kind = .endOfInput) {receiver : Node} :
    memberStep expression receiver stop ahead = .ok (some n, rest) ↔
      (∃ dot name, ahead = dot :: name :: rest ∧ dot.kind = .dot ∧ name.kind = .ident ∧
        n = .build .member [receiver, .ofToken .ident name] dot) ∨
      ∃ left mid key right, ahead = left :: mid ∧ left.kind = .lbracket ∧
        expression stop mid = .ok (key, right :: rest) ∧ right.kind = .rbracket ∧
        n = .build .index [receiver, key] left := by
  simp only [memberStep, peek_bind]
  cases ahead with
  | nil => simp [hs, pure_eq_ok]
  | cons t ts =>
    simp only [List.headD_cons, List.cons.injEq]
    generalize hk : t.kind = k
    split
    all_goals
      simp only [bind_eq_ok, next_eq_ok, expect_eq_ok hs (by decide : Kind.ident ≠ _),
        expect_eq_ok hs (by decide : Kind.rbracket ≠ _), pure_eq_ok]
      grind

theorem memberStep_eq_none {receiver : Node} :
    memberStep expression receiver stop ahead = .ok (none, rest) ↔
      ahead = rest ∧ (ahead.headD stop).kind ≠ .dot ∧ (ahead.headD stop).kind ≠ .lbracket := by
  simp only [memberStep, peek_bind]
  generalize (ahead.headD stop).kind = k
  split
  all_goals
    simp only [bind_eq_ok, pure_eq_ok]
    grind

def callStep (expression : Parser Node) (callee : Node) : Parser (Option Node) := do
  match (← peek).kind with
  | .lparen =>
    let paren ← next
    let args ← commaListUntil .rparen .argsClose expression
    return some (.build .call [callee, .build .args args paren] paren)
  | _ => return none

theorem call_eq_ok :
    call expression stop ahead = .ok (n, rest) ↔
      ∃ callee mid, member expression stop ahead = .ok (callee, mid) ∧
        foldWhile (callStep expression) callee stop mid = .ok (n, rest) :=
  bind_eq_ok

theorem callStep_eq_some (hs : stop.kind = .endOfInput) {callee : Node} :
    callStep expression callee stop ahead = .ok (some n, rest) ↔
      ∃ paren mid args, ahead = paren :: mid ∧ paren.kind = .lparen ∧
        commaListUntil .rparen .argsClose expression stop mid = .ok (args, rest) ∧
        n = .build .call [callee, .build .args args paren] paren := by
  simp only [callStep, peek_bind]
  cases ahead with
  | nil => simp [hs, pure_eq_ok]
  | cons t ts =>
    simp only [List.headD_cons, List.cons.injEq]
    generalize hk : t.kind = k
    split
    all_goals
      simp only [bind_eq_ok, next_eq_ok, pure_eq_ok]
      grind

theorem callStep_eq_none {callee : Node} :
    callStep expression callee stop ahead = .ok (none, rest) ↔
      ahead = rest ∧ (ahead.headD stop).kind ≠ .lparen := by
  simp only [callStep, peek_bind]
  generalize (ahead.headD stop).kind = k
  split
  all_goals
    simp only [bind_eq_ok, pure_eq_ok]
    grind

def chainStep (join? : Token → Option (Node → Node → Node)) (operand : Parser Node) (left : Node) :
    Parser (Option Node) := do
  match join? (← peek) with
  | some join =>
    let _ ← next
    return some (join left (← operand))
  | none => return none

variable {join? : Token → Option (Node → Node → Node)} {operand : Parser Node}

theorem chain_eq_ok :
    chain join? operand stop ahead = .ok (n, rest) ↔
      ∃ first mid, operand stop ahead = .ok (first, mid) ∧
        foldWhile (chainStep join? operand) first stop mid = .ok (n, rest) :=
  bind_eq_ok

theorem chainStep_eq_some (hj : join? stop = none) {left : Node} :
    chainStep join? operand left stop ahead = .ok (some n, rest) ↔
      ∃ op mid join right, ahead = op :: mid ∧ join? op = some join ∧
        operand stop mid = .ok (right, rest) ∧ n = join left right := by
  simp only [chainStep, peek_bind]
  cases ahead with
  | nil => simp [hj, pure_eq_ok]
  | cons t ts =>
    simp only [List.headD_cons, List.cons.injEq]
    cases hk : join? t
    all_goals
      simp only [bind_eq_ok, next_eq_ok, pure_eq_ok]
      grind

theorem chainStep_eq_none {left : Node} :
    chainStep join? operand left stop ahead = .ok (none, rest) ↔
      ahead = rest ∧ join? (ahead.headD stop) = none := by
  simp only [chainStep, peek_bind]
  cases join? (ahead.headD stop)
  all_goals
    simp only [bind_eq_ok, pure_eq_ok]
    grind

theorem arithmetic?_eq_some {signs : List String} {op : Token} {join : Node → Node → Node} :
    arithmetic? signs op = some join ↔
      op.kind = .arith ∧ op.text ∈ signs ∧
        join = fun left right => .build .binop [left, .ofToken .operator op, right] op := by
  simp only [arithmetic?, Option.ite_none_right_eq_some, Option.some.injEq]
  grind

theorem labelled?_eq_some {label? : Kind → Option Label} {op : Token} {join : Node → Node → Node} :
    labelled? label? op = some join ↔
      ∃ label, label? op.kind = some label ∧
        join = fun left right => .build label [left, right] op := by
  simp only [labelled?, Option.map_eq_some_iff]
  grind

theorem property_eq_ok (hs : stop.kind = .endOfInput) :
    property expression stop ahead = .ok (n, rest) ↔
      ∃ key mid value last, ahead = key :: mid ∧ key.kind = .ident ∧
        ((∃ colon more, mid = colon :: more ∧ colon.kind = .colon ∧
            expression stop more = .ok (value, last)) ∨
          ((mid.headD stop).kind ≠ .colon ∧ value = .absent ∧ mid = last)) ∧
        Skips .comma stop last rest ∧ n = .build .property [.ofToken .ident key, value] key := by
  simp only [property, bind_eq_ok (p := expect _ _), expect_eq_ok hs (by decide : Kind.ident ≠ _),
    accept_ite_eq_ok hs (by decide : Kind.colon ≠ _), bind_eq_ok (p := expression),
    bind_eq_ok (p := pure _), accept_bind_eq_ok hs (by decide : Kind.comma ≠ _), pure_eq_ok]
  constructor
  · rintro ⟨key, mid, ⟨rfl, hkey⟩, hvalue⟩
    obtain ⟨colon, more, rfl, hc, value, last, he, _, hcomma, rfl, rfl⟩ |
      ⟨hc, value, last, ⟨rfl, rfl⟩, _, hcomma, rfl, rfl⟩ := hvalue
    · exact ⟨key, _, value, last, rfl, hkey, .inl ⟨colon, more, rfl, hc, he⟩, hcomma, rfl⟩
    · exact ⟨key, _, _, _, rfl, hkey, .inr ⟨hc, rfl, rfl⟩, hcomma, rfl⟩
  · rintro ⟨key, mid, value, last, rfl, hkey, hvalue, hcomma, rfl⟩
    refine ⟨key, mid, ⟨rfl, hkey⟩, ?_⟩
    obtain ⟨colon, more, rfl, hc, he⟩ | ⟨hc, rfl, rfl⟩ := hvalue
    · exact .inl ⟨colon, more, rfl, hc, value, last, he, _, hcomma, rfl, rfl⟩
    · exact .inr ⟨hc, _, _, ⟨rfl, rfl⟩, _, hcomma, rfl, rfl⟩

theorem object_eq_ok (hs : stop.kind = .endOfInput) :
    object expression stop ahead = .ok (n, rest) ↔
      (∃ brace mid entries, ahead = brace :: mid ∧ brace.kind = .lbrace ∧
        bracedItems .object (property expression) stop mid = .ok (entries, rest) ∧
        n = .build .object entries brace) ∨
      ((ahead.headD stop).kind ≠ .lbrace ∧ disjunction expression stop ahead = .ok (n, rest)) := by
  simp only [object, peek_bind, ite_eq_ok, bind_eq_ok, next_eq_ok, pure_eq_ok]
  cases ahead with
  | nil => simp [hs]
  | cons t ts => grind

def assignStep (expression : Parser Node) :
    List Pending × Node → Parser (Option (List Pending × Node)) :=
  fun ((pending, left) : List Pending × Node) => do
    match assignment? (← peek).kind with
    | some label =>
      let op ← next
      return some (⟨left, label, op⟩ :: pending, ← object expression)
    | none => return none

theorem assignment_eq_ok :
    assignment expression stop ahead = .ok (n, rest) ↔
      ∃ first mid pending last, object expression stop ahead = .ok (first, mid) ∧
        foldWhile (assignStep expression) ([], first) stop mid = .ok ((pending, last), rest) ∧
        n = pending.foldl Pending.close last := by
  simp only [assignment, bind_eq_ok, pure_eq_ok, Prod.exists]
  change (∃ first mid, _ ∧ ∃ pending last _,
    foldWhile (assignStep expression) ([], first) stop mid = _ ∧ _) ↔ _
  grind

theorem assignStep_eq_some (hs : stop.kind = .endOfInput) {state next : List Pending × Node} :
    assignStep expression state stop ahead = .ok (some next, rest) ↔
      ∃ op mid label value, ahead = op :: mid ∧ assignment? op.kind = some label ∧
        object expression stop mid = .ok (value, rest) ∧
        next = (⟨state.2, label, op⟩ :: state.1, value) := by
  simp only [assignStep, peek_bind]
  cases ahead with
  | nil => simp [hs, assignment?, pure_eq_ok]
  | cons t ts =>
    simp only [List.headD_cons, List.cons.injEq]
    cases hk : assignment? t.kind
    all_goals
      simp only [bind_eq_ok, next_eq_ok, pure_eq_ok]
      grind

theorem assignStep_eq_none {state : List Pending × Node} :
    assignStep expression state stop ahead = .ok (none, rest) ↔
      ahead = rest ∧ assignment? (ahead.headD stop).kind = none := by
  simp only [assignStep, peek_bind]
  cases assignment? (ahead.headD stop).kind
  all_goals
    simp only [bind_eq_ok, pure_eq_ok]
    grind

end Expressions

section Statements

def keywordKind (keyword : Token) : LeafKind :=
  if keyword.kind = .constWord then .constWord else .letWord

theorem declaration_eq_ok (hs : stop.kind = .endOfInput) :
    declaration expression stop ahead = .ok (n, rest) ↔
      ∃ keyword name mid value semi, ahead = keyword :: name :: mid ∧ name.kind = .ident ∧
        ((∃ colon more, mid = colon :: more ∧ colon.kind = .colon ∧
            expression stop more = .ok (value, semi :: rest)) ∨
          ((mid.headD stop).kind ≠ .colon ∧ keyword.kind ≠ .constWord ∧ value = .absent ∧
            mid = semi :: rest)) ∧
        semi.kind = .semicolon ∧
        n = .build .declaration
          [.ofToken .ident name, .ofToken (keywordKind keyword) keyword, value] keyword := by
  simp only [declaration, bind_eq_ok (p := expect _ _),
    expect_eq_ok hs (by decide : Kind.ident ≠ _),
    accept_ite_eq_ok hs (by decide : Kind.colon ≠ _), bind_eq_ok (p := expression),
    bind_eq_ok (p := pure _), bind_eq_ok (p := next), bind_eq_ok (p := reject _), next_eq_ok,
    reject_eq_ok, ite_eq_ok, expect_eq_ok hs (by decide : Kind.semicolon ≠ _), pure_eq_ok]
  cases ahead with
  | nil => simp
  | cons keyword ts =>
    constructor
    · rintro ⟨_, _, ⟨rfl, rfl⟩, name, mid, ⟨rfl, hname⟩, hvalue⟩
      obtain ⟨colon, more, rfl, hc, value, _, he, semi, _, ⟨rfl, hsemi⟩, rfl, rfl⟩ |
        ⟨hc, ⟨_, _, _, h, _⟩ | ⟨hk, value, _, ⟨rfl, rfl⟩, semi, _, ⟨rfl, hsemi⟩, rfl, rfl⟩⟩ :=
          hvalue
      · exact ⟨keyword, name, _, value, semi, rfl, hname,
          .inl ⟨colon, more, rfl, hc, he⟩, hsemi, rfl⟩
      · exact h.elim
      · have hk' : keyword.kind ≠ .constWord := by
          intro he
          simp [he] at hk
        exact ⟨keyword, name, _, _, semi, rfl, hname, .inr ⟨hc, hk', rfl, rfl⟩, hsemi, rfl⟩
    · rintro ⟨_, name, mid, value, semi, h, hname, hvalue, hsemi, rfl⟩
      obtain ⟨rfl, rfl⟩ := List.cons.inj h
      refine ⟨keyword, _, ⟨rfl, rfl⟩, name, mid, ⟨rfl, hname⟩, ?_⟩
      obtain ⟨colon, more, rfl, hc, he⟩ | ⟨hc, hk, rfl, rfl⟩ := hvalue
      · exact .inl ⟨colon, more, rfl, hc, value, _, he, semi, _, ⟨rfl, hsemi⟩, rfl, rfl⟩
      · refine .inr ⟨hc, .inr ⟨by simp [hk], _, _, ⟨rfl, rfl⟩, semi, _, ⟨rfl, hsemi⟩, rfl, rfl⟩⟩

theorem block_eq_ok (hs : stop.kind = .endOfInput) {enclosure : Enclosure} :
    block enclosure statement stop ahead = .ok (n, rest) ↔
      ∃ brace mid items, ahead = brace :: mid ∧ brace.kind = .lbrace ∧
        bracedItems enclosure statement stop mid = .ok (items, rest) ∧
        n = .build .body items brace := by
  simp only [block, bind_eq_ok, expect_eq_ok hs (by decide : Kind.lbrace ≠ _), pure_eq_ok]
  grind

theorem function_eq_ok (hs : stop.kind = .endOfInput) :
    function statement stop ahead = .ok (n, rest) ↔
      ∃ keyword name paren mid params more body, ahead = keyword :: name :: paren :: mid ∧
        name.kind = .ident ∧ paren.kind = .lparen ∧
        commaListUntil .rparen .paramsClose (expect .ident .paramName) stop mid =
          .ok (params, more) ∧
        block .functionBody statement stop more = .ok (body, rest) ∧
        n = .build .function [.ofToken .ident name,
          .build .params (params.map (.ofToken .ident)) paren, body] keyword := by
  simp only [function, bind_eq_ok, next_eq_ok, expect_eq_ok hs (by decide : Kind.ident ≠ _),
    expect_eq_ok hs (by decide : Kind.lparen ≠ _), pure_eq_ok]
  cases ahead with
  | nil => simp
  | cons keyword ts => grind

theorem condition_eq_ok (hs : stop.kind = .endOfInput) {keyword : String} :
    condition keyword expression stop ahead = .ok (n, rest) ↔
      ∃ left mid right, ahead = left :: mid ∧ left.kind = .lparen ∧
        expression stop mid = .ok (n, right :: rest) ∧ right.kind = .rparen := by
  simp only [condition, bind_eq_ok, expect_eq_ok hs (by decide : Kind.lparen ≠ _),
    expect_eq_ok hs (by decide : Kind.rparen ≠ _), pure_eq_ok]
  grind

theorem elifClause_eq_ok (hs : stop.kind = .endOfInput) {clause : Clause} :
    elifClause expression statement stop ahead = .ok (clause, rest) ↔
      ∃ mid more, ahead = clause.keyword :: mid ∧
        condition "lainnyajika" expression stop mid = .ok (clause.cond, more) ∧
        block .elifBody statement stop more = .ok (clause.body, rest) := by
  simp only [elifClause, bind_eq_ok, next_eq_ok, pure_eq_ok]
  cases ahead with
  | nil => simp [condition_eq_ok hs]
  | cons keyword ts =>
    obtain ⟨k, c, b⟩ := clause
    simp only [Clause.mk.injEq]
    grind

def elifStep (expression statement : Parser Node) (clauses : List Clause) :
    Parser (Option (List Clause)) := do
  if (← peek).kind = .elifWord then
    return some ((← elifClause expression statement) :: clauses)
  else return none

theorem elifStep_eq_some {clauses more : List Clause} :
    elifStep expression statement clauses stop ahead = .ok (some more, rest) ↔
      (ahead.headD stop).kind = .elifWord ∧
        ∃ clause, elifClause expression statement stop ahead = .ok (clause, rest) ∧
          more = clause :: clauses := by
  simp only [elifStep, peek_bind, ite_eq_ok, bind_eq_ok, pure_eq_ok]
  grind

theorem elifStep_eq_none {clauses : List Clause} :
    elifStep expression statement clauses stop ahead = .ok (none, rest) ↔
      ahead = rest ∧ (ahead.headD stop).kind ≠ .elifWord := by
  simp only [elifStep, peek_bind, ite_eq_ok, bind_eq_ok, pure_eq_ok]
  grind

theorem elifClauses_eq_ok {clauses : List Clause} :
    elifClauses expression statement stop ahead = .ok (clauses, rest) ↔
      foldWhile (elifStep expression statement) [] stop ahead = .ok (clauses.reverse, rest) := by
  simp only [elifClauses, bind_eq_ok, pure_eq_ok]
  change (∃ found mid, foldWhile (elifStep expression statement) [] stop ahead = _ ∧ _) ↔ _
  grind

theorem elseClause_eq_ok (hs : stop.kind = .endOfInput) :
    elseClause statement stop ahead = .ok (n, rest) ↔
      (∃ keyword mid body, ahead = keyword :: mid ∧ keyword.kind = .elseWord ∧
        block .elseBody statement stop mid = .ok (body, rest) ∧
        n = .build .elseClause [body] keyword) ∨
      ((ahead.headD stop).kind ≠ .elseWord ∧ ahead = rest ∧ n = .absent) := by
  simp only [elseClause, peek_bind, ite_eq_ok, bind_eq_ok, next_eq_ok, pure_eq_ok]
  cases ahead with
  | nil =>
    simp [hs]
    grind
  | cons t ts => grind

theorem ifElse_eq_ok (hs : stop.kind = .endOfInput) :
    ifElse expression statement stop ahead = .ok (n, rest) ↔
      ∃ keyword mid cond afterCond body afterBody clauses afterClauses otherwise,
        ahead = keyword :: mid ∧ condition "jika" expression stop mid = .ok (cond, afterCond) ∧
        block .ifBody statement stop afterCond = .ok (body, afterBody) ∧
        elifClauses expression statement stop afterBody = .ok (clauses, afterClauses) ∧
        elseClause statement stop afterClauses = .ok (otherwise, rest) ∧
        n = ifNode keyword cond body clauses otherwise := by
  simp only [ifElse, bind_eq_ok, next_eq_ok, pure_eq_ok]
  cases ahead with
  | nil => simp [condition_eq_ok hs]
  | cons keyword ts => grind

theorem loopStart_eq_ok (hs : stop.kind = .endOfInput) :
    loopStart expression stop ahead = .ok (n, rest) ↔
      (((ahead.headD stop).kind = .letWord ∨ (ahead.headD stop).kind = .constWord) ∧
        declaration expression stop ahead = .ok (n, rest)) ∨
      ((ahead.headD stop).kind ≠ .letWord ∧ (ahead.headD stop).kind ≠ .constWord ∧
        ∃ mid, expression stop ahead = .ok (n, mid) ∧ Skips .semicolon stop mid rest) := by
  simp only [loopStart, peek_bind]
  generalize (ahead.headD stop).kind = k
  split
  · simp
  · simp
  · simp only [bind_eq_ok (p := expression), accept_bind_eq_ok hs (by decide : Kind.semicolon ≠ _),
      pure_eq_ok]
    grind

theorem forLoop_eq_ok (hs : stop.kind = .endOfInput) :
    forLoop expression statement stop ahead = .ok (n, rest) ↔
      ∃ keyword left mid start afterStart cond semi afterCond increment right afterHead body,
        ahead = keyword :: left :: mid ∧ left.kind = .lparen ∧
        loopStart expression stop mid = .ok (start, afterStart) ∧
        expression stop afterStart = .ok (cond, semi :: afterCond) ∧ semi.kind = .semicolon ∧
        expression stop afterCond = .ok (increment, right :: afterHead) ∧ right.kind = .rparen ∧
        block .forBody statement stop afterHead = .ok (body, rest) ∧
        n = .build .forLoop [start, cond, increment, body] keyword := by
  simp only [forLoop, bind_eq_ok, next_eq_ok, expect_eq_ok hs (by decide : Kind.lparen ≠ _),
    expect_eq_ok hs (by decide : Kind.semicolon ≠ _), expect_eq_ok hs (by decide : Kind.rparen ≠ _),
    pure_eq_ok]
  constructor
  · rintro ⟨keyword, _, ⟨rfl, rfl⟩, left, mid, ⟨h, hl⟩, start, afterStart, hstart, cond, _, hcond,
      semi, afterCond, ⟨rfl, hsemi⟩, increment, _, hinc, right, afterHead, ⟨rfl, hr⟩,
        body, _, hbody,
      rfl, rfl⟩
    cases ahead with
    | nil => simp at h
    | cons keyword ts =>
      rw [List.tail_cons] at h
      subst h
      exact ⟨keyword, left, mid, start, afterStart, cond, semi, afterCond, increment, right,
        afterHead, body, rfl, hl, hstart, hcond, hsemi, hinc, hr, hbody, rfl⟩
  · rintro ⟨keyword, left, mid, start, afterStart, cond, semi, afterCond, increment, right,
      afterHead, body, rfl, hl, hstart, hcond, hsemi, hinc, hr, hbody, rfl⟩
    exact ⟨keyword, _, ⟨rfl, rfl⟩, left, mid, ⟨rfl, hl⟩, start, afterStart, hstart, cond, _, hcond,
      semi, afterCond, ⟨rfl, hsemi⟩, increment, _, hinc, right, afterHead, ⟨rfl, hr⟩,
        body, _, hbody,
      rfl, rfl⟩

theorem statementWith_eq_ok (hs : stop.kind = .endOfInput) :
    statementWith expression statement stop ahead = .ok (n, rest) ↔
      (((ahead.headD stop).kind = .letWord ∨ (ahead.headD stop).kind = .constWord) ∧
        declaration expression stop ahead = .ok (n, rest)) ∨
      ((ahead.headD stop).kind = .fnWord ∧ function statement stop ahead = .ok (n, rest)) ∨
      ((ahead.headD stop).kind = .ifWord ∧ ifElse expression statement stop ahead = .ok (n, rest)) ∨
      ((ahead.headD stop).kind = .forWord ∧
        forLoop expression statement stop ahead = .ok (n, rest)) ∨
      ((ahead.headD stop).kind.opensStatement = false ∧
        ∃ mid, expression stop ahead = .ok (n, mid) ∧ Skips .semicolon stop mid rest) := by
  simp only [statementWith, peek_bind]
  generalize (ahead.headD stop).kind = k
  split
  case h_6 =>
    simp only [bind_eq_ok (p := expression), accept_bind_eq_ok hs (by decide : Kind.semicolon ≠ _),
      pure_eq_ok]
    grind [Kind.opensStatement]
  all_goals simp [Kind.opensStatement]

def programStep (depth : Nat) (statements : List Node) : Parser (Option (List Node)) := do
  if (← peek).kind = .endOfInput then return none
  else return some ((← Parser.statement depth) :: statements)

theorem programStep_eq_some {depth : Nat} {statements more : List Node} :
    programStep depth statements stop ahead = .ok (some more, rest) ↔
      (ahead.headD stop).kind ≠ .endOfInput ∧
        ∃ s, Parser.statement depth stop ahead = .ok (s, rest) ∧ more = s :: statements := by
  simp only [programStep, peek_bind, ite_eq_ok, bind_eq_ok, pure_eq_ok]
  grind

theorem programStep_eq_none {depth : Nat} {statements : List Node} :
    programStep depth statements stop ahead = .ok (none, rest) ↔
      ahead = rest ∧ (ahead.headD stop).kind = .endOfInput := by
  simp only [programStep, peek_bind, ite_eq_ok, bind_eq_ok, pure_eq_ok]
  grind

theorem program_eq_ok {depth : Nat} :
    program depth stop ahead = .ok (n, rest) ↔
      ∃ statements, foldWhile (programStep depth) [] stop ahead = .ok (statements, rest) ∧
        n = .build .program statements.reverse (ahead.headD stop) := by
  simp only [program, peek_bind, bind_eq_ok, pure_eq_ok]
  change (∃ found mid, foldWhile (programStep depth) [] stop ahead = _ ∧ _) ↔ _
  grind

def body (tokens : List Token) : List Token :=
  tokens.takeWhile (·.kind ≠ .endOfInput)

theorem body_kind {tokens : List Token} {t : Token} (h : t ∈ body tokens) :
    t.kind ≠ .endOfInput := by
  have hall := List.all_takeWhile
    (p := fun t : Token => decide (t.kind ≠ .endOfInput)) (l := tokens)
  simpa using List.all_eq_true.mp hall t h

theorem parseTokens_eq_ok {depth : Nat} {tokens : List Token}
    (h : parseTokens depth tokens = .ok n) :
    ∃ stop rest, stop.kind = .endOfInput ∧ program depth stop (body tokens) = .ok (n, rest) := by
  unfold parseTokens at h
  split at h
  · split at h
    · next stop rest hd =>
      have hk : stop.kind = .endOfInput := by
        have hnot := List.head?_dropWhile_not
          (fun t : Token => decide (t.kind ≠ .endOfInput)) tokens
        simpa only [hd, List.head?_cons, decide_eq_false_iff_not, ne_eq, Decidable.not_not]
          using hnot
      change Except.map (·.1) (program depth stop (body tokens)) = .ok n at h
      cases hp : program depth stop (body tokens) with
      | error e =>
        rw [hp] at h
        cases h
      | ok x =>
        rw [hp] at h
        cases h
        exact ⟨stop, x.2, hk, hp⟩
    · cases h
  · cases h

theorem body_append_stop {tokens : List Token} (hs : stop.kind = .endOfInput)
    (ht : ∀ t ∈ tokens, t.kind ≠ .endOfInput) : body (tokens ++ [stop]) = tokens := by
  unfold body
  rw [List.takeWhile_append_of_pos (by simpa using ht)]
  simp [hs]

theorem parseTokens_append_stop (depth : Nat) {tokens : List Token}
    (hs : stop.kind = .endOfInput) (ht : ∀ t ∈ tokens, t.kind ≠ .endOfInput) :
    parseTokens depth (tokens ++ [stop]) = (program depth stop tokens).map (·.1) := by
  have htake : (tokens ++ [stop]).takeWhile (fun t => decide (t.kind ≠ .endOfInput)) = tokens :=
    body_append_stop hs ht
  have hdrop : (tokens ++ [stop]).dropWhile (fun t => decide (t.kind ≠ .endOfInput)) = [stop] := by
    rw [List.dropWhile_append_of_pos (by simpa using ht)]
    simp [hs]
  obtain ⟨kind, text, position⟩ := stop
  subst hs
  unfold parseTokens
  rw [List.getLast?_concat, htake, hdrop]

end Statements

end Bahasa.Parser
