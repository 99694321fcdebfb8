import Bahasa.Proofs.Parser.Course
import Bahasa.Proofs.Parser.Earliest

namespace Bahasa.Parser

variable {stop : Token} {e s : Parser Node} {n : Nat} {here : List Token}

structure SteadyExpression (stop : Token) (e : Parser Node) (n : Nat) : Prop where
  reads : ReadsLevel stop e .assignment
  steady : ∀ here, here.length < n → Steady stop e here

section Expressions

variable (hs : stop.kind = .endOfInput) (he : SteadyExpression stop e n)

include hs he

theorem primary_steady (hn : here.length ≤ n) : Steady stop (primary e) here := by
  refine .peek ?_
  split
  · next h => exact .next hs (by rw [h]; decide) fun t rest _ => .pure _ rest
  · next h => exact .next hs (by rw [h]; decide) fun t rest _ => .pure _ rest
  · next h => exact .next hs (by rw [h]; decide) fun t rest _ => .pure _ rest
  · next h =>
    refine .next hs (by rw [h]; decide) fun t rest hrest => ?_
    refine (he.steady rest (by omega)).bind fun inner there _ _ => ?_
    exact (Steady.expect hs (by decide) _ there).map _
  · exact .reject _ here
  · exact .reject _ here

theorem memberStep_steady (hn : here.length ≤ n) (receiver : Node) :
    Steady stop (memberStep e receiver) here := by
  refine .peek ?_
  split
  · next h =>
    refine .next hs (by rw [h]; decide) fun dot rest _ => ?_
    exact (Steady.expect hs (by decide) _ rest).map _
  · next h =>
    refine .next hs (by rw [h]; decide) fun bracket rest hrest => ?_
    refine (he.steady rest (by omega)).bind fun key there _ _ => ?_
    exact (Steady.expect hs (by decide) _ there).map _
  · exact .pure none here

theorem callStep_steady (hn : here.length ≤ n) (callee : Node) :
    Steady stop (callStep e callee) here := by
  refine .peek ?_
  split
  · next h =>
    refine .next hs (by rw [h]; decide) fun paren rest hrest => ?_
    have hargs : Steady stop (commaListUntil .rparen .argsClose e) rest :=
      .commaListUntil hs (by decide) (commaStep_reads hs (argument_reads he.reads)).shortens
        fun there hle => he.steady there (by omega)
    exact hargs.map _
  · exact .pure none here

omit he in
theorem chainStep_steady {operand : Parser Node} (l : Level)
    (ho : ∀ there, there.length ≤ n → Steady stop operand there) (hn : here.length ≤ n)
    (left : Node) : Steady stop (chainStep (join? l) operand left) here := by
  refine .peek ?_
  split
  · next join hj =>
    have hk : (here.headD stop).kind ≠ .endOfInput := by
      intro hk
      rw [join?_stop hk l] at hj
      cases hj
    refine .next hs hk fun op rest hrest => ?_
    exact (ho rest (by omega)).map _
  · exact .pure none here

theorem reader_steady_of_tighter {l next : Level} (hl : l.joinsLeft = true)
    (ht : l.tighter? = some next)
    (hnext : ∀ there, there.length ≤ n → Steady stop (reader e next) there)
    (hturn : ∀ left there, there.length ≤ n → Steady stop (turn e l left) there) :
    ∀ here, here.length ≤ n → Steady stop (reader e l) here := by
  intro here hn
  have hbind : reader e l = reader e next >>= foldWhile (turn e l) := by
    cases l with
    | assignment | object | primary => cases hl
    | _ =>
      cases ht
      rfl
  rw [hbind]
  refine (hnext here hn).bind fun first there _ hle => ?_
  exact .foldWhile (turn_reads hs he.reads hl).shortens
    (fun left far hfar => hturn left far (by omega)) first

theorem operators_steady {l next : Level} (hr : 2 ≤ l.rank) (hr' : l.rank ≤ 7)
    (ht : l.tighter? = some next)
    (hnext : ∀ there, there.length ≤ n → Steady stop (reader e next) there) :
    ∀ here, here.length ≤ n → Steady stop (reader e l) here := by
  cases l with
  | product | sum | relation | equality | conjunction | disjunction =>
    cases ht
    exact reader_steady_of_tighter hs he rfl rfl hnext
      fun left there hn => chainStep_steady hs _ hnext hn left
  | _ => simp [Level.rank] at hr hr'

theorem disjunction_steady (hn : here.length ≤ n) : Steady stop (disjunction e) here := by
  have hprimary (there : List Token) (hn : there.length ≤ n) :
      Steady stop (reader e .primary) there :=
    primary_steady hs he hn
  have hmember := reader_steady_of_tighter hs he (l := .member) rfl rfl hprimary
    fun receiver there hn => memberStep_steady hs he hn receiver
  have hcall := reader_steady_of_tighter hs he (l := .call) rfl rfl hmember
    fun callee there hn => callStep_steady hs he hn callee
  have hproduct := operators_steady hs he (l := .product) (by decide) (by decide) rfl hcall
  have hsum := operators_steady hs he (l := .sum) (by decide) (by decide) rfl hproduct
  have hrelation := operators_steady hs he (l := .relation) (by decide) (by decide) rfl hsum
  have hequality := operators_steady hs he (l := .equality) (by decide) (by decide) rfl hrelation
  have hconjunction :=
    operators_steady hs he (l := .conjunction) (by decide) (by decide) rfl hequality
  exact operators_steady hs he (l := .disjunction) (by decide) (by decide) rfl hconjunction here hn

theorem property_steady (hn : here.length ≤ n) : Steady stop (property e) here := by
  have hcomma (key : Token) (value : Node) (there : List Token) : Steady stop
      (accept .comma >>= fun _ => pure (Node.build .property [.ofToken .ident key, value] key))
      there :=
    (Steady.accept hs (by decide) there).map _
  refine .expect_bind hs (by decide) fun key rest hrest => ?_
  refine (Steady.accept hs (by decide) rest).bind fun colon there _ hle => ?_
  split
  · exact (he.steady there (by omega)).bind fun value far _ _ => hcomma key value far
  · exact hcomma key .absent there

theorem object_steady (hn : here.length ≤ n) : Steady stop (object e) here := by
  refine .peek ?_
  split
  · next h =>
    refine .next hs (by rw [h]; decide) fun brace rest hrest => ?_
    have hitems : Steady stop (bracedItems .object (property e)) rest :=
      .bracedItems hs (propertyStep_reads hs he.reads).shortens fun there hle =>
        property_steady hs he (by omega)
    exact hitems.map _
  · exact disjunction_steady hs he hn

theorem assignStep_steady (hn : here.length ≤ n) (state : List Pending × Node) :
    Steady stop (assignStep e state) here := by
  refine .peek ?_
  split
  · next label ha =>
    have hk : (here.headD stop).kind ≠ .endOfInput := by
      intro hk
      rw [hk] at ha
      cases ha
    refine .next hs hk fun op rest hrest => ?_
    exact (object_steady hs he (by omega)).map _
  · exact .pure none here

theorem assignment_steady (hn : here.length ≤ n) : Steady stop (assignment e) here := by
  refine (object_steady hs he hn).bind fun first there _ hle => ?_
  exact (Steady.foldWhile (assignStep_reads hs he.reads).shortens
    (fun state far hfar => assignStep_steady hs he (by omega) state) ([], first)).map
      fun x => x.1.foldl Pending.close x.2

end Expressions

theorem steady_expression (hs : stop.kind = .endOfInput) (d : Nat) :
    SteadyExpression stop (expression d) d where
  reads := expression_reads hs d
  steady := by
    induction d with
    | zero => exact fun _ h => absurd h (Nat.not_lt_zero _)
    | succ d ih =>
      exact fun here hlt =>
        assignment_steady hs ⟨expression_reads hs d, ih⟩ (Nat.le_of_lt_succ hlt)

structure SteadyStatement (stop : Token) (s : Parser Node) (n : Nat) : Prop where
  reads : ReadsStatement (fun _ => True) stop s
  steady : ∀ here, here.length < n → Steady stop s here

section Statements

variable (hs : stop.kind = .endOfInput) (he : SteadyExpression stop e (n + 1))
  (hst : SteadyStatement stop s n)

include hs

theorem block_steady (hst : SteadyStatement stop s n) (enclosure : Enclosure)
    (hn : here.length ≤ n) : Steady stop (block enclosure s) here := by
  refine .expect_bind hs (by decide) fun brace rest hrest => ?_
  have hitems : Steady stop (bracedItems enclosure s) rest :=
    .bracedItems hs (blockStep_reads hst.reads).shortens
      fun there hle => hst.steady there (by omega)
  exact hitems.map _

theorem function_steady (hst : SteadyStatement stop s n) (hk : (here.headD stop).kind ≠ .endOfInput)
    (hn : here.length ≤ n) : Steady stop (function s) here := by
  refine .next hs hk fun keyword rest hrest => ?_
  refine .expect_bind hs (by decide) fun name more hmore => ?_
  refine .expect_bind hs (by decide) fun paren there hthere => ?_
  have hparams :
      Steady stop (commaListUntil .rparen .paramsClose (expect .ident .paramName)) there :=
    .commaListUntil hs (by decide) (commaStep_reads hs (parameter_reads hs)).shortens
      fun far _ => .expect hs (by decide) _ far
  refine hparams.bind fun params far _ hle => ?_
  exact (block_steady hs hst .functionBody (by omega)).map _

include he

theorem declaration_steady (hk : (here.headD stop).kind ≠ .endOfInput) (hn : here.length ≤ n) :
    Steady stop (declaration e) here := by
  refine .next hs hk fun keyword rest hrest => ?_
  refine .expect_bind hs (by decide) fun name more hmore => ?_
  have hend (value : Node) (there : List Token) : Steady stop (declared keyword name value) there :=
    (Steady.expect hs (by decide) _ there).map _
  have hvalue : Steady stop (initialized e keyword name) more := by
    refine (Steady.accept hs (by decide) more).bind fun colon there _ hle => ?_
    split
    · exact (he.steady there (by omega)).bind fun value far _ _ => hend value far
    · split
      · exact (Steady.reject _ there).bind fun value far _ _ => hend value far
      · exact (Steady.pure _ there).bind fun value far _ _ => hend value far
  exact hvalue

theorem condition_steady (keyword : String) (hn : here.length ≤ n) :
    Steady stop (condition keyword e) here := by
  refine .expect_bind hs (by decide) fun paren rest hrest => ?_
  refine (he.steady rest (by omega)).bind fun cond there _ _ => ?_
  exact (Steady.expect hs (by decide) _ there).map _

theorem terminated_steady (hn : here.length ≤ n) :
    Steady stop (e >>= fun value => accept .semicolon >>= fun _ => pure value) here :=
  (he.steady here (Nat.lt_succ_of_le hn)).bind fun _ there _ _ =>
    (Steady.accept hs (by decide) there).map _

theorem loopStart_steady (hn : here.length ≤ n) : Steady stop (loopStart e) here := by
  refine .peek ?_
  split
  · next h => exact declaration_steady hs he (by rw [h]; decide) hn
  · next h => exact declaration_steady hs he (by rw [h]; decide) hn
  · exact terminated_steady hs he hn

include hst

theorem elifStep_steady (hn : here.length ≤ n) (clauses : List Clause) :
    Steady stop (elifStep e s clauses) here := by
  refine .peek ?_
  split
  · next h =>
    have hclause : Steady stop (elifClause e s) here := by
      refine .next hs (by rw [h]; decide) fun keyword rest hrest => ?_
      refine (condition_steady hs he _ (by omega)).bind fun cond there _ hle => ?_
      exact (block_steady hs hst .elifBody (by omega)).map _
    exact hclause.map _
  · exact .pure none here

theorem elifClauses_steady (hn : here.length ≤ n) : Steady stop (elifClauses e s) here :=
  (Steady.foldWhile (elifStep_reads hs he.reads hst.reads).shortens
    (fun clauses _ hle => elifStep_steady hs he hst (Nat.le_trans hle hn) clauses) []).map _

omit he in
theorem elseClause_steady (hn : here.length ≤ n) : Steady stop (elseClause s) here := by
  refine .peek ?_
  split
  · next h =>
    refine .next hs (by rw [h]; decide) fun keyword rest hrest => ?_
    exact (block_steady hs hst .elseBody (by omega)).map _
  · exact .pure Node.absent here

theorem ifElse_steady (hk : (here.headD stop).kind ≠ .endOfInput) (hn : here.length ≤ n) :
    Steady stop (ifElse e s) here := by
  refine .next hs hk fun keyword rest hrest => ?_
  refine (condition_steady hs he _ (by omega)).bind fun cond afterCond _ hcond => ?_
  refine (block_steady hs hst .ifBody (by omega)).bind fun body afterBody _ hbody => ?_
  refine (elifClauses_steady hs he hst (by omega)).bind fun clauses afterClauses _ hclauses => ?_
  exact (elseClause_steady hs hst (by omega)).map _

theorem forLoop_steady (hk : (here.headD stop).kind ≠ .endOfInput) (hn : here.length ≤ n) :
    Steady stop (forLoop e s) here := by
  refine .next hs hk fun keyword rest hrest => ?_
  refine .expect_bind hs (by decide) fun paren more hmore => ?_
  refine (loopStart_steady hs he (by omega)).bind fun start afterStart _ hstart => ?_
  refine (he.steady afterStart (by omega)).bind fun cond afterCond _ hcond => ?_
  refine .expect_bind hs (by decide) fun semi afterSemi hsemi => ?_
  refine (he.steady afterSemi (by omega)).bind fun increment afterIncrement _ hincrement => ?_
  refine .expect_bind hs (by decide) fun right afterHead hright => ?_
  exact (block_steady hs hst .forBody (by omega)).map _

theorem statementWith_steady (hn : here.length ≤ n) : Steady stop (statementWith e s) here := by
  refine .peek ?_
  split
  · next h => exact declaration_steady hs he (by rw [h]; decide) hn
  · next h => exact declaration_steady hs he (by rw [h]; decide) hn
  · next h => exact function_steady hs hst (by rw [h]; decide) hn
  · next h => exact ifElse_steady hs he hst (by rw [h]; decide) hn
  · next h => exact forLoop_steady hs he hst (by rw [h]; decide) hn
  · exact terminated_steady hs he hn

end Statements

theorem steady_statement (hs : stop.kind = .endOfInput) (d : Nat) :
    SteadyStatement stop (statement d) (d - 1) where
  reads := statement_reads _ hs d
  steady := by
    -- statements need one level more than expressions
    induction d with
    | zero => exact fun _ h => absurd h (Nat.not_lt_zero _)
    | succ d ih =>
      intro here hlt
      have hexpression : SteadyExpression stop (expression d) (here.length + 1) :=
        ⟨expression_reads hs d, fun there h => (steady_expression hs d).steady there (by omega)⟩
      have hstatement : SteadyStatement stop (statement d) here.length :=
        ⟨statement_reads _ hs d, fun there h => ih there (by omega)⟩
      exact statementWith_steady hs hexpression hstatement (Nat.le_refl _)

/-- A program is steady if the nesting may be deeper than the number of its tokens. -/
theorem program_steady (hs : stop.kind = .endOfInput) {d : Nat} (hd : here.length + 1 < d) :
    Steady stop (program d) here := by
  have hstep (statements : List Node) (there : List Token) (hle : there.length ≤ here.length) :
      Steady stop (programStep d statements) there := by
    refine .peek ?_
    split
    · exact .pure none there
    · exact ((steady_statement hs d).steady there (by omega)).map _
  exact .peek ((Steady.foldWhile (programStep_shortens hs d) hstep []).map _)

section Streams

variable {init used rest : List Token} {last : Token}

theorem parseTokens_of_passed (hl : last.kind = .endOfInput) (hu : init = used ++ rest)
    (hp : ∀ t ∈ used, t.kind ≠ .endOfInput) :
    ∃ stop' rest', stop'.kind = .endOfInput ∧ rest'.headD stop' = rest.headD last ∧
      ∀ d, parseTokens d (init ++ [last]) = (program d stop' (used ++ rest')).map (·.1) := by
  have hstream : init ++ [last] = used ++ rest.headD last :: (rest ++ [last]).tail := by
    rw [hu, List.append_assoc]
    cases rest <;> rfl
  have hmarked : EndMarked (init ++ [last]) := .append_stop hl
  rw [hstream] at hmarked ⊢
  exact hmarked.parseTokens_append hp

/-- To read on to the last token of a stream, wherever end marks stand in it, comes to what is made
of the stream up to its first end mark. -/
theorem parseTokens_whole (hl : last.kind = .endOfInput) {d : Nat}
    (hd : ∀ t, program d last init ≠ .error (.tooDeep t)) :
    parseTokens d (init ++ [last]) = (program d last init).map (·.1) := by
  cases hp : program d last init with
  | ok x =>
    obtain ⟨tree, rest⟩ := x
    obtain ⟨used, hu, hq⟩ := program_accepts hl hp
    obtain ⟨used', hu', -, hspells⟩ := program_reads (fun _ => True) hl hp
    obtain rfl : used' = used := List.append_cancel_right (hu'.symm.trans hu)
    obtain ⟨stop', rest', hs', hh, hparse⟩ :=
      parseTokens_of_passed hl hu hspells.derived.kind_ne_endOfInput
    rw [hparse, hq stop' rest' hs' hh]
    rfl
  | error e =>
    cases e with
    | openStream => exact absurd hp (program_marked hl)
    | tooDeep t => exact absurd hp (hd t)
    | rejected complaint t =>
      obtain ⟨used, rest, hu, ht, hq, more, tree, hmore⟩ := program_rejects hl hp
      obtain ⟨whole, hw, -, hspells⟩ := program_reads (fun _ => True) hl hmore
      rw [List.append_nil] at hw
      have hused : ∀ u ∈ used, u.kind ≠ .endOfInput := fun u hm =>
        hspells.derived.kind_ne_endOfInput u (hw ▸ List.mem_append_left more hm)
      obtain ⟨stop', rest', hs', hh, hparse⟩ := parseTokens_of_passed hl hu hused
      rw [hparse, hq stop' rest' hs' (hh.trans ht)]

theorem passes_of_derives {φ : Phrase} {here : List Token} (hu : here = used ++ rest)
    (hd : Derives φ used) (hne : used ≠ []) : Passes here rest ∧ rest.length < here.length := by
  have hpos := List.length_pos_iff.mpr hne
  refine ⟨⟨used, hu, hd.kind_ne_endOfInput⟩, ?_⟩
  rw [hu, List.length_append]
  omega

/-- The stream that ends with `last` is read to an answer. The cursor starts at the first token and
could go on to the last one, whatever stands between; loops go on as long as their turns do. -/
structure ReadsTo (depth : Nat) (init : List Token) (last : Token)
    (answer : Except ParseError Node) : Prop where
  parsed : parseTokens depth (init ++ [last]) = answer
  whole : (program depth last init).map (·.1) = answer
  course : ∃ cursors, Course last (program depth) init cursors (program depth last init) ∧
    ∀ c ∈ cursors, Passes init c

theorem program_outcome (hl : last.kind = .endOfInput) {d : Nat} (hd : init.length + 1 < d) :
    (∃ tree rest, program d last init = .ok (tree, rest)) ∨
      ∃ complaint, ∃ t ∈ init ++ [last], program d last init = .error (.rejected complaint t) := by
  obtain ⟨cursors, hc, hp⟩ := program_steady hl hd
  refine hc.outcome.imp_right fun ⟨complaint, c, hm, he⟩ => ⟨complaint, _, ?_, he⟩
  obtain ⟨passed, rfl, -⟩ := hp c hm
  cases c <;> simp

theorem readsTo_parseTokens (hl : last.kind = .endOfInput) {d : Nat} (hd : init.length + 1 < d) :
    ReadsTo d init last (parseTokens d (init ++ [last])) where
  parsed := rfl
  whole := by
    refine (parseTokens_whole hl ?_).symm
    obtain ⟨tree, rest, h⟩ | ⟨complaint, t, -, h⟩ := program_outcome hl hd <;> simp [h]
  course := program_steady hl hd

/-- A stream whose last token is an end mark is read to a tree or to a token that is rejected, the
same one however deep the nesting may be, and the cursor never passes an end mark. Every expression
and every statement that is read moves it on. -/
theorem parseTokens_ends (init : List Token) {last : Token} (hl : last.kind = .endOfInput) :
    (∃ answer,
      ((∃ tree, answer = .ok tree) ∨
        ∃ complaint, ∃ t ∈ init ++ [last], answer = .error (.rejected complaint t)) ∧
      ∀ depth, init.length + 1 < depth → ReadsTo depth init last answer) ∧
    ∀ depth here tree rest,
      expression depth last here = .ok (tree, rest) ∨ statement depth last here = .ok (tree, rest) →
      Passes here rest ∧ rest.length < here.length := by
  constructor
  · have henough : init.length + 1 < init.length + 2 := Nat.lt_succ_self _
    have hanswer := (readsTo_parseTokens hl henough).whole
    refine ⟨parseTokens (init.length + 2) (init ++ [last]), ?_, fun depth hd => ?_⟩
    · rw [← hanswer]
      obtain ⟨tree, rest, h⟩ | ⟨complaint, t, ht, h⟩ := program_outcome hl henough
      · exact .inl ⟨tree, by rw [h]; rfl⟩
      · exact .inr ⟨complaint, t, ht, by rw [h]; rfl⟩
    · have hsettled : ∀ t,
          parseTokens (init.length + 2) (init ++ [last]) ≠ .error (.tooDeep t) := by
        intro u
        rw [← hanswer]
        obtain ⟨tree, rest, h⟩ | ⟨complaint, t, -, h⟩ := program_outcome hl henough <;>
          simp [h, Except.map]
      rw [← parseTokens_deeper hd hsettled]
      exact readsTo_parseTokens hl hd
  · rintro depth here tree rest (h | h)
    · obtain ⟨used, hu, hd⟩ := expression_reads hl depth _ _ _ h
      exact passes_of_derives hu hd hd.level_ne_nil
    · obtain ⟨used, hu, hd⟩ := (statement_reads (fun _ => True) hl depth).reads _ _ _ h
      exact passes_of_derives hu hd.derived hd.derived.statement_ne_nil

theorem parseTokens_ends_middle :
    ReadsTo 6
      [⟨.ident, "x", ⟨1, 1⟩⟩, ⟨.assign, "=", ⟨1, 3⟩⟩, .endMark ⟨1, 4⟩, ⟨.lparen, "(", ⟨1, 5⟩⟩]
      (.endMark ⟨1, 6⟩) (.error (.rejected .endOfInput (.endMark ⟨1, 4⟩))) := by
  -- a stream with an end mark in the middle, before the value of an assignment: it is read up to
  -- there and no further
  have hl : (Token.endMark ⟨1, 6⟩).kind = .endOfInput := rfl
  obtain ⟨⟨answer, -, hreads⟩, -⟩ := parseTokens_ends
    [⟨.ident, "x", ⟨1, 1⟩⟩, ⟨.assign, "=", ⟨1, 3⟩⟩, .endMark ⟨1, 4⟩, ⟨.lparen, "(", ⟨1, 5⟩⟩] hl
  have h := hreads 6 (by decide)
  have hanswer : answer = .error (.rejected .endOfInput (.endMark ⟨1, 4⟩)) :=
    h.parsed.symm.trans rfl
  rw [← hanswer]
  exact h

end Streams

end Bahasa.Parser
