import Bahasa.Proofs.Parser.Completeness
import Bahasa.Proofs.Parser.Moving
import Bahasa.Proofs.Printing

namespace Bahasa

namespace Node

/-- A tree printed as a statement. -/
def printStatement (n : Node) : List Token :=
  Printing.terminated (n, n.print)

theorem printStatement_of_statement {n : Node} (h : n.isStatement = true) :
    n.printStatement = n.print := if_pos h

theorem printStatement_of_expression {n : Node} (h : n.isStatement = false) :
    n.printStatement = n.print ++ [Printing.word .semicolon ";"] := if_neg (by simp [h])

end Node

namespace Printing

open Bahasa.Parser (Separate)

variable {n r : Node} {ns ms : List Node} {ts : List Token} {p q : Option Place}

structure PrintedExpression (n : Node) : Prop where
  derived : Derives (.level n.level n) n.print
  isStatement_eq : n.isStatement = false

namespace PrintedExpression

theorem whole (h : PrintedExpression n) : Derives (.level .assignment n) n.print :=
  h.derived.looser (Nat.zero_le _)

/-- Parentheses make an expression fit into any slot. -/
theorem slot (h : PrintedExpression n) (l : Level) :
    Derives (.level l n) (slot l (n, n.print)) := by
  unfold Printing.slot
  split
  · have hgroup : Derives (.level .primary n) (word .lparen "(" :: n.print ++ [word .rparen ")"]) :=
      .group rfl h.whole rfl
    exact hgroup.looser (by cases l <;> decide)
  · exact h.derived.looser (by simp_all)

theorem condition (h : PrintedExpression n) :
    Derives (.condition n) (word .lparen "(" :: n.print ++ [word .rparen ")"]) :=
  .condition rfl h.whole rfl

theorem join {label : Label} (h : label ∈ Label.joiners) (hn : PrintedExpression n)
    (hr : PrintedExpression r) : PrintedExpression (.tree label [n, r] p) := by
  obtain ⟨level, ho, ht, hlevel, hstatement, hprint⟩ : ∃ level : Level,
      level.label? (operator label).kind = some label ∧ level.tighter? = some level.tighter ∧
      (Node.tree label [n, r] p).level = level ∧ label.isStatement = false ∧
      (Node.tree label [n, r] p).print = Printing.slot level (n, n.print) ++
        operator label :: Printing.slot level.tighter (r, r.print) := by
    simp only [Label.joiners, List.mem_cons, List.not_mem_nil, or_false] at h
    obtain rfl | rfl | rfl | rfl | rfl | rfl | rfl | rfl := h <;> exact ⟨_, rfl, rfl, rfl, rfl, rfl⟩
  refine ⟨?_, hstatement⟩
  rw [hlevel, hprint]
  exact .join (hn.slot level) ho ht (hr.slot level.tighter)

theorem binop {sign : String} (h : sign ∈ arithmeticSigns) (hn : PrintedExpression n)
    (hr : PrintedExpression r) :
    PrintedExpression (.tree .binop [n, .leaf .operator sign q, r] p) := by
  obtain ⟨hs, ht⟩ : sign ∈ (Level.ofSign sign).signs ∧
      (Level.ofSign sign).tighter? = some (Level.ofSign sign).tighter := by
    simp only [arithmeticSigns, List.mem_cons, List.not_mem_nil, or_false] at h
    obtain rfl | rfl | rfl | rfl | rfl := h <;> decide
  have hd := @Derives.arithmetic _ _ (word .arith sign) _ _ _ _ p q
    (hn.slot _) rfl hs ht (hr.slot _)
  exact ⟨hd, rfl⟩

theorem assign {label : Label} (h : label ∈ Label.assignments) (hn : PrintedExpression n)
    (hr : PrintedExpression r) : PrintedExpression (.tree label [n, r] p) := by
  simp only [Label.assignments, List.mem_cons, List.not_mem_nil, or_false] at h
  obtain rfl | rfl | rfl := h <;> exact ⟨.assign (hn.slot .object) rfl hr.whole, rfl⟩

theorem member (name : String) (hn : PrintedExpression n) :
    PrintedExpression (.tree .member [n, .leaf .ident name q] p) :=
  ⟨@Derives.member _ (word .dot ".") (word .ident name) _ p q (hn.slot .member) rfl rfl, rfl⟩

theorem index (hn : PrintedExpression n) (hr : PrintedExpression r) :
    PrintedExpression (.tree .index [n, r] p) :=
  ⟨.index (hn.slot .member) rfl hr.whole rfl, rfl⟩

end PrintedExpression

section Lists

variable {i : Item}

theorem items_derive (h : Derives (.items i ms) ts) (hn : ∀ n ∈ ns, Derives (.item i n) n.print) :
    Derives (.items i (ms ++ ns)) (ts ++ ns.flatMap fun n => word .comma "," :: n.print) := by
  induction ns generalizing ms ts with
  | nil => simpa using h
  | cons n ns ih =>
    have hmore : Derives (.items i (ms ++ [n])) (ts ++ word .comma "," :: n.print) :=
      .itemsMore h rfl (hn n (List.mem_cons_self ..))
    simpa using ih hmore fun m hm => hn m (List.mem_cons_of_mem _ hm)

theorem commas_derive (hn : ∀ n ∈ ns, Derives (.item i n) n.print) :
    Derives (.list i ns) (commas (ns.map fun n => (n, n.print))) := by
  cases ns with
  | nil => exact .listNone
  | cons n ns =>
    rw [commas_print_cons]
    have hfirst : Derives (.items i [n]) n.print := .itemsOne (hn n (List.mem_cons_self ..))
    exact .listSome (items_derive hfirst fun m hm => hn m (List.mem_cons_of_mem _ hm))

def PrintedProperty (n : Node) : Prop :=
  ∀ ns ts us, Derives (.properties ns) ts → Optional .comma us →
    Derives (.properties (ns ++ [n])) (ts ++ n.print ++ us)

theorem properties_derive (h : Derives (.properties ms) ts) (hn : PrintedProperty n)
    (hns : ∀ m ∈ ns, PrintedProperty m) :
    Derives (.properties (ms ++ n :: ns))
      (ts ++ (n.print ++ ns.flatMap fun m => word .comma "," :: m.print)) := by
  induction ns generalizing n ms ts with
  | nil => simpa using hn ms ts [] h (.inl rfl)
  | cons m ns ih =>
    have hfirst := hn ms ts [word .comma ","] h (.inr ⟨_, rfl, rfl⟩)
    simpa using ih hfirst (hns m (List.mem_cons_self ..)) fun k hk =>
      hns k (List.mem_cons_of_mem _ hk)

theorem PrintedExpression.call (hn : PrintedExpression n) (ha : ∀ a ∈ ns, PrintedExpression a) :
    PrintedExpression (.tree .call [n, .tree .args ns q] p) := by
  refine ⟨?_, rfl⟩
  have hargs : Derives (.list .argument ns) (commas (ns.map fun a => (a, a.print))) :=
    commas_derive fun a h => .argument (ha a h).whole
  have hprint : (Node.tree .call [n, .tree .args ns q] p).print =
      Printing.slot .call (n, n.print) ++
        word .lparen "(" :: commas (ns.map fun a => (a, a.print)) ++ [word .rparen ")"] := by
    simp [assemble, called]
  rw [hprint]
  exact .call (hn.slot .call) rfl hargs rfl

theorem PrintedExpression.object (he : ∀ e ∈ ns, PrintedProperty e) :
    PrintedExpression (.tree .object ns p) := by
  refine ⟨?_, rfl⟩
  have hentries : Derives (.properties ns) (commas (ns.map fun e => (e, e.print))) := by
    cases ns with
    | nil => exact .propertiesNone
    | cons n ns =>
      rw [commas_print_cons]
      exact properties_derive .propertiesNone (he n (List.mem_cons_self ..))
        fun m hm => he m (List.mem_cons_of_mem _ hm)
  have hprint : (Node.tree .object ns p).print = word .lbrace "\x7b" ::
      commas (ns.map fun e => (e, e.print)) ++ [word .rbrace "\x7d"] := by
    simp [assemble]
  rw [hprint]
  exact .object rfl hentries rfl

def PrintedValue (n : Node) : Prop :=
  Derives (.initial n) (initial (n, n.print))

theorem initial_some (ha : n.isAbsent = false) :
    initial (n, n.print) = word .colon ":" :: n.print := if_neg (by simp [ha])

theorem PrintedExpression.value (h : PrintedExpression n) (ha : n.isAbsent = false) :
    PrintedValue n := by
  unfold PrintedValue
  rw [initial_some ha]
  exact .initialSome rfl h.whole

theorem PrintedValue.property (key : String) (h : PrintedValue n) :
    PrintedProperty (.tree .property [.leaf .ident key q, n] p) := by
  intro ns ts us hs hc
  exact @Derives.propertiesMore _ (word .ident key) _ _ _ _ p q hs rfl h hc

end Lists

section Statements

structure PrintedStatement (n : Node) : Prop where
  legible : Legible (.statement n) n.printStatement
  finished : Finished n.printStatement

structure PrintedStart (n : Node) : Prop where
  simple : Simple n n.printStatement
  finished : Finished n.printStatement

structure PrintedDeclaration (n : Node) : Prop where
  derived : Derives (.statement n) n.print
  isStatement_eq : n.isStatement = true
  head : ∃ t ∈ n.print.head?, t.kind = .letWord ∨ t.kind = .constWord

theorem PrintedExpression.start (h : PrintedExpression n) : PrintedStart n := by
  constructor <;> rw [Node.printStatement_of_expression h.isStatement_eq]
  · exact .expression h.whole (.inr ⟨_, rfl, rfl⟩)
  · exact .concat _ (.inl rfl)

theorem PrintedDeclaration.start (h : PrintedDeclaration n) : PrintedStart n := by
  obtain ⟨t, ht, hk⟩ := h.head
  constructor <;> rw [Node.printStatement_of_statement h.isStatement_eq]
  · exact .declaration h.derived h.head
  · refine h.derived.statement_finished ⟨t, ht, ?_⟩
    obtain hk | hk := hk <;> rw [hk] <;> rfl

theorem PrintedStart.statement (h : PrintedStart n) : PrintedStatement n where
  legible := .simple h.simple
  finished := h.finished

theorem PrintedValue.declaration (name keyword : String) {r : Option Place} (h : PrintedValue n) :
    PrintedDeclaration (.tree .declaration [.leaf .ident name q,
      .leaf .letWord keyword r, n] p) where
  derived := @Derives.variable (word .letWord keyword) (word .ident name) (word .semicolon ";") _ _
    p q r rfl rfl h rfl
  isStatement_eq := rfl
  head := ⟨word .letWord keyword, rfl, .inl rfl⟩

theorem PrintedExpression.constant (name keyword : String) {r : Option Place}
    (h : PrintedExpression n) (ha : n.isAbsent = false) :
    PrintedDeclaration (.tree .declaration [.leaf .ident name q,
      .leaf .constWord keyword r, n] p) := by
  refine ⟨?_, rfl, word .constWord keyword, rfl, .inr rfl⟩
  have hprint : (Node.tree .declaration [.leaf .ident name q,
    .leaf .constWord keyword r, n] p).print =
      word .constWord keyword :: word .ident name ::
        (initial (n, n.print) ++ [word .semicolon ";"]) := rfl
  rw [hprint, initial_some ha]
  exact @Derives.constant (word .constWord keyword) (word .ident name) (word .colon ":")
    (word .semicolon ";") _ _ p q r rfl rfl rfl h.whole rfl

/-- Any statement can follow one that ends with a semicolon or a brace. -/
theorem statements_legible (h : Legible (.statements ms) ts) (hsep : ∀ us, Separate ts us)
    (hn : ∀ n ∈ ns, PrintedStatement n) :
    Legible (.statements (ms ++ ns)) (ts ++ ns.flatMap Node.printStatement) := by
  induction ns generalizing ms ts with
  | nil => simpa using h
  | cons n ns ih =>
    have hfirst := hn n (List.mem_cons_self ..)
    have hmore := Legible.statementsMore h (hsep _) hfirst.legible
    have hnext : ∀ us, Separate (ts ++ n.printStatement) us :=
      fun us => .of_finished (hfirst.finished.append ts) us
    simpa using ih hmore hnext fun m hm => hn m (List.mem_cons_of_mem _ hm)

theorem terminated_legible (hn : ∀ n ∈ ns, PrintedStatement n) :
    Legible (.statements ns) ((ns.map fun n => (n, n.print)).flatMap terminated) := by
  rw [List.flatMap_map]
  exact statements_legible .statementsNone .nil hn

theorem block_legible (hn : ∀ n ∈ ns, PrintedStatement n) :
    Legible (.block (.tree .body ns p)) (Node.tree .body ns p).print := by
  rw [Node.print_tree]
  exact .block rfl (terminated_legible hn) rfl

theorem program_legible (hn : ∀ n ∈ ns, PrintedStatement n) :
    Legible (.program (.tree .program ns p)) (Node.tree .program ns p).print := by
  rw [Node.print_tree]
  exact .program (terminated_legible hn)

theorem final_legible {body : Node} (hb : Legible (.block body) body.print) :
    Legible (.final (.tree .elseClause [body] p)) (Node.tree .elseClause [body] p).print := by
  have hprint : (Node.tree .elseClause [body] p).print =
    word .elseWord "lainnya" :: body.print := by
    simp [assemble]
  rw [hprint]
  exact .finalSome rfl hb

theorem PrintedStatement.ofKeyword {t : Token} (hs : n.isStatement = true)
    (hprint : n.print = t :: ts)
    (hk : t.kind.opensStatement = true) (h : Legible (.statement n) (t :: ts)) :
    PrintedStatement n := by
  constructor <;> rw [Node.printStatement_of_statement hs, hprint]
  · exact h
  · exact h.derives.statement_finished ⟨t, rfl, hk⟩

theorem PrintedStatement.function {body : Node} (name : String) {r : Option Place}
    (hp : ∀ x ∈ ns, Derives (.item .parameter x) x.print) (hb : Legible (.block body) body.print) :
    PrintedStatement (.tree .function [.leaf .ident name q, .tree .params ns r, body] p) := by
  have h := @Legible.function (word .fnWord "fungsi") (word .ident name) (word .lparen "(")
    (word .rparen ")") _ _ _ _ p q r rfl rfl rfl (commas_derive hp) rfl hb
  refine .ofKeyword rfl ?_ rfl h
  simp [assemble, Printing.function, leaf]

def PrintedClause (final : Node → Prop) (n : Node) : Prop :=
  ∃ cond body last p, n = .tree .elifClause [cond, body, last] p ∧ PrintedExpression cond ∧
    Legible (.block body) body.print ∧ final last

theorem clauses_legible (h : Legible (.clauses ms) ts)
    (hn : ∀ n ∈ ns, PrintedClause (· = .absent) n) :
    Legible (.clauses (ms ++ ns)) (ts ++ ns.flatMap Node.print) := by
  induction ns generalizing ms ts with
  | nil => simpa using h
  | cons n ns ih =>
    obtain ⟨cond, body, _, p, rfl, hc, hb, rfl⟩ := hn n (List.mem_cons_self ..)
    have hmore := Legible.clausesMore (p := p) h (rfl : (word .elifWord "lainnyajika").kind = _)
      hc.condition hb
    simpa [assemble, guarded] using ih hmore fun m hm => hn m (List.mem_cons_of_mem _ hm)

theorem PrintedStatement.ifElse {cond body final : Node} (hc : PrintedExpression cond)
    (hb : Legible (.block body) body.print) (hf : Legible (.final final) final.print) :
    PrintedStatement (.tree .ifElse [cond, body, .absent, final] p) := by
  have h : Legible (.statement (.tree .ifElse [cond, body, .absent, final] p))
      (word .ifWord "jika" ::
        (word .lparen "(" :: cond.print ++ [word .rparen ")"]) ++ body.print ++
        final.print) := .ifElse rfl hc.condition hb hf
  refine .ofKeyword rfl ?_ rfl h
  simp [assemble, guarded]

theorem PrintedStatement.ifElifs {cond body last : Node} (hc : PrintedExpression cond)
    (hb : Legible (.block body) body.print) (hn : ∀ n ∈ ns, PrintedClause (· = .absent) n)
    (hl : PrintedClause (fun final => Legible (.final final) final.print) last) :
    PrintedStatement (.tree .ifElse [cond, body, .tree .elifs (ns ++ [last]) q, .absent] p) := by
  obtain ⟨lastCond, lastBody, final, r, rfl, hlc, hlb, hf⟩ := hl
  have hclauses : Legible (.clauses ns) (ns.flatMap Node.print) :=
    clauses_legible .clausesNone hn
  have h : Legible (.statement (.tree .ifElse [cond, body,
        .tree .elifs (ns ++ [.tree .elifClause [lastCond, lastBody, final] r]) q, .absent] p))
      (word .ifWord "jika" ::
        (word .lparen "(" :: cond.print ++ [word .rparen ")"]) ++ body.print ++
        ns.flatMap Node.print ++ word .elifWord "lainnyajika" ::
        (word .lparen "(" :: lastCond.print ++ [word .rparen ")"]) ++ lastBody.print ++
          final.print) :=
    .ifElifs rfl hc.condition hb hclauses rfl hlc.condition hlb hf
  refine .ofKeyword rfl ?_ rfl h
  simp [assemble, guarded, List.flatMap_map]

theorem PrintedStatement.forLoop {start cond increment body : Node} (hs : PrintedStart start)
    (hc : PrintedExpression cond) (hi : PrintedExpression increment)
    (hb : Legible (.block body) body.print) :
    PrintedStatement (.tree .forLoop [start, cond, increment, body] p) := by
  have h : Legible (.statement (.tree .forLoop [start, cond, increment, body] p))
      (word .forWord "untuk" :: word .lparen "(" :: start.printStatement ++ cond.print ++
        word .semicolon ";" :: increment.print ++ word .rparen ")" :: body.print) :=
    .forLoop rfl rfl hs.simple (.of_finished hs.finished _) hc.whole rfl hi.whole rfl hb
  refine .ofKeyword rfl ?_ rfl h
  simp [assemble, loop, Node.printStatement]

end Statements

end Printing

def Form.Printed : Form → Node → Prop
  | expression, n => Printing.PrintedExpression n
  | value, n => Printing.PrintedValue n
  | property, n => Printing.PrintedProperty n
  | parameter, n => Derives (.item .parameter n) n.print
  | declaration, n => Printing.PrintedDeclaration n
  | statement, n => Printing.PrintedStatement n
  | block, n => Legible (.block n) n.print
  | clause, n => Printing.PrintedClause (· = .absent) n
  | lastClause, n => Printing.PrintedClause (fun final => Legible (.final final) final.print) n
  | final, n => Legible (.final n) n.print
  | start, n => Printing.PrintedStart n
  | program, n => Legible (.program n) n.print

open Printing in
theorem Node.Fits.printed {numeral : String → Prop} {form : Form} {n : Node}
    (h : n.Fits numeral form) : form.Printed n := by
  induction h with
  | ident name => exact ⟨@Derives.literal (word .ident name) .ident _ rfl, rfl⟩
  | @number text => exact ⟨@Derives.literal (word .number text) .number _ rfl, rfl⟩
  | string text => exact ⟨@Derives.literal (word .string text) .string _ rfl, rfl⟩
  | join _ h _ _ ihl ihr => exact .join h ihl ihr
  | binop _ _ h _ _ ihl ihr => exact .binop h ihl ihr
  | assign _ h _ _ iht ihv => exact .assign h iht ihv
  | call _ _ _ _ ihc iha => exact .call ihc iha
  | member name _ _ _ ih => exact .member name ih
  | index _ _ _ ihr ihk => exact .index ihr ihk
  | object _ _ ih => exact .object ih
  | noValue => exact Derives.initialNone
  | value h ih => exact PrintedExpression.value ih h.isAbsent_eq
  | property key _ _ _ ih => exact PrintedValue.property key ih
  | parameter name => exact @Derives.parameter (word .ident name) _ rfl
  | «variable» name keyword _ _ _ _ ih => exact PrintedValue.declaration name keyword ih
  | constant name keyword _ _ _ h ih =>
    exact PrintedExpression.constant name keyword ih h.isAbsent_eq
  | declaration _ ih => exact (PrintedDeclaration.start ih).statement
  | expression _ ih => exact (PrintedExpression.start ih).statement
  | function name _ _ _ _ _ ihp ihb => exact .function name ihp ihb
  | block _ _ ih => exact block_legible ih
  | ifElse _ _ _ _ ihc ihb ihf => exact .ifElse ihc ihb ihf
  | ifElifs _ _ _ _ _ _ ihc ihb ihs ihl => exact .ifElifs ihc ihb ihs ihl
  | clause p _ _ ihc ihb => exact ⟨_, _, _, p, rfl, ihc, ihb, rfl⟩
  | lastClause p _ _ _ ihc ihb ihf => exact ⟨_, _, _, p, rfl, ihc, ihb, ihf⟩
  | noFinal => exact Legible.finalNone
  | final _ _ ih => exact final_legible ih
  | startDeclaration _ ih => exact PrintedDeclaration.start ih
  | startExpression _ ih => exact PrintedExpression.start ih
  | forLoop _ _ _ _ _ ihs ihc ihi ihb => exact .forLoop ihs ihc ihi ihb
  | program _ _ ih => exact program_legible ih

namespace Parser

theorem program_print {numeral : String → Prop} {n : Node} (h : n.Fits numeral .program)
    {depth : Nat} (hd : n.print.length + 1 < depth) {stop : Token} (hs : stop.kind = .endOfInput) :
    ∃ tree, program depth stop n.print = .ok (tree, []) ∧ tree.bare = n.bare := by
  have hlegible : Legible (.program n) n.print := h.printed
  obtain ⟨ms, hms, hread⟩ := hlegible.read
  exact ⟨_, hread.program hs hd, by rw [Node.bare_build, hms]⟩

/-- Tokens that spell a printed program, wherever they stand, are read as the tree that was printed.
Only a limit on the nesting that is not above the number of tokens can get in the way. -/
theorem parseTokens_print {n : Node} (h : n.Fits (fun _ => True) .program) (tokens : List Token)
    (ht : tokens.map (Token.move .gather) = n.print) (stop : Token) (hs : stop.kind = .endOfInput)
    (depth : Nat) :
    (depth ≤ tokens.length + 1 ∧ ∃ t, parseTokens depth (tokens ++ [stop]) = .error (.tooDeep t)) ∨
      ∃ tree, parseTokens depth (tokens ++ [stop]) = .ok tree ∧ tree.bare = n.bare := by
  have hlen : tokens.length = n.print.length := by rw [← ht, List.length_map]
  have hs' : (stop.move .gather).kind = .endOfInput := hs
  have henough : n.print.length + 1 < max depth (tokens.length + 2) := by omega
  obtain ⟨tree, hread, hbare⟩ := program_print h henough hs'
  obtain ⟨used, hu, -, hd⟩ := program_reads (fun _ => True) hs' hread
  rw [List.append_nil] at hu
  have hparse := parseTokens_append_stop (max depth (tokens.length + 2)) hs'
    fun t ht => hd.derived.kind_ne_endOfInput t (hu ▸ ht)
  rw [hread, ← ht, ← List.map_singleton, ← List.map_append] at hparse
  have hdepth : depth ≤ max depth (tokens.length + 2) := Nat.le_max_left _ _
  obtain ⟨hlt, hdeep⟩ | hmove := parseTokens_move .gather hdepth (tokens ++ [stop])
  · refine .inl ⟨?_, hdeep⟩
    omega
  · apply Or.inr
    rw [hparse] at hmove
    cases hresult : parseTokens depth (tokens ++ [stop]) with
    | error e =>
      rw [hresult] at hmove
      cases hmove
    | ok found =>
      rw [hresult] at hmove
      refine ⟨found, rfl, ?_⟩
      have heq : tree = found.move .gather := Except.ok.inj hmove
      rw [← hbare, heq, Node.bare_move]

def memberDifference : Node :=
  .tree .program [.tree .assign [.leaf .ident "x" none, .tree .binop
    [.tree .member [.tree .call [.leaf .ident "f" none, .tree .args [.leaf .ident "a" none] none] none,
      .leaf .ident "b" none] none,
    .leaf .operator "-" none,
    .tree .binop [.leaf .ident "c" none, .leaf .operator "-" none, .leaf .number "1" none] none]
    none] none] none

theorem parseTokens_print_memberDifference :
    ∃ tree, parseTokens nestingLimit (memberDifference.print ++ [.endMark .start]) = .ok tree ∧
      tree.bare = memberDifference := by
  have hfits : memberDifference.Fits (fun _ => True) .program := by
    refine .program none (List.forall_mem_singleton.mpr (.expression (.assign none (by decide)
      (.ident "x" none) (.binop none none (by decide) ?_ ?_))))
    · exact .member "b" none none (.call none none (.ident "f" none)
        (List.forall_mem_singleton.mpr (.ident "a" none)))
    · exact .binop none none (by decide) (.ident "c" none) (.number none trivial)
  obtain ⟨hdepth, -⟩ | h := parseTokens_print hfits memberDifference.print rfl
    (.endMark .start) rfl nestingLimit
  · exact absurd hdepth (by decide)
  · exact h

end Parser

end Bahasa
