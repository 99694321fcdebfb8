import Bahasa.Proofs.Parser.Foresight
import Bahasa.Proofs.Parser.Joined
import Bahasa.Proofs.Parser.Literal
import Bahasa.Proofs.Printing

namespace Bahasa.Parser

open Printing (word)

variable {deep : Prop} {front follow : List Kind} {stop : Token} {ahead : List Token}
  {e e' s s' : Parser Node} {α : Type}

def ends : List Kind :=
  [.rparen, .rbracket, .rbrace, .semicolon, .ident, .endOfInput]

theorem takes_of_ends {t : Token} (h : t.kind ∈ ends) (l : Level) : l.takes t = false := by
  obtain ⟨kind, text, p⟩ := t
  simp only [ends, List.mem_cons, List.not_mem_nil, or_false] at h
  obtain rfl | rfl | rfl | rfl | rfl | rfl := h <;> cases l <;>
    simp [Level.takes, Level.label?, Kind.assignment?]

theorem assignment?_of_ends {k : Kind} (h : k ∈ ends) : assignment? k = none := by
  simp only [ends, List.mem_cons, List.not_mem_nil, or_false] at h
  obtain rfl | rfl | rfl | rfl | rfl | rfl := h <;> rfl

/-- The expression that stands in wherever one is missing. -/
def placeholder : Token := word .ident "x"

theorem expect_word_foreseen (k : Kind) (text : String) (hk : k ≠ .endOfInput)
    {complaint : Complaint} :
    Foreseen deep [k] [word k text] follow (expect k complaint) (expect k complaint) :=
  expect_foreseen hk rfl

structure Careful (deep : Prop) (e e' : Parser Node) : Prop where
  reads : Expressive e
  reads' : Expressive e'
  foreseen : Foreseen deep [.ident] [placeholder] ends e e'

section Expressions

/-- What cannot start an operand is rejected. -/
theorem primary_refuses {t : Token} (hl : t.kind.leaf? = none) (hp : t.kind ≠ .lparen) :
    ∃ complaint, ∀ e stop ahead, ahead.headD stop = t →
      primary e stop ahead = .error (.rejected complaint t) := by
  by_cases hk : t.kind = .endOfInput
  · refine ⟨.endOfInput, fun e stop ahead ht => ?_⟩
    simp only [primary, peek_bind, ht, hk, reject]
  · refine ⟨.unexpected, fun e stop ahead ht => ?_⟩
    simp only [primary, peek_bind, ht]
    generalize hg : t.kind = k at hl hp hk ⊢
    split
    case h_6 => rw [reject, ht]
    all_goals simp [Kind.leaf?] at hl hp hk

variable (he : Careful deep e e')

include he

theorem closed_foreseen (k : Kind) (text : String) (hk : k ∈ ends) (hne : k ≠ .endOfInput)
    {complaint : Complaint} (f : Node → α) :
    Foreseen deep [.ident] [placeholder, word k text] follow
      (e >>= fun n => expect k complaint >>= fun _ => pure (f n))
      (e' >>= fun n => expect k complaint >>= fun _ => pure (f n)) := by
  have hend : Foreseen deep [.ident] [placeholder] [k] e e' :=
    he.foreseen.mono (List.Subset.refl _) (by simpa using hk)
  exact hend.bind (fun n => (expect_word_foreseen k text hne).map fun _ => f n)
    (by simp [Opens, word])

theorem primary_foreseen :
    Foreseen deep [.ident] [placeholder] follow (primary e) (primary e') where
  foresees := by
    intro stop ahead hs
    have htakes : Completes (primary e') follow [] [placeholder] := fun stop rest hs _ =>
      ⟨_, (primary_eq_ok hs).mpr (.inl ⟨placeholder, .ident, rfl, rfl, rfl⟩)⟩
    by_cases hl : (ahead.headD stop).kind = .lparen
    · obtain ⟨t, rest, rfl, ht⟩ := (headD_kind hs (by decide : Kind.lparen ≠ _)).mp hl
      refine .choose ?_
      simp only [ht]
      exact .next ((closed_foreseen he .rparen ")" (by decide)
        (by decide) id).foresees stop rest hs)
    cases hleaf : (ahead.headD stop).kind.leaf? with
    | none =>
      obtain ⟨complaint, hr⟩ := primary_refuses hleaf hl
      have hopens : Opens [.ident] follow [placeholder] := by simp [Opens, placeholder, word]
      exact .refuse (fun stop' ahead' hh => ⟨hr e stop' ahead' hh, hr e' stop' ahead' hh⟩) hopens
        fun _ => htakes
    | some kind =>
      cases ahead with
      | nil =>
        rw [List.headD_nil, hs] at hleaf
        cases hleaf
      | cons t rest =>
        have hread (e : Parser Node) (stop : Token) (rest : List Token)
          (hs : stop.kind = .endOfInput) :
            primary e stop (t :: rest) = .ok (.ofToken kind t, rest) :=
          (primary_eq_ok hs).mpr (.inl ⟨t, kind, rfl, hleaf, rfl⟩)
        exact .single hs fun stop rest hs => ⟨hread e stop rest hs, hread e' stop rest hs⟩
  opens := by simp [Opens, placeholder, word]
  takes := fun _ stop rest hs _ =>
    ⟨_, (primary_eq_ok hs).mpr (.inl ⟨placeholder, .ident, rfl, rfl, rfl⟩)⟩

theorem memberStep_foresees (hs : stop.kind = .endOfInput) (receiver : Node) {t : Token}
    (ht : Level.member.takes t = true) :
    Foresees deep [] ends (memberStep e receiver) (memberStep e' receiver) stop (t :: ahead) := by
  refine .choose ?_
  obtain hd | hb : t.kind = .dot ∨ t.kind = .lbracket := by simpa [Level.takes] using ht
  · simp only [hd]
    exact .next (((expect_word_foreseen .ident "x" (by decide)).map _).foresees stop ahead hs)
  · simp only [hb]
    exact .next ((closed_foreseen he .rbracket "]" (by decide) (by decide) _).foresees
      stop ahead hs)

theorem callStep_foresees (hs : stop.kind = .endOfInput) (callee : Node) {t : Token}
    (ht : Level.call.takes t = true) :
    Foresees deep [] ends (callStep e callee) (callStep e' callee) stop (t :: ahead) := by
  refine .choose ?_
  have hp : t.kind = .lparen := by simpa [Level.takes] using ht
  simp only [hp]
  have hargs : Foreseen deep [.rparen, .ident] [word .rparen ")"] ends
      (commaListUntil .rparen .argsClose e) (commaListUntil .rparen .argsClose e') := by
    refine commaListUntil_foreseen (he.foreseen.mono (List.Subset.refl _) (by decide)) (by decide)
      (by decide) (by decide) rfl (fun stop hs => ?_) fun stop hs => ?_
    · exact (commaStep_reads hs (argument_reads (he.reads stop hs))).shortens
    · exact (commaStep_reads hs (argument_reads (he.reads' stop hs))).shortens
  exact .next ((hargs.map _).foresees stop ahead hs)

omit he in
theorem chainStep_foresees {l : Level} {operand operand' : Parser Node}
    (ho : Foresees deep front ends operand operand' stop ahead) (left : Node) {t : Token}
    (ht : (join? l t).isSome = true) :
    Foresees deep [] ends (chainStep (join? l) operand left)
      (chainStep (join? l) operand' left) stop
      (t :: ahead) := by
  refine .choose ?_
  obtain ⟨join, hj⟩ := Option.isSome_iff_exists.mp ht
  simp only [hj]
  exact .next (ho.map _)

theorem reader_foreseen_of_tighter {l next : Level} (hl : l.joinsLeft = true)
    (ht : l.tighter? = some next)
    (hn : Foreseen deep [.ident] [placeholder] ends (reader e next) (reader e' next))
    (hturn : ∀ n stop t ahead, stop.kind = .endOfInput → l.takes t = true →
      Foresees deep [] ends (turn e l n) (turn e' l n) stop (t :: ahead)) :
    Foreseen deep [.ident] [placeholder] ends (reader e l) (reader e' l) := by
  have hbind (e : Parser Node) : reader e l = reader e next >>= foldWhile (turn e l) := by
    cases l with
    | assignment | object | primary => cases hl
    | _ =>
      cases ht
      rfl
  have hpause : Pauses (turn e' l) ends :=
    fun n stop ahead _ hk => (turn_eq_none hl).mpr ⟨rfl, takes_of_ends hk l⟩
  have hstep (n : Node) (stop : Token) (ahead : List Token) (hs : stop.kind = .endOfInput) :
      Foresees deep ends ends (turn e l n) (turn e' l n) stop ahead := by
    cases htakes : l.takes (ahead.headD stop) with
    | false =>
      refine .stay none hs (fun stop' ahead' hs' hk => ?_) (List.Subset.refl _)
      have hend : l.takes (ahead'.headD stop') = false := by
        obtain hk | hk := hk
        · rw [hk, htakes]
        · exact takes_of_ends hk l
      exact ⟨(turn_eq_none hl).mpr ⟨rfl, hend⟩, (turn_eq_none hl).mpr ⟨rfl, hend⟩⟩
    | true =>
      cases ahead with
      | nil =>
        rw [takes_of_ends (by simp [hs, ends])] at htakes
        cases htakes
      | cons t ahead =>
        exact (hturn n stop t ahead hs htakes).mono (List.nil_subset _) (List.Subset.refl _)
  rw [hbind, hbind]
  have hloop := foldWhile_foreseen hstep hpause
    (fun stop hs => (turn_reads hs (he.reads stop hs) hl).shortens)
    fun stop hs => (turn_reads hs (he.reads' stop hs) hl).shortens
  exact hn.bind hloop .nil

theorem operators_foreseen {l next : Level} (hr : 2 ≤ l.rank) (hr' : l.rank ≤ 7)
    (ht : l.tighter? = some next)
    (hn : Foreseen deep [.ident] [placeholder] ends (reader e next) (reader e' next)) :
    Foreseen deep [.ident] [placeholder] ends (reader e l) (reader e' l) := by
  have hl : l.joinsLeft = true := by
    cases l with
    | assignment | object | primary => simp [Level.rank] at hr hr'
    | _ => rfl
  refine reader_foreseen_of_tighter he hl ht hn fun n stop t ahead hs htakes => ?_
  have hj : (join? l t).isSome = true := (join?_isSome t hr hr').trans htakes
  have hop := hn.foresees stop ahead hs
  cases l with
  | product | sum | relation | equality | conjunction | disjunction =>
    cases ht
    exact chainStep_foresees hop n hj
  | _ => simp [Level.rank] at hr hr'

theorem disjunction_foreseen :
    Foreseen deep [.ident] [placeholder] ends (disjunction e) (disjunction e') := by
  have hprimary : Foreseen deep [.ident] [placeholder] ends (reader e .primary)
    (reader e' .primary) :=
    primary_foreseen he
  have hmember := reader_foreseen_of_tighter he (l := .member) rfl rfl hprimary
    fun n stop t ahead hs ht => memberStep_foresees he hs n ht
  have hcall := reader_foreseen_of_tighter he (l := .call) rfl rfl hmember
    fun n stop t ahead hs ht => callStep_foresees he hs n ht
  have hproduct := operators_foreseen he (l := .product) (by decide) (by decide) rfl hcall
  have hsum := operators_foreseen he (l := .sum) (by decide) (by decide) rfl hproduct
  have hrelation := operators_foreseen he (l := .relation) (by decide) (by decide) rfl hsum
  have hequality := operators_foreseen he (l := .equality) (by decide) (by decide) rfl hrelation
  have hconjunction := operators_foreseen he (l := .conjunction) (by decide)
    (by decide) rfl hequality
  exact operators_foreseen he (l := .disjunction) (by decide) (by decide) rfl hconjunction

theorem property_foreseen :
    Foreseen deep [.ident] [placeholder] [.rbrace] (property e) (property e') := by
  have hcomma (n : Node) (key : Token) : Foreseen deep [.rbrace] [] [.rbrace]
      (accept .comma >>= fun _ => pure (Node.build .property [.ofToken .ident key, n] key))
      (accept .comma >>= fun _ => pure (Node.build .property [.ofToken .ident key, n] key)) :=
    accept_foreseen (by decide) (by decide) (fun _ _ _ => .pure _ (List.Subset.refl _))
      (.pure _ (List.Subset.refl _))
  have hvalue : Foreseen deep [.ident] [placeholder] [.rbrace] e e' :=
    he.foreseen.mono (List.Subset.refl _) (by decide)
  apply Foreseen.bind (expect_word_foreseen .ident "x" (by decide)) (fun key => ?_) .nil
  have hgiven := hvalue.bind (fun n => hcomma n key) .nil
  refine accept_foreseen (by decide) (by decide) hgiven.foresees ?_
  exact Foreseen.bind (.pure Node.absent (List.Subset.refl _)) (fun n => hcomma n key) .nil

theorem object_foreseen :
    Foreseen deep [.ident] [placeholder] ends (object e) (object e') where
  foresees := by
    intro stop ahead hs
    by_cases hb : (ahead.headD stop).kind = .lbrace
    · obtain ⟨t, rest, rfl, ht⟩ := (headD_kind hs (by decide : Kind.lbrace ≠ _)).mp hb
      refine .choose ?_
      simp only [ht, if_true]
      have hitems : Foreseen deep [.rbrace] [word .rbrace "\x7d"] ends
          (bracedItems .object (property e)) (bracedItems .object (property e')) :=
        bracedItems_foreseen (property_foreseen he).foresees (by decide) (by decide) rfl
          (fun stop hs => (propertyStep_reads hs (he.reads stop hs)).shortens)
          (fun stop hs => (propertyStep_reads hs (he.reads' stop hs)).shortens)
      exact .next ((hitems.map _).foresees stop rest hs)
    · refine .peek _ ?_ fun t ht => ?_
      · simp only [hb, if_false]
        exact (disjunction_foreseen he).foresees stop ahead hs
      · simp only [List.mem_singleton.mp ht, hb, if_false]
        exact ⟨rfl, rfl⟩
  opens := (disjunction_foreseen he).opens
  takes := (disjunction_foreseen he).takes

theorem assignStep_foresees (hs : stop.kind = .endOfInput) (state : List Pending × Node) :
    Foresees deep ends ends (assignStep e state) (assignStep e' state) stop ahead := by
  cases ha : assignment? (ahead.headD stop).kind with
  | none =>
    refine .stay none hs (fun stop' ahead' hs' hk => ?_) (List.Subset.refl _)
    have hend : assignment? (ahead'.headD stop').kind = none := by
      obtain hk | hk := hk
      · rw [hk, ha]
      · exact assignment?_of_ends hk
    exact ⟨assignStep_eq_none.mpr ⟨rfl, hend⟩, assignStep_eq_none.mpr ⟨rfl, hend⟩⟩
  | some label =>
    cases ahead with
    | nil =>
      rw [List.headD_nil, hs] at ha
      cases ha
    | cons t ahead =>
      refine .choose ?_
      rw [List.headD_cons] at ha
      simp only [ha]
      exact .next (((object_foreseen he).foresees stop ahead hs).map _)

theorem assignment_foreseen :
    Foreseen deep [.ident] [placeholder] ends (assignment e) (assignment e') := by
  have hpause : Pauses (assignStep e') ends :=
    fun state stop ahead _ hk => assignStep_eq_none.mpr ⟨rfl, assignment?_of_ends hk⟩
  have hloop := foldWhile_foreseen
    (fun state stop ahead hs => assignStep_foresees he hs state) hpause
    (fun stop hs => (assignStep_reads hs (he.reads stop hs)).shortens)
    fun stop hs => (assignStep_reads hs (he.reads' stop hs)).shortens
  refine (object_foreseen he).bind (fun first => ?_) .nil
  exact (hloop ([], first)).map fun x => x.1.foldl Pending.close x.2

end Expressions

/-- With more depth an expression can be completed where it was rejected. -/
theorem careful_expression {d d' : Nat} (h : d ≤ d') (hd : deep → d < d') :
    Careful deep (expression d) (expression d') where
  reads := expressive_expression d
  reads' := expressive_expression d'
  foreseen := by
    induction d generalizing d' with
    | zero =>
      refine ⟨fun _ _ _ => .tooDeep _, by simp [Opens, placeholder, word], fun hdeep => ?_⟩
      obtain ⟨k, rfl⟩ := Nat.exists_eq_succ_of_ne_zero (Nat.ne_of_gt (hd hdeep))
      intro stop rest hs hk
      exact ⟨_, takesWhole_leaf k (t := placeholder) rfl stop rest hs
        fun l _ => takes_of_ends hk l⟩
    | succ d ih =>
      cases d' with
      | zero => exact absurd h (Nat.not_succ_le_zero d)
      | succ k =>
        have hle : d ≤ k := Nat.le_of_succ_le_succ h
        have hlt : deep → d < k := fun hdeep => Nat.lt_of_succ_lt_succ (hd hdeep)
        exact assignment_foreseen ⟨expressive_expression d, expressive_expression k, ih hle hlt⟩

section Statements

def declared (keyword name : Token) (value : Node) : Parser Node := do
  let _ ← expect .semicolon .declarationEnd
  return .build .declaration [.ofToken .ident name, .ofToken (keywordKind keyword) keyword, value]
    keyword

def initialized (expression : Parser Node) (keyword name : Token) : Parser Node := do
  if ← accept .colon then expression >>= declared keyword name
  else if keywordKind keyword = .constWord then
    reject (.constantValue name.text) >>= declared keyword name
  else pure .absent >>= declared keyword name

theorem declared_foreseen (keyword name : Token) (value : Node) :
    Foreseen deep [.semicolon] [word .semicolon ";"] follow (declared keyword name value)
      (declared keyword name value) :=
  (expect_word_foreseen .semicolon ";" (by decide)).map _

variable (he : Careful deep e e')

include he

theorem initialized_foreseen (keyword name : Token) :
    Foreseen deep [.colon, .semicolon] [word .colon ":", placeholder, word .semicolon ";"] follow
      (initialized e keyword name) (initialized e' keyword name) := by
  have hvalue : Foreseen deep [.ident] [placeholder, word .semicolon ";"] follow
      (e >>= declared keyword name) (e' >>= declared keyword name) := by
    have hend : Foreseen deep [.ident] [placeholder] [.semicolon] e e' :=
      he.foreseen.mono (List.Subset.refl _) (by decide)
    exact hend.bind (declared_foreseen keyword name) (by simp [Opens, word])
  have htakes (hdeep : deep) : Completes (initialized e' keyword name) follow []
      [word .colon ":", placeholder, word .semicolon ";"] := by
    intro stop rest hs hk
    rw [initialized, accept_bind]
    exact hvalue.takes hdeep stop rest hs hk
  refine ⟨fun stop ahead hs => ?_, by simp [Opens, word], htakes⟩
  by_cases hc : (ahead.headD stop).kind = .colon
  · obtain ⟨t, rest, rfl, ht⟩ := (headD_kind hs (by decide : Kind.colon ≠ _)).mp hc
    rw [initialized, initialized, accept_bind, accept_bind]
    refine .choose ?_
    simp only [ht, if_true]
    exact .next (hvalue.foresees stop rest hs)
  by_cases hk : keywordKind keyword = .constWord
  · -- a constant needs its value
    have hrefuse {e : Parser Node} (stop' : Token) (ahead' : List Token)
        (hh : ahead'.headD stop' = ahead.headD stop) : initialized e keyword name stop' ahead' =
          .error (.rejected (.constantValue name.text) (ahead.headD stop)) := by
      rw [initialized, accept_bind, peek_bind, hh, if_neg hc]
      simp only [hk, if_true, Bool.false_eq_true, if_false]
      refine bind_of_error ?_
      rw [reject, hh]
    exact .refuse (fun stop' ahead' hh => ⟨hrefuse stop' ahead' hh, hrefuse stop' ahead' hh⟩)
      (by simp [Opens, word]) htakes
  · rw [initialized, initialized, accept_bind, accept_bind]
    refine (Foresees.peek [.semicolon] ?_ fun t ht => ?_).mono (by simp) (List.Subset.refl _)
    · simp only [hc, if_false, hk, Bool.false_eq_true]
      exact (declared_foreseen keyword name .absent).foresees stop ahead hs
    · simp only [List.mem_singleton.mp ht, hc, if_false]
      exact ⟨rfl, rfl⟩

theorem declaration_foresees (hs : stop.kind = .endOfInput) (keyword : Token) :
    Foresees deep front follow (declaration e) (declaration e') stop (keyword :: ahead) :=
  .next (((expect_word_foreseen .ident "x" (by decide)).bind (initialized_foreseen he keyword)
    (by simp [Opens, word])).foresees stop ahead hs)

theorem condition_foreseen (keyword : String) :
    Foreseen deep [.lparen] [word .lparen "(", placeholder, word .rparen ")"] follow
      (condition keyword e) (condition keyword e') :=
  (expect_word_foreseen .lparen "(" (by decide)).bind
    (fun _ => closed_foreseen he .rparen ")" (by decide) (by decide) id)
    (by simp [Opens, placeholder, word])

omit he

structure CarefulStatement (deep : Prop) (s s' : Parser Node) : Prop where
  reads : Stating s
  reads' : Stating s'
  foresees : ∀ stop ahead, stop.kind = .endOfInput →
    Foresees deep [.ident] [.rbrace, .endOfInput] s s' stop ahead

variable (hst : CarefulStatement deep s s')

include hst

theorem block_foreseen (enclosure : Enclosure) :
    Foreseen deep [.lbrace] [word .lbrace "\x7b", word .rbrace "\x7d"] follow (block enclosure s)
      (block enclosure s') := by
  have hitems : Foreseen deep [.rbrace] [word .rbrace "\x7d"] follow (bracedItems enclosure s)
      (bracedItems enclosure s') :=
    bracedItems_foreseen
      (fun stop ahead hs => (hst.foresees stop ahead hs).mono (List.Subset.refl _) (by decide))
      (by decide) (by decide) rfl (fun stop hs => (blockStep_reads (hst.reads stop hs)).shortens)
      (fun stop hs => (blockStep_reads (hst.reads' stop hs)).shortens)
  exact (expect_word_foreseen .lbrace "\x7b" (by decide)).bind (fun _ => hitems.map _)
    (by simp [Opens, word])

theorem function_foresees (hs : stop.kind = .endOfInput) (keyword : Token) :
    Foresees deep front follow (function s) (function s') stop (keyword :: ahead) := by
  have hname {middle : List Kind} : Foreseen deep [.ident] [placeholder] middle
      (expect .ident .paramName) (expect .ident .paramName) :=
    expect_word_foreseen .ident "x" (by decide)
  have hshort (stop : Token) (hs : stop.kind = .endOfInput) :
      Shortens (commaStep (expect .ident .paramName)) stop :=
    (commaStep_reads hs (parameter_reads hs)).shortens
  have hparams : Foreseen deep [.rparen, .ident] [word .rparen ")"] [.lbrace]
      (commaListUntil .rparen .paramsClose (expect .ident .paramName))
      (commaListUntil .rparen .paramsClose (expect .ident .paramName)) :=
    commaListUntil_foreseen hname (by decide) (by decide) (by decide) rfl hshort hshort
  apply Foreseen.next hs
  apply Foreseen.bind (expect_word_foreseen .ident "x" (by decide))
  intro name
  apply Foreseen.bind (expect_word_foreseen .lparen "(" (by decide))
  intro paren
  apply Foreseen.bind hparams
  exact fun params => (block_foreseen hst .functionBody).map _
  all_goals simp [Opens, word]

theorem elseClause_foreseen :
    Foreseen deep [.rbrace, .endOfInput] [] [.rbrace, .endOfInput] (elseClause s)
      (elseClause s') where
  foresees := by
    intro stop ahead hs
    by_cases hk : (ahead.headD stop).kind = .elseWord
    · obtain ⟨t, rest, rfl, ht⟩ := (headD_kind hs (by decide : Kind.elseWord ≠ _)).mp hk
      refine .choose ?_
      simp only [ht, if_true]
      exact .next (((block_foreseen hst .elseBody).map _).foresees stop rest hs)
    · refine .peek _ ?_ fun t ht => ?_
      · simp only [hk, if_false]
        exact .pure _ (List.Subset.refl _)
      · have hne : t.kind ≠ .elseWord := fun h => absurd (h ▸ ht) (by decide)
        simp only [hk, hne, if_false, and_self]
  opens := List.Subset.refl _
  takes := by
    intro _ stop rest hs hk
    have hne : (rest.headD stop).kind ≠ .elseWord := fun h => absurd (h ▸ hk) (by decide)
    exact ⟨.absent, (elseClause_eq_ok hs).mpr (.inr ⟨hne, rfl, rfl⟩)⟩

include he

theorem elifClause_foresees (hs : stop.kind = .endOfInput) (keyword : Token) :
    Foresees deep front follow (elifClause e s) (elifClause e' s') stop (keyword :: ahead) := by
  apply Foreseen.next hs
  apply Foreseen.bind (condition_foreseen he "lainnyajika")
  · exact fun cond => (block_foreseen hst .elifBody).map _
  · simp [Opens, word]

theorem elifClauses_foreseen :
    Foreseen deep [.rbrace, .endOfInput] [] [.rbrace, .endOfInput] (elifClauses e s)
      (elifClauses e' s') := by
  have hpause : Pauses (elifStep e' s') [.rbrace, .endOfInput] := by
    intro clauses stop ahead _ hk
    exact elifStep_eq_none.mpr ⟨rfl, fun h => absurd (h ▸ hk) (by decide)⟩
  have hstep (clauses : List Clause) (stop : Token) (ahead : List Token)
      (hs : stop.kind = .endOfInput) :
      Foresees deep [.rbrace, .endOfInput] [.rbrace, .endOfInput] (elifStep e s clauses)
        (elifStep e' s' clauses) stop ahead := by
    by_cases hk : (ahead.headD stop).kind = .elifWord
    · obtain ⟨t, rest, rfl, ht⟩ := (headD_kind hs (by decide : Kind.elifWord ≠ _)).mp hk
      refine .choose ?_
      simp only [ht, if_true]
      exact (elifClause_foresees he hst hs t).map _
    · refine .stay none hs (fun stop' ahead' hs' hh => ?_) (List.Subset.refl _)
      have hend : (ahead'.headD stop').kind ≠ .elifWord := by
        obtain hh | hh := hh
        · rwa [hh]
        · exact fun h => absurd (h ▸ hh) (by decide)
      exact ⟨elifStep_eq_none.mpr ⟨rfl, hend⟩, elifStep_eq_none.mpr ⟨rfl, hend⟩⟩
  exact (foldWhile_foreseen hstep hpause
    (fun stop hs => (elifStep_reads hs (he.reads stop hs) (hst.reads stop hs)).shortens)
    (fun stop hs => (elifStep_reads hs (he.reads' stop hs) (hst.reads' stop hs)).shortens) []).map _

theorem ifElse_foresees (hs : stop.kind = .endOfInput) (keyword : Token) :
    Foresees deep front [.rbrace, .endOfInput] (ifElse e s) (ifElse e' s') stop
      (keyword :: ahead) := by
  apply Foreseen.next hs
  apply Foreseen.bind (condition_foreseen he "jika")
  intro cond
  apply Foreseen.bind (block_foreseen hst .ifBody)
  intro body
  apply Foreseen.bind (elifClauses_foreseen he hst)
  exact fun clauses => (elseClause_foreseen hst).map _
  all_goals simp [Opens, word]

omit hst in
theorem terminated_foreseen (follow : List Kind) (hf : follow ⊆ ends) (hs : .semicolon ∉ follow) :
    Foreseen deep [.ident] [placeholder] follow
      (e >>= fun n => accept .semicolon >>= fun _ => pure n)
      (e' >>= fun n => accept .semicolon >>= fun _ => pure n) := by
  have hend (n : Node) : Foreseen deep follow [] follow
      (accept .semicolon >>= fun _ => pure n) (accept .semicolon >>= fun _ => pure n) :=
    accept_foreseen (by decide) hs (fun _ _ _ => .pure n (List.Subset.refl _))
      (.pure n (List.Subset.refl _))
  exact (he.foreseen.mono (List.Subset.refl _) hf).bind hend (List.Subset.refl _)

omit hst in
theorem loopStart_foreseen :
    Foreseen deep [.ident] [placeholder] [.ident] (loopStart e) (loopStart e') := by
  have hstart := terminated_foreseen he [.ident] (by decide) (by decide)
  refine ⟨fun stop ahead hs => ?_, hstart.opens, hstart.takes⟩
  by_cases hk : (ahead.headD stop).kind = .letWord ∨ (ahead.headD stop).kind = .constWord
  · cases ahead with
    | nil => simp [hs] at hk
    | cons t rest =>
      refine .choose ?_
      have hd : Foresees deep [] [.ident] (declaration e) (declaration e') stop (t :: rest) :=
        declaration_foresees he hs t
      obtain hk | hk : t.kind = .letWord ∨ t.kind = .constWord := hk
      · simpa only [hk] using hd
      · simpa only [hk] using hd
  · refine .peek _ ?_ fun t ht => ?_
    · split
      · exact absurd (.inl ‹_›) hk
      · exact absurd (.inr ‹_›) hk
      · exact hstart.foresees stop ahead hs
    · simp only [List.mem_singleton.mp ht]
      split
      · exact absurd (.inl ‹_›) hk
      · exact absurd (.inr ‹_›) hk
      · exact ⟨rfl, rfl⟩

theorem forLoop_foresees (hs : stop.kind = .endOfInput) (keyword : Token) :
    Foresees deep front follow (forLoop e s) (forLoop e' s') stop (keyword :: ahead) := by
  have hcond : Foreseen deep [.ident] [placeholder] [.semicolon] e e' :=
    he.foreseen.mono (List.Subset.refl _) (by decide)
  have hincrement : Foreseen deep [.ident] [placeholder] [.rparen] e e' :=
    he.foreseen.mono (List.Subset.refl _) (by decide)
  apply Foreseen.next hs
  apply Foreseen.bind (expect_word_foreseen .lparen "(" (by decide))
  intro _
  apply Foreseen.bind (loopStart_foreseen he)
  intro start
  apply Foreseen.bind hcond
  intro cond
  apply Foreseen.bind (expect_word_foreseen .semicolon ";" (by decide))
  intro _
  apply Foreseen.bind hincrement
  intro increment
  apply Foreseen.bind (expect_word_foreseen .rparen ")" (by decide))
  exact fun _ => (block_foreseen hst .forBody).map _
  all_goals simp [Opens, placeholder, word]

theorem statementWith_foresees (hs : stop.kind = .endOfInput) :
    Foresees deep [.ident] [.rbrace, .endOfInput] (statementWith e s) (statementWith e' s') stop
      ahead := by
  cases hk : (ahead.headD stop).kind.opensStatement with
  | true =>
    cases ahead with
    | nil =>
      rw [List.headD_nil, hs] at hk
      cases hk
    | cons t rest =>
      rw [List.headD_cons] at hk
      refine .choose ?_
      split
      · exact declaration_foresees he hs t
      · exact declaration_foresees he hs t
      · exact function_foresees hst hs t
      · exact ifElse_foresees he hst hs t
      · exact forLoop_foresees he hst hs t
      · simp_all [Kind.opensStatement]
  | false =>
    have hvalue := terminated_foreseen he [.rbrace, .endOfInput] (by decide) (by decide)
    refine .peek _ ?_ fun t ht => ?_
    · split
      case h_6 => exact hvalue.foresees stop ahead hs
      all_goals simp_all [Kind.opensStatement]
    · simp only [List.mem_singleton.mp ht]
      split
      case h_6 => exact ⟨rfl, rfl⟩
      all_goals simp_all [Kind.opensStatement]

end Statements

theorem careful_statement {d d' : Nat} (h : d ≤ d') (hd : deep → d < d') :
    CarefulStatement deep (statement d) (statement d') where
  reads := stating_statement d
  reads' := stating_statement d'
  foresees := by
    induction d generalizing d' with
    | zero => exact fun _ _ _ => .tooDeep _
    | succ d ih =>
      cases d' with
      | zero => exact absurd h (Nat.not_succ_le_zero d)
      | succ k =>
        have hle : d ≤ k := Nat.le_of_succ_le_succ h
        have hlt : deep → d < k := fun hdeep => Nat.lt_of_succ_lt_succ (hd hdeep)
        exact fun stop ahead hs => statementWith_foresees (careful_expression hle hlt)
          ⟨stating_statement d, stating_statement k, ih hle hlt⟩ hs

end Bahasa.Parser
