import Bahasa.Proofs.Legible
import Bahasa.Proofs.Parser.Earliest
import Bahasa.Proofs.Parser.Followed
import Bahasa.Proofs.Parser.Joined

namespace Bahasa

namespace Parser

variable {stop : Token} {ts us vs ws rest : List Token} {n m : Node} {depth : Nat}

/-- The tokens `rest` before the end mark `stop` do not go on with a statement that ends with `ts`:
they start or end something else. -/
def Parted (ts : List Token) (stop : Token) (rest : List Token) : Prop :=
  Seam ts stop rest ∨ (rest.headD stop).kind = .rbrace

namespace Parted

theorem suffix (h : Parted (ts ++ us) stop rest) : Parted us stop rest :=
  h.imp_left Seam.suffix

theorem kind_ne (h : Parted ts stop rest) {k : Kind} (hk : k.opens = false) (hb : k ≠ .rbrace) :
    (rest.headD stop).kind ≠ k := by
  rintro rfl
  obtain h | h := h
  · rw [h.opens] at hk
    cases hk
  · exact hb h

theorem ofSeparate (h : Separate ts us) (hs : stop.kind = .endOfInput)
    (hu : ∃ t vs, us = t :: vs ∧ t.kind.opens = true) : Parted ts stop (us ++ rest) := by
  obtain ⟨t, vs, rfl, ho⟩ := hu
  exact .inl ((h.append_right (List.cons_ne_nil t vs)).seam hs ho)

end Parted

theorem Followed.parted (h : Followed .assignment ts n) (hd : ts.length < depth)
    (hs : stop.kind = .endOfInput) (hp : Parted ts stop rest) :
    expression depth stop (ts ++ rest) = .ok (n, rest) := by
  have hwhole := h.whole hd
  obtain hseam | hbrace := hp
  · have hread := hwhole stop [] hs (endsAt_of_kind _ (by simp [hs]))
    rw [List.append_nil] at hread
    exact expression_extends hs hs depth ts n [] hseam hread
  · exact hwhole stop rest hs (endsAt_of_kind _ (by rw [hbrace]; decide))

def SimpleFollowed (ts : List Token) (n : Node) : Prop :=
  ∀ depth stop rest, ts.length < depth → stop.kind = .endOfInput → Parted ts stop rest →
    ((((ts ++ rest).headD stop).kind = .letWord ∨ ((ts ++ rest).headD stop).kind = .constWord) ∧
      declaration (expression depth) stop (ts ++ rest) = .ok (n, rest)) ∨
    (((ts ++ rest).headD stop).kind.opensStatement = false ∧
      ∃ mid, expression depth stop (ts ++ rest) = .ok (n, mid) ∧ Skips .semicolon stop mid rest)

theorem Followed.simple (h : Followed .assignment ts n) (hu : Optional .semicolon us)
    (hh : ∃ t vs, ts = t :: vs ∧ t.kind.opensStatement = false) : SimpleFollowed (ts ++ us) n := by
  obtain ⟨t, vs, rfl, ht⟩ := hh
  intro depth stop rest hd hs hp
  rw [List.length_append] at hd
  refine .inr ⟨ht, us ++ rest, ?_, ?_⟩
  · rw [List.append_assoc]
    obtain rfl | ⟨semi, rfl, hsemi⟩ := hu
    · rw [List.append_nil] at hp
      exact h.parted (by omega) hs hp
    · exact h.whole (by omega) stop _ hs (endsAt_of_kind _ (by simp [hsemi]))
  · obtain rfl | ⟨semi, rfl, hsemi⟩ := hu
    · exact .inr ⟨hp.kind_ne rfl (by decide), rfl⟩
    · exact .inl ⟨semi, rfl, hsemi⟩

theorem InitialFollowed.declaration {keyword name semi : Token} (h : InitialFollowed ts n)
    (hk : keyword.kind = .letWord ∨ keyword.kind = .constWord ∧ ts ≠ []) (hi : name.kind = .ident)
    (hm : semi.kind = .semicolon) :
    SimpleFollowed (keyword :: name :: ts ++ [semi]) (.build .declaration
      [.ofToken .ident name, .ofToken (keywordKind keyword) keyword, n] keyword) := by
  intro depth stop rest hd hs _
  simp only [List.cons_append, List.length_cons, List.length_append, List.length_nil] at hd
  refine .inl ⟨hk.imp_right And.left, (declaration_eq_ok hs).mpr
    ⟨keyword, name, ts ++ semi :: rest, n, semi, by simp, hi, ?_, hm, rfl⟩⟩
  cases h with
  | none =>
    have hne : keyword.kind ≠ .constWord := by
      intro he
      simp [he] at hk
    exact .inr ⟨by simp [hm], hne, rfl, rfl⟩
  | @some colon _ ts hcolon h =>
    rw [List.length_cons] at hd
    refine .inl ⟨colon, ts ++ semi :: rest, rfl, hcolon, ?_⟩
    exact h.whole (by omega) stop _ hs (endsAt_of_kind _ (by simp [hm]))

end Parser

open Bahasa.Parser

theorem Simple.followed (h : Simple n ts) : ∃ m, m.bare = n.bare ∧ SimpleFollowed ts m := by
  cases h with
  | expression hn hu =>
    obtain ⟨m, hm, h⟩ := hn.followed
    obtain ⟨t, vs, rfl, ht⟩ := hn.level_head
    refine ⟨m, hm, h.simple hu ⟨t, vs, rfl, ?_⟩⟩
    generalize t.kind = k at ht
    cases k <;> simp [Kind.opensOperand, Kind.opensStatement] at ht ⊢
  | declaration hn hk =>
    obtain ⟨t, ht, hk⟩ := hk
    cases hn with
    | «variable» hkind hi hv hm =>
      obtain ⟨m, hbare, h⟩ := hv.followed
      exact ⟨_, by simp [hbare, keywordKind, hkind], h.declaration (.inl hkind) hi hm⟩
    | constant hkind hi hc hv hm =>
      obtain ⟨m, hbare, h⟩ := hv.followed
      have hinitial : InitialFollowed _ m := .some hc h
      exact ⟨_, by simp [hbare, keywordKind, hkind],
        hinitial.declaration (.inr ⟨hkind, by simp⟩) hi hm⟩
    | function hkind | ifElse hkind | ifElifs hkind | forLoop hkind =>
      obtain rfl := Option.some.inj ht
      simp [hkind] at hk
    | expression hn hu =>
      obtain ⟨u, vs, rfl, hu⟩ := hn.level_head
      obtain rfl := Option.some.inj ht
      obtain hk | hk := hk <;> simp [hk, Kind.opensOperand] at hu

namespace Parser

section Statements

def StatementFollowed (ts : List Token) (n : Node) : Prop :=
  ∀ depth stop rest, ts.length + 1 < depth → stop.kind = .endOfInput → Parted ts stop rest →
    statement depth stop (ts ++ rest) = .ok (n, rest)

def BlockFollowed (ts : List Token) (n : Node) : Prop :=
  ∀ depth enclosure stop rest, ts.length < depth → stop.kind = .endOfInput →
    block enclosure (statement depth) stop (ts ++ rest) = .ok (n, rest)

def Collects (depth : Nat) (stop : Token) (step : List Node → Parser (Option (List Node))) : Prop :=
  ∀ done ahead n mid, (ahead.headD stop).kind ≠ .rbrace → (ahead.headD stop).kind ≠ .endOfInput →
    statement depth stop ahead = .ok (n, mid) → step done stop ahead = .ok (some (n :: done), mid)

/-- Reading the tokens comes to the statements, and from there on to whatever further turns lead
to. -/
def StatementsFollowed (ts : List Token) (ns : List Node) : Prop :=
  ∀ depth stop rest step found last, ts.length + 1 < depth → stop.kind = .endOfInput →
    Collects depth stop step → Parted ts stop rest → Loop step stop ns.reverse rest found last →
    Loop step stop [] (ts ++ rest) found last

def ClausesFollowed (ts : List Token) (cs : List Clause) : Prop :=
  ∀ depth stop rest found last, ts.length < depth → stop.kind = .endOfInput →
    Loop (elifStep (expression depth) (statement depth)) stop cs.reverse rest found last →
    Loop (elifStep (expression depth) (statement depth)) stop [] (ts ++ rest) found last

structure FinalFollowed (ts : List Token) (n : Node) : Prop where
  head : ts = [] ∨ ∃ keyword us, ts = keyword :: us ∧ keyword.kind = .elseWord
  takes : ∀ depth stop rest, ts.length < depth → stop.kind = .endOfInput →
    (rest.headD stop).kind ≠ .elseWord →
    elseClause (statement depth) stop (ts ++ rest) = .ok (n, rest)

theorem SimpleFollowed.statement (h : SimpleFollowed ts n) : StatementFollowed ts n := by
  intro depth stop rest hd hs hp
  cases depth with
  | zero => exact absurd hd (Nat.not_lt_zero _)
  | succ depth =>
    refine (statementWith_eq_ok hs).mpr ?_
    obtain hdeclared | hread := h depth stop rest (by omega) hs hp
    · exact .inl hdeclared
    · exact .inr (.inr (.inr (.inr hread)))

theorem SimpleFollowed.start (h : SimpleFollowed ts n) (hd : ts.length < depth)
    (hs : stop.kind = .endOfInput) (hp : Parted ts stop rest) :
    loopStart (expression depth) stop (ts ++ rest) = .ok (n, rest) := by
  refine (loopStart_eq_ok hs).mpr ?_
  obtain hdeclared | ⟨hk, hread⟩ := h depth stop rest hd hs hp
  · exact .inl hdeclared
  · refine .inr ⟨fun he => ?_, fun he => ?_, hread⟩ <;> rw [he] at hk <;> cases hk

theorem StatementsFollowed.none : StatementsFollowed [] [] :=
  fun _ _ _ _ _ _ _ _ _ _ hl => hl

theorem StatementsFollowed.more {ns : List Node} (h : StatementsFollowed ts ns)
    (hsep : Separate ts us) (hu : Derives (.statement n) us) (hn : StatementFollowed us m) :
    StatementsFollowed (ts ++ us) (ns ++ [m]) := by
  obtain ⟨t, vs, rfl, ht⟩ := hu.statement_head
  have hopen : t.kind.opens = true ∧ t.kind ≠ .rbrace ∧ t.kind ≠ .endOfInput := by
    generalize t.kind = k at ht
    cases k <;> simp [Kind.opens, Kind.opensStatement, Kind.opensOperand] at ht ⊢
  intro depth stop rest step found last hd hs hstep hp hl
  rw [List.length_append] at hd
  rw [List.reverse_append] at hl
  rw [List.append_assoc]
  have hread := hn depth stop rest (by omega) hs hp.suffix
  refine h depth stop _ step found last (by omega) hs hstep
    (.ofSeparate hsep hs ⟨t, vs, rfl, hopen.1⟩) (.turn ?_ hl)
  exact hstep ns.reverse _ m rest hopen.2.1 hopen.2.2 hread

theorem StatementsFollowed.block {ns : List Node} {left right : Token} (hl : left.kind = .lbrace)
    (hr : right.kind = .rbrace) (h : StatementsFollowed ts ns) :
    BlockFollowed (left :: ts ++ [right]) (.build .body ns left) := by
  intro depth enclosure stop rest hd hs
  simp only [List.cons_append, List.length_cons, List.length_append, List.length_nil] at hd
  have hcollects : Collects depth stop (bracedStep enclosure (statement depth)) :=
    fun done ahead n mid hb he hn => bracedStep_eq_some.mpr ⟨hb, he, n, hn, rfl⟩
  have hloop := h depth stop (right :: rest) _ ns.reverse (right :: rest) (by omega) hs hcollects
    (.inr hr) (.done (bracedStep_eq_none.mpr ⟨rfl, hr⟩))
  have hshort : Shortens (bracedStep enclosure (statement depth)) stop :=
    (blockStep_reads (statement_reads (fun _ => True) hs depth)).shortens
  refine (block_eq_ok hs).mpr ⟨left, ts ++ right :: rest, ns, by simp, hl, ?_, rfl⟩
  exact bracedItems_eq_ok.mpr ⟨right :: rest, (foldWhile_eq_ok hshort).mpr hloop, rfl⟩

theorem ClausesFollowed.none : ClausesFollowed [] [] :=
  fun _ _ _ _ _ _ _ hl => hl

theorem ClausesFollowed.more {cs : List Clause} {keyword : Token} {cond body : Node}
    (h : ClausesFollowed ts cs) (hk : keyword.kind = .elifWord) (hc : ConditionFollowed us cond)
    (hb : BlockFollowed vs body) :
    ClausesFollowed (ts ++ keyword :: us ++ vs) (cs ++ [⟨keyword, cond, body⟩]) := by
  intro depth stop rest found last hd hs hl
  simp only [List.length_append, List.length_cons] at hd
  rw [List.reverse_append] at hl
  have hcond := hc depth "lainnyajika" stop (vs ++ rest) (by omega) hs
  have hbody := hb depth .elifBody stop rest (by omega) hs
  rw [List.append_assoc, List.append_assoc]
  refine h depth stop _ found last (by omega) hs (.turn ?_ hl)
  refine elifStep_eq_some.mpr ⟨hk, ⟨keyword, cond, body⟩, ?_, rfl⟩
  exact (elifClause_eq_ok hs).mpr ⟨us ++ (vs ++ rest), vs ++ rest, rfl, hcond, hbody⟩

theorem FinalFollowed.none : FinalFollowed [] .absent where
  head := .inl rfl
  takes := fun _ _ _ _ hs hk => (elseClause_eq_ok hs).mpr (.inr ⟨hk, rfl, rfl⟩)

theorem FinalFollowed.some {keyword : Token} {body : Node} (hk : keyword.kind = .elseWord)
    (hb : BlockFollowed ts body) :
    FinalFollowed (keyword :: ts) (.build .elseClause [body] keyword) where
  head := .inr ⟨keyword, ts, rfl, hk⟩
  takes := by
    intro depth stop rest hd hs _
    rw [List.length_cons] at hd
    have hbody := hb depth .elseBody stop rest (by omega) hs
    exact (elseClause_eq_ok hs).mpr (.inl ⟨keyword, ts ++ rest, body, rfl, hk, hbody, rfl⟩)

theorem BlockFollowed.ifElse {keyword : Token} {cond body final : Node} {cs : List Clause}
    (hb : BlockFollowed us body) (hk : keyword.kind = .ifWord) (hc : ConditionFollowed ts cond)
    (hcs : ClausesFollowed vs cs) (hf : FinalFollowed ws final) :
    StatementFollowed (keyword :: ts ++ us ++ vs ++ ws) (ifNode keyword cond body cs final) := by
  intro depth stop rest hd hs hp
  simp only [List.cons_append, List.length_cons, List.length_append] at hd
  cases depth with
  | zero => exact absurd hd (Nat.not_lt_zero _)
  | succ depth =>
    have hcond := hc depth "jika" stop (us ++ (vs ++ (ws ++ rest))) (by omega) hs
    have hbody := hb depth .ifBody stop (vs ++ (ws ++ rest)) (by omega) hs
    have hfinal := hf.takes depth stop rest (by omega) hs (hp.kind_ne rfl (by decide))
    have hhead : ((ws ++ rest).headD stop).kind ≠ .elifWord := by
      obtain rfl | ⟨keyword, us, rfl, hkeyword⟩ := hf.head
      · exact hp.kind_ne rfl (by decide)
      · simp [hkeyword]
    have hloop := hcs depth stop (ws ++ rest) cs.reverse (ws ++ rest) (by omega) hs
      (.done (elifStep_eq_none.mpr ⟨rfl, hhead⟩))
    have hshort := (elifStep_reads hs (expression_reads hs depth)
      (statement_reads (fun _ => True) hs depth)).shortens
    have hclauses := elifClauses_eq_ok.mpr ((foldWhile_eq_ok hshort).mpr hloop)
    have hread := (ifElse_eq_ok hs).mpr ⟨keyword, _, cond, _, body, _, cs, _, final, rfl, hcond,
      hbody, hclauses, hfinal, rfl⟩
    refine (statementWith_eq_ok hs).mpr (.inr (.inr (.inl ⟨by simp [hk], ?_⟩)))
    simpa using hread

theorem BlockFollowed.function {keyword name left right : Token} {params : List Token} {body : Node}
    (hb : BlockFollowed us body) (hk : keyword.kind = .fnWord) (hi : name.kind = .ident)
    (hl : left.kind = .lparen) (hp : ListFollowed .parameter ts params)
    (hr : right.kind = .rparen) :
    StatementFollowed (keyword :: name :: left :: ts ++ right :: us)
      (.build .function [.ofToken .ident name,
        .build .params (params.map (.ofToken .ident)) left, body] keyword) := by
  intro depth stop rest hd hs _
  simp only [List.cons_append, List.length_cons, List.length_append] at hd
  cases depth with
  | zero => exact absurd hd (Nat.not_lt_zero _)
  | succ depth =>
    have hparams := hp depth .paramsClose stop right (us ++ rest) (by omega) hs hr
    have hbody := hb depth .functionBody stop rest (by omega) hs
    have hread := (function_eq_ok hs).mpr ⟨keyword, name, left, _, params, _, body, rfl, hi, hl,
      hparams, hbody, rfl⟩
    refine (statementWith_eq_ok hs).mpr (.inr (.inl ⟨by simp [hk], ?_⟩))
    simpa using hread

theorem BlockFollowed.forLoop {keyword left semi right : Token} {start cond increment body : Node}
    (hb : BlockFollowed ws body) (hk : keyword.kind = .forWord)
    (hl : left.kind = .lparen) (hst : SimpleFollowed ts start) (hsep : Separate ts us)
    (hu : ∃ t xs, us = t :: xs ∧ t.kind.opens = true) (hc : Followed .assignment us cond)
    (hm : semi.kind = .semicolon) (hi : Followed .assignment vs increment)
    (hr : right.kind = .rparen) :
    StatementFollowed (keyword :: left :: ts ++ us ++ semi :: vs ++ right :: ws)
      (.build .forLoop [start, cond, increment, body] keyword) := by
  intro depth stop rest hd hs _
  simp only [List.cons_append, List.length_cons, List.length_append] at hd
  cases depth with
  | zero => exact absurd hd (Nat.not_lt_zero _)
  | succ depth =>
    have hbody := hb depth .forBody stop rest (by omega) hs
    have hinc := hi.whole (by omega : _ < depth) stop (right :: (ws ++ rest)) hs
      (endsAt_of_kind _ (by simp [hr]))
    have hcond := hc.whole (by omega : _ < depth) stop (semi :: (vs ++ right :: (ws ++ rest))) hs
      (endsAt_of_kind _ (by simp [hm]))
    have hparted : Parted ts stop (us ++ semi :: (vs ++ right :: (ws ++ rest))) :=
      .ofSeparate hsep hs hu
    have hstart := hst.start (by omega : _ < depth) hs hparted
    have hread := (forLoop_eq_ok hs).mpr
      ⟨keyword, left, _, start, _, cond, semi, _, increment, right,
      _, body, rfl, hl, hstart, hcond, hm, hinc, hr, hbody, rfl⟩
    refine (statementWith_eq_ok hs).mpr (.inr (.inr (.inr (.inl ⟨by simp [hk], ?_⟩))))
    simpa using hread

end Statements

end Parser

/-- The tokens of a phrase are read, and its trees are those of the phrase up to their places. -/
def Phrase.Read : Phrase → List Token → Prop
  | statement n, ts => ∃ m, m.bare = n.bare ∧ StatementFollowed ts m
  | statements ns, ts => ∃ ms, ms.map Node.bare = ns.map Node.bare ∧ StatementsFollowed ts ms
  | block n, ts => ∃ m, m.bare = n.bare ∧ BlockFollowed ts m
  | clauses ns, ts => ∃ cs, (cs.map (Clause.node .absent)).map Node.bare = ns.map Node.bare ∧
      ClausesFollowed ts cs
  | final n, ts => ∃ m, m.bare = n.bare ∧ FinalFollowed ts m
  | program n, ts => ∃ ms, n.bare = .tree .program (ms.map Node.bare) none ∧
      StatementsFollowed ts ms
  | φ, ts => φ.Followed ts

theorem Legible.read {φ : Phrase} {ts : List Token} (h : Legible φ ts) : φ.Read ts := by
  induction h with
  | simple hn =>
    obtain ⟨m, hm, h⟩ := hn.followed
    exact ⟨m, hm, h.statement⟩
  | function hk hi hl hp hr _ ihb =>
    obtain ⟨(params : List Token), hps, hparams⟩ := hp.followed
    obtain ⟨m, hm, hb⟩ := ihb
    refine ⟨_, ?_, hb.function hk hi hl hparams hr⟩
    have hbare : (params.map (Node.ofToken .ident)).map Node.bare = _ := List.map_map.trans hps
    simp only [Node.bare_build, Node.bare_tree, Node.bare_leaf, Node.bare_ofToken, List.map_cons,
      List.map_nil, hbare, hm]
  | clausesNone => exact ⟨[], rfl, .none⟩
  | clausesMore _ hk hc _ ihs ihb =>
    obtain ⟨cs, hcs, hs⟩ := ihs
    obtain ⟨c, hcond, hc⟩ := hc.followed
    obtain ⟨m, hm, hb⟩ := ihb
    refine ⟨_, ?_, hs.more hk hc hb⟩
    rw [List.map_append, List.map_append, hcs]
    simp [Clause.node, hcond, hm]
  | finalNone => exact ⟨.absent, rfl, .none⟩
  | finalSome hk _ ihb =>
    obtain ⟨m, hm, hb⟩ := ihb
    exact ⟨_, by simp [hm], .some hk hb⟩
  | @ifElse keyword _ _ _ _ _ _ _ hk hc _ _ ihb ihf =>
    obtain ⟨c, hcond, hc⟩ := hc.followed
    obtain ⟨m, hm, hb⟩ := ihb
    obtain ⟨f, hfinal, hf⟩ := ihf
    refine ⟨ifNode keyword c m [] f, by simp [ifNode, hcond, hm, hfinal], ?_⟩
    simpa using hb.ifElse hk hc .none hf
  | ifElifs hk hc _ _ hl hlc _ _ ihb ihs ihlb ihf =>
    obtain ⟨c, hcond, hc⟩ := hc.followed
    obtain ⟨m, hm, hb⟩ := ihb
    obtain ⟨cs, hcs, hs⟩ := ihs
    obtain ⟨d, hlast, hlc⟩ := hlc.followed
    obtain ⟨k, hk', hlb⟩ := ihlb
    obtain ⟨f, hfinal, hf⟩ := ihf
    have hread := hb.ifElse hk hc (hs.more hl hlc hlb) hf
    obtain ⟨first, -, hnode⟩ := ifNode_snoc _ c m f cs ⟨_, d, k⟩
    refine ⟨_, ?_, by simpa using hread⟩
    rw [hnode]
    simp only [Node.bare_build, Node.bare_tree, List.map_append, List.map_cons, List.map_nil,
      Clause.node, hcs, hcond, hm, hlast, hk', hfinal]
  | forLoop hk hl hst hsep hc hm hi hr _ ihb =>
    obtain ⟨s, hstart, hs⟩ := hst.followed
    obtain ⟨c, hcond, hcf⟩ := hc.followed
    obtain ⟨i, hinc, hif⟩ := hi.followed
    obtain ⟨m, hbody, hb⟩ := ihb
    obtain ⟨t, us, rfl, ht⟩ := hc.level_head
    refine ⟨_, by simp [hstart, hcond, hinc, hbody],
      hb.forLoop hk hl hs hsep ⟨t, us, rfl, ?_⟩ hcf hm hif hr⟩
    obtain ht | ⟨ht, -⟩ := ht
    · simp [Kind.opens, ht]
    · rw [ht]
      rfl
  | statementsNone => exact ⟨[], rfl, .none⟩
  | statementsMore _ hsep hn ihs ihn =>
    obtain ⟨ms, hms, hs⟩ := ihs
    obtain ⟨m, hm, h⟩ := ihn
    exact ⟨ms ++ [m], by simp [hms, hm], hs.more hsep hn.derives h⟩
  | block hl _ hr ihs =>
    obtain ⟨ms, hms, hs⟩ := ihs
    exact ⟨_, by simp [hms], hs.block hl hr⟩
  | program _ ihs =>
    obtain ⟨ms, hms, hs⟩ := ihs
    exact ⟨ms, by simp [hms], hs⟩

namespace Parser

variable {stop : Token} {ts : List Token} {n : Node}

theorem StatementsFollowed.program {ms : List Node} (h : StatementsFollowed ts ms)
    (hs : stop.kind = .endOfInput) {depth : Nat} (hd : ts.length + 1 < depth) :
    program depth stop ts = .ok (.build .program ms (ts.headD stop), []) := by
  have hcollects : Collects depth stop (programStep depth) :=
    fun done ahead n mid _ he hn => programStep_eq_some.mpr ⟨he, n, hn, rfl⟩
  have hparted : Parted ts stop [] := by
    refine .inl ⟨?_, fun hp => ?_⟩ <;> rw [List.headD_nil, hs] at *
    · rfl
    · cases hp
  have hloop := h depth stop [] _ ms.reverse [] hd hs hcollects hparted
    (.done (programStep_eq_none.mpr ⟨rfl, hs⟩))
  rw [List.append_nil] at hloop
  have hshort := (programStep_reads (fun _ => True) hs depth).shortens
  exact program_eq_ok.mpr ⟨_, (foldWhile_eq_ok hshort).mpr hloop, by rw [List.reverse_reverse]⟩

theorem StatementsFollowed.parseTokens {ms : List Node} (h : StatementsFollowed ts ms)
    (hs : stop.kind = .endOfInput) (ht : ∀ t ∈ ts, t.kind ≠ .endOfInput) {depth : Nat}
    (hd : ts.length + 1 < depth) :
    parseTokens depth (ts ++ [stop]) = .ok (.build .program ms (ts.headD stop)) := by
  rw [parseTokens_append_stop depth hs ht, h.program hs hd]
  rfl

theorem parseTokens_of_legible (h : Legible (.program n) ts) (hs : stop.kind = .endOfInput)
    (depth : Nat) :
    (depth ≤ ts.length + 1 ∧ ∃ t, parseTokens depth (ts ++ [stop]) = .error (.tooDeep t)) ∨
      ∃ tree, parseTokens depth (ts ++ [stop]) = .ok tree ∧ tree.bare = n.bare := by
  obtain ⟨ms, hms, hread⟩ := h.read
  have henough : ts.length + 1 < max depth (ts.length + 2) := by omega
  have hparse := hread.parseTokens hs h.derives.kind_ne_endOfInput henough
  by_cases hdeep : ∃ t, parseTokens depth (ts ++ [stop]) = .error (.tooDeep t)
  · refine .inl ⟨Nat.le_of_not_lt fun hlt => ?_, hdeep⟩
    obtain ⟨t, ht⟩ := hdeep
    rw [hread.parseTokens hs h.derives.kind_ne_endOfInput hlt] at ht
    cases ht
  · rw [parseTokens_deeper (Nat.le_max_left ..) (not_exists.mp hdeep)] at hparse
    exact .inr ⟨_, hparse, by rw [Node.bare_build, hms]⟩

/-- A legible program is read with the tree of its derivation, unless the nesting goes beyond a
limit that is not above the number of its tokens. Nothing else is read. -/
theorem parseTokens_legible (hs : stop.kind = .endOfInput) (ht : ∀ t ∈ ts, t.kind ≠ .endOfInput)
    (depth : Nat) :
    (∀ n, Legible (.program n) ts →
      (depth ≤ ts.length + 1 ∧ ∃ t, parseTokens depth (ts ++ [stop]) = .error (.tooDeep t)) ∨
        ∃ tree, parseTokens depth (ts ++ [stop]) = .ok tree ∧ tree.bare = n.bare) ∧
    ∀ tree, parseTokens depth (ts ++ [stop]) = .ok tree → Legible (.program tree) ts := by
  refine ⟨fun n h => parseTokens_of_legible h hs depth, fun tree h => ?_⟩
  have hd := (parseTokens_spells (fun _ => True) h).legible
  rwa [body_append_stop hs ht] at hd

section Words

variable (text : String) (p q r : Position)

theorem derives_word (l : Level) :
    Derives (.level l (.leaf .ident text none)) [⟨.ident, text, p⟩] :=
  (@Derives.literal ⟨.ident, text, p⟩ .ident none rfl).looser (by cases l <;> decide)

theorem derives_group (l : Level) : Derives (.level l (.leaf .ident text none))
    [⟨.lparen, "(", p⟩, ⟨.ident, text, q⟩, ⟨.rparen, ")", r⟩] :=
  (Derives.group rfl (derives_word text q .assignment) rfl).looser (by cases l <;> decide)

end Words

/-- The stream of `untuk (a = \x7b\x7d (b); c) \x7b d (e) f \x7d (g)`. -/
def bracedStream : List Token :=
  [⟨.forWord, "untuk", ⟨1, 1⟩⟩, ⟨.lparen, "(", ⟨1, 7⟩⟩, ⟨.ident, "a", ⟨1, 8⟩⟩,
    ⟨.assign, "=", ⟨1, 10⟩⟩, ⟨.lbrace, "\x7b", ⟨1, 12⟩⟩, ⟨.rbrace, "\x7d", ⟨1, 13⟩⟩,
    ⟨.lparen, "(", ⟨1, 15⟩⟩, ⟨.ident, "b", ⟨1, 16⟩⟩, ⟨.rparen, ")", ⟨1, 17⟩⟩,
    ⟨.semicolon, ";", ⟨1, 18⟩⟩, ⟨.ident, "c", ⟨1, 20⟩⟩, ⟨.rparen, ")", ⟨1, 21⟩⟩,
    ⟨.lbrace, "\x7b", ⟨1, 23⟩⟩, ⟨.ident, "d", ⟨1, 25⟩⟩, ⟨.lparen, "(", ⟨1, 27⟩⟩,
    ⟨.ident, "e", ⟨1, 28⟩⟩, ⟨.rparen, ")", ⟨1, 29⟩⟩, ⟨.ident, "f", ⟨1, 31⟩⟩,
    ⟨.rbrace, "\x7d", ⟨1, 33⟩⟩, ⟨.lparen, "(", ⟨1, 35⟩⟩, ⟨.ident, "g", ⟨1, 36⟩⟩,
    ⟨.rparen, ")", ⟨1, 37⟩⟩]

def bracedProgram : Node :=
  .tree .program
    [.tree .forLoop
      [.tree .assign [.leaf .ident "a" none, .tree .object [] none] none, .leaf .ident "b" none,
        .leaf .ident "c" none,
        .tree .body [.tree .call [.leaf .ident "d" none, .tree .args [.leaf .ident "e" none] none] none,
          .leaf .ident "f" none] none] none,
      .leaf .ident "g" none] none

theorem bracedStream_legible : Legible (.program bracedProgram) bracedStream := by
  have hobject := @Derives.object ⟨.lbrace, "\x7b", ⟨1, 12⟩⟩
    ⟨.rbrace, "\x7d", ⟨1, 13⟩⟩ [] [] none rfl
    .propertiesNone rfl
  have hassign := @Derives.assign _ ⟨.assign, "=", ⟨1, 10⟩⟩ _ _ _ _ none
    (derives_word "a" ⟨1, 8⟩ .object) rfl (hobject.looser (k := .assignment) (Nat.zero_le _))
  have hcall := @Derives.call _ _ ⟨.lparen, "(", ⟨1, 27⟩⟩ ⟨.rparen, ")", ⟨1, 29⟩⟩ _ _ none none
    (derives_word "d" ⟨1, 25⟩ .call) rfl
    (.listSome (.itemsOne (.argument (derives_word "e" ⟨1, 28⟩ .assignment)))) rfl
  have hfirst : Legible (.statement _) _ :=
    .simple (.expression (hcall.looser (k := .assignment) (Nat.zero_le _)) (.inl rfl))
  have hsecond : Legible (.statement _) _ :=
    .simple (.expression (derives_word "f" ⟨1, 31⟩ .assignment) (.inl rfl))
  have hbody := @Legible.block ⟨.lbrace, "\x7b", ⟨1, 23⟩⟩ ⟨.rbrace, "\x7d", ⟨1, 33⟩⟩ _ _ none rfl
    (.statementsMore (.statementsMore .statementsNone (.nil _) hfirst) (.inl (by simp)) hsecond) rfl
  have hloop := @Legible.forLoop ⟨.forWord, "untuk", ⟨1, 1⟩⟩ ⟨.lparen, "(", ⟨1, 7⟩⟩
    ⟨.semicolon, ";", ⟨1, 18⟩⟩ ⟨.rparen, ")", ⟨1, 21⟩⟩ _ _ _ _ _ _ _ _ none rfl rfl
    (.expression hassign (.inl rfl)) (.of_finished ⟨_, rfl, .inr rfl⟩ _)
    (derives_group "b" ⟨1, 15⟩ ⟨1, 16⟩ ⟨1, 17⟩ .assignment) rfl
    (derives_word "c" ⟨1, 20⟩ .assignment) rfl hbody
  have hlast : Legible (.statement _) _ :=
    .simple (.expression (derives_group "g" ⟨1, 35⟩ ⟨1, 36⟩ ⟨1, 37⟩ .assignment) (.inl rfl))
  exact .program (.statementsMore (.statementsMore .statementsNone (.nil _) hloop)
    (.of_finished ⟨_, rfl, .inr rfl⟩ _) hlast)

theorem parseTokens_legible_braced :
    (∀ t ∈ bracedStream, t.kind ≠ .endOfInput) ∧
      ∃ tree, parseTokens nestingLimit (bracedStream ++ [.endMark .start]) = .ok tree ∧
        tree.bare = bracedProgram := by
  -- a loop whose start ends with a brace before a parenthesis
  have hkinds : ∀ t ∈ bracedStream, t.kind ≠ .endOfInput := by decide
  have hstop : (Token.endMark .start).kind = .endOfInput := rfl
  refine ⟨hkinds, ?_⟩
  obtain ⟨hdepth, -⟩ | hread :=
    (parseTokens_legible hstop hkinds nestingLimit).1 bracedProgram bracedStream_legible
  · exact absurd hdepth (by decide)
  · exact hread

theorem parseTokens_ne_ok (depth : Nat) {tokens : List Token} {complaint : Complaint} {t : Token}
    (h : parseTokens depth tokens = .error (.rejected complaint t)) (limit : Nat) (tree : Node) :
    parseTokens limit tokens ≠ .ok tree := by
  intro hok
  have hlimit := parseTokens_deeper (Nat.le_max_left limit depth) (by rw [hok]; simp)
  have hdepth := parseTokens_deeper (Nat.le_max_right limit depth) (by rw [h]; simp)
  rw [hlimit, hok, h] at hdepth
  cases hdepth

section Rejected

variable (text : String) (p q : Position)

theorem derives_word_statement :
    Derives (.statement (.leaf .ident text none)) [⟨.ident, text, p⟩] :=
  .expression (derives_word text p .assignment) (.inl rfl)

theorem derives_hollow :
    Derives (.block (.tree .body [] none)) [⟨.lbrace, "\x7b", p⟩, ⟨.rbrace, "\x7d", q⟩] :=
  .block rfl .statementsNone rfl

theorem derives_single {n : Node} {ts : List Token} (h : Derives (.statement n) ts) :
    ∃ tree, Derives (.program tree) ts :=
  ⟨.tree .program [n] none, .program (.statementsMore .statementsNone h)⟩

/-- The stream of `a (b).c`. -/
def calledStatement : List Token :=
  [⟨.ident, "a", ⟨1, 1⟩⟩, ⟨.lparen, "(", ⟨1, 3⟩⟩, ⟨.ident, "b", ⟨1, 4⟩⟩, ⟨.rparen, ")", ⟨1, 5⟩⟩,
    ⟨.dot, ".", ⟨1, 6⟩⟩, ⟨.ident, "c", ⟨1, 7⟩⟩]

theorem calledStatement_derived : ∃ n, Derives (.program n) calledStatement := by
  have hmember := @Derives.member _ ⟨.dot, ".", ⟨1, 6⟩⟩ ⟨.ident, "c", ⟨1, 7⟩⟩ _ none none
    (derives_group "b" ⟨1, 3⟩ ⟨1, 4⟩ ⟨1, 5⟩ .member) rfl rfl
  have hsecond := Derives.expression (hmember.looser (k := .assignment) (Nat.zero_le _)) (.inl rfl)
  exact ⟨.tree .program _ none, .program (.statementsMore
    (.statementsMore .statementsNone (derives_word_statement "a" ⟨1, 1⟩)) hsecond)⟩

/-- The stream of `untuk (a (b); c) { }`. -/
def calledStart : List Token :=
  [⟨.forWord, "untuk", ⟨1, 1⟩⟩, ⟨.lparen, "(", ⟨1, 7⟩⟩, ⟨.ident, "a", ⟨1, 8⟩⟩,
    ⟨.lparen, "(", ⟨1, 10⟩⟩,
    ⟨.ident, "b", ⟨1, 11⟩⟩, ⟨.rparen, ")", ⟨1, 12⟩⟩, ⟨.semicolon, ";", ⟨1, 13⟩⟩,
    ⟨.ident, "c", ⟨1, 15⟩⟩, ⟨.rparen, ")", ⟨1, 16⟩⟩, ⟨.lbrace, "\x7b", ⟨1, 18⟩⟩,
    ⟨.rbrace, "\x7d", ⟨1, 20⟩⟩]

theorem calledStart_derived : ∃ n, Derives (.program n) calledStart :=
  derives_single (.forLoop (p := none) rfl rfl (derives_word_statement "a" ⟨1, 8⟩)
    (derives_group "b" ⟨1, 10⟩ ⟨1, 11⟩ ⟨1, 12⟩ .assignment) rfl (derives_word_statement "c" ⟨1, 15⟩)
    rfl (derives_hollow ⟨1, 18⟩ ⟨1, 20⟩))

/-- The stream of `untuk (jika (a) { } b; c) { }`. -/
def keywordStart : List Token :=
  [⟨.forWord, "untuk", ⟨1, 1⟩⟩, ⟨.lparen, "(", ⟨1, 7⟩⟩, ⟨.ifWord, "jika", ⟨1, 8⟩⟩,
    ⟨.lparen, "(", ⟨1, 13⟩⟩, ⟨.ident, "a", ⟨1, 14⟩⟩, ⟨.rparen, ")", ⟨1, 15⟩⟩,
    ⟨.lbrace, "\x7b", ⟨1, 17⟩⟩, ⟨.rbrace, "\x7d", ⟨1, 19⟩⟩, ⟨.ident, "b", ⟨1, 21⟩⟩,
    ⟨.semicolon, ";", ⟨1, 22⟩⟩, ⟨.ident, "c", ⟨1, 24⟩⟩, ⟨.rparen, ")", ⟨1, 25⟩⟩,
    ⟨.lbrace, "\x7b", ⟨1, 27⟩⟩, ⟨.rbrace, "\x7d", ⟨1, 29⟩⟩]

theorem keywordStart_derived : ∃ n, Derives (.program n) keywordStart := by
  have hcond : Derives (.condition (.leaf .ident "a" none))
      [⟨.lparen, "(", ⟨1, 13⟩⟩, ⟨.ident, "a", ⟨1, 14⟩⟩, ⟨.rparen, ")", ⟨1, 15⟩⟩] :=
    .condition rfl (derives_word ..) rfl
  have hif : Derives (.statement
    (.tree .ifElse [.leaf .ident "a" none, .tree .body [] none, .absent,
      .absent] none)) ([⟨.ifWord, "jika", ⟨1, 8⟩⟩, ⟨.lparen, "(", ⟨1, 13⟩⟩, ⟨.ident, "a", ⟨1, 14⟩⟩,
        ⟨.rparen, ")", ⟨1, 15⟩⟩] ++ [⟨.lbrace, "\x7b", ⟨1, 17⟩⟩,
          ⟨.rbrace, "\x7d", ⟨1, 19⟩⟩] ++ []) :=
    .ifElse rfl hcond (derives_hollow ..) .finalNone
  exact derives_single (.forLoop (p := none) rfl rfl hif (derives_word "b" ⟨1, 21⟩ .assignment) rfl
    (derives_word_statement "c" ⟨1, 24⟩) rfl (derives_hollow ⟨1, 27⟩ ⟨1, 29⟩))

/-- The stream of `untuk (a; b; c;) { }`. -/
def closedIncrement : List Token :=
  [⟨.forWord, "untuk", ⟨1, 1⟩⟩, ⟨.lparen, "(", ⟨1, 7⟩⟩, ⟨.ident, "a", ⟨1, 8⟩⟩,
    ⟨.semicolon, ";", ⟨1, 9⟩⟩, ⟨.ident, "b", ⟨1, 11⟩⟩, ⟨.semicolon, ";", ⟨1, 12⟩⟩,
    ⟨.ident, "c", ⟨1, 14⟩⟩, ⟨.semicolon, ";", ⟨1, 15⟩⟩, ⟨.rparen, ")", ⟨1, 16⟩⟩,
    ⟨.lbrace, "\x7b", ⟨1, 18⟩⟩, ⟨.rbrace, "\x7d", ⟨1, 20⟩⟩]

theorem closedIncrement_derived : ∃ n, Derives (.program n) closedIncrement := by
  have hclosed (text : String) (p q : Position) : Derives (.statement (.leaf .ident text none))
      [⟨.ident, text, p⟩, ⟨.semicolon, ";", q⟩] :=
    .expression (derives_word text p .assignment) (.inr ⟨_, rfl, rfl⟩)
  exact derives_single (.forLoop (p := none) rfl rfl (hclosed "a" ⟨1, 8⟩ ⟨1, 9⟩)
    (derives_word "b" ⟨1, 11⟩ .assignment) rfl (hclosed "c" ⟨1, 14⟩ ⟨1, 15⟩) rfl
    (derives_hollow ⟨1, 18⟩ ⟨1, 20⟩))

/-- The grammar derives the stream, but no limit on the nesting lets it be read. -/
def Missed (ts : List Token) : Prop :=
  (∃ n, Derives (.program n) ts) ∧
    ∀ depth tree, parseTokens depth (ts ++ [.endMark .start]) ≠ .ok tree

/-- Programs of the grammar that are not read: a parenthesis behind an operand makes a call, and the
head of a loop takes no other statements and no third semicolon. -/
theorem parseTokens_incomplete :
    Missed calledStatement ∧ Missed calledStart ∧ Missed keywordStart ∧ Missed closedIncrement :=
  ⟨⟨calledStatement_derived, parseTokens_ne_ok 20 rfl⟩,
    ⟨calledStart_derived, parseTokens_ne_ok 20 rfl⟩,
    ⟨keywordStart_derived, parseTokens_ne_ok 20 rfl⟩,
    ⟨closedIncrement_derived, parseTokens_ne_ok 20 rfl⟩⟩

end Rejected

end Parser

end Bahasa
