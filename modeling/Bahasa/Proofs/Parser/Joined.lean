import Bahasa.Proofs.Legible
import Bahasa.Proofs.Parser.Moving
import Bahasa.Proofs.Parser.Seam

namespace Bahasa.Parser

variable {stop stop' : Token} {us : List Token} {e s : Parser Node}

section Statements

def Stating (s : Parser Node) : Prop :=
  ∀ stop : Token, stop.kind = .endOfInput → ReadsStatement (fun _ => True) stop s

theorem stating_statement (depth : Nat) : Stating (Parser.statement depth) :=
  fun _ hs => statement_reads (fun _ => True) hs depth

section Ends

variable (hs : stop.kind = .endOfInput) (hs' : stop'.kind = .endOfInput)

include hs hs'

theorem declaration_extends (he : Extends stop stop' us e) :
    Extends stop stop' us (declaration e) := by
  intro ahead n rest hseam h
  obtain ⟨keyword, name, mid, value, semi, rfl, hi, hv, hsemi, rfl⟩ := (declaration_eq_ok hs).mp h
  have hmid := hseam.tail.tail
  refine (declaration_eq_ok hs').mpr
    ⟨keyword, name, mid ++ us, value, semi, rfl, hi, ?_, hsemi, rfl⟩
  obtain ⟨colon, more, rfl, hc, hv⟩ | ⟨hc, hk, rfl, rfl⟩ := hv
  · exact .inl ⟨colon, more ++ us, rfl, hc, he more value _ hmid.tail hv⟩
  · exact .inr ⟨hmid.kind_ne (by decide) hc, hk, rfl, rfl⟩

theorem block_extends {enclosure : Enclosure} (hr : Stating s) (hx : Extends stop stop' us s) :
    Extends stop stop' us (block enclosure s) := by
  intro ahead n rest hseam h
  obtain ⟨brace, mid, items, rfl, hb, hi, rfl⟩ := (block_eq_ok hs).mp h
  have hitems : Extends stop stop' us (bracedItems enclosure s) :=
    bracedItems_extends hs (blockStep_reads (hr stop hs)) (blockStep_reads (hr stop' hs')) .nil hx
  exact (block_eq_ok hs').mpr
    ⟨brace, mid ++ us, items, rfl, hb, hitems mid items rest hseam.tail hi, rfl⟩

theorem parameter_extends : Extends stop stop' us (expect .ident .paramName) := by
  intro ahead t rest _ h
  obtain ⟨rfl, ht⟩ := (expect_eq_ok hs (by decide : Kind.ident ≠ _)).mp h
  exact (expect_eq_ok hs' (by decide : Kind.ident ≠ _)).mpr ⟨rfl, ht⟩

theorem function_extends (hr : Stating s) (hx : Extends stop stop' us s) :
    Extends stop stop' us (function s) := by
  intro ahead n rest hseam h
  obtain ⟨keyword, name, paren, mid, params, more, body, rfl, hi, hl, hp, hb, rfl⟩ :=
    (function_eq_ok hs).mp h
  have hmid := hseam.tail.tail.tail
  have hp' := commaListUntil_extends hs hs' (by decide) (parameter_reads hs) (parameter_reads hs')
    (parameter_extends hs hs') mid params more hmid hp
  obtain ⟨used, rfl, -⟩ := commaListUntil_reads hs (by decide) (parameter_reads hs) _ _ _ hp
  have hb' := block_extends hs hs' hr hx more body rest hmid.suffix hb
  exact (function_eq_ok hs').mpr
    ⟨keyword, name, paren, used ++ more ++ us, params, more ++ us, body, rfl, hi, hl, hp', hb', rfl⟩

theorem condition_extends (keyword : String) (he : Extends stop stop' us e) :
    Extends stop stop' us (condition keyword e) := by
  intro ahead n rest hseam h
  obtain ⟨left, mid, right, rfl, hl, hn, hr⟩ := (condition_eq_ok hs).mp h
  exact (condition_eq_ok hs').mpr ⟨left, mid ++ us, right, rfl, hl, he mid n _ hseam.tail hn, hr⟩

theorem elifClause_extends (hre : Expressive e) (he : Extends stop stop' us e) (hr : Stating s)
    (hx : Extends stop stop' us s) : Extends stop stop' us (elifClause e s) := by
  intro ahead clause rest hseam h
  obtain ⟨mid, more, rfl, hc, hb⟩ := (elifClause_eq_ok hs).mp h
  have hc' := condition_extends hs hs' "lainnyajika" he mid _ more hseam.tail hc
  obtain ⟨used, rfl, -⟩ := condition_reads hs (hre stop hs) "lainnyajika" mid _ more hc
  have hb' := block_extends hs hs' hr hx more _ rest hseam.tail.suffix hb
  exact (elifClause_eq_ok hs').mpr ⟨used ++ more ++ us, more ++ us, rfl, hc', hb'⟩

theorem elifClauses_extends (hre : Expressive e) (he : Extends stop stop' us e) (hr : Stating s)
    (hx : Extends stop stop' us s) : Extends stop stop' us (elifClauses e s) := by
  intro ahead clauses rest hseam h
  rw [elifClauses_eq_ok] at h ⊢
  have hreads := elifStep_reads hs (hre stop hs) (hr stop hs)
  obtain ⟨used, rfl, -, hnone⟩ := hreads.foldWhile h .nil
  have hhead := (elifStep_eq_none.mp hnone).2
  refine foldWhile_extend hreads (elifStep_reads hs' (hre stop' hs') (hr stop' hs')) ?_ hseam h
    (elifStep_eq_none.mpr ⟨rfl, hseam.suffix.kind_ne (by decide) hhead⟩)
  intro cs ahead more rest hseam h
  obtain ⟨hk, clause, hc, rfl⟩ := elifStep_eq_some.mp h
  obtain ⟨t, ts, rfl, ht⟩ := (headD_kind hs (by decide : Kind.elifWord ≠ _)).mp hk
  have hc' := elifClause_extends hs hs' hre he hr hx (t :: ts) clause rest hseam hc
  exact elifStep_eq_some.mpr ⟨ht, clause, hc', rfl⟩

theorem elseClause_extends (hr : Stating s) (hx : Extends stop stop' us s) :
    Extends stop stop' us (elseClause s) := by
  intro ahead n rest hseam h
  apply (elseClause_eq_ok hs').mpr
  obtain ⟨keyword, mid, body, rfl, hk, hb, rfl⟩ | ⟨hk, rfl, rfl⟩ := (elseClause_eq_ok hs).mp h
  · exact .inl ⟨keyword, mid ++ us, body, rfl, hk,
      block_extends hs hs' hr hx mid body rest hseam.tail hb, rfl⟩
  · exact .inr ⟨hseam.kind_ne (by decide) hk, rfl, rfl⟩

theorem ifElse_extends (hre : Expressive e) (he : Extends stop stop' us e) (hr : Stating s)
    (hx : Extends stop stop' us s) : Extends stop stop' us (ifElse e s) := by
  intro ahead n rest hseam h
  obtain ⟨keyword, mid, cond, afterCond, body, afterBody, clauses, afterClauses, otherwise, rfl, hc,
    hb, hcs, ho, rfl⟩ := (ifElse_eq_ok hs).mp h
  have hmid := hseam.tail
  have hc' := condition_extends hs hs' "jika" he mid cond afterCond hmid hc
  obtain ⟨ts, rfl, -⟩ := condition_reads hs (hre stop hs) "jika" mid cond afterCond hc
  have hb' := block_extends hs hs' hr hx afterCond body afterBody hmid.suffix hb
  obtain ⟨ws, rfl, -⟩ := block_reads hs (hr stop hs) afterCond body afterBody hb
  have hcs' := elifClauses_extends hs hs' hre he hr hx afterBody clauses afterClauses
    hmid.suffix.suffix hcs
  obtain ⟨xs, rfl, -⟩ :=
    (elifStep_reads hs (hre stop hs) (hr stop hs)).foldWhile (elifClauses_eq_ok.mp hcs) .nil
  have ho' := elseClause_extends hs hs' hr hx afterClauses otherwise rest
    hmid.suffix.suffix.suffix ho
  exact (ifElse_eq_ok hs').mpr
    ⟨keyword, _, cond, _, body, _, clauses, _, otherwise, rfl, hc', hb', hcs', ho', rfl⟩

theorem loopStart_extends (hre : Expressive e) (he : Extends stop stop' us e) :
    Extends stop stop' us (loopStart e) := by
  intro ahead n rest hseam h
  obtain ⟨t, ts, rfl⟩ : ∃ t ts, ahead = t :: ts := by
    obtain ⟨used, rfl, hd, -⟩ := loopStart_reads (fun _ => True) hs (hre stop hs) ahead n rest h
    obtain ⟨t, ts, rfl, -⟩ := hd.derives.statement_head
    exact ⟨t, ts ++ rest, rfl⟩
  apply (loopStart_eq_ok hs').mpr
  obtain ⟨hk, hd⟩ | ⟨hk, hk', mid, hn, hsemi⟩ := (loopStart_eq_ok hs).mp h
  · exact .inl ⟨hk, declaration_extends hs hs' he (t :: ts) n rest hseam hd⟩
  · have hn' := he (t :: ts) n mid hseam hn
    obtain ⟨used, hu, -⟩ := hre stop hs (t :: ts) n mid hn
    rw [hu] at hseam
    exact .inr ⟨hk, hk', mid ++ us, hn', hseam.suffix.skips (by decide) hsemi⟩

theorem forLoop_extends (hre : Expressive e) (he : Extends stop stop' us e) (hr : Stating s)
    (hx : Extends stop stop' us s) : Extends stop stop' us (forLoop e s) := by
  intro ahead n rest hseam h
  obtain ⟨keyword, left, mid, start, afterStart, cond, semi, afterCond, increment, right, afterHead,
    body, rfl, hl, hst, hc, hsemi, hi, hright, hb, rfl⟩ := (forLoop_eq_ok hs).mp h
  have hmid := hseam.tail.tail
  have hst' := loopStart_extends hs hs' hre he mid start afterStart hmid hst
  obtain ⟨ts, rfl, -⟩ := loopStart_reads (fun _ => True) hs (hre stop hs) mid start afterStart hst
  have hc' := he afterStart cond _ hmid.suffix hc
  obtain ⟨ws, rfl, -⟩ := hre stop hs afterStart cond _ hc
  have hi' := he afterCond increment _ hmid.suffix.suffix.tail hi
  obtain ⟨xs, rfl, -⟩ := hre stop hs afterCond increment _ hi
  have hb' := block_extends hs hs' hr hx afterHead body rest hmid.suffix.suffix.tail.suffix.tail hb
  exact (forLoop_eq_ok hs').mpr
    ⟨keyword, left, _, start, _, cond, semi, _, increment, right, _, body,
    rfl, hl, hst', hc', hsemi, hi', hright, hb', rfl⟩

theorem statementWith_extends (hre : Expressive e) (he : Extends stop stop' us e) (hr : Stating s)
    (hx : Extends stop stop' us s) : Extends stop stop' us (statementWith e s) := by
  intro ahead n rest hseam h
  obtain ⟨t, ts, rfl⟩ : ∃ t ts, ahead = t :: ts := by
    cases ahead with
    | cons t ts => exact ⟨t, ts, rfl⟩
    | nil =>
      -- only an expression could start at the end mark
      simp only [statementWith_eq_ok hs, List.headD_nil, hs, reduceCtorEq, or_self, false_and,
        false_or] at h
      obtain ⟨-, mid, hn, -⟩ := h
      obtain ⟨used, hu, hd⟩ := hre stop hs [] n mid hn
      exact absurd (List.append_eq_nil_iff.mp hu.symm).1 hd.level_ne_nil
  apply (statementWith_eq_ok hs').mpr
  obtain ⟨hk, h⟩ | ⟨hk, h⟩ | ⟨hk, h⟩ | ⟨hk, h⟩ | ⟨hk, mid, hn, hsemi⟩ :=
    (statementWith_eq_ok hs).mp h
  · exact .inl ⟨hk, declaration_extends hs hs' he (t :: ts) n rest hseam h⟩
  · exact .inr (.inl ⟨hk, function_extends hs hs' hr hx (t :: ts) n rest hseam h⟩)
  · have hif := ifElse_extends hs hs' hre he hr hx (t :: ts) n rest hseam h
    exact .inr (.inr (.inl ⟨hk, hif⟩))
  · have hfor := forLoop_extends hs hs' hre he hr hx (t :: ts) n rest hseam h
    exact .inr (.inr (.inr (.inl ⟨hk, hfor⟩)))
  · have hn' := he (t :: ts) n mid hseam hn
    obtain ⟨used, hu, -⟩ := hre stop hs (t :: ts) n mid hn
    rw [hu] at hseam
    exact .inr (.inr (.inr (.inr ⟨hk, mid ++ us, hn', hseam.suffix.skips (by decide) hsemi⟩)))

theorem statement_extends (depth : Nat) : Extends stop stop' us (Parser.statement depth) := by
  induction depth with
  | zero => exact fun _ _ _ _ h => (tooDeep_eq_ok.mp h).elim
  | succ depth ih =>
    exact statementWith_extends hs hs' (expressive_expression depth)
      (expression_extends hs hs' depth) (stating_statement depth) ih

end Ends

end Statements

section Programs

variable {depth : Nat} {ts : List Token}

theorem Loop.onto {stop : Token} {a b : List Node} {ahead rest : List Token}
    (h : Loop (programStep depth) stop a ahead b rest) (before : List Node) :
    Loop (programStep depth) stop (a ++ before) ahead (b ++ before) rest := by
  induction h with
  | done h => exact .done (programStep_eq_none.mpr (programStep_eq_none.mp h))
  | turn h _ ih =>
    obtain ⟨hk, n, hn, rfl⟩ := programStep_eq_some.mp h
    exact .turn (programStep_eq_some.mpr ⟨hk, n, hn, rfl⟩) ih

theorem programStep_extends (hs : stop.kind = .endOfInput) (hs' : stop'.kind = .endOfInput) :
    TurnExtends stop stop' us (programStep depth) := by
  intro statements ahead more rest hseam h
  obtain ⟨hk, n, hn, rfl⟩ := programStep_eq_some.mp h
  have hn' := statement_extends hs hs' depth ahead n rest hseam hn
  cases ahead with
  | nil => exact absurd hs hk
  | cons t ahead => exact programStep_eq_some.mpr ⟨hk, n, hn', rfl⟩

/-- A stream without end marks is a program if it is read to its end by a loop over statements. -/
theorem parseTokens_loop (hs : stop.kind = .endOfInput) (ht : ∀ t ∈ ts, t.kind ≠ .endOfInput)
    {n : Node} : parseTokens depth (ts ++ [stop]) = .ok n ↔
      ∃ ns, Loop (programStep depth) stop [] ts ns [] ∧
        n = .build .program ns.reverse (ts.headD stop) := by
  have hreads := programStep_reads (fun _ => True) hs depth
  have hmap : parseTokens depth (ts ++ [stop]) = .ok n ↔
      ∃ rest, program depth stop ts = .ok (n, rest) := by
    rw [parseTokens_append_stop depth hs ht]
    cases program depth stop ts with
    | error e => simp [Except.map]
    | ok x => simp [Except.map, Prod.ext_iff]
  rw [hmap]
  constructor
  · rintro ⟨rest, h⟩
    obtain ⟨ns, hf, rfl⟩ := program_eq_ok.mp h
    obtain ⟨used, rfl, -, hnone⟩ := hreads.foldWhile hf (.nil ts)
    have hend := (programStep_eq_none.mp hnone).2
    cases rest with
    | nil => exact ⟨ns, (foldWhile_eq_ok hreads.shortens).mp hf, rfl⟩
    | cons t rest => exact absurd hend (ht t (by simp))
  · rintro ⟨ns, hl, rfl⟩
    exact ⟨[], program_eq_ok.mpr ⟨ns, (foldWhile_eq_ok hreads.shortens).mpr hl, rfl⟩⟩

theorem parseTokens_tree {tokens : List Token} {n : Node} (h : parseTokens depth tokens = .ok n) :
    n = .tree .program n.children n.place? := by
  obtain ⟨stop, rest, -, hp⟩ := parseTokens_eq_ok h
  obtain ⟨ns, -, rfl⟩ := program_eq_ok.mp hp
  rfl

theorem parseTokens_opens (hs : stop.kind = .endOfInput) (ht : ∀ t ∈ ts, t.kind ≠ .endOfInput)
    {n : Node} (h : parseTokens depth (ts ++ [stop]) = .ok n) :
    (ts.headD stop).kind.opens = true := by
  have hd := (parseTokens_spells (fun _ => True) h).derived
  rw [body_append_stop hs ht] at hd
  cases hd with
  | program hd =>
    obtain rfl | ⟨t, us, rfl, ho | ho | ho⟩ := hd.statements_head
    · rw [List.headD_nil, hs]
      rfl
    all_goals
      rw [List.headD_cons]
      simp [Kind.opens, ho]

theorem Separate.seam (h : Separate ts us) (hs : stop.kind = .endOfInput)
    (ho : (us.headD stop).kind.opens = true) : Seam ts stop us := by
  refine ⟨ho, fun hk t ht => ?_⟩
  obtain hne | rfl | ⟨last, hlast, hclose⟩ := h
  · obtain ⟨u, rest, rfl, hu⟩ := (headD_kind hs (by decide : Kind.lparen ≠ _)).mp hk
    exact absurd hu (hne u rfl)
  · cases ht
  · obtain rfl : last = t := Option.mem_unique hlast ht
    obtain hclose | hclose := hclose
    · rw [hclose]
      rfl
    · rw [hclose]
      rfl

theorem parseTokens_append (hs : stop.kind = .endOfInput) (hs' : stop'.kind = .endOfInput)
    (ht : ∀ t ∈ ts, t.kind ≠ .endOfInput) (hu : ∀ t ∈ us, t.kind ≠ .endOfInput)
    (hsep : Separate ts us) {n₁ n₂ : Node} (h₁ : parseTokens depth (ts ++ [stop]) = .ok n₁)
    (h₂ : parseTokens depth (us ++ [stop']) = .ok n₂) :
    parseTokens depth (ts ++ us ++ [stop']) =
      .ok (.build .program (n₁.children ++ n₂.children) ((ts ++ us).headD stop')) := by
  have hseam := hsep.seam hs' (parseTokens_opens hs' hu h₂)
  obtain ⟨ns₁, hl₁, rfl⟩ := (parseTokens_loop hs ht).mp h₁
  obtain ⟨ns₂, hl₂, rfl⟩ := (parseTokens_loop hs' hu).mp h₂
  have htu : ∀ t ∈ ts ++ us, t.kind ≠ .endOfInput := by
    intro t h
    obtain h | h := List.mem_append.mp h
    · exact ht t h
    · exact hu t h
  refine (parseTokens_loop hs' htu).mpr ⟨ns₂ ++ ns₁, ?_, ?_⟩
  · exact hl₁.extend (programStep_reads (fun _ => True) hs depth) (programStep_extends hs hs') hseam
      (hl₂.onto ns₁)
  · rw [List.reverse_append]
    rfl

theorem Separate.move (h : Separate ts us) (m : Motion) :
    Separate ts (us.map (Token.move m)) := by
  refine h.imp_left fun hne t ht => ?_
  rw [List.head?_map] at ht
  obtain ⟨u, hu, rfl⟩ := Option.map_eq_some_iff.mp ht
  exact hne u hu

theorem ne_nil_of_children (hs : stop.kind = .endOfInput) {n : Node}
    (h : parseTokens depth (ts ++ [stop]) = .ok n) (hne : n.children ≠ []) : ts ≠ [] := by
  rintro rfl
  obtain ⟨ns, hl, rfl⟩ := (parseTokens_loop hs (by simp)).mp h
  cases hl with
  | done _ => exact hne rfl
  | turn h _ => exact (programStep_eq_some.mp h).1 hs

theorem parseTokens_append_move (m : Motion) (hs : stop.kind = .endOfInput)
    (hs' : stop'.kind = .endOfInput) (ht : ∀ t ∈ ts, t.kind ≠ .endOfInput)
    (hu : ∀ t ∈ us, t.kind ≠ .endOfInput) (hsep : Separate ts us) {n₁ n₂ : Node}
    (h₁ : parseTokens depth (ts ++ [stop]) = .ok n₁)
    (h₂ : parseTokens depth (us ++ [stop']) = .ok n₂) :
    ∃ place, (n₁.children ≠ [] → place = n₁.place?) ∧
      parseTokens depth (ts ++ (us ++ [stop']).map (Token.move m)) =
        .ok (.tree .program (n₁.children ++ n₂.children.map (Node.move m)) place) := by
  have hmoved : parseTokens depth (us.map (Token.move m) ++ [stop'.move m]) = .ok (n₂.move m) := by
    obtain ⟨hlt, -⟩ | h := parseTokens_move m (Nat.le_refl depth) (us ++ [stop'])
    · exact absurd hlt (Nat.lt_irrefl depth)
    · rw [h₂, List.map_append] at h
      exact h
  have hu' : ∀ t ∈ us.map (Token.move m), t.kind ≠ .endOfInput := by
    intro t h
    obtain ⟨u, hmem, rfl⟩ := List.mem_map.mp h
    exact hu u hmem
  have hs'' : (stop'.move m).kind = .endOfInput := hs'
  have hjoined := parseTokens_append hs hs'' ht hu' (hsep.move m) h₁ hmoved
  have hchildren : (n₂.move m).children = n₂.children.map (Node.move m) := by
    cases n₂ <;> simp [Node.move, Node.children]
  rw [List.append_assoc, hchildren] at hjoined
  rw [List.map_append]
  refine ⟨_, fun hne => ?_, hjoined⟩
  have hts := ne_nil_of_children hs h₁ hne
  obtain ⟨ns, -, rfl⟩ := (parseTokens_loop hs ht).mp h₁
  cases ts with
  | nil => exact absurd rfl hts
  | cons t ts => rfl

end Programs

end Bahasa.Parser
