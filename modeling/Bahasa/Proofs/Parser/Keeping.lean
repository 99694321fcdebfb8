import Bahasa.Proofs.Node.Preorder
import Bahasa.Proofs.Parser.Earliest

namespace Bahasa

/-- The trees have a leaf for each token that leaves are made of, in the same order, and their nodes
stand where tokens do. -/
structure Keeps (ns : List Node) (ts : List Token) : Prop where
  operands : (ns.flatMap Node.preorder).filter Node.isOperand = ts.filterMap Token.operand?
  keywords : (ns.flatMap Node.preorder).filter Node.isKeyword = ts.filterMap Token.keyword?
  placed : ∀ n ∈ ns.flatMap Node.preorder, n ≠ .absent →
    ∃ t ∈ ts, n.place? = some t.position.place

namespace Keeps

variable {ns ms : List Node} {ts us : List Token} {t : Token} {kind : Kind}

theorem nil : Keeps [] [] :=
  ⟨rfl, rfl, nofun⟩

theorem append (h : Keeps ns ts) (h' : Keeps ms us) : Keeps (ns ++ ms) (ts ++ us) := by
  refine ⟨?_, ?_, fun n hn hp => ?_⟩
  · rw [List.flatMap_append, List.filter_append, List.filterMap_append, h.operands, h'.operands]
  · rw [List.flatMap_append, List.filter_append, List.filterMap_append, h.keywords, h'.keywords]
  · rw [List.flatMap_append] at hn
    obtain hn | hn := List.mem_append.mp hn
    · obtain ⟨t, ht, hplace⟩ := h.placed n hn hp
      exact ⟨t, List.mem_append_left us ht, hplace⟩
    · obtain ⟨t, ht, hplace⟩ := h'.placed n hn hp
      exact ⟨t, List.mem_append_right ts ht, hplace⟩

theorem passing (ht : t.kind = kind) (hk : kind.Passing) : Keeps [] [t] := by
  subst ht
  obtain ⟨ho, hk⟩ := hk
  refine ⟨?_, ?_, nofun⟩
  · simp [Token.operand?, ho]
  · simp [Token.keyword?, hk]

theorem after (h : Keeps ns ts) (ht : t.kind = kind) (hk : kind.Passing) : Keeps ns (t :: ts) :=
  (passing ht hk).append h

theorem before (h : Keeps ns ts) (ht : t.kind = kind) (hk : kind.Passing) :
    Keeps ns (ts ++ [t]) := by
  have happend := h.append (passing ht hk)
  rwa [List.append_nil] at happend

theorem between {left right : Token} {opening closing : Kind} (h : Keeps ns ts)
    (hl : left.kind = opening) (ho : opening.Passing) (hr : right.kind = closing)
    (hc : closing.Passing) : Keeps ns (left :: (ts ++ [right])) :=
  (h.before hr hc).after hl ho

theorem absent : Keeps [.absent] [] := by
  refine ⟨?_, ?_, fun n hn hp => ?_⟩
  · simp [Node.isOperand]
  · simp [Node.isKeyword]
  · simp only [List.flatMap_singleton, Node.preorder_absent, List.mem_singleton] at hn
    exact absurd hn hp

theorem operand {leaf : LeafKind} (ht : t.kind.operand? = some leaf) :
    Keeps [.ofToken leaf t] [t] := by
  obtain ⟨k, text, position⟩ := t
  refine ⟨?_, ?_, fun n hn _ => ?_⟩
  · cases k <;> cases ht <;> rfl
  · cases k <;> cases ht <;> rfl
  · obtain rfl : n = .ofToken leaf ⟨k, text, position⟩ := by simpa [Node.ofToken] using hn
    exact ⟨_, List.mem_singleton_self _, rfl⟩

theorem ident (ht : t.kind = .ident) : Keeps [.ofToken .ident t] [t] :=
  operand (by rw [ht]; rfl)

/-- The keyword of a declaration stands before the name, but its leaf behind that of the name. -/
theorem declared {name keyword : Token} {leaf : LeafKind} (hn : name.kind = .ident)
    (hk : keyword.kind.keyword? = some leaf) :
    Keeps [.ofToken .ident name, .ofToken leaf keyword] [keyword, name] := by
  obtain ⟨k, text, position⟩ := keyword
  obtain ⟨_, spelling, place⟩ := name
  subst hn
  refine ⟨?_, ?_, fun n hn _ => ?_⟩
  · cases k <;> cases hk <;> rfl
  · cases k <;> cases hk <;> rfl
  · simp only [List.flatMap_cons, List.flatMap_nil, Node.ofToken, Node.preorder_leaf,
      List.append_nil, List.singleton_append, List.mem_cons, List.not_mem_nil, or_false] at hn
    obtain rfl | rfl := hn
    · exact ⟨_, .tail _ (.head _), rfl⟩
    · exact ⟨_, .head _, rfl⟩

theorem build (label : Label) (h : Keeps ns ts) (ht : t ∈ ts) : Keeps [.build label ns t] ts := by
  refine ⟨?_, ?_, fun n hn hne => ?_⟩
  · simpa [Node.build, Node.isOperand] using h.operands
  · simpa [Node.build, Node.isKeyword] using h.keywords
  · rw [Node.build, List.flatMap_singleton, Node.preorder_tree] at hn
    obtain rfl | hn := List.mem_cons.mp hn
    · exact ⟨t, ht, rfl⟩
    · exact h.placed n hn hne

end Keeps

namespace Parser

theorem Reads.and {α : Type} {stop : Token} {p : Parser α} {P Q : α → List Token → Prop}
    (hp : Reads stop p P) (hq : Reads stop p Q) : Reads stop p fun a ts => P a ts ∧ Q a ts := by
  intro ahead a rest h
  obtain ⟨used, rfl, ha⟩ := hp ahead a rest h
  obtain ⟨used', hu, ha'⟩ := hq _ a rest h
  obtain rfl := List.append_cancel_right hu
  exact ⟨used, rfl, ha, ha'⟩

abbrev ReadsKept (stop : Token) (p : Parser Node) : Prop :=
  Reads stop p fun n ts => Keeps [n] ts

variable {stop : Token} {expression statement : Parser Node}

theorem commaListUntil_kept {α : Type} {item : Parser α} (node : α → Node) {close : Kind}
    {complaint : Complaint} (hs : stop.kind = .endOfInput) (hc : close ≠ .endOfInput)
    (hi : Reads stop item fun a ts => Keeps [node a] ts) :
    Reads stop (commaListUntil close complaint item) fun as ts =>
      ∃ us t, ts = us ++ [t] ∧ t.kind = close ∧ Keeps (as.map node) us := by
  have hmore : ∀ (as : List α) ts comma a us, Keeps (as.reverse.map node) ts →
      comma.kind = .comma → Keeps [node a] us →
      Keeps ((a :: as).reverse.map node) (ts ++ comma :: us) := by
    intro as ts comma a us has hcomma ha
    rw [List.reverse_cons, List.map_append]
    exact has.append (ha.after hcomma ⟨rfl, rfl⟩)
  intro ahead as rest h
  obtain ⟨used, rfl, us, t, hu, ht, has⟩ :=
    commaListUntil_collects (Q := fun as ts => Keeps (as.reverse.map node) ts) hmore hs hc hi
      (fun _ _ ha => ha) ahead as rest h
  refine ⟨used, rfl, us, t, hu, ht, ?_⟩
  obtain ⟨rfl, rfl⟩ | hn := has
  · exact .nil
  · rwa [List.reverse_reverse] at hn

section Expressions

theorem primary_kept (hs : stop.kind = .endOfInput) (he : ReadsKept stop expression) :
    ReadsKept stop (primary expression) := by
  intro ahead n rest h
  obtain ⟨t, kind, rfl, ht, rfl⟩ | ⟨left, mid, right, rfl, hl, hn, hr⟩ := (primary_eq_ok hs).mp h
  · refine ⟨[t], rfl, .operand ?_⟩
    generalize t.kind = k at ht
    cases k <;> cases ht <;> rfl
  · obtain ⟨ts, rfl, hk⟩ := he _ _ _ hn
    exact ⟨left :: (ts ++ [right]), by simp, hk.between hl ⟨rfl, rfl⟩ hr ⟨rfl, rfl⟩⟩

theorem memberStep_kept (hs : stop.kind = .endOfInput) (he : ReadsKept stop expression) :
    StepReads stop (memberStep expression) fun n ts _ => Keeps [n] ts where
  turn := by
    intro receiver ahead n rest h
    obtain ⟨dot, name, rfl, hd, hi, rfl⟩ | ⟨left, mid, key, right, rfl, hl, hk, hr, rfl⟩ :=
      (memberStep_eq_some hs).mp h
    · have hname : Keeps [.ofToken .ident name] [dot, name] := (Keeps.ident hi).after hd ⟨rfl, rfl⟩
      exact ⟨[dot, name], by simp, rfl, fun before hb => (hb.append hname).build _ (by simp)⟩
    · obtain ⟨ts, rfl, hkey⟩ := he _ _ _ hk
      have hindex := hkey.between hl ⟨rfl, rfl⟩ hr ⟨rfl, rfl⟩
      exact ⟨left :: (ts ++ [right]), by simp, by simp,
        fun before hb => (hb.append hindex).build _ (by simp)⟩
  done := fun _ _ _ h => (memberStep_eq_none.mp h).1

theorem member_kept (hs : stop.kind = .endOfInput) (he : ReadsKept stop expression) :
    ReadsKept stop (member expression) := by
  intro ahead n rest h
  obtain ⟨receiver, mid, hr, hf⟩ := member_eq_ok.mp h
  obtain ⟨ts, rfl, hk⟩ := primary_kept hs he _ _ _ hr
  obtain ⟨us, rfl, hn, -⟩ := (memberStep_kept hs he).foldWhile hf hk
  exact ⟨ts ++ us, by simp, hn⟩

theorem callStep_kept (hs : stop.kind = .endOfInput) (he : ReadsKept stop expression) :
    StepReads stop (callStep expression) fun n ts _ => Keeps [n] ts where
  turn := by
    intro callee ahead n rest h
    obtain ⟨left, mid, args, rfl, hl, ha, rfl⟩ := (callStep_eq_some hs).mp h
    obtain ⟨ts, rfl, us, right, rfl, hr, hk⟩ :=
      commaListUntil_kept id hs (by decide : Kind.rparen ≠ _) he _ _ _ ha
    rw [List.map_id] at hk
    have hargs := hk.between hl ⟨rfl, rfl⟩ hr ⟨rfl, rfl⟩
    exact ⟨left :: (us ++ [right]), by simp, by simp,
      fun before hb => (hb.append (hargs.build _ (.head _))).build _ (by simp)⟩
  done := fun _ _ _ h => (callStep_eq_none.mp h).1

theorem call_kept (hs : stop.kind = .endOfInput) (he : ReadsKept stop expression) :
    ReadsKept stop (call expression) := by
  intro ahead n rest h
  obtain ⟨callee, mid, hc, hf⟩ := call_eq_ok.mp h
  obtain ⟨ts, rfl, hk⟩ := member_kept hs he _ _ _ hc
  obtain ⟨us, rfl, hn, -⟩ := (callStep_kept hs he).foldWhile hf hk
  exact ⟨ts ++ us, by simp, hn⟩

def JoinsKept (join? : Token → Option (Node → Node → Node)) : Prop :=
  ∀ op join, join? op = some join → ∀ l r ts us, Keeps [l] ts → Keeps [r] us →
    Keeps [join l r] (ts ++ op :: us)

variable {join? : Token → Option (Node → Node → Node)} {operand : Parser Node}

theorem chain_kept (hj : join? stop = none) (hk : JoinsKept join?) (ho : ReadsKept stop operand) :
    ReadsKept stop (chain join? operand) := by
  have hstep : StepReads stop (chainStep join? operand) fun n ts _ => Keeps [n] ts :=
    { turn := by
        intro left ahead n rest h
        obtain ⟨op, mid, join, right, rfl, hop, hr, rfl⟩ := (chainStep_eq_some hj).mp h
        obtain ⟨ts, rfl, hright⟩ := ho _ _ _ hr
        exact ⟨op :: ts, by simp, rfl,
          fun before hb => hk op join hop left right before ts hb hright⟩
      done := fun _ _ _ h => (chainStep_eq_none.mp h).1 }
  intro ahead n rest h
  obtain ⟨first, mid, hf, hl⟩ := chain_eq_ok.mp h
  obtain ⟨ts, rfl, hfirst⟩ := ho _ _ _ hf
  obtain ⟨us, rfl, hn, -⟩ := hstep.foldWhile hl hfirst
  exact ⟨ts ++ us, by simp, hn⟩

theorem arithmetic_joinsKept (signs : List String) : JoinsKept (arithmetic? signs) := by
  intro op join hop l r ts us hl hr
  obtain ⟨hk, -, rfl⟩ := arithmetic?_eq_some.mp hop
  have hsign : Keeps [.ofToken .operator op] [op] := .operand (by rw [hk]; rfl)
  exact (hl.append (hsign.append hr)).build _ (by simp)

theorem labelled_joinsKept {label? : Kind → Option Label}
    (hp : ∀ k label, label? k = some label → k.Passing) : JoinsKept (labelled? label?) := by
  intro op join hop l r ts us hl hr
  obtain ⟨label, hk, rfl⟩ := labelled?_eq_some.mp hop
  exact (hl.append (hr.after rfl (hp _ _ hk))).build _ (by simp)

theorem disjunction_kept (hs : stop.kind = .endOfInput) (he : ReadsKept stop expression) :
    ReadsKept stop (disjunction expression) := by
  have hpassing {label? : Kind → Option Label} {level : Level}
      (hl : ∀ k label, label? k = some label → level.label? k = some label) :
      JoinsKept (labelled? label?) := by
    refine labelled_joinsKept fun k label hk => ?_
    have hlabel := hl k label hk
    cases level <;> cases k <;> first | exact ⟨rfl, rfl⟩ | cases hlabel
  have hproduct : ReadsKept stop (product expression) :=
    chain_kept (arithmetic?_stop hs _) (arithmetic_joinsKept _) (call_kept hs he)
  have hsum : ReadsKept stop (sum expression) :=
    chain_kept (arithmetic?_stop hs _) (arithmetic_joinsKept _) hproduct
  have hrelation : ReadsKept stop (relation expression) :=
    chain_kept (labelled?_stop hs rfl) (hpassing relation?_label) hsum
  have hequality : ReadsKept stop (equality expression) :=
    chain_kept (labelled?_stop hs rfl) (hpassing equality?_label) hrelation
  have hconjunction : ReadsKept stop (conjunction expression) :=
    chain_kept (labelled?_stop hs rfl) (hpassing conjunction?_label) hequality
  exact chain_kept (labelled?_stop hs rfl) (hpassing disjunction?_label) hconjunction

theorem Skips.kept {kind : Kind} {ahead rest : List Token} (h : Skips kind stop ahead rest)
    (hk : kind.Passing) : ∃ ts, ahead = ts ++ rest ∧ Keeps [] ts := by
  obtain ⟨t, rfl, ht⟩ | ⟨-, rfl⟩ := h
  · exact ⟨[t], rfl, .passing ht hk⟩
  · exact ⟨[], rfl, .nil⟩

theorem propertyStep_kept (hs : stop.kind = .endOfInput) (he : ReadsKept stop expression) :
    StepReads stop (bracedStep .object (property expression))
      fun ns ts _ => Keeps ns.reverse ts where
  turn := by
    intro ns ahead more rest h
    obtain ⟨-, -, n, hp, rfl⟩ := bracedStep_eq_some.mp h
    obtain ⟨key, mid, value, last, rfl, hk, hv, hc, rfl⟩ := (property_eq_ok hs).mp hp
    obtain ⟨vs, rfl, hcomma⟩ := hc.kept ⟨rfl, rfl⟩
    have hi : ∃ us, mid = us ++ (vs ++ rest) ∧ Keeps [value] us := by
      obtain ⟨colon, more, rfl, hcolon, hv⟩ | ⟨-, rfl, rfl⟩ := hv
      · obtain ⟨us, rfl, hvalue⟩ := he _ _ _ hv
        exact ⟨colon :: us, rfl, hvalue.after hcolon ⟨rfl, rfl⟩⟩
      · exact ⟨[], rfl, .absent⟩
    obtain ⟨us, rfl, hvalue⟩ := hi
    have hentry := ((Keeps.ident hk).append hvalue).build .property (.head _)
    have hentry := hentry.append hcomma
    refine ⟨key :: us ++ vs, by simp, by simp, fun before hb => ?_⟩
    simpa using hb.append hentry
  done := fun _ _ _ h => (bracedStep_eq_none.mp h).1

theorem object_kept (hs : stop.kind = .endOfInput) (he : ReadsKept stop expression) :
    ReadsKept stop (object expression) := by
  intro ahead n rest h
  obtain ⟨left, mid, entries, rfl, hl, hb, rfl⟩ | ⟨-, h⟩ := (object_eq_ok hs).mp h
  · obtain ⟨ts, rfl, us, right, rfl, hr, -, hk⟩ :=
      bracedItems_reads (propertyStep_kept hs he) hs (fun _ => .nil) _ _ _ hb
    rw [List.reverse_reverse] at hk
    have hobject := hk.between hl ⟨rfl, rfl⟩ hr ⟨rfl, rfl⟩
    exact ⟨left :: (us ++ [right]), by simp, hobject.build _ (.head _)⟩
  · exact disjunction_kept hs he _ _ _ h

/-- Targets that wait for a value are kept, together with the last operand read. -/
def AwaitsKept (state : List Pending × Node) (ts : List Token) : Prop :=
  ∃ us vs, ts = us ++ vs ∧ Keeps [state.2] vs ∧
    ∀ value ws, Keeps [value] ws → Keeps [state.1.foldl Pending.close value] (us ++ ws)

theorem assignStep_kept (hs : stop.kind = .endOfInput) (he : ReadsKept stop expression) :
    StepReads stop (assignStep expression) fun state ts _ => AwaitsKept state ts where
  turn := by
    rintro ⟨pending, left⟩ ahead state rest h
    obtain ⟨op, mid, label, value, rfl, ho, hv, rfl⟩ := (assignStep_eq_some hs).mp h
    obtain ⟨ts, rfl, hvalue⟩ := object_kept hs he _ _ _ hv
    have hop : op.kind.Passing := by
      generalize op.kind = k at ho
      cases k <;> first | exact ⟨rfl, rfl⟩ | cases ho
    refine ⟨op :: ts, by simp, rfl, ?_⟩
    rintro _ ⟨us, vs, rfl, hl, hp⟩
    refine ⟨us ++ vs ++ [op], ts, by simp, hvalue, fun value ws hw => ?_⟩
    have hclose := (hl.append (hw.after rfl hop)).build label (t := op) (by simp)
    simpa [Pending.close] using hp _ _ hclose
  done := fun _ _ _ h => (assignStep_eq_none.mp h).1

theorem assignment_kept (hs : stop.kind = .endOfInput) (he : ReadsKept stop expression) :
    ReadsKept stop (assignment expression) := by
  intro ahead n rest h
  obtain ⟨first, mid, pending, last, hf, hl, rfl⟩ := assignment_eq_ok.mp h
  obtain ⟨ts, rfl, hfirst⟩ := object_kept hs he _ _ _ hf
  have h0 : AwaitsKept ([], first) ts := ⟨[], ts, rfl, hfirst, fun _ _ hw => hw⟩
  obtain ⟨us, rfl, ⟨vs, ws, heq, hlast, hclose⟩, -⟩ := (assignStep_kept hs he).foldWhile hl h0
  refine ⟨ts ++ us, by simp, ?_⟩
  rw [heq]
  exact hclose _ _ hlast

theorem expression_kept (hs : stop.kind = .endOfInput) (depth : Nat) :
    ReadsKept stop (Parser.expression depth) := by
  induction depth with
  | zero => exact fun _ _ _ h => (tooDeep_eq_ok.mp h).elim
  | succ depth ih => exact assignment_kept hs ih

end Expressions

section Statements

abbrev ReadsStatementKept (stop : Token) (p : Parser Node) : Prop :=
  Reads stop p fun n ts => ts ≠ [] ∧ Keeps [n] ts

theorem declaration_kept (hs : stop.kind = .endOfInput) (he : ReadsKept stop expression)
    {ahead rest : List Token} {n : Node}
    (hk : (ahead.headD stop).kind = .letWord ∨ (ahead.headD stop).kind = .constWord)
    (h : declaration expression stop ahead = .ok (n, rest)) :
    ∃ used, ahead = used ++ rest ∧ Keeps [n] used := by
  obtain ⟨keyword, name, mid, value, semi, rfl, hi, hv, hsemi, rfl⟩ := (declaration_eq_ok hs).mp h
  have hkeyword : keyword.kind.keyword? = some (keywordKind keyword) := by
    rw [List.headD_cons] at hk
    obtain hk | hk := hk <;> simp [keywordKind, hk, Kind.keyword?]
  have hvalue : ∃ us, mid = us ++ semi :: rest ∧ Keeps [value] us := by
    obtain ⟨colon, more, rfl, hc, hv⟩ | ⟨-, -, rfl, rfl⟩ := hv
    · obtain ⟨us, rfl, hvalue⟩ := he _ _ _ hv
      exact ⟨colon :: us, rfl, hvalue.after hc ⟨rfl, rfl⟩⟩
    · exact ⟨[], rfl, .absent⟩
  obtain ⟨us, rfl, hvalue⟩ := hvalue
  have hchildren := (Keeps.declared hi hkeyword).append (hvalue.before hsemi ⟨rfl, rfl⟩)
  exact ⟨keyword :: name :: (us ++ [semi]), by simp, hchildren.build _ (.head _)⟩

theorem block_kept (hs : stop.kind = .endOfInput) {enclosure : Enclosure}
    (hr : ReadsStatementKept stop statement) : ReadsKept stop (block enclosure statement) := by
  have hstep : StepReads stop (bracedStep enclosure statement) fun ns ts _ =>
      Keeps ns.reverse ts :=
    { turn := by
        intro ns ahead more rest h
        obtain ⟨-, -, n, hn, rfl⟩ := bracedStep_eq_some.mp h
        obtain ⟨ts, rfl, hne, hk⟩ := hr _ _ _ hn
        refine ⟨ts, hne, rfl, fun before hb => ?_⟩
        simpa using hb.append hk
      done := fun _ _ _ h => (bracedStep_eq_none.mp h).1 }
  intro ahead n rest h
  obtain ⟨left, mid, items, rfl, hl, hb, rfl⟩ := (block_eq_ok hs).mp h
  obtain ⟨ts, rfl, us, right, rfl, hright, -, hk⟩ :=
    bracedItems_reads hstep hs (fun _ => .nil) _ _ _ hb
  rw [List.reverse_reverse] at hk
  have hbody := hk.between hl ⟨rfl, rfl⟩ hright ⟨rfl, rfl⟩
  exact ⟨left :: (us ++ [right]), by simp, hbody.build _ (.head _)⟩

theorem function_kept (hs : stop.kind = .endOfInput) (hr : ReadsStatementKept stop statement)
    {ahead rest : List Token} {n : Node} (hk : (ahead.headD stop).kind = .fnWord)
    (h : function statement stop ahead = .ok (n, rest)) :
    ∃ used, ahead = used ++ rest ∧ Keeps [n] used := by
  obtain ⟨keyword, name, left, mid, params, more, body, rfl, hi, hl, hp, hb, rfl⟩ :=
    (function_eq_ok hs).mp h
  have hparam : Reads stop (expect .ident .paramName) fun t ts => Keeps [.ofToken .ident t] ts := by
    intro ahead t rest h
    obtain ⟨rfl, ht⟩ := (expect_eq_ok hs (by decide : Kind.ident ≠ _)).mp h
    exact ⟨[t], rfl, .ident ht⟩
  obtain ⟨_, rfl, ts, right, rfl, hright, hps⟩ :=
    commaListUntil_kept (.ofToken .ident) hs (by decide : Kind.rparen ≠ _) hparam _ _ _ hp
  obtain ⟨us, rfl, hbody⟩ := block_kept hs hr _ _ _ hb
  have hparams : Keeps [.build .params (params.map (.ofToken .ident)) left]
      (left :: (ts ++ [right])) :=
    (hps.between hl ⟨rfl, rfl⟩ hright ⟨rfl, rfl⟩).build _ (.head _)
  have hchildren := (Keeps.ident hi).append (hparams.append hbody)
  refine ⟨keyword :: name :: left :: (ts ++ [right] ++ us), by simp, ?_⟩
  exact (hchildren.after hk ⟨rfl, rfl⟩).build _ (.head _)

theorem condition_kept (hs : stop.kind = .endOfInput) (he : ReadsKept stop expression)
    (keyword : String) : ReadsKept stop (condition keyword expression) := by
  intro ahead n rest h
  obtain ⟨left, mid, right, rfl, hl, hn, hr⟩ := (condition_eq_ok hs).mp h
  obtain ⟨ts, rfl, hk⟩ := he _ _ _ hn
  exact ⟨left :: (ts ++ [right]), by simp, hk.between hl ⟨rfl, rfl⟩ hr ⟨rfl, rfl⟩⟩

inductive ClausesKept : List Clause → List Token → Prop
  | nil : ClausesKept [] []
  | cons {c : Clause} {cs : List Clause} {ts us : List Token} (hcs : ClausesKept cs ts)
      (hk : c.keyword.kind = .elifWord) (hc : Keeps [c.cond, c.body] us) :
      ClausesKept (c :: cs) (ts ++ c.keyword :: us)

theorem Clause.kept {c : Clause} {final : Node} {us vs : List Token}
    (hk : c.keyword.kind = .elifWord) (hc : Keeps [c.cond, c.body] us) (hf : Keeps [final] vs) :
    Keeps [c.node final] (c.keyword :: us ++ vs) :=
  ((hc.append hf).after hk ⟨rfl, rfl⟩).build _ (.head _)

namespace ClausesKept

variable {cs : List Clause} {ts : List Token}

theorem keeps (h : ClausesKept cs ts) : Keeps (cs.reverse.map (Clause.node .absent)) ts := by
  induction h with
  | nil => exact .nil
  | @cons c cs ts us _ hk hc ih =>
    have hlast := Clause.kept hk hc .absent
    rw [List.append_nil] at hlast
    rw [List.reverse_cons, List.map_append]
    exact ih.append hlast

theorem keyword_mem (h : ClausesKept cs ts) : ∀ c ∈ cs, c.keyword ∈ ts := by
  induction h with
  | nil => nofun
  | cons _ _ _ ih =>
    intro d hd
    obtain rfl | hd := List.mem_cons.mp hd
    · simp
    · exact List.mem_append_left _ (ih d hd)

end ClausesKept

theorem elifStep_kept (hs : stop.kind = .endOfInput) (he : ReadsKept stop expression)
    (hr : ReadsStatementKept stop statement) :
    StepReads stop (elifStep expression statement) fun cs ts _ => ClausesKept cs ts where
  turn := by
    intro cs ahead more rest h
    obtain ⟨hk, c, hc, rfl⟩ := elifStep_eq_some.mp h
    obtain ⟨mid, last, rfl, hcond, hbody⟩ := (elifClause_eq_ok hs).mp hc
    obtain ⟨us, rfl, hkcond⟩ := condition_kept hs he _ _ _ _ hcond
    obtain ⟨vs, rfl, hkbody⟩ := block_kept hs hr _ _ _ hbody
    exact ⟨c.keyword :: (us ++ vs), by simp, by simp,
      fun before hb => .cons hb hk (hkcond.append hkbody)⟩
  done := fun _ _ _ h => (elifStep_eq_none.mp h).1

theorem elseClause_kept (hs : stop.kind = .endOfInput) (hr : ReadsStatementKept stop statement) :
    ReadsKept stop (elseClause statement) := by
  intro ahead n rest h
  obtain ⟨keyword, mid, body, rfl, hk, hb, rfl⟩ | ⟨-, rfl, rfl⟩ := (elseClause_eq_ok hs).mp h
  · obtain ⟨ts, rfl, hbody⟩ := block_kept hs hr _ _ _ hb
    exact ⟨keyword :: ts, rfl, (hbody.after hk ⟨rfl, rfl⟩).build _ (.head _)⟩
  · exact ⟨[], rfl, .absent⟩

theorem ifElse_kept (hs : stop.kind = .endOfInput) (he : ReadsKept stop expression)
    (hr : ReadsStatementKept stop statement) {ahead rest : List Token} {n : Node}
    (hk : (ahead.headD stop).kind = .ifWord)
    (h : ifElse expression statement stop ahead = .ok (n, rest)) :
    ∃ used, ahead = used ++ rest ∧ Keeps [n] used := by
  obtain ⟨keyword, mid, cond, afterCond, body, afterBody, clauses, afterClauses, otherwise, rfl,
    hcond, hbody, hclauses, hfinal, rfl⟩ := (ifElse_eq_ok hs).mp h
  obtain ⟨ts, rfl, hc⟩ := condition_kept hs he _ _ _ _ hcond
  obtain ⟨us, rfl, hb⟩ := block_kept hs hr _ _ _ hbody
  obtain ⟨vs, rfl, hcs, -⟩ :=
    (elifStep_kept hs he hr).foldWhile (elifClauses_eq_ok.mp hclauses) .nil
  obtain ⟨ws, rfl, hf⟩ := elseClause_kept hs hr _ _ _ hfinal
  have hhead := (hc.append hb).after hk ⟨rfl, rfl⟩
  refine ⟨keyword :: (ts ++ us ++ vs ++ ws), by simp, ?_⟩
  rw [List.nil_append] at hcs
  rw [← List.reverse_reverse clauses]
  generalize clauses.reverse = cs at hcs
  cases hcs with
  | nil =>
    have hchildren := hhead.append (Keeps.absent.append hf)
    simpa [ifNode] using hchildren.build .ifElse (.head _)
  | @cons c cs vs us' hcs hck hcc =>
    -- the final branch has moved into the last clause, which keeps its tokens behind its own
    obtain ⟨first, hfirst, hnode⟩ := ifNode_snoc keyword cond body otherwise cs.reverse c
    have hmem : first.keyword ∈ vs ++ (c.keyword :: us' ++ ws) := by
      obtain hfirst | hfirst := List.mem_append.mp hfirst
      · exact List.mem_append_left _ (hcs.keyword_mem first (List.mem_reverse.mp hfirst))
      · obtain rfl := List.mem_singleton.mp hfirst
        simp
    have helifs := (hcs.keeps.append (Clause.kept hck hcc hf)).build .elifs hmem
    have hchildren := hhead.append (helifs.append .absent)
    rw [List.reverse_cons, hnode]
    simpa using hchildren.build .ifElse (.head _)

theorem loopStart_kept (hs : stop.kind = .endOfInput) (he : ReadsKept stop expression) :
    ReadsKept stop (loopStart expression) := by
  intro ahead n rest h
  obtain ⟨hk, h⟩ | ⟨-, -, mid, h, hsemi⟩ := (loopStart_eq_ok hs).mp h
  · exact declaration_kept hs he hk h
  · obtain ⟨ts, rfl, hk⟩ := he _ _ _ h
    obtain ⟨us, rfl, hu⟩ := hsemi.kept ⟨rfl, rfl⟩
    exact ⟨ts ++ us, by simp, hk.append hu⟩

theorem forLoop_kept (hs : stop.kind = .endOfInput) (he : ReadsKept stop expression)
    (hr : ReadsStatementKept stop statement) {ahead rest : List Token} {n : Node}
    (hk : (ahead.headD stop).kind = .forWord)
    (h : forLoop expression statement stop ahead = .ok (n, rest)) :
    ∃ used, ahead = used ++ rest ∧ Keeps [n] used := by
  obtain ⟨keyword, left, mid, start, afterStart, cond, semi, afterCond, increment, right, afterHead,
    body, rfl, hl, hstart, hcond, hsemi, hinc, hright, hbody, rfl⟩ := (forLoop_eq_ok hs).mp h
  obtain ⟨ts, rfl, hks⟩ := loopStart_kept hs he _ _ _ hstart
  obtain ⟨us, rfl, hkc⟩ := he _ _ _ hcond
  obtain ⟨vs, rfl, hki⟩ := he _ _ _ hinc
  obtain ⟨ws, rfl, hkb⟩ := block_kept hs hr _ _ _ hbody
  have hhead := (hks.append (hkc.before hsemi ⟨rfl, rfl⟩)).after hl ⟨rfl, rfl⟩
  have hchildren := hhead.append ((hki.before hright ⟨rfl, rfl⟩).append hkb)
  refine ⟨keyword :: left :: (ts ++ (us ++ [semi]) ++ (vs ++ [right] ++ ws)), by simp, ?_⟩
  exact (hchildren.after hk ⟨rfl, rfl⟩).build _ (.head _)

theorem statementWith_kept (hs : stop.kind = .endOfInput) (he : ReadsKept stop expression)
    (hr : ReadsStatementKept stop statement) :
    ReadsKept stop (statementWith expression statement) := by
  intro ahead n rest h
  obtain ⟨hk, h⟩ | ⟨hk, h⟩ | ⟨hk, h⟩ | ⟨hk, h⟩ | ⟨-, mid, h, hsemi⟩ := (statementWith_eq_ok hs).mp h
  · exact declaration_kept hs he hk h
  · exact function_kept hs hr hk h
  · exact ifElse_kept hs he hr hk h
  · exact forLoop_kept hs he hr hk h
  · obtain ⟨ts, rfl, hk⟩ := he _ _ _ h
    obtain ⟨us, rfl, hu⟩ := hsemi.kept ⟨rfl, rfl⟩
    exact ⟨ts ++ us, by simp, hk.append hu⟩

theorem statement_kept (hs : stop.kind = .endOfInput) (depth : Nat) :
    ReadsStatementKept stop (Parser.statement depth) := by
  induction depth with
  | zero => exact fun _ _ _ h => (tooDeep_eq_ok.mp h).elim
  | succ depth ih =>
    have hne : Reads stop (Parser.statement (depth + 1)) fun _ ts => ts ≠ [] := by
      intro ahead n rest h
      obtain ⟨ts, rfl, hd⟩ := (statement_reads (fun _ => True) hs (depth + 1)).reads ahead n rest h
      exact ⟨ts, rfl, hd.derived.statement_ne_nil⟩
    exact hne.and (statementWith_kept hs (expression_kept hs depth) ih)

theorem program_kept (hs : stop.kind = .endOfInput) {depth : Nat} {ahead rest : List Token}
    {n : Node} (h : program depth stop ahead = .ok (n, rest)) :
    ∃ ns used, n = .build .program ns (ahead.headD stop) ∧ ahead = used ++ rest ∧
      (rest.headD stop).kind = .endOfInput ∧ Keeps ns used := by
  have hstep : StepReads stop (programStep depth) fun ns ts _ => Keeps ns.reverse ts :=
    { turn := by
        intro ns ahead more rest h
        obtain ⟨-, n, hn, rfl⟩ := programStep_eq_some.mp h
        obtain ⟨ts, rfl, hne, hk⟩ := statement_kept hs depth _ _ _ hn
        refine ⟨ts, hne, rfl, fun before hb => ?_⟩
        simpa using hb.append hk
      done := fun _ _ _ h => (programStep_eq_none.mp h).1 }
  obtain ⟨ns, hf, rfl⟩ := program_eq_ok.mp h
  obtain ⟨used, rfl, hk, hend⟩ := hstep.foldWhile hf .nil
  exact ⟨ns.reverse, used, rfl, rfl, (programStep_eq_none.mp hend).2, hk⟩

end Statements

theorem EndMarked.of_parseTokens {depth : Nat} {tokens : List Token} {tree : Node}
    (h : parseTokens depth tokens = .ok tree) : EndMarked tokens := by
  unfold parseTokens at h
  split at h
  · next text position hlast => exact ⟨_, hlast, rfl⟩
  · cases h

theorem parseTokens_statements {depth : Nat} {tokens : List Token} {tree : Node}
    (h : parseTokens depth tokens = .ok tree) :
    ∃ ns first, tree = .build .program ns first ∧ tokens.head? = some first ∧
      Keeps ns (body tokens) := by
  obtain ⟨stop, more, hs, htokens, hp⟩ := (EndMarked.of_parseTokens h).parseTokens_eq
  have hhead : (body tokens ++ stop :: more).head? = some ((body tokens).headD stop) := by
    cases body tokens <;> rfl
  rw [← htokens] at hhead
  rw [hp] at h
  cases hprogram : program depth stop (body tokens) with
  | error e =>
    rw [hprogram] at h
    cases h
  | ok result =>
    obtain ⟨n, rest⟩ := result
    rw [hprogram] at h
    cases h
    obtain ⟨ns, used, rfl, hu, hend, hk⟩ := program_kept hs hprogram
    rw [← body_eq_used hu hend] at hk
    exact ⟨ns, _, rfl, hhead, hk⟩

/-- The leaves of a tree, from left to right, are the tokens that it was read from as far as leaves
are made of them, each once, with its text and where it stands; and no node stands anywhere else
than a token does, the program where the first one does. -/
theorem parseTokens_keeps {depth : Nat} {tokens : List Token} {tree : Node}
    (h : parseTokens depth tokens = .ok tree) :
    tree.preorder.filter Node.isOperand = (body tokens).filterMap Token.operand? ∧
      tree.preorder.filter Node.isKeyword = (body tokens).filterMap Token.keyword? ∧
      (∀ n ∈ tree.preorder, n ≠ .absent → ∃ t ∈ tokens, n.place? = some t.position.place) ∧
      ∃ first ∈ tokens.head?, tree.place? = some first.position.place := by
  obtain ⟨ns, first, rfl, hfirst, hk⟩ := parseTokens_statements h
  refine ⟨?_, ?_, fun n hn hne => ?_, first, hfirst, rfl⟩
  · simpa [Node.build, Node.isOperand] using hk.operands
  · simpa [Node.build, Node.isKeyword] using hk.keywords
  · rw [Node.build, Node.preorder_tree] at hn
    obtain rfl | hn := List.mem_cons.mp hn
    · exact ⟨first, List.mem_of_mem_head? hfirst, rfl⟩
    · obtain ⟨t, ht, hplace⟩ := hk.placed n hn hne
      exact ⟨t, (List.takeWhile_sublist _).mem ht, hplace⟩

theorem parseTokens_keeps_branches :
    let tokens : List Token :=
      -- a constant, and an if statement whose final branch has moved into its last clause: the
      -- leaves of that branch still come last
      [⟨.constWord, "konstan", ⟨1, 1⟩⟩, ⟨.ident, "a", ⟨1, 9⟩⟩, ⟨.colon, ":", ⟨1, 10⟩⟩,
        ⟨.number, "1", ⟨1, 12⟩⟩, ⟨.semicolon, ";", ⟨1, 13⟩⟩,
        ⟨.ifWord, "jika", ⟨2, 1⟩⟩, ⟨.lparen, "(", ⟨2, 6⟩⟩, ⟨.ident, "a", ⟨2, 7⟩⟩,
        ⟨.rparen, ")", ⟨2, 8⟩⟩, ⟨.lbrace, "\x7b", ⟨2, 10⟩⟩, ⟨.rbrace, "\x7d", ⟨2, 11⟩⟩,
        ⟨.elifWord, "lainnyajika", ⟨3, 1⟩⟩, ⟨.lparen, "(", ⟨3, 13⟩⟩, ⟨.ident, "b", ⟨3, 14⟩⟩,
        ⟨.rparen, ")", ⟨3, 15⟩⟩, ⟨.lbrace, "\x7b", ⟨3, 17⟩⟩, ⟨.rbrace, "\x7d", ⟨3, 18⟩⟩,
        ⟨.elseWord, "lainnya", ⟨4, 1⟩⟩, ⟨.lbrace, "\x7b", ⟨4, 9⟩⟩, ⟨.ident, "c", ⟨4, 11⟩⟩,
        ⟨.arith, "-", ⟨4, 13⟩⟩, ⟨.string, "d", ⟨4, 15⟩⟩, ⟨.rbrace, "\x7d", ⟨4, 19⟩⟩,
        .endMark ⟨5, 1⟩]
    ∃ tree, parseTokens 9 tokens = .ok tree ∧
      tree.preorder.filter Node.isOperand = (body tokens).filterMap Token.operand? ∧
      tree.preorder.filter Node.isKeyword = (body tokens).filterMap Token.keyword? ∧
      (∀ n ∈ tree.preorder, n ≠ .absent → ∃ t ∈ tokens, n.place? = some t.position.place) ∧
      ∃ first ∈ tokens.head?, tree.place? = some first.position.place :=
  ⟨_, rfl, @parseTokens_keeps 9 _ _ rfl⟩

end Parser

end Bahasa
