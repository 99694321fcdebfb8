import Bahasa.Proofs.Parser.Levels

namespace Bahasa

def Kind.opens (k : Kind) : Bool :=
  k.opensOperand || k.opensStatement || k == .lbrace || k == .endOfInput

theorem Level.takes_of_opens {l : Level} {t : Token} (ho : t.kind.opens = true)
    (ht : l.takes t = true) : l = .call ∧ t.kind = .lparen := by
  obtain ⟨kind, text, p⟩ := t
  cases l with
  | call => exact ⟨rfl, by simpa [takes] using ht⟩
  | _ =>
    cases kind with
    | ident | number | string | lparen | lbrace => simp [takes, label?, Kind.assignment?] at ht
    | letWord | constWord | fnWord | ifWord | forWord | endOfInput =>
      simp [takes, label?, Kind.assignment?] at ht
    | _ => cases ho

/-- The tokens `us` before the end mark `stop` do not go on with a statement that ends with `ts`. -/
structure Seam (ts : List Token) (stop : Token) (us : List Token) : Prop where
  opens : (us.headD stop).kind.opens = true
  apart : (us.headD stop).kind = .lparen → ∀ t ∈ ts.getLast?, t.kind.closesOperand = false

namespace Seam

variable {ts us : List Token} {stop stop' : Token}

theorem suffix {before : List Token} (h : Seam (before ++ ts) stop us) : Seam ts stop us := by
  refine ⟨h.opens, fun hk t ht => h.apart hk t ?_⟩
  rw [List.getLast?_append, Option.mem_def.mp ht]
  rfl

theorem tail {t : Token} (h : Seam (t :: ts) stop us) : Seam ts stop us := by
  have h : Seam ([t] ++ ts) stop us := h
  exact h.suffix

theorem kind_ne (h : Seam ts stop' us) {k : Kind} (hk : k.opens = false)
    (hne : (ts.headD stop).kind ≠ k) : ((ts ++ us).headD stop').kind ≠ k := by
  cases ts with
  | nil =>
    intro he
    have ho := h.opens
    rw [List.nil_append] at he
    rw [he, hk] at ho
    cases ho
  | cons t ts => exact hne

theorem skips (h : Seam ts stop' us) {k : Kind} (hk : k.opens = false) {rest : List Token}
    (hs : Parser.Skips k stop ts rest) : Parser.Skips k stop' (ts ++ us) (rest ++ us) := by
  obtain ⟨t, rfl, ht⟩ | ⟨hne, rfl⟩ := hs
  · exact .inl ⟨t, rfl, ht⟩
  · exact .inr ⟨h.kind_ne hk hne, rfl⟩

theorem takes (h : Seam ts stop us) {l : Level} (hl : l.takes (us.headD stop) = true) :
    l = .call ∧ ∀ t ∈ ts.getLast?, t.kind.closesOperand = false := by
  obtain ⟨hc, hk⟩ := Level.takes_of_opens h.opens hl
  exact ⟨hc, h.apart hk⟩

end Seam

namespace Parser

variable {α : Type} {stop stop' : Token} {us : List Token}

def Extends (stop stop' : Token) (us : List Token) (p : Parser α) : Prop :=
  ∀ ahead a rest, Seam ahead stop' us → p stop ahead = .ok (a, rest) →
    p stop' (ahead ++ us) = .ok (a, rest ++ us)

section Loops

variable {step : α → Parser (Option α)} {I : α → List Token → List Token → Prop}
  {ahead rest last : List Token}
  {a b c : α}

def TurnExtends (stop stop' : Token) (us : List Token) (step : α → Parser (Option α)) : Prop :=
  ∀ a ahead b rest, Seam ahead stop' us → step a stop ahead = .ok (some b, rest) →
    step a stop' (ahead ++ us) = .ok (some b, rest ++ us)

theorem Loop.extend (hr : StepReads stop step I) (ht : TurnExtends stop stop' us step)
    (hl : Loop step stop a ahead b rest) (hs : Seam ahead stop' us)
    (hm : Loop step stop' b (rest ++ us) c last) : Loop step stop' a (ahead ++ us) c last := by
  induction hl with
  | @done a ahead rest hd =>
    obtain rfl := hr.done a ahead rest hd
    exact hm
  | @turn a b d ahead mid rest h _ ih =>
    have hturn := ht a ahead b mid hs h
    obtain ⟨used, -, rfl, -⟩ := hr.turn a ahead b mid h
    exact .turn hturn (ih hs.suffix hm)

theorem foldWhile_extend (hr : StepReads stop step I) (hr' : StepReads stop' step I)
    (ht : TurnExtends stop stop' us step) (hs : Seam ahead stop' us)
    (hf : foldWhile step a stop ahead = .ok (b, rest))
    (hd : step b stop' (rest ++ us) = .ok (none, rest ++ us)) :
    foldWhile step a stop' (ahead ++ us) = .ok (b, rest ++ us) := by
  rw [foldWhile_eq_ok hr.shortens] at hf
  rw [foldWhile_eq_ok hr'.shortens]
  exact hf.extend hr ht hs (.done hd)

end Loops

section Lists

variable {item : Parser α} {i : Item} {node : α → Node}

theorem commaListUntil_extends (hs : stop.kind = .endOfInput) (hs' : stop'.kind = .endOfInput)
    {close : Kind} (hc : close.opens = false) {complaint : Complaint}
    (hr : Reads stop item (fun a => Derives (.item i (node a))))
    (hr' : Reads stop' item (fun a => Derives (.item i (node a))))
    (hi : Extends stop stop' us item) :
    Extends stop stop' us (commaListUntil close complaint item) := by
  have hne : close ≠ .endOfInput := by
    rintro rfl
    cases hc
  intro ahead as rest hseam h
  apply (commaListUntil_eq_ok hs' hne).mpr
  obtain ⟨rfl, t, rfl, ht⟩ | ⟨hk, t, h, ht⟩ := (commaListUntil_eq_ok hs hne).mp h
  · exact .inl ⟨rfl, t, rfl, ht⟩
  · obtain ⟨first, mid, hf, hl⟩ := commaSeparated_eq_ok.mp h
    have hf' := hi ahead first mid hseam hf
    refine .inr ⟨hseam.kind_ne hc hk, t, commaSeparated_eq_ok.mpr ⟨first, _, hf', ?_⟩, ht⟩
    obtain ⟨used, rfl, hfirst⟩ := hr ahead first mid hf
    -- the loop stops at the closing token, which the longer stream has too
    have hstop :
        commaStep item as.reverse stop' (t :: rest ++ us) = .ok (none, t :: rest ++ us) := by
      refine (commaStep_eq_none hs').mpr ⟨rfl, ?_⟩
      obtain ⟨-, -, -, hd⟩ := (commaStep_reads hs hr).foldWhile hl (.itemsOne hfirst)
      exact ((commaStep_eq_none hs).mp hd).2
    refine foldWhile_extend (commaStep_reads hs hr)
      (commaStep_reads hs' hr') ?_ hseam.suffix hl hstop
    intro items ahead more rest hseam h
    obtain ⟨comma, mid, a, rfl, hc, ha, rfl⟩ := (commaStep_eq_some hs).mp h
    have ha' := hi mid a rest hseam.tail ha
    exact (commaStep_eq_some hs').mpr ⟨comma, mid ++ us, a, rfl, hc, ha', rfl⟩

theorem bracedItems_extends (hs : stop.kind = .endOfInput) {enclosure : Enclosure}
    {I : List α → List Token → List Token → Prop}
    (hr : StepReads stop (bracedStep enclosure item) I)
    (hr' : StepReads stop' (bracedStep enclosure item) I) (h₀ : ∀ ahead, I [] [] ahead)
    (hi : Extends stop stop' us item) :
    Extends stop stop' us (bracedItems enclosure item) := by
  intro ahead as rest hseam h
  obtain ⟨mid, hf, rfl⟩ := bracedItems_eq_ok.mp h
  obtain ⟨used, rfl, -, hd⟩ := hr.foldWhile hf (h₀ ahead)
  obtain ⟨brace, rest, rfl, hb⟩ :=
    (headD_kind hs (by decide : Kind.rbrace ≠ _)).mp (bracedStep_eq_none.mp hd).2
  refine bracedItems_eq_ok.mpr ⟨brace :: rest ++ us, ?_, rfl⟩
  refine foldWhile_extend hr hr' ?_ hseam hf (bracedStep_eq_none.mpr ⟨rfl, hb⟩)
  intro items ahead more rest hseam h
  obtain ⟨hk, hne, a, ha, rfl⟩ := bracedStep_eq_some.mp h
  obtain ⟨t, ts, rfl⟩ : ∃ t ts, ahead = t :: ts := by
    cases ahead with
    | nil => exact absurd hs hne
    | cons t ts => exact ⟨t, ts, rfl⟩
  exact bracedStep_eq_some.mpr ⟨hk, hne, a, hi _ a rest hseam ha, rfl⟩

end Lists

section Expressions

variable {e : Parser Node}

def Expressive (e : Parser Node) : Prop :=
  ∀ stop : Token, stop.kind = .endOfInput → ReadsLevel stop e .assignment

theorem expressive_expression (depth : Nat) : Expressive (Parser.expression depth) :=
  fun _ hs => expression_reads hs depth

theorem chainStep_extends {join? : Token → Option (Node → Node → Node)} {operand : Parser Node}
    (hj : join? stop = none) (hj' : join? stop' = none) (ho : Extends stop stop' us operand) :
    TurnExtends stop stop' us (chainStep join? operand) := by
  intro left ahead n rest hseam h
  obtain ⟨op, mid, join, right, rfl, hop, hr, rfl⟩ := (chainStep_eq_some hj).mp h
  exact (chainStep_eq_some hj').mpr
    ⟨op, mid ++ us, join, right, rfl, hop, ho mid right rest hseam.tail hr, rfl⟩

section Ends

variable (hs : stop.kind = .endOfInput) (hs' : stop'.kind = .endOfInput)

include hs hs'

theorem primary_extends (he : Extends stop stop' us e) : Extends stop stop' us (primary e) := by
  intro ahead n rest hseam h
  apply (primary_eq_ok hs').mpr
  obtain ⟨t, kind, rfl, ht, rfl⟩ | ⟨left, mid, right, rfl, hl, hn, hr⟩ := (primary_eq_ok hs).mp h
  · exact .inl ⟨t, kind, rfl, ht, rfl⟩
  · exact .inr ⟨left, mid ++ us, right, rfl, hl, he mid n _ hseam.tail hn, hr⟩

theorem memberStep_extends (he : Extends stop stop' us e) :
    TurnExtends stop stop' us (memberStep e) := by
  intro receiver ahead n rest hseam h
  apply (memberStep_eq_some hs').mpr
  obtain ⟨dot, name, rfl, hd, hi, rfl⟩ | ⟨left, mid, key, right, rfl, hl, hk, hr, rfl⟩ :=
    (memberStep_eq_some hs).mp h
  · exact .inl ⟨dot, name, rfl, hd, hi, rfl⟩
  · exact .inr ⟨left, mid ++ us, key, right, rfl, hl, he mid key _ hseam.tail hk, hr, rfl⟩

theorem callStep_extends (hr : Expressive e) (he : Extends stop stop' us e) :
    TurnExtends stop stop' us (callStep e) := by
  intro callee ahead n rest hseam h
  obtain ⟨paren, mid, args, rfl, hp, ha, rfl⟩ := (callStep_eq_some hs).mp h
  have hargs := commaListUntil_extends hs hs' (by decide) (argument_reads (hr stop hs))
    (argument_reads (hr stop' hs')) he mid args rest hseam.tail ha
  exact (callStep_eq_some hs').mpr ⟨paren, mid ++ us, args, rfl, hp, hargs, rfl⟩

theorem reader_extends_of_tighter (hr : Expressive e) {l next : Level} (hl : l.joinsLeft = true)
    (ht : l.tighter? = some next) (hn : Extends stop stop' us (reader e next))
    (hturn : TurnExtends stop stop' us (turn e l)) :
    Extends stop stop' us (reader e l) := by
  intro ahead n rest hseam h
  obtain ⟨first, mid, hf, hloop⟩ := (reader_eq_ok hl ht).mp h
  refine (reader_eq_ok hl ht).mpr ⟨first, mid ++ us, hn ahead first mid hseam hf, ?_⟩
  obtain ⟨whole, hw, hd⟩ := reader_reads hs (hr stop hs) l ahead n rest h
  obtain ⟨used, hu, hfirst⟩ := reader_reads hs (hr stop hs) next ahead first mid hf
  have hreads := turn_reads hs (hr stop hs) hl
  have hseam' : Seam mid stop' us := by
    rw [hu] at hseam
    exact hseam.suffix
  refine foldWhile_extend hreads (turn_reads hs' (hr stop' hs') hl) hturn hseam' hloop ?_
  refine (turn_eq_none hl).mpr ⟨rfl, ?_⟩
  obtain ⟨-, -, -, hnone⟩ := hreads.foldWhile hloop (.tighter ht hfirst)
  cases rest with
  | cons t rest => exact ((turn_eq_none hl).mp hnone).2
  | nil =>
    refine Bool.eq_false_iff.mpr fun htakes => ?_
    obtain ⟨rfl, hopen⟩ := hseam.takes htakes
    -- a call ends with a token that closes an operand
    obtain ⟨ts, t, rfl, hclose⟩ := hd.level_last (Nat.le_refl _)
    rw [hw, List.append_nil, List.getLast?_concat] at hopen
    rw [hopen t rfl] at hclose
    cases hclose

theorem disjunction_extends (hr : Expressive e) (he : Extends stop stop' us e) :
    Extends stop stop' us (disjunction e) := by
  have hup {l next : Level} (hl : l.joinsLeft = true) (ht : l.tighter? = some next)
      (hn : Extends stop stop' us (reader e next)) (hturn : TurnExtends stop stop' us (turn e l)) :
      Extends stop stop' us (reader e l) := reader_extends_of_tighter hs hs' hr hl ht hn hturn
  have hchain (l : Level) {operand : Parser Node} (ho : Extends stop stop' us operand) :
      TurnExtends stop stop' us (chainStep (join? l) operand) :=
    chainStep_extends (join?_stop hs l) (join?_stop hs' l) ho
  have hprimary : Extends stop stop' us (reader e .primary) := primary_extends hs hs' he
  have hmember : Extends stop stop' us (reader e .member) :=
    hup rfl rfl hprimary (memberStep_extends hs hs' he)
  have hcall : Extends stop stop' us (reader e .call) :=
    hup rfl rfl hmember (callStep_extends hs hs' hr he)
  have hproduct : Extends stop stop' us (reader e .product) :=
    hup rfl rfl hcall (hchain .product hcall)
  have hsum : Extends stop stop' us (reader e .sum) :=
    hup rfl rfl hproduct (hchain .sum hproduct)
  have hrelation : Extends stop stop' us (reader e .relation) :=
    hup rfl rfl hsum (hchain .relation hsum)
  have hequality : Extends stop stop' us (reader e .equality) :=
    hup rfl rfl hrelation (hchain .equality hrelation)
  have hconjunction : Extends stop stop' us (reader e .conjunction) :=
    hup rfl rfl hequality (hchain .conjunction hequality)
  exact hup (l := .disjunction) rfl rfl hconjunction (hchain .disjunction hconjunction)

theorem property_extends (hr : Expressive e) (he : Extends stop stop' us e) :
    Extends stop stop' us (property e) := by
  intro ahead n rest hseam h
  obtain ⟨key, mid, value, last, rfl, hk, hv, hc, rfl⟩ := (property_eq_ok hs).mp h
  have hmid := hseam.tail
  refine (property_eq_ok hs').mpr ⟨key, mid ++ us, value, last ++ us, rfl, hk, ?_⟩
  obtain ⟨colon, more, rfl, hcolon, hv⟩ | ⟨hcolon, rfl, rfl⟩ := hv
  · obtain ⟨used, hu, -⟩ := hr stop hs more value last hv
    have hlast : Seam last stop' us := by
      have hmore := hmid.tail
      rw [hu] at hmore
      exact hmore.suffix
    exact ⟨.inl ⟨colon, more ++ us, rfl, hcolon, he more value last hmid.tail hv⟩,
      hlast.skips (by decide) hc, rfl⟩
  · exact ⟨.inr ⟨hmid.kind_ne (by decide) hcolon, rfl, rfl⟩, hmid.skips (by decide) hc, rfl⟩

theorem object_extends (hr : Expressive e) (he : Extends stop stop' us e) :
    Extends stop stop' us (object e) := by
  intro ahead n rest hseam h
  apply (object_eq_ok hs').mpr
  obtain ⟨brace, mid, entries, rfl, hb, hi, rfl⟩ | ⟨hk, hd⟩ := (object_eq_ok hs).mp h
  · have hitems := bracedItems_extends hs (propertyStep_reads hs (hr stop hs))
      (propertyStep_reads hs' (hr stop' hs')) (fun _ => .propertiesNone)
      (property_extends hs hs' hr he)
    exact .inl ⟨brace, mid ++ us, entries, rfl, hb, hitems mid entries rest hseam.tail hi, rfl⟩
  · have hd' := disjunction_extends hs hs' hr he ahead n rest hseam hd
    obtain ⟨used, rfl, hn⟩ := disjunction_reads hs (hr stop hs) ahead n rest hd
    obtain ⟨t, ts, rfl, -⟩ := hn.level_head
    exact .inr ⟨hk, hd'⟩

theorem assignStep_extends (hr : Expressive e) (he : Extends stop stop' us e) :
    TurnExtends stop stop' us (assignStep e) := by
  intro state ahead next rest hseam h
  obtain ⟨op, mid, label, value, rfl, hop, hv, rfl⟩ := (assignStep_eq_some hs).mp h
  have hv' := object_extends hs hs' hr he mid value rest hseam.tail hv
  exact (assignStep_eq_some hs').mpr ⟨op, mid ++ us, label, value, rfl, hop, hv', rfl⟩

theorem assignment_extends (hr : Expressive e) (he : Extends stop stop' us e) :
    Extends stop stop' us (assignment e) := by
  intro ahead n rest hseam h
  obtain ⟨first, mid, pending, last, hf, hl, rfl⟩ := assignment_eq_ok.mp h
  have hf' := object_extends hs hs' hr he ahead first mid hseam hf
  refine assignment_eq_ok.mpr ⟨first, mid ++ us, pending, last, hf', ?_, rfl⟩
  obtain ⟨used, rfl, hfirst⟩ := object_reads hs (hr stop hs) ahead first mid hf
  have hreads := assignStep_reads hs (hr stop hs)
  have hawaits : Awaits ([], first) used := ⟨[], used, rfl, hfirst, fun _ _ hd => hd⟩
  refine foldWhile_extend hreads (assignStep_reads hs' (hr stop' hs'))
    (assignStep_extends hs hs' hr he) hseam.suffix hl (assignStep_eq_none.mpr ⟨rfl, ?_⟩)
  obtain ⟨-, -, -, hnone⟩ := hreads.foldWhile hl hawaits
  cases rest with
  | cons t rest => exact (assignStep_eq_none.mp hnone).2
  | nil =>
    refine Option.not_isSome_iff_eq_none.mp fun hsome => ?_
    have htakes : Level.assignment.takes (us.headD stop') = true := by
      rw [assignment?_eq] at hsome
      exact hsome
    cases (hseam.takes htakes).1

theorem expression_extends (depth : Nat) : Extends stop stop' us (Parser.expression depth) := by
  induction depth with
  | zero => exact fun _ _ _ _ h => (tooDeep_eq_ok.mp h).elim
  | succ depth ih => exact assignment_extends hs hs' (expressive_expression depth) ih

end Ends

end Expressions

end Parser

end Bahasa
