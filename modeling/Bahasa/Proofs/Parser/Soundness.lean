import Bahasa.Proofs.Legible
import Bahasa.Proofs.Parser.Opening
import Bahasa.Proofs.Shape

namespace Bahasa.Parser

section Reading

variable {α : Type} {stop : Token} {step : α → Parser (Option α)}
  {I : α → List Token → List Token → Prop}

def Reads (stop : Token) (p : Parser α) (P : α → List Token → Prop) : Prop :=
  ∀ ahead a rest, p stop ahead = .ok (a, rest) → ∃ used, ahead = used ++ rest ∧ P a used

/-- What follows does not go on with what the reader has read. -/
def Separates (stop : Token) (p : Parser α) : Prop :=
  ∀ used a rest, p stop (used ++ rest) = .ok (a, rest) → Separate used rest

/-- A step of a loop keeps a relation between its state, the tokens used up since the start and the
tokens ahead. -/
structure StepReads (stop : Token) (step : α → Parser (Option α))
    (I : α → List Token → List Token → Prop) : Prop where
  turn : ∀ a ahead b rest, step a stop ahead = .ok (some b, rest) →
    ∃ used, used ≠ [] ∧ ahead = used ++ rest ∧ ∀ before, I a before ahead →
      I b (before ++ used) rest
  done : ∀ a ahead rest, step a stop ahead = .ok (none, rest) → ahead = rest

theorem StepReads.shortens (h : StepReads stop step I) : Shortens step stop := by
  intro a ahead b rest hab
  obtain ⟨used, hne, rfl, -⟩ := h.turn a ahead b rest hab
  have hpos := List.length_pos_iff.mpr hne
  rw [List.length_append]
  omega

theorem StepReads.loop (h : StepReads stop step I) {a b : α} {ahead rest before : List Token}
    (hl : Loop step stop a ahead b rest) (ha : I a before ahead) :
    ∃ used, ahead = used ++ rest ∧ I b (before ++ used) rest ∧
      step b stop rest = .ok (none, rest) := by
  induction hl generalizing before with
  | @done a ahead rest hd =>
    obtain rfl := h.done a ahead rest hd
    exact ⟨[], rfl, by simpa using ha, hd⟩
  | @turn a b c ahead mid rest ht _ ih =>
    obtain ⟨used, -, rfl, hb⟩ := h.turn a ahead b mid ht
    obtain ⟨more, rfl, hc, hd⟩ := ih (hb before ha)
    exact ⟨used ++ more, by simp, by simpa using hc, hd⟩

theorem StepReads.foldWhile (h : StepReads stop step I) {a b : α} {ahead rest before : List Token}
    (hf : foldWhile step a stop ahead = .ok (b, rest)) (ha : I a before ahead) :
    ∃ used, ahead = used ++ rest ∧ I b (before ++ used) rest ∧
      step b stop rest = .ok (none, rest) :=
  h.loop ((foldWhile_eq_ok h.shortens).mp hf) ha

end Reading

section Lists

variable {α : Type} {stop : Token} {item : Parser α} {i : Item} {node : α → Node}

section Commas

variable {P : α → List Token → Prop} {Q : List α → List Token → Prop}
  (hmore : ∀ as ts comma a us, Q as ts → comma.kind = .comma → P a us →
    Q (a :: as) (ts ++ comma :: us))

include hmore

theorem commaStep_collects (hs : stop.kind = .endOfInput) (hi : Reads stop item P) :
    StepReads stop (commaStep item) (fun as ts _ => Q as ts) where
  turn := by
    intro as ahead bs rest h
    obtain ⟨comma, mid, a, rfl, hc, ha, rfl⟩ := (commaStep_eq_some hs).mp h
    obtain ⟨ts, rfl, hd⟩ := hi _ _ _ ha
    exact ⟨comma :: ts, by simp, rfl, fun before hb => hmore as before comma a ts hb hc hd⟩
  done := fun _ _ _ h => ((commaStep_eq_none hs).mp h).1

theorem commaListUntil_collects (hs : stop.kind = .endOfInput) {close : Kind}
    (hc : close ≠ .endOfInput) {complaint : Complaint} (hi : Reads stop item P)
    (hone : ∀ a ts, P a ts → Q [a] ts) :
    Reads stop (commaListUntil close complaint item) (fun as ts =>
      ∃ us t, ts = us ++ [t] ∧ t.kind = close ∧ (as = [] ∧ us = [] ∨ Q as.reverse us)) := by
  intro ahead as rest h
  obtain ⟨rfl, t, rfl, ht⟩ | ⟨-, t, h, ht⟩ := (commaListUntil_eq_ok hs hc).mp h
  · exact ⟨[t], rfl, [], t, rfl, ht, .inl ⟨rfl, rfl⟩⟩
  · obtain ⟨first, mid, hf, hl⟩ := commaSeparated_eq_ok.mp h
    obtain ⟨ts, rfl, hd⟩ := hi _ _ _ hf
    obtain ⟨us, rfl, hn, -⟩ :=
      (commaStep_collects hmore hs hi).foldWhile hl (hone first ts hd)
    exact ⟨ts ++ us ++ [t], by simp, ts ++ us, t, rfl, ht, .inr hn⟩

end Commas

theorem itemsMore_reverse {as : List α} {ts : List Token} {comma : Token} {a : α} {us : List Token}
    (hs : Derives (.items i (as.reverse.map node)) ts) (hc : comma.kind = .comma)
    (ha : Derives (.item i (node a)) us) :
    Derives (.items i ((a :: as).reverse.map node)) (ts ++ comma :: us) := by
  simpa using Derives.itemsMore hs hc ha

theorem commaStep_reads (hs : stop.kind = .endOfInput)
    (hi : Reads stop item (fun a => Derives (.item i (node a)))) :
    StepReads stop (commaStep item) (fun as ts _ => Derives (.items i (as.reverse.map node)) ts) :=
  commaStep_collects (fun _ _ _ _ _ => itemsMore_reverse) hs hi

theorem commaListUntil_reads (hs : stop.kind = .endOfInput) {close : Kind}
    (hc : close ≠ .endOfInput) {complaint : Complaint}
    (hi : Reads stop item (fun a => Derives (.item i (node a)))) :
    Reads stop (commaListUntil close complaint item) (fun as ts =>
      ∃ us t, ts = us ++ [t] ∧ t.kind = close ∧ Derives (.list i (as.map node)) us) := by
  intro ahead as rest h
  obtain ⟨used, rfl, us, t, hu, ht, has⟩ :=
    commaListUntil_collects (Q := fun as => Derives (.items i (as.reverse.map node)))
      (fun _ _ _ _ _ => itemsMore_reverse) hs hc hi (fun _ _ hd => .itemsOne hd) ahead as rest h
  refine ⟨used, rfl, us, t, hu, ht, ?_⟩
  obtain ⟨rfl, rfl⟩ | hn := has
  · exact .listNone
  · rw [List.reverse_reverse] at hn
    exact .listSome hn

theorem bracedItems_reads {enclosure : Enclosure} {I : List α → List Token → List Token → Prop}
    (hb : StepReads stop (bracedStep enclosure item) I) (hs : stop.kind = .endOfInput)
    (h0 : ∀ ahead, I [] [] ahead) :
    Reads stop (bracedItems enclosure item) (fun as ts =>
      ∃ us t, ts = us ++ [t] ∧ t.kind = .rbrace ∧ ∃ rest, I as.reverse us rest) := by
  intro ahead as rest h
  obtain ⟨mid, hf, rfl⟩ := bracedItems_eq_ok.mp h
  obtain ⟨us, rfl, hi, hd⟩ := hb.foldWhile hf (h0 ahead)
  obtain ⟨t, rest, rfl, ht⟩ :=
    (headD_kind hs (by decide : Kind.rbrace ≠ _)).mp (bracedStep_eq_none.mp hd).2
  exact ⟨us ++ [t], by simp, us, t, rfl, ht, t :: rest, hi⟩

end Lists

section Expressions

variable {stop : Token} {expression : Parser Node}

abbrev ReadsLevel (stop : Token) (p : Parser Node) (l : Level) : Prop :=
  Reads stop p (fun n => Derives (.level l n))

theorem primary_reads (hs : stop.kind = .endOfInput)
    (he : ReadsLevel stop expression .assignment) :
    ReadsLevel stop (primary expression) .primary := by
  intro ahead n rest h
  obtain ⟨t, kind, rfl, ht, rfl⟩ | ⟨left, mid, right, rfl, hl, hn, hr⟩ := (primary_eq_ok hs).mp h
  · exact ⟨[t], rfl, .literal ht⟩
  · obtain ⟨ts, rfl, hd⟩ := he _ _ _ hn
    exact ⟨left :: ts ++ [right], by simp, .group hl hd hr⟩

theorem memberStep_reads (hs : stop.kind = .endOfInput)
    (he : ReadsLevel stop expression .assignment) :
    StepReads stop (memberStep expression) (fun n ts _ => Derives (.level .member n) ts) where
  turn := by
    intro receiver ahead n rest h
    obtain ⟨dot, name, rfl, hd, hi, rfl⟩ | ⟨left, mid, key, right, rfl, hl, hk, hr, rfl⟩ :=
      (memberStep_eq_some hs).mp h
    · exact ⟨[dot, name], by simp, rfl, fun _ hb => .member hb hd hi⟩
    · obtain ⟨ts, rfl, hd⟩ := he _ _ _ hk
      refine ⟨left :: ts ++ [right], by simp, by simp, fun before hb => ?_⟩
      simpa [Node.build] using Derives.index hb hl hd hr
  done := fun _ _ _ h => (memberStep_eq_none.mp h).1

theorem member_reads (hs : stop.kind = .endOfInput)
    (he : ReadsLevel stop expression .assignment) :
    ReadsLevel stop (member expression) .member := by
  intro ahead n rest h
  obtain ⟨receiver, mid, hr, hf⟩ := member_eq_ok.mp h
  obtain ⟨ts, rfl, hd⟩ := primary_reads hs he _ _ _ hr
  obtain ⟨us, rfl, hn, -⟩ := (memberStep_reads hs he).foldWhile hf (.tighter rfl hd)
  exact ⟨ts ++ us, by simp, hn⟩

theorem argument_reads (he : ReadsLevel stop expression .assignment) :
    Reads stop expression (fun a => Derives (.item .argument (id a))) := by
  intro ahead a rest h
  obtain ⟨ts, rfl, hd⟩ := he _ _ _ h
  exact ⟨ts, rfl, .argument hd⟩

theorem callStep_reads (hs : stop.kind = .endOfInput)
    (he : ReadsLevel stop expression .assignment) :
    StepReads stop (callStep expression) (fun n ts _ => Derives (.level .call n) ts) where
  turn := by
    intro callee ahead n rest h
    obtain ⟨left, mid, args, rfl, hl, ha, rfl⟩ := (callStep_eq_some hs).mp h
    obtain ⟨ts, rfl, us, right, rfl, hr, hd⟩ :=
      commaListUntil_reads hs (by decide : Kind.rparen ≠ _) (argument_reads he) _ _ _ ha
    rw [List.map_id] at hd
    refine ⟨left :: us ++ [right], by simp, by simp, fun before hb => ?_⟩
    simpa [Node.build] using Derives.call hb hl hd hr
  done := fun _ _ _ h => (callStep_eq_none.mp h).1

theorem call_reads (hs : stop.kind = .endOfInput) (he : ReadsLevel stop expression .assignment) :
    ReadsLevel stop (call expression) .call := by
  intro ahead n rest h
  obtain ⟨callee, mid, hc, hf⟩ := call_eq_ok.mp h
  obtain ⟨ts, rfl, hd⟩ := member_reads hs he _ _ _ hc
  obtain ⟨us, rfl, hn, -⟩ := (callStep_reads hs he).foldWhile hf (.tighter rfl hd)
  exact ⟨ts ++ us, by simp, hn⟩

def JoinsAt (join? : Token → Option (Node → Node → Node)) (level next : Level) : Prop :=
  ∀ op join, join? op = some join → ∀ l r ts us, Derives (.level level l) ts →
    Derives (.level next r) us → Derives (.level level (join l r)) (ts ++ op :: us)

variable {join? : Token → Option (Node → Node → Node)} {operand : Parser Node} {level next : Level}

theorem chainStep_reads (hj : join? stop = none) (hg : JoinsAt join? level next)
    (ho : ReadsLevel stop operand next) :
    StepReads stop (chainStep join? operand) (fun n ts _ => Derives (.level level n) ts) where
  turn := by
    intro left ahead n rest h
    obtain ⟨op, mid, join, right, rfl, hop, hr, rfl⟩ := (chainStep_eq_some hj).mp h
    obtain ⟨ts, rfl, hd⟩ := ho _ _ _ hr
    exact ⟨op :: ts, by simp, rfl, fun before hb => hg op join hop left right before ts hb hd⟩
  done := fun _ _ _ h => (chainStep_eq_none.mp h).1

theorem chain_reads (hj : join? stop = none) (ht : level.tighter? = some next)
    (hg : JoinsAt join? level next) (ho : ReadsLevel stop operand next) :
    ReadsLevel stop (chain join? operand) level := by
  intro ahead n rest h
  obtain ⟨first, mid, hf, hl⟩ := chain_eq_ok.mp h
  obtain ⟨ts, rfl, hd⟩ := ho _ _ _ hf
  obtain ⟨us, rfl, hn, -⟩ := (chainStep_reads hj hg ho).foldWhile hl (.tighter ht hd)
  exact ⟨ts ++ us, by simp, hn⟩

theorem arithmetic_joinsAt (level : Level) {next : Level} (ht : level.tighter? = some next) :
    JoinsAt (arithmetic? level.signs) level next := by
  intro op join hop l r ts us hl hr
  obtain ⟨hk, hs, rfl⟩ := arithmetic?_eq_some.mp hop
  exact .arithmetic hl hk hs ht hr

theorem labelled_joinsAt {label? : Kind → Option Label} (ht : level.tighter? = some next)
    (hl : ∀ k label, label? k = some label → level.label? k = some label) :
    JoinsAt (labelled? label?) level next := by
  intro op join hop l r ts us hdl hdr
  obtain ⟨label, hk, rfl⟩ := labelled?_eq_some.mp hop
  exact .join hdl (hl _ _ hk) ht hdr

theorem arithmetic?_stop (hs : stop.kind = .endOfInput) (signs : List String) :
    arithmetic? signs stop = none := by
  simp [arithmetic?, hs]

theorem labelled?_stop (hs : stop.kind = .endOfInput) {label? : Kind → Option Label}
    (hl : label? .endOfInput = none) : labelled? label? stop = none := by
  simp [labelled?, hs, hl]

theorem product_reads (hs : stop.kind = .endOfInput) (he : ReadsLevel stop expression .assignment) :
    ReadsLevel stop (product expression) .product :=
  chain_reads (arithmetic?_stop hs _) rfl (arithmetic_joinsAt .product rfl)
    (call_reads hs he)

theorem sum_reads (hs : stop.kind = .endOfInput) (he : ReadsLevel stop expression .assignment) :
    ReadsLevel stop (sum expression) .sum :=
  chain_reads (arithmetic?_stop hs _) rfl (arithmetic_joinsAt .sum rfl)
    (product_reads hs he)

theorem relation?_label (k : Kind) (label : Label) (h : relation? k = some label) :
    Level.relation.label? k = some label := by
  cases k <;> simp_all [relation?, Level.label?]

theorem equality?_label (k : Kind) (label : Label) (h : equality? k = some label) :
    Level.equality.label? k = some label := by
  cases k <;> simp_all [equality?, Level.label?]

theorem conjunction?_label (k : Kind) (label : Label) (h : conjunction? k = some label) :
    Level.conjunction.label? k = some label := by
  cases k <;> simp_all [conjunction?, Level.label?]

theorem disjunction?_label (k : Kind) (label : Label) (h : disjunction? k = some label) :
    Level.disjunction.label? k = some label := by
  cases k <;> simp_all [disjunction?, Level.label?]

theorem relation_reads (hs : stop.kind = .endOfInput)
    (he : ReadsLevel stop expression .assignment) :
    ReadsLevel stop (relation expression) .relation :=
  chain_reads (labelled?_stop hs rfl) rfl (labelled_joinsAt rfl relation?_label) (sum_reads hs he)

theorem equality_reads (hs : stop.kind = .endOfInput)
    (he : ReadsLevel stop expression .assignment) :
    ReadsLevel stop (equality expression) .equality :=
  chain_reads (labelled?_stop hs rfl) rfl (labelled_joinsAt rfl equality?_label)
    (relation_reads hs he)

theorem conjunction_reads (hs : stop.kind = .endOfInput)
    (he : ReadsLevel stop expression .assignment) :
    ReadsLevel stop (conjunction expression) .conjunction :=
  chain_reads (labelled?_stop hs rfl) rfl (labelled_joinsAt rfl conjunction?_label)
    (equality_reads hs he)

theorem disjunction_reads (hs : stop.kind = .endOfInput)
    (he : ReadsLevel stop expression .assignment) :
    ReadsLevel stop (disjunction expression) .disjunction :=
  chain_reads (labelled?_stop hs rfl) rfl (labelled_joinsAt rfl disjunction?_label)
    (conjunction_reads hs he)

theorem Skips.optional {kind : Kind} {ahead rest : List Token} (h : Skips kind stop ahead rest) :
    ∃ ts, ahead = ts ++ rest ∧ Optional kind ts := by
  obtain ⟨t, rfl, ht⟩ | ⟨-, rfl⟩ := h
  · exact ⟨[t], rfl, .inr ⟨t, rfl, ht⟩⟩
  · exact ⟨[], rfl, .inl rfl⟩

theorem propertyStep_reads (hs : stop.kind = .endOfInput)
    (he : ReadsLevel stop expression .assignment) :
    StepReads stop (bracedStep .object (property expression))
      (fun ns ts _ => Derives (.properties ns.reverse) ts) where
  turn := by
    intro ns ahead more rest h
    obtain ⟨-, -, n, hp, rfl⟩ := bracedStep_eq_some.mp h
    obtain ⟨key, mid, value, last, rfl, hk, hv, hc, rfl⟩ := (property_eq_ok hs).mp hp
    obtain ⟨vs, rfl, hvs⟩ := hc.optional
    have hi : ∃ us, mid = us ++ (vs ++ rest) ∧ Derives (.initial value) us := by
      obtain ⟨colon, more, rfl, hcolon, hv⟩ | ⟨-, rfl, rfl⟩ := hv
      · obtain ⟨us, rfl, hd⟩ := he _ _ _ hv
        exact ⟨colon :: us, rfl, .initialSome hcolon hd⟩
      · exact ⟨[], rfl, .initialNone⟩
    obtain ⟨us, rfl, hd⟩ := hi
    refine ⟨key :: us ++ vs, by simp, by simp, fun before hb => ?_⟩
    simpa [Node.build, Node.ofToken] using Derives.propertiesMore hb hk hd hvs
  done := fun _ _ _ h => (bracedStep_eq_none.mp h).1

theorem object_reads (hs : stop.kind = .endOfInput) (he : ReadsLevel stop expression .assignment) :
    ReadsLevel stop (object expression) .object := by
  intro ahead n rest h
  obtain ⟨left, mid, entries, rfl, hl, hb, rfl⟩ | ⟨-, h⟩ := (object_eq_ok hs).mp h
  · obtain ⟨ts, rfl, us, right, rfl, hr, -, hd⟩ :=
      bracedItems_reads (propertyStep_reads hs he) hs (fun _ => .propertiesNone) _ _ _ hb
    rw [List.reverse_reverse] at hd
    exact ⟨left :: us ++ [right], by simp, .object hl hd hr⟩
  · obtain ⟨ts, rfl, hd⟩ := disjunction_reads hs he _ _ _ h
    exact ⟨ts, rfl, .tighter rfl hd⟩

theorem assignment?_eq (k : Kind) : assignment? k = k.assignment? := by
  cases k <;> rfl

/-- Targets that wait for a value, together with the last operand read. -/
def Awaits (state : List Pending × Node) (ts : List Token) : Prop :=
  ∃ us vs, ts = us ++ vs ∧ Derives (.level .object state.2) vs ∧
    ∀ value ws, Derives (.level .assignment value) ws →
      Derives (.level .assignment (state.1.foldl Pending.close value)) (us ++ ws)

theorem assignStep_reads (hs : stop.kind = .endOfInput)
    (he : ReadsLevel stop expression .assignment) :
    StepReads stop (assignStep expression) (fun state ts _ => Awaits state ts) where
  turn := by
    rintro ⟨pending, left⟩ ahead state rest h
    obtain ⟨op, mid, label, value, rfl, ho, hv, rfl⟩ := (assignStep_eq_some hs).mp h
    obtain ⟨ts, rfl, hd⟩ := object_reads hs he _ _ _ hv
    refine ⟨op :: ts, by simp, rfl, ?_⟩
    rintro _ ⟨us, vs, rfl, hl, hp⟩
    refine ⟨us ++ vs ++ [op], ts, by simp, hd, fun value ws hw => ?_⟩
    rw [assignment?_eq] at ho
    simpa [Pending.close, Node.build] using hp _ _ (Derives.assign hl ho hw)
  done := fun _ _ _ h => (assignStep_eq_none.mp h).1

theorem assignment_reads (hs : stop.kind = .endOfInput)
    (he : ReadsLevel stop expression .assignment) :
    ReadsLevel stop (assignment expression) .assignment := by
  intro ahead n rest h
  obtain ⟨first, mid, pending, last, hf, hl, rfl⟩ := assignment_eq_ok.mp h
  obtain ⟨ts, rfl, hd⟩ := object_reads hs he _ _ _ hf
  have h0 : Awaits ([], first) ts := ⟨[], ts, rfl, hd, fun _ _ hw => hw⟩
  obtain ⟨us, rfl, ⟨vs, ws, heq, hlast, hclose⟩, -⟩ := (assignStep_reads hs he).foldWhile hl h0
  refine ⟨ts ++ us, by simp, ?_⟩
  rw [heq]
  exact hclose _ _ (.tighter rfl hlast)

theorem expression_reads (hs : stop.kind = .endOfInput) (depth : Nat) :
    ReadsLevel stop (Parser.expression depth) .assignment := by
  induction depth with
  | zero => exact fun _ _ _ h => (tooDeep_eq_ok.mp h).elim
  | succ depth ih => exact assignment_reads hs ih

theorem call_separates (hs : stop.kind = .endOfInput)
    (he : ReadsLevel stop expression .assignment) :
    Separates stop (call expression) := by
  -- a call goes on as long as parentheses follow
  intro used n rest h
  obtain ⟨callee, mid, hc, hf⟩ := call_eq_ok.mp h
  obtain ⟨ts, -, hd⟩ := member_reads hs he _ _ _ hc
  obtain ⟨-, -, -, hnone⟩ := (callStep_reads hs he).foldWhile hf (.tighter rfl hd)
  refine .inl fun t ht hp => (callStep_eq_none.mp hnone).2 ?_
  rw [List.headD_eq_head?_getD, Option.mem_def.mp ht]
  exact hp

theorem separate_loop {α : Type} {step : α → Parser (Option α)} {a b : α}
    {used mid rest : List Token}
    (hr : StepReads stop step fun _ before ahead => Separate before ahead)
    (hf : foldWhile step a stop mid = .ok (b, rest)) {ts : List Token}
    (hu : used ++ rest = ts ++ mid)
    (hsep : Separate ts mid) : Separate used rest := by
  obtain ⟨us, rfl, hlast, -⟩ := hr.foldWhile hf hsep
  rw [← List.append_assoc] at hu
  rwa [List.append_cancel_right hu]

theorem chainStep_separates (hj : join? stop = none) (ho : ReadsLevel stop operand next)
    (hp : Separates stop operand) :
    StepReads stop (chainStep join? operand) (fun _ before ahead => Separate before ahead) where
  turn := by
    intro left ahead n rest h
    obtain ⟨op, mid, join, right, rfl, -, hr, rfl⟩ := (chainStep_eq_some hj).mp h
    obtain ⟨ts, rfl, hd⟩ := ho _ _ _ hr
    refine ⟨op :: ts, by simp, rfl, fun before _ => ?_⟩
    have hlast : Separate (before ++ [op] ++ ts) rest :=
      (hp ts right rest hr).append_left hd.level_ne_nil
    simpa using hlast
  done := fun _ _ _ h => (chainStep_eq_none.mp h).1

theorem chain_separates (hj : join? stop = none) (ho : ReadsLevel stop operand next)
    (hp : Separates stop operand) : Separates stop (chain join? operand) := by
  intro used n rest h
  obtain ⟨first, mid, hf, hl⟩ := chain_eq_ok.mp h
  obtain ⟨ts, hu, -⟩ := ho _ _ _ hf
  rw [hu] at hf
  exact separate_loop (chainStep_separates hj ho hp) hl hu (hp ts first mid hf)

theorem disjunction_separates (hs : stop.kind = .endOfInput)
    (he : ReadsLevel stop expression .assignment) : Separates stop (disjunction expression) := by
  have hproduct : Separates stop (product expression) :=
    chain_separates (arithmetic?_stop hs _) (call_reads hs he) (call_separates hs he)
  have hsum : Separates stop (sum expression) :=
    chain_separates (arithmetic?_stop hs _) (product_reads hs he) hproduct
  have hrelation : Separates stop (relation expression) :=
    chain_separates (labelled?_stop hs rfl) (sum_reads hs he) hsum
  have hequality : Separates stop (equality expression) :=
    chain_separates (labelled?_stop hs rfl) (relation_reads hs he) hrelation
  have hconjunction : Separates stop (conjunction expression) :=
    chain_separates (labelled?_stop hs rfl) (equality_reads hs he) hequality
  exact chain_separates (labelled?_stop hs rfl) (conjunction_reads hs he) hconjunction

theorem object_separates (hs : stop.kind = .endOfInput)
    (he : ReadsLevel stop expression .assignment) :
    Separates stop (object expression) := by
  intro used n rest h
  obtain ⟨left, mid, entries, hu, -, hb, -⟩ | ⟨-, h⟩ := (object_eq_ok hs).mp h
  · obtain ⟨-, rfl, us, right, rfl, hr, -⟩ :=
      bracedItems_reads (propertyStep_reads hs he) hs (fun _ => .propertiesNone) _ _ _ hb
    have hu : used ++ rest = left :: (us ++ [right]) ++ rest := hu
    obtain rfl := List.append_cancel_right hu
    exact .of_finished (.concat (left :: us) (.inr hr)) rest
  · exact disjunction_separates hs he used n rest h

theorem assignStep_separates (hs : stop.kind = .endOfInput)
    (he : ReadsLevel stop expression .assignment) :
    StepReads stop (assignStep expression) (fun _ before ahead => Separate before ahead) where
  turn := by
    intro state ahead next rest h
    obtain ⟨op, mid, label, value, rfl, -, hv, rfl⟩ := (assignStep_eq_some hs).mp h
    obtain ⟨ts, rfl, hd⟩ := object_reads hs he _ _ _ hv
    refine ⟨op :: ts, by simp, rfl, fun before _ => ?_⟩
    have hlast : Separate (before ++ [op] ++ ts) rest :=
      (object_separates hs he ts value rest hv).append_left hd.level_ne_nil
    simpa using hlast
  done := fun _ _ _ h => (assignStep_eq_none.mp h).1

theorem assignment_separates (hs : stop.kind = .endOfInput)
    (he : ReadsLevel stop expression .assignment) : Separates stop (assignment expression) := by
  intro used n rest h
  obtain ⟨first, mid, pending, last, hf, hl, -⟩ := assignment_eq_ok.mp h
  obtain ⟨ts, hu, -⟩ := object_reads hs he _ _ _ hf
  rw [hu] at hf
  exact separate_loop (assignStep_separates hs he) hl hu (object_separates hs he ts first mid hf)

theorem expression_separates (hs : stop.kind = .endOfInput) (depth : Nat) :
    Separates stop (Parser.expression depth) := by
  cases depth with
  | zero => exact fun _ _ _ h => (tooDeep_eq_ok.mp h).elim
  | succ depth => exact assignment_separates hs (expression_reads hs depth)

end Expressions

section Statements

variable {numeral : String → Prop} {stop : Token} {expression statement : Parser Node}

/-- The tokens spell the phrase, and if their numbers are well written its trees are well shaped. -/
structure Spells (numeral : String → Prop) (φ : Phrase) (shape : Prop) (ts : List Token) :
    Prop where
  legible : Legible φ ts
  shaped : Numerals numeral ts → shape

theorem Spells.derived {φ : Phrase} {shape : Prop} {ts : List Token}
    (h : Spells numeral φ shape ts) : Derives φ ts :=
  h.legible.derives

structure ReadsStatement (numeral : String → Prop) (stop : Token) (p : Parser Node) : Prop where
  reads : Reads stop p (fun n => Spells numeral (.statement n) (n.Fits numeral .statement))
  separates : Separates stop p

abbrev ReadsBlock (numeral : String → Prop) (stop : Token) (p : Parser Node) : Prop :=
  Reads stop p (fun n => Spells numeral (.block n) (n.Fits numeral .block))

theorem declaration_reads (numeral : String → Prop) (hs : stop.kind = .endOfInput)
    (he : ReadsLevel stop expression .assignment) {ahead rest : List Token} {n : Node}
    (hk : (ahead.headD stop).kind = .letWord ∨ (ahead.headD stop).kind = .constWord)
    (h : declaration expression stop ahead = .ok (n, rest)) :
    ∃ used, ahead = used ++ rest ∧ Simple n used ∧
      (Numerals numeral used → n.Fits numeral .declaration) := by
  obtain ⟨keyword, name, mid, value, semi, rfl, hi, hv, hsemi, rfl⟩ := (declaration_eq_ok hs).mp h
  rw [List.headD_cons] at hk
  have hhead (ts : List Token) :
    ∃ t ∈ (keyword :: ts).head?, t.kind = .letWord ∨ t.kind = .constWord :=
    ⟨keyword, rfl, hk⟩
  obtain ⟨colon, more, rfl, hc, hv⟩ | ⟨-, hconst, rfl, rfl⟩ := hv
  · obtain ⟨ts, rfl, hd⟩ := he _ _ _ hv
    refine ⟨keyword :: name :: colon :: ts ++ [semi], by simp, ?_⟩
    obtain hk | hk := hk
    · have hkind : keywordKind keyword = .letWord := by simp [keywordKind, hk]
      rw [hkind]
      refine ⟨.declaration (.variable hk hi (.initialSome hc hd) hsemi) (hhead _), fun hn => ?_⟩
      simp only [List.cons_append, Numerals.cons_iff, Numerals.append_iff] at hn
      exact .variable _ _ _ _ _ (.value (hd.shaped hn.2.2.2.1))
    · have hkind : keywordKind keyword = .constWord := by simp [keywordKind, hk]
      rw [hkind]
      refine ⟨.declaration (.constant hk hi hc hd hsemi) (hhead _), fun hn => ?_⟩
      simp only [List.cons_append, Numerals.cons_iff, Numerals.append_iff] at hn
      exact .constant _ _ _ _ _ (hd.shaped hn.2.2.2.1)
  · have hk := hk.resolve_right hconst
    have hkind : keywordKind keyword = .letWord := by simp [keywordKind, hk]
    rw [hkind]
    exact ⟨[keyword, name, semi], rfl, .declaration (.variable hk hi .initialNone hsemi) (hhead _),
      fun _ => .variable _ _ _ _ _ .noValue⟩

structure StatementsRead (numeral : String → Prop) (ns : List Node) (ts ahead : List Token) :
    Prop where
  spells : Spells numeral (.statements ns.reverse) (∀ n ∈ ns.reverse, n.Fits numeral .statement) ts
  separate : Separate ts ahead

theorem StatementsRead.nil (ahead : List Token) : StatementsRead numeral [] [] ahead :=
  ⟨⟨.statementsNone, by simp⟩, .nil ahead⟩

theorem StatementsRead.cons {ns : List Node} {n : Node} {ts us rest : List Token}
    (hns : StatementsRead numeral ns ts (us ++ rest))
    (hn : Spells numeral (.statement n) (n.Fits numeral .statement) us) (hp : Separate us rest) :
    StatementsRead numeral (n :: ns) (ts ++ us) rest := by
  have hne : us ≠ [] := hn.derived.statement_ne_nil
  refine ⟨?_, hp.append_left hne⟩
  rw [List.reverse_cons]
  refine ⟨.statementsMore hns.spells.legible (hns.separate.of_append_right hne) hn.legible,
    fun hm => ?_⟩
  rw [Numerals.append_iff] at hm
  exact forall_mem_snoc (hns.spells.shaped hm.1) (hn.shaped hm.2)

theorem blockStep_reads {enclosure : Enclosure} (hr : ReadsStatement numeral stop statement) :
    StepReads stop (bracedStep enclosure statement) (StatementsRead numeral) where
  turn := by
    intro ns ahead more rest h
    obtain ⟨-, -, n, hn, rfl⟩ := bracedStep_eq_some.mp h
    obtain ⟨ts, rfl, hd⟩ := hr.reads _ _ _ hn
    exact ⟨ts, hd.derived.statement_ne_nil, rfl, fun before hb =>
      hb.cons hd (hr.separates _ _ _ hn)⟩
  done := fun _ _ _ h => (bracedStep_eq_none.mp h).1

theorem block_reads (hs : stop.kind = .endOfInput) {enclosure : Enclosure}
    (hr : ReadsStatement numeral stop statement) :
    ReadsBlock numeral stop (block enclosure statement) := by
  intro ahead n rest h
  obtain ⟨left, mid, items, rfl, hl, hb, rfl⟩ := (block_eq_ok hs).mp h
  obtain ⟨ts, rfl, us, right, rfl, hright, -, ⟨hd, -⟩⟩ :=
    bracedItems_reads (blockStep_reads hr) hs .nil _ _ _ hb
  rw [List.reverse_reverse] at hd
  refine ⟨left :: us ++ [right], by simp, .block hl hd.legible hright, fun hn => ?_⟩
  simp only [List.cons_append, Numerals.cons_iff, Numerals.append_iff] at hn
  exact .block _ (hd.shaped hn.2.1)

theorem parameter_reads (hs : stop.kind = .endOfInput) :
    Reads stop (expect .ident .paramName)
      (fun t => Derives (.item .parameter (.ofToken .ident t))) := by
  intro ahead t rest h
  obtain ⟨rfl, ht⟩ := (expect_eq_ok hs (by decide : Kind.ident ≠ _)).mp h
  exact ⟨[t], rfl, .parameter ht⟩

theorem function_reads (hs : stop.kind = .endOfInput) (hr : ReadsStatement numeral stop statement)
    {ahead rest : List Token} {n : Node} (hk : (ahead.headD stop).kind = .fnWord)
    (h : function statement stop ahead = .ok (n, rest)) :
    ∃ used, ahead = used ++ rest ∧
      Spells numeral (.statement n) (n.Fits numeral .statement) used := by
  obtain ⟨keyword, name, left, mid, params, more, body, rfl, hi, hl, hp, hb, rfl⟩ :=
    (function_eq_ok hs).mp h
  obtain ⟨_, rfl, ts, right, rfl, hright, hps⟩ :=
    commaListUntil_reads hs (by decide : Kind.rparen ≠ _) (parameter_reads hs) _ _ _ hp
  obtain ⟨us, rfl, hbody⟩ := block_reads hs hr _ _ _ hb
  refine ⟨keyword :: name :: left :: ts ++ right :: us, by simp,
    .function hk hi hl hps hright hbody.legible, fun hn => ?_⟩
  simp only [List.cons_append, Numerals.cons_iff, Numerals.append_iff] at hn
  exact .function _ _ _ _ (hps.shaped hn.2.2.2.1) (hbody.shaped hn.2.2.2.2.2)

theorem condition_reads (hs : stop.kind = .endOfInput)
    (he : ReadsLevel stop expression .assignment) (keyword : String) :
    Reads stop (condition keyword expression) (fun n => Derives (.condition n)) := by
  intro ahead n rest h
  obtain ⟨left, mid, right, rfl, hl, hn, hr⟩ := (condition_eq_ok hs).mp h
  obtain ⟨ts, rfl, hd⟩ := he _ _ _ hn
  exact ⟨left :: ts ++ [right], by simp, .condition hl hd hr⟩

inductive ClausesRead (numeral : String → Prop) : List Clause → List Token → Prop
  | nil : ClausesRead numeral [] []
  | cons {c : Clause} {cs : List Clause} {ts us vs : List Token} (hcs : ClausesRead numeral cs ts)
      (hk : c.keyword.kind = .elifWord) (hc : Derives (.condition c.cond) us)
      (hb : Spells numeral (.block c.body) (c.body.Fits numeral .block) vs) :
      ClausesRead numeral (c :: cs) (ts ++ c.keyword :: us ++ vs)

theorem ClausesRead.spells {cs : List Clause} {ts : List Token} (h : ClausesRead numeral cs ts) :
    Spells numeral (.clauses (cs.reverse.map (Clause.node .absent)))
      (∀ n ∈ cs.reverse.map (Clause.node .absent), n.Fits numeral .clause) ts := by
  induction h with
  | nil => exact ⟨.clausesNone, by simp⟩
  | cons _ hk hc hb ih =>
    simp only [List.reverse_cons, List.map_append, List.map_cons, List.map_nil]
    refine ⟨.clausesMore ih.legible hk hc hb.legible, fun hn => ?_⟩
    simp only [Numerals.append_iff, Numerals.cons_iff] at hn
    exact forall_mem_snoc (ih.shaped hn.1.1) (.clause _ (hc.shaped hn.1.2.2) (hb.shaped hn.2))

theorem elifStep_reads (hs : stop.kind = .endOfInput)
    (he : ReadsLevel stop expression .assignment) (hr : ReadsStatement numeral stop statement) :
    StepReads stop (elifStep expression statement) (fun cs ts _ => ClausesRead numeral cs ts) where
  turn := by
    intro cs ahead more rest h
    obtain ⟨hk, c, hc, rfl⟩ := elifStep_eq_some.mp h
    obtain ⟨mid, last, rfl, hcond, hbody⟩ := (elifClause_eq_ok hs).mp hc
    obtain ⟨us, rfl, hdc⟩ := condition_reads hs he _ _ _ _ hcond
    obtain ⟨vs, rfl, hdb⟩ := block_reads hs hr _ _ _ hbody
    refine ⟨c.keyword :: us ++ vs, by simp, by simp, fun before hb => ?_⟩
    simpa using ClausesRead.cons hb hk hdc hdb
  done := fun _ _ _ h => (elifStep_eq_none.mp h).1

theorem elseClause_reads (hs : stop.kind = .endOfInput)
    (hr : ReadsStatement numeral stop statement) :
    Reads stop (elseClause statement)
      (fun n => Spells numeral (.final n) (n.Fits numeral .final)) := by
  intro ahead n rest h
  obtain ⟨keyword, mid, body, rfl, hk, hb, rfl⟩ | ⟨-, rfl, rfl⟩ := (elseClause_eq_ok hs).mp h
  · obtain ⟨ts, rfl, hd⟩ := block_reads hs hr _ _ _ hb
    exact ⟨keyword :: ts, rfl, .finalSome hk hd.legible,
      fun hn => .final _ (hd.shaped (Numerals.cons_iff.mp hn).2)⟩
  · exact ⟨[], rfl, .finalNone, fun _ => .noFinal⟩

theorem clauseNodes_snoc (otherwise : Node) (cs : List Clause) (c : Clause) :
    clauseNodes otherwise (cs ++ [c]) = cs.map (Clause.node .absent) ++ [c.node otherwise] := by
  induction cs with
  | nil => rfl
  | cons d cs ih =>
    have hne : cs ++ [c] ≠ [] := by simp
    rw [List.cons_append, clauseNodes, ih]
    · rfl
    · exact hne

theorem ifNode_snoc (keyword : Token) (cond body otherwise : Node) (cs : List Clause) (c : Clause) :
    ∃ first ∈ cs ++ [c], ifNode keyword cond body (cs ++ [c]) otherwise =
      .build .ifElse [cond, body,
        .build .elifs (cs.map (Clause.node .absent) ++ [c.node otherwise]) first.keyword, .absent]
        keyword := by
  rw [← clauseNodes_snoc]
  cases cs with
  | nil => exact ⟨c, List.mem_singleton_self c, rfl⟩
  | cons d cs => exact ⟨d, List.mem_cons_self .., rfl⟩

theorem ifElse_reads (hs : stop.kind = .endOfInput) (he : ReadsLevel stop expression .assignment)
    (hr : ReadsStatement numeral stop statement) {ahead rest : List Token} {n : Node}
    (hk : (ahead.headD stop).kind = .ifWord)
    (h : ifElse expression statement stop ahead = .ok (n, rest)) :
    ∃ used, ahead = used ++ rest ∧
      Spells numeral (.statement n) (n.Fits numeral .statement) used := by
  obtain ⟨keyword, mid, cond, afterCond, body, afterBody, clauses, afterClauses, otherwise, rfl,
    hcond, hbody, hclauses, hfinal, rfl⟩ := (ifElse_eq_ok hs).mp h
  obtain ⟨ts, rfl, hc⟩ := condition_reads hs he _ _ _ _ hcond
  obtain ⟨us, rfl, hb⟩ := block_reads hs hr _ _ _ hbody
  obtain ⟨vs, rfl, hcs, -⟩ :=
    (elifStep_reads hs he hr).foldWhile (elifClauses_eq_ok.mp hclauses) .nil
  obtain ⟨ws, rfl, hf⟩ := elseClause_reads hs hr _ _ _ hfinal
  refine ⟨keyword :: ts ++ us ++ vs ++ ws, by simp, ?_⟩
  rw [List.nil_append] at hcs
  rw [← List.reverse_reverse clauses]
  generalize clauses.reverse = cs at hcs
  cases hcs with
  | nil =>
    rw [List.append_nil]
    refine ⟨.ifElse hk hc hb.legible hf.legible, fun hn => ?_⟩
    simp only [List.cons_append, Numerals.cons_iff, Numerals.append_iff] at hn
    exact .ifElse _ (hc.shaped hn.2.1.1) (hb.shaped hn.2.1.2) (hf.shaped hn.2.2)
  | @cons c cs ts' us' vs' hcs hck hcc hcb =>
    obtain ⟨first, -, hnode⟩ := ifNode_snoc keyword cond body otherwise cs.reverse c
    rw [List.reverse_cons, hnode]
    refine ⟨?_, fun hn => ?_⟩
    · simpa using!
        Legible.ifElifs hk hc hb.legible hcs.spells.legible hck hcc hcb.legible hf.legible
    · simp only [List.cons_append, Numerals.cons_iff, Numerals.append_iff] at hn
      exact .ifElifs _ _ (hc.shaped hn.2.1.1.1) (hb.shaped hn.2.1.1.2)
        (hcs.spells.shaped hn.2.1.2.1.1)
        (.lastClause _ (hcc.shaped hn.2.1.2.1.2.2) (hcb.shaped hn.2.1.2.2) (hf.shaped hn.2.2))

theorem loopStart_reads (numeral : String → Prop) (hs : stop.kind = .endOfInput)
    (he : ReadsLevel stop expression .assignment) :
    Reads stop (loopStart expression)
      (fun n ts => Simple n ts ∧ (Numerals numeral ts → n.Fits numeral .start)) := by
  intro ahead n rest h
  obtain ⟨hk, h⟩ | ⟨-, -, mid, h, hsemi⟩ := (loopStart_eq_ok hs).mp h
  · obtain ⟨ts, rfl, hd, hfits⟩ := declaration_reads numeral hs he hk h
    exact ⟨ts, rfl, hd, fun hn => .startDeclaration (hfits hn)⟩
  · obtain ⟨ts, rfl, hd⟩ := he _ _ _ h
    obtain ⟨us, rfl, hu⟩ := hsemi.optional
    exact ⟨ts ++ us, by simp, .expression hd hu,
      fun hn => .startExpression (hd.shaped (Numerals.append_iff.mp hn).1)⟩

theorem separate_of_keyword {used rest : List Token} {n : Node}
    (hk : ((used ++ rest).headD stop).kind.opensStatement = true)
    (hd : ∃ ts, used ++ rest = ts ++ rest ∧ Derives (.statement n) ts) : Separate used rest := by
  obtain ⟨ts, hu, hd⟩ := hd
  obtain rfl := List.append_cancel_right hu
  obtain ⟨t, ts, rfl, -⟩ := hd.statement_head
  exact .of_finished (hd.statement_finished ⟨t, rfl, hk⟩) rest

theorem separate_of_declaration (hs : stop.kind = .endOfInput)
    (he : ReadsLevel stop expression .assignment) {used rest : List Token} {n : Node}
    (hk : ((used ++ rest).headD stop).kind = .letWord ∨
      ((used ++ rest).headD stop).kind = .constWord)
    (h : declaration expression stop (used ++ rest) = .ok (n, rest)) : Separate used rest := by
  obtain ⟨ts, hu, hd, -⟩ := declaration_reads (fun _ => True) hs he hk h
  have hopen : ((used ++ rest).headD stop).kind.opensStatement = true := by
    obtain hk | hk := hk <;> rw [hk] <;> rfl
  exact separate_of_keyword hopen ⟨ts, hu, hd.derives⟩

theorem separate_of_expression (he : ReadsLevel stop expression .assignment)
    (hp : Separates stop expression) {used mid rest : List Token} {n : Node}
    (h : expression stop (used ++ rest) = .ok (n, mid)) (hsemi : Skips .semicolon stop mid rest) :
    Separate used rest := by
  obtain ⟨semi, rfl, hk⟩ | ⟨-, rfl⟩ := hsemi
  · obtain ⟨ts, hu, -⟩ := he _ _ _ h
    have hu : used ++ rest = ts ++ [semi] ++ rest := by
      rw [hu, List.append_assoc, List.singleton_append]
    obtain rfl := List.append_cancel_right hu
    exact .of_finished (.concat ts (.inl hk)) rest
  · exact hp used n mid h

theorem loopStart_separates (hs : stop.kind = .endOfInput)
    (he : ReadsLevel stop expression .assignment)
    (hp : Separates stop expression) : Separates stop (loopStart expression) := by
  intro used n rest h
  obtain ⟨hk, h⟩ | ⟨-, -, mid, h, hsemi⟩ := (loopStart_eq_ok hs).mp h
  · exact separate_of_declaration hs he hk h
  · exact separate_of_expression he hp h hsemi

theorem forLoop_reads (hs : stop.kind = .endOfInput) (he : ReadsLevel stop expression .assignment)
    (hp : Separates stop expression) (hr : ReadsStatement numeral stop statement)
    {ahead rest : List Token} {n : Node} (hk : (ahead.headD stop).kind = .forWord)
    (h : forLoop expression statement stop ahead = .ok (n, rest)) :
    ∃ used, ahead = used ++ rest ∧
      Spells numeral (.statement n) (n.Fits numeral .statement) used := by
  obtain ⟨keyword, left, mid, start, afterStart, cond, semi, afterCond, increment, right, afterHead,
    body, rfl, hl, hstart, hcond, hsemi, hinc, hright, hbody, rfl⟩ := (forLoop_eq_ok hs).mp h
  obtain ⟨ts, rfl, hds, hfits⟩ := loopStart_reads numeral hs he _ _ _ hstart
  have hsep := loopStart_separates hs he hp _ _ _ hstart
  obtain ⟨us, rfl, hdc⟩ := he _ _ _ hcond
  obtain ⟨vs, rfl, hdi⟩ := he _ _ _ hinc
  obtain ⟨ws, rfl, hdb⟩ := block_reads hs hr _ _ _ hbody
  refine ⟨keyword :: left :: ts ++ us ++ semi :: vs ++ right :: ws, by simp,
    .forLoop hk hl hds (hsep.of_append_right hdc.level_ne_nil) hdc hsemi hdi hright hdb.legible,
    fun hn => ?_⟩
  simp only [List.cons_append, Numerals.cons_iff, Numerals.append_iff] at hn
  exact .forLoop _ (hfits hn.2.2.1.1.1) (hdc.shaped hn.2.2.1.1.2) (hdi.shaped hn.2.2.1.2.2)
    (hdb.shaped hn.2.2.2.2)

theorem statementWith_reads (hs : stop.kind = .endOfInput)
    (he : ReadsLevel stop expression .assignment) (hp : Separates stop expression)
    (hr : ReadsStatement numeral stop statement) :
    ReadsStatement numeral stop (statementWith expression statement) where
  reads := by
    intro ahead n rest h
    obtain ⟨hk, h⟩ | ⟨hk, h⟩ | ⟨hk, h⟩ | ⟨hk, h⟩ | ⟨-, mid, h, hsemi⟩ :=
      (statementWith_eq_ok hs).mp h
    · obtain ⟨ts, rfl, hd, hfits⟩ := declaration_reads numeral hs he hk h
      exact ⟨ts, rfl, .simple hd, fun hn => .declaration (hfits hn)⟩
    · exact function_reads hs hr hk h
    · exact ifElse_reads hs he hr hk h
    · exact forLoop_reads hs he hp hr hk h
    · obtain ⟨ts, rfl, hd⟩ := he _ _ _ h
      obtain ⟨us, rfl, hu⟩ := hsemi.optional
      exact ⟨ts ++ us, by simp, .simple (.expression hd hu),
        fun hn => .expression (hd.shaped (Numerals.append_iff.mp hn).1)⟩
  separates := by
    intro used n rest h
    obtain ⟨hk, h⟩ | ⟨hk, h⟩ | ⟨hk, h⟩ | ⟨hk, h⟩ | ⟨-, mid, h, hsemi⟩ :=
      (statementWith_eq_ok hs).mp h
    · exact separate_of_declaration hs he hk h
    · obtain ⟨ts, hu, hd⟩ := function_reads hs hr hk h
      exact separate_of_keyword (by rw [hk]; rfl) ⟨ts, hu, hd.derived⟩
    · obtain ⟨ts, hu, hd⟩ := ifElse_reads hs he hr hk h
      exact separate_of_keyword (by rw [hk]; rfl) ⟨ts, hu, hd.derived⟩
    · obtain ⟨ts, hu, hd⟩ := forLoop_reads hs he hp hr hk h
      exact separate_of_keyword (by rw [hk]; rfl) ⟨ts, hu, hd.derived⟩
    · exact separate_of_expression he hp h hsemi

theorem statement_reads (numeral : String → Prop) (hs : stop.kind = .endOfInput) (depth : Nat) :
    ReadsStatement numeral stop (Parser.statement depth) := by
  induction depth with
  | zero => exact ⟨fun _ _ _ h => (tooDeep_eq_ok.mp h).elim, fun _ _ _ h =>
      (tooDeep_eq_ok.mp h).elim⟩
  | succ depth ih =>
    exact statementWith_reads hs (expression_reads hs depth) (expression_separates hs depth) ih

theorem programStep_reads (numeral : String → Prop) (hs : stop.kind = .endOfInput) (depth : Nat) :
    StepReads stop (programStep depth) (StatementsRead numeral) where
  turn := by
    intro ns ahead more rest h
    obtain ⟨-, n, hn, rfl⟩ := programStep_eq_some.mp h
    have hr := statement_reads numeral hs depth
    obtain ⟨ts, rfl, hd⟩ := hr.reads _ _ _ hn
    exact ⟨ts, hd.derived.statement_ne_nil, rfl, fun before hb =>
      hb.cons hd (hr.separates _ _ _ hn)⟩
  done := fun _ _ _ h => (programStep_eq_none.mp h).1

theorem program_reads (numeral : String → Prop) (hs : stop.kind = .endOfInput) {depth : Nat}
    {ahead rest : List Token} {n : Node} (h : program depth stop ahead = .ok (n, rest)) :
    ∃ used, ahead = used ++ rest ∧ (rest.headD stop).kind = .endOfInput ∧
      Spells numeral (.program n) (n.Fits numeral .program) used := by
  obtain ⟨ns, hf, rfl⟩ := program_eq_ok.mp h
  obtain ⟨ts, rfl, ⟨hd, -⟩, hstop⟩ :=
    (programStep_reads numeral hs depth).foldWhile hf (.nil ahead)
  rw [List.nil_append] at hd
  exact ⟨ts, rfl, (programStep_eq_none.mp hstop).2, .program hd.legible,
    fun hm => .program _ (hd.shaped hm)⟩

theorem body_eq_used {tokens used rest : List Token} (hu : body tokens = used ++ rest)
    (hk : (rest.headD stop).kind = .endOfInput) : body tokens = used := by
  cases rest with
  | nil => rwa [List.append_nil] at hu
  | cons t rest =>
    exact absurd hk (body_kind (hu ▸ List.mem_append_right used (List.mem_cons_self ..)))

theorem parseTokens_spells (numeral : String → Prop) {depth : Nat}
    {tokens : List Token} {tree : Node}
    (h : parseTokens depth tokens = .ok tree) :
    Spells numeral (.program tree) (tree.Fits numeral .program) (body tokens) := by
  obtain ⟨stop, rest, hs, hp⟩ := parseTokens_eq_ok h
  obtain ⟨used, hu, hk, hd⟩ := program_reads numeral hs hp
  rw [body_eq_used hu hk]
  exact hd

end Statements

/-- A stream that is accepted is derived by the grammar up to its first end mark, all of it, with
the tree that is returned. -/
theorem parseTokens_derives {depth : Nat} {tokens : List Token} {tree : Node}
    (h : parseTokens depth tokens = .ok tree) : Derives (.program tree) (body tokens) :=
  (parseTokens_spells (fun _ => True) h).derived

theorem parseTokens_derives_difference :
    Derives
      (.program (.tree .program
        [.tree .assign
          [.leaf .ident "x" (some ⟨1, some 1⟩),
            .tree .binop
              [.tree .binop
                [.leaf .ident "a" (some ⟨1, some 5⟩), .leaf .operator "-" (some ⟨1, some 7⟩),
                  .leaf .ident "b" (some ⟨1, some 9⟩)] (some ⟨1, some 7⟩),
                .leaf .operator "-" (some ⟨1, some 11⟩), .leaf .ident "c" (some ⟨1, some 14⟩)]
              (some ⟨1, some 11⟩)]
          (some ⟨1, some 3⟩)] (some ⟨1, some 1⟩)))
      (body
        [⟨.ident, "x", ⟨1, 1⟩⟩, ⟨.assign, "=", ⟨1, 3⟩⟩, ⟨.ident, "a", ⟨1, 5⟩⟩,
          ⟨.arith, "-", ⟨1, 7⟩⟩, ⟨.ident, "b", ⟨1, 9⟩⟩, ⟨.arith, "-", ⟨1, 11⟩⟩,
          ⟨.lparen, "(", ⟨1, 13⟩⟩, ⟨.ident, "c", ⟨1, 14⟩⟩, ⟨.rparen, ")", ⟨1, 15⟩⟩,
          .endMark ⟨1, 16⟩]) :=
  -- the stream of `x = a - b - (c)`
  @parseTokens_derives 20 _ _ rfl

end Bahasa.Parser
