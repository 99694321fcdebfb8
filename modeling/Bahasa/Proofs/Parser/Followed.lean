import Bahasa.Proofs.Node.Places
import Bahasa.Proofs.Parser.Levels
import Bahasa.Proofs.Parser.Seam

namespace Bahasa

namespace Level

theorem takes_unique {l k : Level} {t : Token} (hl : l.takes t = true) (hk : k.takes t = true) :
    l = k := by
  obtain ⟨kind, text, position⟩ := t
  cases kind
  case arith =>
    cases l <;> simp [takes, label?, signs, Kind.assignment?] at hl <;>
      cases k <;> simp [takes, label?, signs, Kind.assignment?] at hk <;> grind
  all_goals
    cases l <;> simp [takes, label?, signs, Kind.assignment?] at hl <;>
      cases k <;> simp [takes, label?, signs, Kind.assignment?] at hk <;> rfl

theorem endsAt_of_takes {l k : Level} {t : Token} (hl : l.takes t = true) (hk : l.rank < k.rank) :
    k.EndsAt t := by
  intro j hj
  rw [← Bool.not_eq_true]
  intro ht
  have h := takes_unique hl ht
  subst h
  omega

end Level

namespace Parser

variable {e : Parser Node} {l next : Level} {ts us : List Token} {n r : Node}

def Takes (e : Parser Node) (l : Level) (ts : List Token) (n : Node) : Prop :=
  ∀ stop rest, stop.kind = .endOfInput → l.EndsAt (rest.headD stop) →
    reader e l stop (ts ++ rest) = .ok (n, rest)

def TakesWhole (e : Parser Node) (ts : List Token) (n : Node) : Prop :=
  ∀ stop rest, stop.kind = .endOfInput → Level.assignment.EndsAt (rest.headD stop) →
    e stop (ts ++ rest) = .ok (n, rest)

/-- Reading the tokens at the level comes to the tree, and from there on to whatever further turns
lead to. -/
def Leads (e : Parser Node) (l : Level) (ts : List Token) (n : Node) : Prop :=
  ∀ stop rest m last, stop.kind = .endOfInput →
    (∀ k, l.tighter? = some k → k.EndsAt (rest.headD stop)) →
    Loop (turn e l) stop n rest m last → reader e l stop (ts ++ rest) = .ok (m, last)

theorem Leads.takes (hl : l.joinsLeft = true) (h : Leads e l ts n) : Takes e l ts n := by
  intro stop rest hs hend
  refine h stop rest n rest hs (fun k hk => ?_) (.done ?_)
  · have hr := Level.rank_tighter hk
    exact hend.tighter (by omega)
  · exact (turn_eq_none hl).mpr ⟨rfl, hend l (Nat.le_refl _)⟩

theorem Takes.leads (he : Expressive e) (hl : l.joinsLeft = true) (ht : l.tighter? = some next)
    (h : Takes e next ts n) : Leads e l ts n := by
  intro stop rest m last hs hend hloop
  refine (reader_eq_ok hl ht).mpr ⟨n, rest, h stop rest hs (hend next ht), ?_⟩
  exact (foldWhile_eq_ok (turn_reads hs (he stop hs) hl).shortens).mpr hloop

theorem Leads.turn {first : Token} (hf : l.takes first = true)
    (hstep : ∀ stop rest, stop.kind = .endOfInput →
      (∀ k, l.tighter? = some k → k.EndsAt (rest.headD stop)) →
      turn e l n stop (first :: us ++ rest) = .ok (some r, rest))
    (h : Leads e l ts n) : Leads e l (ts ++ first :: us) r := by
  intro stop rest m last hs hend hloop
  rw [List.append_assoc]
  refine h stop _ m last hs (fun k hk => ?_) (.turn (hstep stop rest hs hend) hloop)
  have hr := Level.rank_tighter hk
  exact Level.endsAt_of_takes hf (by omega)

theorem turn_chain (e : Parser Node) (hl : 2 ≤ l.rank) (hk : l.rank ≤ 7)
    (ht : l.tighter? = some next) : turn e l = chainStep (join? l) (reader e next) := by
  cases l with
  | assignment | object | call | member | primary => simp [Level.rank] at hl hk
  | _ =>
    cases ht
    rfl

theorem Leads.chain {op : Token} {join : Node → Node → Node} (hl : 2 ≤ l.rank) (hk : l.rank ≤ 7)
    (ht : l.tighter? = some next) (hj : join? l op = some join) (h : Leads e l ts n)
    (hr : Takes e next us r) : Leads e l (ts ++ op :: us) (join n r) := by
  refine h.turn ?_ fun stop rest hs hend => ?_
  · rw [← join?_isSome op hl hk, hj]
    rfl
  · rw [turn_chain e hl hk ht]
    refine (chainStep_eq_some (join?_stop hs l)).mpr ⟨op, us ++ rest, join, r, rfl, hj, ?_, rfl⟩
    exact hr stop rest hs (hend next ht)

theorem Leads.member {dot name : Token} (hd : dot.kind = .dot) (hi : name.kind = .ident)
    (h : Leads e .member ts n) :
    Leads e .member (ts ++ [dot, name]) (.build .member [n, .ofToken .ident name] dot) := by
  refine h.turn (by simp [Level.takes, hd]) fun stop rest hs _ => ?_
  exact (memberStep_eq_some hs).mpr (.inl ⟨dot, name, rfl, hd, hi, rfl⟩)

theorem endsAt_of_kind {t : Token} (l : Level)
    (h : t.kind ∈ [Kind.rparen, .rbracket, .rbrace, .comma, .semicolon, .endOfInput]) :
    l.EndsAt t := by
  obtain ⟨kind, text, position⟩ := t
  intro k _
  simp only [List.mem_cons, List.not_mem_nil, or_false] at h
  obtain rfl | rfl | rfl | rfl | rfl | rfl := h <;> cases k <;> rfl

theorem Leads.index {left right : Token} (hl : left.kind = .lbracket) (hr : right.kind = .rbracket)
    (h : Leads e .member ts n) (hk : TakesWhole e us r) :
    Leads e .member (ts ++ left :: us ++ [right]) (.build .index [n, r] left) := by
  rw [List.append_assoc, List.cons_append]
  refine h.turn (by simp [Level.takes, hl]) fun stop rest hs _ => ?_
  refine (memberStep_eq_some hs).mpr
    (.inr ⟨left, us ++ right :: rest, r, right, ?_, hl, ?_, hr, rfl⟩)
  · simp
  · exact hk stop _ hs (endsAt_of_kind _ (by simp [hr]))

theorem Leads.call (left : Token) {right : Token} {args : List Node} (hl : left.kind = .lparen)
    (ha : ∀ stop rest, stop.kind = .endOfInput →
      commaListUntil .rparen .argsClose e stop (us ++ right :: rest) = .ok (args, rest))
    (h : Leads e .call ts n) :
    Leads e .call (ts ++ left :: us ++ [right])
      (.build .call [n, .build .args args left] left) := by
  rw [List.append_assoc, List.cons_append]
  refine h.turn (by simp [Level.takes, hl]) fun stop rest hs _ => ?_
  refine (callStep_eq_some hs).mpr ⟨left, us ++ right :: rest, args, ?_, hl, ha stop rest hs, rfl⟩
  simp

theorem Takes.loosen (he : Expressive e) (ht : l.tighter? = some next) (h : Takes e next ts n) :
    Takes e l ts n := by
  cases hl : l.joinsLeft with
  | true => exact (h.leads he hl ht).takes hl
  | false =>
    cases l with
    | primary => cases ht
    | object =>
      cases ht
      intro stop rest hs hend
      have hr := h stop rest hs (hend.tighter (by decide))
      obtain ⟨used, hu, hd⟩ := disjunction_reads hs (he stop hs) _ _ _ hr
      obtain rfl := List.append_cancel_right hu
      obtain ⟨t, us, rfl, hk⟩ := hd.level_head
      refine (object_eq_ok hs).mpr (.inr ⟨fun hb => ?_, hr⟩)
      rw [List.cons_append, List.headD_cons] at hb
      simp [hb, Kind.opensOperand, Level.rank] at hk
    | assignment =>
      cases ht
      intro stop rest hs hend
      refine assignment_eq_ok.mpr
        ⟨n, rest, [], n, h stop rest hs (hend.tighter (by decide)), ?_, rfl⟩
      refine (foldWhile_eq_ok (assignStep_reads hs (he stop hs)).shortens).mpr (.done ?_)
      refine assignStep_eq_none.mpr ⟨rfl, ?_⟩
      simpa [Level.takes, assignment?_eq] using hend .assignment (Nat.le_refl _)
    | _ => cases hl

theorem Takes.loosenTo (he : Expressive e) {k : Level} (hk : k.rank ≤ l.rank) (h : Takes e l ts n) :
    Takes e k ts n := by
  obtain ⟨steps, hsteps⟩ := Nat.exists_eq_add_of_le hk
  induction steps generalizing k with
  | zero =>
    have hkl := Level.rank_inj hsteps
    exact hkl ▸ h
  | succ steps ih =>
    have hlast : l.rank ≤ 10 := by cases l <;> decide
    cases ht : k.tighter? with
    | none =>
      have hprimary : k.rank = 10 := by cases k <;> first | rfl | cases ht
      omega
    | some next =>
      have hr := Level.rank_tighter ht
      exact (ih (by omega) (by omega)).loosen he ht

/-- Read after any targets, the tokens give the value that these are waiting for. -/
def Closes (e : Parser Node) (ts : List Token) (n : Node) : Prop :=
  ∀ stop rest pending, stop.kind = .endOfInput → Level.assignment.EndsAt (rest.headD stop) →
    ∃ first mid more last, object e stop (ts ++ rest) = .ok (first, mid) ∧
      Loop (assignStep e) stop (pending, first) mid (more, last) rest ∧
      more.foldl Pending.close last = pending.foldl Pending.close n

theorem Closes.takes (he : Expressive e) (h : Closes e ts n) : Takes e .assignment ts n := by
  intro stop rest hs hend
  obtain ⟨first, mid, more, last, hf, hloop, hn⟩ := h stop rest [] hs hend
  refine assignment_eq_ok.mpr ⟨first, mid, more, last, hf, ?_, hn.symm⟩
  exact (foldWhile_eq_ok (assignStep_reads hs (he stop hs)).shortens).mpr hloop

theorem Takes.closes (h : Takes e .object ts n) : Closes e ts n := by
  intro stop rest pending hs hend
  refine ⟨n, rest, pending, n, h stop rest hs (hend.tighter (by decide)), .done ?_, rfl⟩
  refine assignStep_eq_none.mpr ⟨rfl, ?_⟩
  simpa [Level.takes, assignment?_eq] using hend .assignment (Nat.le_refl _)

theorem Closes.assign {op : Token} {label : Label} (ho : op.kind.assignment? = some label)
    (ht : Takes e .object ts n) (hv : Closes e us r) :
    Closes e (ts ++ op :: us) (.build label [n, r] op) := by
  intro stop rest pending hs hend
  obtain ⟨first, mid, more, last, hf, hloop, hr⟩ := hv stop rest (⟨n, label, op⟩ :: pending) hs hend
  have hop : Level.assignment.takes op = true := by simp [Level.takes, ho]
  refine ⟨n, op :: us ++ rest, more, last, ?_, .turn ?_ hloop, hr⟩
  · rw [List.append_assoc]
    exact ht stop _ hs (Level.endsAt_of_takes hop (by decide))
  · refine (assignStep_eq_some hs).mpr ⟨op, us ++ rest, label, first, rfl, ?_, hf, rfl⟩
    rw [assignment?_eq, ho]

theorem TakesWhole.group {left right : Token} (hl : left.kind = .lparen) (hr : right.kind = .rparen)
    (h : TakesWhole e ts n) : Takes e .primary (left :: ts ++ [right]) n := by
  intro stop rest hs _
  refine (primary_eq_ok hs).mpr (.inr ⟨left, ts ++ right :: rest, right, ?_, hl, ?_, hr⟩)
  · simp
  · exact h stop _ hs (endsAt_of_kind _ (by simp [hr]))

theorem Takes.literal {t : Token} {kind : LeafKind} (ht : t.kind.leaf? = some kind) :
    Takes e .primary [t] (.ofToken kind t) := by
  intro stop rest hs _
  exact (primary_eq_ok hs).mpr (.inl ⟨t, kind, rfl, ht, rfl⟩)

theorem Takes.object (left : Token) {right : Token} {entries : List Node} (hl : left.kind = .lbrace)
    (hb : ∀ stop rest, stop.kind = .endOfInput →
      bracedItems .object (property e) stop (ts ++ right :: rest) = .ok (entries, rest)) :
    Takes e .object (left :: ts ++ [right]) (.build .object entries left) := by
  intro stop rest hs _
  refine (object_eq_ok hs).mpr
    (.inl ⟨left, ts ++ right :: rest, entries, ?_, hl, hb stop rest hs, rfl⟩)
  simp

section Expressions

variable {depth : Nat}

structure Follows (depth : Nat) (l : Level) (ts : List Token) (n : Node) : Prop where
  takes : Takes (expression depth) l ts n
  leads : l.joinsLeft = true → Leads (expression depth) l ts n
  closes : l = .assignment → Closes (expression depth) ts n

theorem Follows.ofTakes (h : Takes (expression depth) l ts n) (hl : l = .object ∨ l = .primary) :
    Follows depth l ts n where
  takes := h
  leads := fun hj => by
    obtain rfl | rfl := hl <;> cases hj
  closes := fun ha => by
    obtain rfl | rfl := hl <;> cases ha

theorem Follows.ofLeads (hl : l.joinsLeft = true) (h : Leads (expression depth) l ts n) :
    Follows depth l ts n where
  takes := h.takes hl
  leads := fun _ => h
  closes := fun ha => by
    subst ha
    cases hl

theorem Follows.ofCloses (h : Closes (expression depth) ts n) : Follows depth .assignment ts n where
  takes := h.takes (expressive_expression depth)
  leads := nofun
  closes := fun _ => h

/-- The depth needed is bounded by the number of tokens, since every nested expression stands
behind a token of its own. -/
def Followed (l : Level) (ts : List Token) (n : Node) : Prop :=
  ∀ depth, ts.length ≤ depth → Follows depth l ts n

namespace Followed

theorem whole (h : Followed .assignment ts n) (hd : ts.length < depth) :
    TakesWhole (expression depth) ts n := by
  cases depth with
  | zero => exact absurd hd (Nat.not_lt_zero _)
  | succ depth => exact (h depth (Nat.le_of_lt_succ hd)).takes

theorem literal {t : Token} {kind : LeafKind} (ht : t.kind.leaf? = some kind) :
    Followed .primary [t] (.ofToken kind t) :=
  fun _ _ => .ofTakes (.literal ht) (.inr rfl)

theorem group {left right : Token} (hl : left.kind = .lparen) (hr : right.kind = .rparen)
    (h : Followed .assignment ts n) : Followed .primary (left :: ts ++ [right]) n := by
  intro depth hd
  simp only [List.cons_append, List.length_cons, List.length_append, List.length_nil] at hd
  exact .ofTakes ((h.whole (by omega)).group hl hr) (.inr rfl)

theorem member {dot name : Token} (hd : dot.kind = .dot) (hi : name.kind = .ident)
    (h : Followed .member ts n) :
    Followed .member (ts ++ [dot, name]) (.build .member [n, .ofToken .ident name] dot) := by
  intro depth hlen
  rw [List.length_append] at hlen
  exact .ofLeads rfl (((h depth (by omega)).leads rfl).member hd hi)

theorem index {left right : Token} (hl : left.kind = .lbracket) (hr : right.kind = .rbracket)
    (h : Followed .member ts n) (hk : Followed .assignment us r) :
    Followed .member (ts ++ left :: us ++ [right]) (.build .index [n, r] left) := by
  intro depth hd
  simp only [List.length_append, List.length_cons, List.length_nil] at hd
  exact .ofLeads rfl (((h depth (by omega)).leads rfl).index hl hr (hk.whole (by omega)))

theorem chain {op : Token} {join : Node → Node → Node} (hl : 2 ≤ l.rank) (hk : l.rank ≤ 7)
    (ht : l.tighter? = some next) (hj : join? l op = some join) (h : Followed l ts n)
    (hr : Followed next us r) : Followed l (ts ++ op :: us) (join n r) := by
  intro depth hd
  simp only [List.length_append, List.length_cons] at hd
  have hleft : l.joinsLeft = true := by
    cases l <;> first | rfl | simp [Level.rank] at hl hk
  have hfirst := (h depth (by omega)).leads hleft
  exact .ofLeads hleft (hfirst.chain hl hk ht hj (hr depth (by omega)).takes)

theorem assign {op : Token} {label : Label} (ho : op.kind.assignment? = some label)
    (ht : Followed .object ts n) (hv : Followed .assignment us r) :
    Followed .assignment (ts ++ op :: us) (.build label [n, r] op) := by
  intro depth hd
  simp only [List.length_append, List.length_cons] at hd
  have hvalue := (hv depth (by omega)).closes rfl
  exact .ofCloses (hvalue.assign ho (ht depth (by omega)).takes)

theorem tighter (ht : l.tighter? = some next) (h : Followed next ts n) : Followed l ts n := by
  intro depth hd
  have htakes := (h depth hd).takes
  refine ⟨htakes.loosen (expressive_expression depth) ht,
    fun hl => htakes.leads (expressive_expression depth) hl ht, fun hl => ?_⟩
  subst hl
  cases ht
  exact htakes.closes

end Followed

theorem join?_of_label {op : Token} {label : Label} (h : l.label? op.kind = some label) :
    join? l op = some (fun left right => .build label [left, right] op) := by
  have hlabelled {label? : Kind → Option Label} (hk : label? op.kind = some label) :
      labelled? label? op = some (fun left right => .build label [left, right] op) := by
    rw [labelled?, hk]
    rfl
  cases l with
  | disjunction | conjunction | equality | relation =>
    refine hlabelled ?_
    generalize op.kind = k at h
    cases k <;> exact h
  | _ => cases h

theorem join?_of_sign {op : Token} (ho : op.kind = .arith) (hs : op.text ∈ l.signs) :
    join? l op = some (fun left right =>
      .build .binop [left, .ofToken .operator op, right] op) := by
  cases l with
  | sum | product => exact arithmetic?_eq_some.mpr ⟨ho, hs, rfl⟩
  | _ => cases hs

theorem rank_of_label {k : Kind} {label : Label} (h : l.label? k = some label) :
    2 ≤ l.rank ∧ l.rank ≤ 7 := by
  cases l with
  | disjunction | conjunction | equality | relation => decide
  | _ => cases h

theorem rank_of_sign {sign : String} (h : sign ∈ l.signs) : 2 ≤ l.rank ∧ l.rank ≤ 7 := by
  cases l with
  | sum | product => decide
  | _ => cases h

theorem endsAt_of_opens {t : Token} (l : Level) (ho : t.kind.opens = true) (hp : t.kind ≠ .lparen) :
    l.EndsAt t := by
  intro k _
  rw [← Bool.not_eq_true]
  exact fun ht => hp (Level.takes_of_opens ho ht).2

end Expressions

end Parser

namespace Item

def Result : Item → Type
  | parameter => Token
  | argument => Node

open Bahasa.Parser in
def reader (depth : Nat) : (i : Item) → Parser i.Result
  | parameter => expect .ident .paramName
  | argument => expression depth

def node : (i : Item) → i.Result → Node
  | parameter, t => .ofToken .ident t
  | argument, n => n

open Bahasa.Parser in
theorem reader_reads (i : Item) (depth : Nat) {stop : Token} (hs : stop.kind = .endOfInput) :
    Reads stop (i.reader depth) (fun a => Derives (.item i (i.node a))) := by
  cases i with
  | parameter => exact parameter_reads hs
  | argument => exact argument_reads (expression_reads hs depth)

end Item

namespace Parser

section Lists

variable {i : Item} {ts us : List Token} {a : i.Result} {as : List i.Result} {depth : Nat}

def ItemFollowed (i : Item) (ts : List Token) (a : i.Result) : Prop :=
  ∀ depth stop rest, ts.length < depth → stop.kind = .endOfInput →
    (rest.headD stop).kind ∈ [Kind.rparen, .comma] →
      i.reader depth stop (ts ++ rest) = .ok (a, rest)

def ItemsFollowed (i : Item) (ts : List Token) (as : List i.Result) : Prop :=
  ∀ depth stop rest found last, ts.length < depth → stop.kind = .endOfInput →
    (rest.headD stop).kind ∈ [Kind.rparen, .comma] →
    Loop (commaStep (i.reader depth)) stop as.reverse rest found last →
    ∃ first mid, i.reader depth stop (ts ++ rest) = .ok (first, mid) ∧
      Loop (commaStep (i.reader depth)) stop [first] mid found last

def ListFollowed (i : Item) (ts : List Token) (as : List i.Result) : Prop :=
  ∀ depth complaint stop right rest, ts.length < depth → stop.kind = .endOfInput →
    right.kind = .rparen →
    commaListUntil .rparen complaint (i.reader depth) stop (ts ++ right :: rest) = .ok (as, rest)

theorem ItemFollowed.parameter {t : Token} (ht : t.kind = .ident) :
    ItemFollowed .parameter [t] t :=
  fun _ _ _ _ hs _ => (expect_eq_ok hs (by decide : Kind.ident ≠ _)).mpr ⟨rfl, ht⟩

theorem Followed.argument {n : Node} (h : Followed .assignment ts n) :
    ItemFollowed .argument ts n := by
  intro depth stop rest hd hs hk
  refine h.whole hd stop rest hs (endsAt_of_kind _ ?_)
  generalize (rest.headD stop).kind = k at hk
  simp only [List.mem_cons, List.not_mem_nil, or_false] at hk
  obtain rfl | rfl := hk <;> decide

theorem ItemFollowed.one (h : ItemFollowed i ts a) : ItemsFollowed i ts [a] :=
  fun depth stop rest _ _ hd hs hk hl => ⟨a, rest, h depth stop rest hd hs hk, hl⟩

theorem ItemsFollowed.more {comma : Token} (h : ItemsFollowed i ts as) (hc : comma.kind = .comma)
    (ha : ItemFollowed i us a) : ItemsFollowed i (ts ++ comma :: us) (as ++ [a]) := by
  intro depth stop rest found last hd hs hk hl
  rw [List.length_append, List.length_cons] at hd
  rw [List.reverse_append] at hl
  rw [List.append_assoc]
  refine h depth stop (comma :: us ++ rest) found last (by omega) hs (by simp [hc]) (.turn ?_ hl)
  have hitem := ha depth stop rest (by omega) hs hk
  exact (commaStep_eq_some hs).mpr ⟨comma, us ++ rest, a, rfl, hc, hitem, rfl⟩

theorem ListFollowed.none : ListFollowed i [] [] :=
  fun _ _ _ right _ _ hs hr =>
    (commaListUntil_eq_ok hs (by decide : Kind.rparen ≠ _)).mpr (.inl ⟨rfl, right, rfl, hr⟩)

theorem ItemsFollowed.list (h : ItemsFollowed i ts as)
    (hh : ∃ t us, ts = t :: us ∧ t.kind ≠ .rparen) : ListFollowed i ts as := by
  obtain ⟨t, us, rfl, ht⟩ := hh
  intro depth complaint stop right rest hd hs hr
  have hend : Loop (commaStep (i.reader depth)) stop as.reverse (right :: rest) as.reverse
      (right :: rest) := .done ((commaStep_eq_none hs).mpr ⟨rfl, by simp [hr]⟩)
  obtain ⟨first, mid, hfirst, hloop⟩ :=
    h depth stop (right :: rest) _ _ hd hs (by simp [hr]) hend
  have hshort := (commaStep_reads hs (i.reader_reads depth hs)).shortens
  exact (commaListUntil_eq_ok hs (by decide : Kind.rparen ≠ _)).mpr (.inr ⟨ht, right,
    commaSeparated_eq_ok.mpr ⟨first, mid, hfirst, (foldWhile_eq_ok hshort).mpr hloop⟩, hr⟩)

theorem Followed.call {n : Node} {args : List Node} {left right : Token} (hl : left.kind = .lparen)
    (hr : right.kind = .rparen) (h : Followed .call ts n) (ha : ListFollowed .argument us args) :
    Followed .call (ts ++ left :: us ++ [right])
      (.build .call [n, .build .args args left] left) := by
  intro depth hd
  simp only [List.length_append, List.length_cons, List.length_nil] at hd
  refine .ofLeads rfl (((h depth (by omega)).leads rfl).call left hl fun stop rest hs => ?_)
  exact ha depth _ stop right rest (by omega) hs hr

inductive InitialFollowed : List Token → Node → Prop
  | none : InitialFollowed [] .absent
  | some {colon : Token} {n : Node} {ts : List Token} (hc : colon.kind = .colon)
    (h : Followed .assignment ts n) : InitialFollowed (colon :: ts) n

def EntriesFollowed (ts : List Token) (entries : List Node) : Prop :=
  ∀ depth stop rest found last, ts.length ≤ depth → stop.kind = .endOfInput →
    (rest.headD stop).kind ∈ [Kind.rbrace, .ident] →
    Loop (bracedStep .object (property (expression depth))) stop entries.reverse rest found last →
    Loop (bracedStep .object (property (expression depth))) stop [] (ts ++ rest) found last

theorem InitialFollowed.property {value : Node} {key : Token} {vs rest : List Token} {stop : Token}
    (h : InitialFollowed us value) (hk : key.kind = .ident) (hc : Optional .comma vs)
    (hd : us.length ≤ depth) (hs : stop.kind = .endOfInput)
    (hr : (rest.headD stop).kind ∈ [Kind.rbrace, .ident]) :
    property (expression depth) stop (key :: us ++ vs ++ rest) =
      .ok (.build .property [.ofToken .ident key, value] key, rest) := by
  have hskip : Skips .comma stop (vs ++ rest) rest := by
    obtain rfl | ⟨comma, rfl, hcomma⟩ := hc
    · refine .inr ⟨fun he => ?_, rfl⟩
      rw [List.nil_append] at he
      rw [he] at hr
      simp at hr
    · exact .inl ⟨comma, rfl, hcomma⟩
  have hhead : ((vs ++ rest).headD stop).kind ∈ [Kind.rbrace, .ident, .comma] := by
    obtain rfl | ⟨comma, rfl, hcomma⟩ := hc
    · exact List.mem_of_mem_take (i := 2) hr
    · simp [hcomma]
  rw [List.append_assoc, List.cons_append]
  refine (property_eq_ok hs).mpr
    ⟨key, us ++ (vs ++ rest), value, vs ++ rest, rfl, hk, ?_, hskip, rfl⟩
  generalize vs ++ rest = mid at hhead ⊢
  cases h with
  | none =>
    refine .inr ⟨fun he => ?_, rfl, rfl⟩
    rw [List.nil_append] at he
    rw [he] at hhead
    simp at hhead
  | @some colon _ ts hcolon h =>
    refine .inl ⟨colon, ts ++ mid, rfl, hcolon, h.whole hd stop mid hs ?_⟩
    generalize ht : mid.headD stop = t at hhead
    simp only [List.mem_cons, List.not_mem_nil, or_false] at hhead
    obtain hk | hk | hk := hhead
    · exact endsAt_of_kind _ (by simp [hk])
    · exact endsAt_of_opens _ (by rw [hk]; rfl) (by simp [hk])
    · exact endsAt_of_kind _ (by simp [hk])

theorem EntriesFollowed.none : EntriesFollowed [] [] :=
  fun _ _ _ _ _ _ _ _ hl => hl

theorem EntriesFollowed.more {entries : List Node} {value : Node} {key : Token} {vs : List Token}
    (h : EntriesFollowed ts entries) (hk : key.kind = .ident) (hv : InitialFollowed us value)
    (hc : Optional .comma vs) :
    EntriesFollowed (ts ++ key :: us ++ vs)
      (entries ++ [.build .property [.ofToken .ident key, value] key]) := by
  intro depth stop rest found last hd hs hr hl
  simp only [List.length_append, List.length_cons] at hd
  rw [List.reverse_append] at hl
  have hread := hv.property hk hc (by omega : us.length ≤ depth) hs hr
  rw [List.append_assoc, List.append_assoc]
  refine h depth stop (key :: us ++ (vs ++ rest)) found last (by omega) hs
    (by simp [hk]) (.turn ?_ hl)
  rw [← List.append_assoc]
  exact bracedStep_eq_some.mpr ⟨by simp [hk], by simp [hk], _, hread, rfl⟩

theorem EntriesFollowed.object {entries : List Node} {left right : Token} (hl : left.kind = .lbrace)
    (hr : right.kind = .rbrace) (h : EntriesFollowed ts entries) :
    Followed .object (left :: ts ++ [right]) (.build .object entries left) := by
  intro depth hd
  simp only [List.cons_append, List.length_cons, List.length_append, List.length_nil] at hd
  refine .ofTakes (.object left hl fun stop rest hs => ?_) (.inl rfl)
  have hend := h depth stop (right :: rest) entries.reverse (right :: rest) (by omega) hs
    (by simp [hr]) (.done (bracedStep_eq_none.mpr ⟨rfl, hr⟩))
  have hshort := (propertyStep_reads hs (expression_reads hs depth)).shortens
  exact bracedItems_eq_ok.mpr ⟨right :: rest, (foldWhile_eq_ok hshort).mpr hend, rfl⟩

def ConditionFollowed (ts : List Token) (n : Node) : Prop :=
  ∀ depth keyword stop rest, ts.length ≤ depth → stop.kind = .endOfInput →
    condition keyword (expression depth) stop (ts ++ rest) = .ok (n, rest)

theorem Followed.condition {n : Node} {left right : Token} (hl : left.kind = .lparen)
    (hr : right.kind = .rparen) (h : Followed .assignment ts n) :
    ConditionFollowed (left :: ts ++ [right]) n := by
  intro depth keyword stop rest hd hs
  simp only [List.cons_append, List.length_cons, List.length_append, List.length_nil] at hd
  refine (condition_eq_ok hs).mpr ⟨left, ts ++ right :: rest, right, by simp, hl, ?_, hr⟩
  exact h.whole (by omega) stop _ hs (endsAt_of_kind _ (by simp [hr]))

end Lists

end Parser

open Bahasa.Parser

def Phrase.Followed : Phrase → List Token → Prop
  | level l n, ts => ∃ m, m.bare = n.bare ∧ Parser.Followed l ts m
  | item i n, ts => ∃ a, (i.node a).bare = n.bare ∧ ItemFollowed i ts a
  | items i ns, ts => ∃ as, as.map (fun a => (i.node a).bare) = ns.map Node.bare ∧
      ItemsFollowed i ts as
  | list i ns, ts => ∃ as, as.map (fun a => (i.node a).bare) = ns.map Node.bare ∧
      ListFollowed i ts as
  | initial n, ts => ∃ m, m.bare = n.bare ∧ InitialFollowed ts m
  | properties ns, ts => ∃ ms, ms.map Node.bare = ns.map Node.bare ∧ EntriesFollowed ts ms
  | condition n, ts => ∃ m, m.bare = n.bare ∧ ConditionFollowed ts m
  | _, _ => True

namespace Derives

theorem items_head {i : Item} {ns : List Node} {ts : List Token} (h : Derives (.items i ns) ts) :
    ∃ t us, ts = t :: us ∧ t.kind ≠ .rparen := by
  generalize hφ : Phrase.items i ns = φ at h
  induction h generalizing ns with
  | itemsOne hn =>
    cases hφ
    cases hn with
    | parameter ht => exact ⟨_, [], rfl, by simp [ht]⟩
    | argument hn =>
      obtain ⟨t, us, rfl, ht⟩ := hn.level_head
      refine ⟨t, us, rfl, fun hp => ?_⟩
      simp [hp, Kind.opensOperand] at ht
  | itemsMore _ _ _ ih _ =>
    cases hφ
    obtain ⟨t, us, rfl, ht⟩ := ih rfl
    exact ⟨t, _, rfl, ht⟩
  | _ => cases hφ

/-- Whatever the grammar derives inside an expression is read, with the tree of the derivation. -/
theorem followed {φ : Phrase} {ts : List Token} (h : Derives φ ts) : φ.Followed ts := by
  induction h with
  | literal ht => exact ⟨_, by simp, .literal ht⟩
  | group hl _ hr ih =>
    obtain ⟨m, hm, h⟩ := ih
    exact ⟨m, hm, h.group hl hr⟩
  | member _ hd hi ih =>
    obtain ⟨m, hm, h⟩ := ih
    exact ⟨_, by simp [hm], h.member hd hi⟩
  | index _ hl _ hr ihn ihk =>
    obtain ⟨m, hm, h⟩ := ihn
    obtain ⟨k, hk, hkey⟩ := ihk
    exact ⟨_, by simp [hm, hk], h.index hl hr hkey⟩
  | call _ hl _ hr ihn iha =>
    obtain ⟨m, hm, h⟩ := ihn
    obtain ⟨(args : List Node), (has : args.map Node.bare = _), hargs⟩ := iha
    exact ⟨_, by simp [hm, has], h.call hl hr hargs⟩
  | join _ ho ht _ ihl ihr =>
    obtain ⟨m, hm, hl⟩ := ihl
    obtain ⟨k, hk, hr⟩ := ihr
    obtain ⟨hlow, hhigh⟩ := rank_of_label ho
    exact ⟨_, by simp [hm, hk], hl.chain hlow hhigh ht (join?_of_label ho) hr⟩
  | arithmetic _ ho hs ht _ ihl ihr =>
    obtain ⟨m, hm, hl⟩ := ihl
    obtain ⟨k, hk, hr⟩ := ihr
    obtain ⟨hlow, hhigh⟩ := rank_of_sign hs
    exact ⟨_, by simp [hm, hk],
      hl.chain hlow hhigh ht (join?_of_sign ho hs) hr⟩
  | object hl _ hr ih =>
    obtain ⟨ms, hms, h⟩ := ih
    exact ⟨_, by simp [hms], h.object hl hr⟩
  | assign _ ho _ iht ihv =>
    obtain ⟨m, hm, ht⟩ := iht
    obtain ⟨k, hk, hv⟩ := ihv
    exact ⟨_, by simp [hm, hk], ht.assign ho hv⟩
  | tighter ht _ ih =>
    obtain ⟨m, hm, h⟩ := ih
    exact ⟨m, hm, h.tighter ht⟩
  | parameter ht => exact ⟨_, by simp [Item.node], .parameter ht⟩
  | argument _ ih =>
    obtain ⟨m, hm, h⟩ := ih
    exact ⟨m, hm, h.argument⟩
  | itemsOne _ ih =>
    obtain ⟨a, ha, h⟩ := ih
    exact ⟨[a], by simp [ha], h.one⟩
  | itemsMore _ hc _ ihs ihn =>
    obtain ⟨as, has, h⟩ := ihs
    obtain ⟨a, ha, hn⟩ := ihn
    exact ⟨as ++ [a], by simp [has, ha], h.more hc hn⟩
  | listNone => exact ⟨[], rfl, .none⟩
  | listSome hs ih =>
    obtain ⟨as, has, h⟩ := ih
    exact ⟨as, has, h.list hs.items_head⟩
  | initialNone => exact ⟨.absent, rfl, .none⟩
  | initialSome hc _ ih =>
    obtain ⟨m, hm, h⟩ := ih
    exact ⟨m, hm, .some hc h⟩
  | propertiesNone => exact ⟨[], rfl, .none⟩
  | propertiesMore _ hk _ hc ihs ihv =>
    obtain ⟨ms, hms, h⟩ := ihs
    obtain ⟨m, hm, hv⟩ := ihv
    exact ⟨_, by simp [hms, hm], h.more hk hv hc⟩
  | condition hl _ hr ih =>
    obtain ⟨m, hm, h⟩ := ih
    exact ⟨m, hm, h.condition hl hr⟩
  | _ => trivial

end Derives

end Bahasa
