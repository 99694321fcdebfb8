import Bahasa.Proofs.Parser.Soundness

namespace Bahasa

def Level.joinsLeft : Level → Bool
  | assignment | object | primary => false
  | _ => true

def Level.takes (l : Level) (t : Token) : Bool :=
  match l with
  | member => t.kind = .dot ∨ t.kind = .lbracket
  | call => t.kind = .lparen
  | assignment => t.kind.assignment?.isSome
  | l => (l.label? t.kind).isSome ∨ t.kind = .arith ∧ t.text ∈ l.signs

/-- The token ends an expression of the level, since neither the level nor a tighter one takes
it. -/
def Level.EndsAt (l : Level) (t : Token) : Prop :=
  ∀ k : Level, l.rank ≤ k.rank → k.takes t = false

theorem Level.EndsAt.tighter {l k : Level} {t : Token} (h : l.EndsAt t) (hk : l.rank ≤ k.rank) :
    k.EndsAt t :=
  fun j hj => h j (Nat.le_trans hk hj)

namespace Parser

def join? : Level → Token → Option (Node → Node → Node)
  | .product => arithmetic? ["*", "/", "%"]
  | .sum => arithmetic? ["+", "-"]
  | .relation => labelled? relation?
  | .equality => labelled? equality?
  | .conjunction => labelled? conjunction?
  | .disjunction => labelled? disjunction?
  | _ => fun _ => none

def reader (e : Parser Node) : Level → Parser Node
  | .primary => primary e
  | .member => member e
  | .call => call e
  | .product => product e
  | .sum => sum e
  | .relation => relation e
  | .equality => equality e
  | .conjunction => conjunction e
  | .disjunction => disjunction e
  | .object => object e
  | .assignment => assignment e

/-- One more turn at a level that joins to the left. -/
def turn (e : Parser Node) : Level → Node → Parser (Option Node)
  | .member => memberStep e
  | .call => callStep e
  | .product => chainStep (join? .product) (call e)
  | .sum => chainStep (join? .sum) (product e)
  | .relation => chainStep (join? .relation) (sum e)
  | .equality => chainStep (join? .equality) (relation e)
  | .conjunction => chainStep (join? .conjunction) (equality e)
  | .disjunction => chainStep (join? .disjunction) (conjunction e)
  | _ => fun _ => pure none

variable {e : Parser Node} {l next : Level} {stop : Token} {ahead rest : List Token} {n : Node}

theorem reader_eq_ok (hl : l.joinsLeft = true) (ht : l.tighter? = some next) :
    reader e l stop ahead = .ok (n, rest) ↔
      ∃ first mid, reader e next stop ahead = .ok (first, mid) ∧
        foldWhile (turn e l) first stop mid = .ok (n, rest) := by
  cases l with
  | assignment | object | primary => cases hl
  | _ =>
    cases ht
    exact bind_eq_ok

theorem reader_reads (hs : stop.kind = .endOfInput) (he : ReadsLevel stop e .assignment)
    (l : Level) : ReadsLevel stop (reader e l) l := by
  cases l with
  | primary => exact primary_reads hs he
  | member => exact member_reads hs he
  | call => exact call_reads hs he
  | product => exact product_reads hs he
  | sum => exact sum_reads hs he
  | relation => exact relation_reads hs he
  | equality => exact equality_reads hs he
  | conjunction => exact conjunction_reads hs he
  | disjunction => exact disjunction_reads hs he
  | object => exact object_reads hs he
  | assignment => exact assignment_reads hs he

theorem arithmetic?_isSome (signs : List String) (t : Token) :
    (arithmetic? signs t).isSome = decide (t.kind = .arith ∧ t.text ∈ signs) := by
  unfold arithmetic?
  split <;> simp_all

theorem labelled?_isSome (label? : Kind → Option Label) (t : Token) :
    (labelled? label? t).isSome = (label? t.kind).isSome := by
  rw [labelled?, Option.isSome_map]

theorem join?_isSome (t : Token) (hl : 2 ≤ l.rank) (hk : l.rank ≤ 7) :
    (join? l t).isSome = l.takes t := by
  cases l with
  | sum | product =>
    refine (arithmetic?_isSome _ t).trans ?_
    simp [Level.takes, Level.label?, Level.signs]
  | relation | equality | conjunction | disjunction =>
    refine (labelled?_isSome _ t).trans ?_
    cases ht : t.kind <;> simp [Level.takes, Level.signs, ht] <;> rfl
  | _ => simp [Level.rank] at hl hk

theorem join?_stop (hs : stop.kind = .endOfInput) (l : Level) : join? l stop = none := by
  cases l with
  | product | sum => exact arithmetic?_stop hs _
  | relation | equality | conjunction | disjunction => exact labelled?_stop hs rfl
  | _ => rfl

theorem turn_eq_none (hl : l.joinsLeft = true) :
    turn e l n stop ahead = .ok (none, rest) ↔
      ahead = rest ∧ l.takes (ahead.headD stop) = false := by
  have hj (hr : 2 ≤ l.rank) (hk : l.rank ≤ 7) :
      join? l (ahead.headD stop) = none ↔ l.takes (ahead.headD stop) = false := by
    rw [← join?_isSome _ hr hk, Option.isSome_eq_false_iff, Option.isNone_iff_eq_none]
  cases l with
  | assignment | object | primary => cases hl
  | member =>
    refine memberStep_eq_none.trans (and_congr_right fun _ => ?_)
    simp [Level.takes]
  | call =>
    refine callStep_eq_none.trans (and_congr_right fun _ => ?_)
    simp [Level.takes]
  | _ => exact chainStep_eq_none.trans (and_congr_right fun _ => hj (by decide) (by decide))

theorem turn_reads (hs : stop.kind = .endOfInput) (he : ReadsLevel stop e .assignment)
    (hl : l.joinsLeft = true) :
    StepReads stop (turn e l) (fun n ts _ => Derives (.level l n) ts) := by
  cases l with
  | assignment | object | primary => cases hl
  | member => exact memberStep_reads hs he
  | call => exact callStep_reads hs he
  | product =>
    exact chainStep_reads (arithmetic?_stop hs _) (arithmetic_joinsAt .product rfl)
      (call_reads hs he)
  | sum =>
    exact chainStep_reads (arithmetic?_stop hs _) (arithmetic_joinsAt .sum rfl)
      (product_reads hs he)
  | relation =>
    exact chainStep_reads (labelled?_stop hs rfl) (labelled_joinsAt rfl relation?_label)
      (sum_reads hs he)
  | equality =>
    exact chainStep_reads (labelled?_stop hs rfl) (labelled_joinsAt rfl equality?_label)
      (relation_reads hs he)
  | conjunction =>
    exact chainStep_reads (labelled?_stop hs rfl) (labelled_joinsAt rfl conjunction?_label)
      (equality_reads hs he)
  | disjunction =>
    exact chainStep_reads (labelled?_stop hs rfl) (labelled_joinsAt rfl disjunction?_label)
      (conjunction_reads hs he)

end Parser

end Bahasa
