import Bahasa.Parser.Statement

namespace Bahasa.Parser

section Primitives

variable {α β : Type} {stop t : Token} {ahead rest : List Token}

theorem bind_eq_ok {p : Parser α} {q : α → Parser β} {b : β} :
    (p >>= q) stop ahead = .ok (b, rest) ↔
      ∃ a mid, p stop ahead = .ok (a, mid) ∧ q a stop mid = .ok (b, rest) := by
  change Except.bind (p stop ahead) (fun x => q x.1 stop x.2) = .ok (b, rest) ↔ _
  cases h : p stop ahead with
  | error e => simp [Except.bind]
  | ok x =>
    obtain ⟨a, mid⟩ := x
    simp only [Except.bind, Except.ok.injEq, Prod.mk.injEq]
    exact ⟨fun hq => ⟨a, mid, ⟨rfl, rfl⟩, hq⟩, fun ⟨_, _, ⟨ha, hm⟩, hq⟩ => ha ▸ hm ▸ hq⟩

theorem pure_eq_ok {a b : α} :
    (pure a : Parser α) stop ahead = .ok (b, rest) ↔ a = b ∧ ahead = rest := by
  change Except.ok (a, ahead) = Except.ok (b, rest) ↔ _
  simp

theorem peek_eq_ok : peek stop ahead = .ok (t, rest) ↔ ahead.headD stop = t ∧ ahead = rest := by
  simp [peek]

theorem peek_bind {q : Token → Parser β} :
    (peek >>= q) stop ahead = q (ahead.headD stop) stop ahead :=
  rfl

theorem next_eq_ok : next stop ahead = .ok (t, rest) ↔
    ahead.headD stop = t ∧ ahead.tail = rest := by
  simp [next]

theorem tooDeep_eq_ok {a : α} : (tooDeep : Parser α) stop ahead = .ok (a, rest) ↔ False := by
  simp [tooDeep]

theorem reject_eq_ok {c : Complaint} {a : α} :
    (reject c : Parser α) stop ahead = .ok (a, rest) ↔ False := by
  simp [reject]

theorem ite_eq_ok {c : Prop} [Decidable c] {p q : Parser α} {a : α} :
    (if c then p else q) stop ahead = .ok (a, rest) ↔
      (c ∧ p stop ahead = .ok (a, rest)) ∨ (¬c ∧ q stop ahead = .ok (a, rest)) := by
  by_cases h : c <;> simp [h]

theorem headD_kind {kind : Kind} (hs : stop.kind = .endOfInput) (hk : kind ≠ .endOfInput) :
    (ahead.headD stop).kind = kind ↔ ∃ t rest, ahead = t :: rest ∧ t.kind = kind := by
  cases ahead with
  | nil => simp [hs, hk.symm]
  | cons t rest => simp

theorem expect_eq_ok {kind : Kind} {c : Complaint} (hs : stop.kind = .endOfInput)
    (hk : kind ≠ .endOfInput) :
    expect kind c stop ahead = .ok (t, rest) ↔ ahead = t :: rest ∧ t.kind = kind := by
  simp only [expect, bind_eq_ok, peek_eq_ok, ite_eq_ok, next_eq_ok, reject_eq_ok]
  cases ahead with
  | nil => simp [hs, hk.symm]
  | cons u us =>
    simp
    grind

theorem accept_eq_true {kind : Kind} (hs : stop.kind = .endOfInput) (hk : kind ≠ .endOfInput) :
    accept kind stop ahead = .ok (true, rest) ↔ ∃ t, ahead = t :: rest ∧ t.kind = kind := by
  simp only [accept, bind_eq_ok, peek_eq_ok, ite_eq_ok, next_eq_ok, pure_eq_ok]
  cases ahead with
  | nil => simp [hs, hk.symm]
  | cons u us =>
    simp
    grind

theorem accept_eq_false {kind : Kind} :
    accept kind stop ahead = .ok (false, rest) ↔ ahead = rest ∧ (ahead.headD stop).kind ≠ kind := by
  simp only [accept, bind_eq_ok, peek_eq_ok, ite_eq_ok, next_eq_ok, pure_eq_ok]
  simp
  grind

/-- What is left after a token that may be missing. -/
def Skips (kind : Kind) (stop : Token) (ahead rest : List Token) : Prop :=
  (∃ t, ahead = t :: rest ∧ t.kind = kind) ∨ ((ahead.headD stop).kind ≠ kind ∧ ahead = rest)

theorem accept_bind_eq_ok {kind : Kind} (hs : stop.kind = .endOfInput) (hk : kind ≠ .endOfInput)
    {q : Parser β} {b : β} :
    (accept kind >>= fun _ => q) stop ahead = .ok (b, rest) ↔
      ∃ mid, Skips kind stop ahead mid ∧ q stop mid = .ok (b, rest) := by
  simp only [bind_eq_ok, Bool.exists_bool, accept_eq_true hs hk, accept_eq_false, Skips]
  grind

theorem accept_ite_eq_ok {kind : Kind} (hs : stop.kind = .endOfInput) (hk : kind ≠ .endOfInput)
    {p q : Parser β} {b : β} :
    (accept kind >>= fun found => if found then p else q) stop ahead = .ok (b, rest) ↔
      (∃ t mid, ahead = t :: mid ∧ t.kind = kind ∧ p stop mid = .ok (b, rest)) ∨
      ((ahead.headD stop).kind ≠ kind ∧ q stop ahead = .ok (b, rest)) := by
  simp only [bind_eq_ok, Bool.exists_bool, accept_eq_true hs hk, accept_eq_false,
    Bool.false_eq_true, if_false, if_true]
  grind

end Primitives

section Loops

variable {α : Type} {step : α → Parser (Option α)} {stop : Token}

/-- The turns of a loop from `a` on, up to the first step with nothing to add. -/
inductive Loop (step : α → Parser (Option α)) (stop : Token) :
    α → List Token → α → List Token → Prop
  | done {a : α} {ahead rest : List Token} (h : step a stop ahead = .ok (none, rest)) :
      Loop step stop a ahead a rest
  | turn {a b c : α} {ahead mid rest : List Token} (h : step a stop ahead = .ok (some b, mid))
      (more : Loop step stop b mid c rest) : Loop step stop a ahead c rest

def Shortens (step : α → Parser (Option α)) (stop : Token) : Prop :=
  ∀ a ahead b rest, step a stop ahead = .ok (some b, rest) → rest.length < ahead.length

theorem foldTurns_eq_ok (hs : Shortens step stop) (turns : List Token) {a b : α}
    {ahead rest : List Token} (hl : ahead.length ≤ turns.length) :
    foldTurns step turns a stop ahead = .ok (b, rest) ↔ Loop step stop a ahead b rest := by
  induction turns generalizing a ahead with
  | nil =>
    simp only [foldTurns, bind_eq_ok, pure_eq_ok]
    constructor
    · rintro ⟨next, mid, h, rfl, rfl⟩
      cases next with
      | none => exact .done h
      | some c =>
        have hlt := hs _ _ _ _ h
        simp only [List.length_nil] at hl
        omega
    · intro h
      cases h with
      | done h => exact ⟨none, _, h, rfl, rfl⟩
      | turn h _ =>
        have hlt := hs _ _ _ _ h
        simp only [List.length_nil] at hl
        omega
  | cons t turns ih =>
    simp only [foldTurns, bind_eq_ok]
    constructor
    · rintro ⟨next, mid, h, hn⟩
      cases next with
      | none =>
        simp only [pure_eq_ok] at hn
        obtain ⟨rfl, rfl⟩ := hn
        exact .done h
      | some c =>
        have hlt := hs _ _ _ _ h
        simp only [List.length_cons] at hl
        exact .turn h ((ih (by omega)).mp hn)
    · intro h
      cases h with
      | done h => exact ⟨none, _, h, pure_eq_ok.mpr ⟨rfl, rfl⟩⟩
      | turn h more =>
        have hlt := hs _ _ _ _ h
        simp only [List.length_cons] at hl
        exact ⟨some _, _, h, (ih (by omega)).mpr more⟩

theorem foldWhile_eq_ok (hs : Shortens step stop) {a b : α} {ahead rest : List Token} :
    foldWhile step a stop ahead = .ok (b, rest) ↔ Loop step stop a ahead b rest := by
  rw [← foldTurns_eq_ok hs ahead (Nat.le_refl _)]
  rfl

end Loops

section Lists

variable {α : Type} {item : Parser α} {stop : Token} {ahead rest : List Token}

def commaStep (item : Parser α) (items : List α) : Parser (Option (List α)) := do
  if ← accept .comma then return some ((← item) :: items) else return none

def bracedStep (enclosure : Enclosure) (item : Parser α) (items : List α) :
    Parser (Option (List α)) := do
  match (← peek).kind with
  | .rbrace => return none
  | .endOfInput => reject (.unterminated enclosure)
  | _ => return some ((← item) :: items)

theorem commaStep_eq_some (hs : stop.kind = .endOfInput) {items more : List α} :
    commaStep item items stop ahead = .ok (some more, rest) ↔
      ∃ comma mid a, ahead = comma :: mid ∧ comma.kind = .comma ∧ item stop mid = .ok (a, rest) ∧
        more = a :: items := by
  simp only [commaStep, bind_eq_ok, Bool.exists_bool,
    accept_eq_true hs (by decide : Kind.comma ≠ _),
    accept_eq_false, pure_eq_ok, Bool.false_eq_true, if_false, if_true]
  grind

theorem commaStep_eq_none (hs : stop.kind = .endOfInput) {items : List α} :
    commaStep item items stop ahead = .ok (none, rest) ↔
      ahead = rest ∧ (ahead.headD stop).kind ≠ .comma := by
  simp only [commaStep, bind_eq_ok, Bool.exists_bool,
    accept_eq_true hs (by decide : Kind.comma ≠ _),
    accept_eq_false, pure_eq_ok, Bool.false_eq_true, if_false, if_true]
  grind

theorem commaSeparated_eq_ok {items : List α} :
    commaSeparated item stop ahead = .ok (items, rest) ↔
      ∃ first mid, item stop ahead = .ok (first, mid) ∧
        foldWhile (commaStep item) [first] stop mid = .ok (items.reverse, rest) := by
  simp only [commaSeparated, bind_eq_ok, pure_eq_ok]
  change (∃ first mid, _ ∧ ∃ found _, foldWhile (commaStep item) [first] stop mid = _ ∧ _) ↔ _
  grind

theorem commaListUntil_eq_ok (hs : stop.kind = .endOfInput) {close : Kind}
    (hc : close ≠ .endOfInput) {complaint : Complaint} {items : List α} :
    commaListUntil close complaint item stop ahead = .ok (items, rest) ↔
      (items = [] ∧ ∃ t, ahead = t :: rest ∧ t.kind = close) ∨
      ((ahead.headD stop).kind ≠ close ∧
        ∃ t, commaSeparated item stop ahead = .ok (items, t :: rest) ∧ t.kind = close) := by
  simp only [commaListUntil, bind_eq_ok, peek_eq_ok, ite_eq_ok, pure_eq_ok, expect_eq_ok hs hc]
  grind

theorem bracedStep_eq_some {enclosure : Enclosure}
    {items more : List α} :
    bracedStep enclosure item items stop ahead = .ok (some more, rest) ↔
      (ahead.headD stop).kind ≠ .rbrace ∧ (ahead.headD stop).kind ≠ .endOfInput ∧
        ∃ a, item stop ahead = .ok (a, rest) ∧ more = a :: items := by
  simp only [bracedStep, peek_bind]
  generalize (ahead.headD stop).kind = k
  split
  · simp [pure_eq_ok]
  · simp [reject_eq_ok]
  · next hb he =>
    simp only [bind_eq_ok, pure_eq_ok, ne_eq]
    grind

theorem bracedStep_eq_none {enclosure : Enclosure} {items : List α} :
    bracedStep enclosure item items stop ahead = .ok (none, rest) ↔
      ahead = rest ∧ (ahead.headD stop).kind = .rbrace := by
  simp only [bracedStep, peek_bind]
  generalize (ahead.headD stop).kind = k
  split
  · simp [pure_eq_ok]
  · simp [reject_eq_ok]
  · next hb he =>
    simp only [bind_eq_ok, pure_eq_ok]
    grind

theorem bracedItems_eq_ok {enclosure : Enclosure} {items : List α} :
    bracedItems enclosure item stop ahead = .ok (items, rest) ↔
      ∃ mid, foldWhile (bracedStep enclosure item) [] stop ahead = .ok (items.reverse, mid) ∧
        mid.tail = rest := by
  simp only [bracedItems, bind_eq_ok, pure_eq_ok, next_eq_ok]
  change (∃ found mid, foldWhile (bracedStep enclosure item) [] stop ahead = _ ∧ _) ↔ _
  grind

end Lists

end Bahasa.Parser
