import Bahasa.Proofs.Parser.Foresight

namespace Bahasa.Parser

/-- How a reader gets from a cursor to what it makes of the stream. To give up for the nesting is
not among the moves. -/
inductive Course (stop : Token) : {α : Type} → Parser α → List Token → List (List Token) →
    Except ParseError (α × List Token) → Prop
  | pure {α : Type} (a : α) (here : List Token) : Course stop (pure a) here [here] (.ok (a, here))
  | peek (here : List Token) : Course stop peek here [here] (.ok (here.headD stop, here))
  | next (here : List Token) :
      Course stop next here [here, here.tail] (.ok (here.headD stop, here.tail))
  | reject {α : Type} (complaint : Complaint) (here : List Token) :
      Course stop (reject complaint : Parser α) here [here]
        (.error (.rejected complaint (here.headD stop)))
  | bind {α β : Type} {p : Parser α} {q : α → Parser β} {here there : List Token} {a : α}
      {cs ds : List (List Token)} {answer : Except ParseError (β × List Token)}
      (hp : Course stop p here cs (.ok (a, there))) (hq : Course stop (q a) there ds answer) :
      Course stop (p >>= q) here (cs ++ ds) answer
  | bindFailed {α β : Type} {p : Parser α} {q : α → Parser β} {here : List Token}
      {cs : List (List Token)} {e : ParseError} (hp : Course stop p here cs (.error e)) :
      Course stop (p >>= q) here cs (.error e)
  | loopDone {α : Type} {step : α → Parser (Option α)} {a : α} {here there : List Token}
      {cs : List (List Token)} (h : Course stop (step a) here cs (.ok (none, there))) :
      Course stop (foldWhile step a) here cs (.ok (a, there))
  | loopTurn {α : Type} {step : α → Parser (Option α)} {a b : α} {here there : List Token}
      {cs ds : List (List Token)} {answer : Except ParseError (α × List Token)}
      (h : Course stop (step a) here cs (.ok (some b, there)))
      (more : Course stop (foldWhile step b) there ds answer) :
      Course stop (foldWhile step a) here (cs ++ ds) answer
  | loopFailed {α : Type} {step : α → Parser (Option α)} {a : α} {here : List Token}
      {cs : List (List Token)} {e : ParseError} (h : Course stop (step a) here cs (.error e)) :
      Course stop (foldWhile step a) here cs (.error e)

namespace Course

variable {α : Type} {stop : Token} {p : Parser α} {here : List Token} {cs : List (List Token)}
  {answer : Except ParseError (α × List Token)}

theorem end_mem (h : Course stop p here cs answer) {a : α} {there : List Token}
    (ha : answer = .ok (a, there)) : there ∈ cs := by
  induction h with
  | pure | peek =>
    cases ha
    exact List.mem_singleton_self there
  | next =>
    cases ha
    simp
  | reject | bindFailed | loopFailed => cases ha
  | bind _ _ _ ih => exact List.mem_append_right _ (ih ha)
  | loopDone _ ih =>
    cases ha
    exact ih rfl
  | loopTurn _ _ _ ih => exact List.mem_append_right _ (ih ha)

theorem outcome (h : Course stop p here cs answer) :
    (∃ a there, answer = .ok (a, there)) ∨
      ∃ complaint, ∃ c ∈ cs, answer = .error (.rejected complaint (c.headD stop)) := by
  induction h with
  | pure | peek | next => exact .inl ⟨_, _, rfl⟩
  | reject complaint here => exact .inr ⟨complaint, here, List.mem_singleton_self here, rfl⟩
  | bind _ _ _ ih => exact ih.imp_right fun ⟨k, c, hc, he⟩ => ⟨k, c, List.mem_append_right _ hc, he⟩
  | bindFailed _ ih =>
    obtain ⟨_, _, h⟩ | ⟨k, c, hc, h⟩ := ih
    · cases h
    · exact .inr ⟨k, c, hc, by cases h; rfl⟩
  | loopDone => exact .inl ⟨_, _, rfl⟩
  | loopTurn _ _ _ ih =>
    exact ih.imp_right fun ⟨k, c, hc, he⟩ => ⟨k, c, List.mem_append_right _ hc, he⟩
  | loopFailed _ ih =>
    obtain ⟨_, _, h⟩ | ⟨k, c, hc, h⟩ := ih
    · cases h
    · exact .inr ⟨k, c, hc, by cases h; rfl⟩

end Course

/-- The cursor gets from here to there without passing an end mark. -/
def Passes (here there : List Token) : Prop :=
  ∃ passed, here = passed ++ there ∧ ∀ t ∈ passed, t.kind ≠ .endOfInput

namespace Passes

variable {a b c : List Token}

theorem refl (a : List Token) : Passes a a :=
  ⟨[], rfl, nofun⟩

theorem trans (h : Passes a b) (h' : Passes b c) : Passes a c := by
  obtain ⟨passed, rfl, hp⟩ := h
  obtain ⟨more, rfl, hm⟩ := h'
  exact ⟨passed ++ more, by simp, List.forall_mem_append.mpr ⟨hp, hm⟩⟩

theorem tail {t : Token} (ht : t.kind ≠ .endOfInput) (a : List Token) : Passes (t :: a) a :=
  ⟨[t], rfl, by simpa using ht⟩

theorem length_le (h : Passes a b) : b.length ≤ a.length := by
  obtain ⟨passed, rfl, -⟩ := h
  simp

end Passes

/-- What the reader makes of the stream from here on, it comes to on a course that passes no end
mark. -/
def Steady (stop : Token) {α : Type} (p : Parser α) (here : List Token) : Prop :=
  ∃ cs, Course stop p here cs (p stop here) ∧ ∀ c ∈ cs, Passes here c

namespace Steady

section Moves

variable {α β : Type} {stop : Token} {p : Parser α} {q : α → Parser β} {here there : List Token}
  {k : Kind}

theorem passes (h : Steady stop p here) {a : α} (ha : p stop here = .ok (a, there)) :
    Passes here there := by
  obtain ⟨cs, hc, hp⟩ := h
  exact hp there (hc.end_mem ha)

theorem pure (a : α) (here : List Token) : Steady stop (Pure.pure a) here :=
  ⟨[here], .pure a here, by simpa using Passes.refl here⟩

theorem reject (complaint : Complaint) (here : List Token) :
    Steady stop (Parser.reject complaint : Parser α) here :=
  ⟨[here], .reject complaint here, by simpa using Passes.refl here⟩

theorem bind (hp : Steady stop p here)
    (hq : ∀ a there, p stop here = .ok (a, there) → there.length ≤ here.length →
      Steady stop (q a) there) :
    Steady stop (p >>= q) here := by
  obtain ⟨cs, hc, hcs⟩ := id hp
  cases h : p stop here with
  | error e =>
    rw [h] at hc
    refine ⟨cs, ?_, hcs⟩
    rw [bind_of_error h]
    exact .bindFailed hc
  | ok x =>
    obtain ⟨a, there⟩ := x
    have hpass := hp.passes h
    obtain ⟨ds, hd, hds⟩ := hq a there h hpass.length_le
    rw [h] at hc
    refine ⟨cs ++ ds, ?_, List.forall_mem_append.mpr ⟨hcs, fun c hm => hpass.trans (hds c hm)⟩⟩
    rw [bind_of_ok h]
    exact .bind hc hd

theorem map (hp : Steady stop p here) (f : α → β) :
    Steady stop (p >>= fun a => Pure.pure (f a)) here :=
  hp.bind fun a there _ _ => pure (f a) there

theorem peek {q : Token → Parser β} (h : Steady stop (q (here.headD stop)) here) :
    Steady stop (Parser.peek >>= q) here := by
  have hpeek : Steady stop Parser.peek here :=
    ⟨[here], .peek here, by simpa using Passes.refl here⟩
  refine hpeek.bind fun t there ht _ => ?_
  obtain ⟨rfl, rfl⟩ := peek_eq_ok.mp ht
  exact h

theorem read (hs : stop.kind = .endOfInput) (hk : (here.headD stop).kind ≠ .endOfInput) :
    Steady stop Parser.next here := by
  cases here with
  | nil => exact absurd hs hk
  | cons t rest =>
    exact ⟨[t :: rest, rest], .next (t :: rest), by simpa using ⟨Passes.refl _, .tail hk rest⟩⟩

theorem next (hs : stop.kind = .endOfInput) {q : Token → Parser β}
    (hk : (here.headD stop).kind ≠ .endOfInput)
    (h : ∀ t there, there.length < here.length → Steady stop (q t) there) :
    Steady stop (Parser.next >>= q) here := by
  refine (read hs hk).bind fun t there ht _ => ?_
  obtain ⟨rfl, rfl⟩ := next_eq_ok.mp ht
  cases here with
  | nil => exact absurd hs hk
  | cons t rest => exact h t rest (Nat.lt_succ_self _)

theorem expect (hs : stop.kind = .endOfInput) (hk : k ≠ .endOfInput) (complaint : Complaint)
    (here : List Token) : Steady stop (Parser.expect k complaint) here := by
  refine peek ?_
  split
  · next h => exact read hs (h ▸ hk)
  · exact reject complaint here

theorem expect_bind (hs : stop.kind = .endOfInput) (hk : k ≠ .endOfInput) {complaint : Complaint}
    {q : Token → Parser β} (h : ∀ t there, there.length < here.length → Steady stop (q t) there) :
    Steady stop (Parser.expect k complaint >>= q) here := by
  refine (expect hs hk complaint here).bind fun t there ht _ => h t there ?_
  rw [((expect_eq_ok hs hk).mp ht).1]
  exact Nat.lt_succ_self _

theorem accept (hs : stop.kind = .endOfInput) (hk : k ≠ .endOfInput) (here : List Token) :
    Steady stop (Parser.accept k) here := by
  refine peek ?_
  split
  · next h => exact next hs (h ▸ hk) fun _ there _ => pure true there
  · exact pure false here

end Moves

section Loops

variable {α : Type} {stop : Token} {step : α → Parser (Option α)} {here : List Token}

theorem foldWhile (hshort : Shortens step stop)
    (hstep : ∀ a there, there.length ≤ here.length → Steady stop (step a) there) (a : α) :
    Steady stop (Parser.foldWhile step a) here := by
  induction hl : here.length using Nat.strongRecOn generalizing a here with
  | _ length ih =>
    obtain ⟨cs, hc, hcs⟩ := hstep a here (Nat.le_refl _)
    have hloop : Parser.foldWhile step a stop here = (step a >>= advance step a) stop here :=
      foldWhile_eq_advance hshort a
    cases h : step a stop here with
    | error e =>
      rw [h] at hc
      refine ⟨cs, ?_, hcs⟩
      rw [hloop, bind_of_error h]
      exact .loopFailed hc
    | ok x =>
      obtain ⟨found, there⟩ := x
      have hpass := (hstep a here (Nat.le_refl _)).passes h
      rw [h] at hc
      rw [bind_of_ok h] at hloop
      cases found with
      | none =>
        refine ⟨cs, ?_, hcs⟩
        rw [hloop]
        exact .loopDone hc
      | some b =>
        have hlt := hshort a here b there h
        obtain ⟨ds, hd, hds⟩ := ih there.length (by omega)
          (fun b far hle => hstep b far (by omega)) b rfl
        refine ⟨cs ++ ds, ?_, List.forall_mem_append.mpr ⟨hcs, fun c hm => hpass.trans (hds c hm)⟩⟩
        rw [hloop]
        exact .loopTurn hc hd

variable {item : Parser α}

theorem commaListUntil (hs : stop.kind = .endOfInput) {close : Kind} (hc : close ≠ .endOfInput)
    {complaint : Complaint} (hshort : Shortens (commaStep item) stop)
    (hi : ∀ there, there.length ≤ here.length → Steady stop item there) :
    Steady stop (Parser.commaListUntil close complaint item) here := by
  have hclose (items : List α) (there : List Token) :
      Steady stop (Parser.expect close complaint >>= fun _ => Pure.pure items) there :=
    (expect hs hc complaint there).map _
  refine peek ?_
  split
  · exact hclose [] here
  · have hmore (items : List α) (there : List Token) (hle : there.length ≤ here.length) :
        Steady stop (commaStep item items) there := by
      refine (accept hs (by decide) there).bind fun found far _ hfar => ?_
      split
      · exact (hi far (by omega)).map _
      · exact pure none far
    have hitems : Steady stop (commaSeparated item) here := by
      refine (hi here (Nat.le_refl _)).bind fun first there _ hle => ?_
      exact (foldWhile hshort (fun items far hl => hmore items far (by omega)) [first]).map _
    exact hitems.bind fun items there _ _ => hclose items there

theorem bracedItems (hs : stop.kind = .endOfInput) {enclosure : Enclosure}
    (hshort : Shortens (bracedStep enclosure item) stop)
    (hi : ∀ there, there.length ≤ here.length → Steady stop item there) :
    Steady stop (Parser.bracedItems enclosure item) here := by
  have hstep (items : List α) (there : List Token) (hle : there.length ≤ here.length) :
      Steady stop (bracedStep enclosure item items) there := by
    refine peek ?_
    split
    · exact pure none there
    · exact reject _ there
    · exact (hi there hle).map _
  refine (foldWhile hshort hstep []).bind fun items there hloop _ => ?_
  -- the loop ends at a brace, so that the token read after it is one
  obtain ⟨last, hlast⟩ := ((foldWhile_eq_ok hshort).mp hloop).pause
  obtain ⟨rfl, hk⟩ := bracedStep_eq_none.mp hlast
  exact next hs (by rw [hk]; decide) fun _ there _ => pure _ there

end Loops

end Steady

end Bahasa.Parser
