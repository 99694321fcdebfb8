import Bahasa.Proofs.Parser.Success

namespace Bahasa.Parser

variable {α β : Type} {deep : Prop} {front front' middle follow follow' : List Kind} {stop : Token}
  {ahead used more more' rest : List Token}

/-- Put before a token of a kind in `follow`, the tokens start with one of a kind in `front`. -/
def Opens (front follow : List Kind) : List Token → Prop
  | [] => follow ⊆ front
  | t :: _ => t.kind ∈ front

namespace Opens

theorem nil : Opens follow follow [] :=
  List.Subset.refl follow

theorem headD (h : Opens front follow more) (hk : (rest.headD stop).kind ∈ follow) :
    ((more ++ rest).headD stop).kind ∈ front := by
  cases more with
  | nil => exact h hk
  | cons t more => exact h

theorem append (h : Opens front middle more) (h' : Opens middle follow more') :
    Opens front follow (more ++ more') := by
  cases more with
  | nil =>
    cases more' with
    | nil => exact fun k hk => h (h' hk)
    | cons t more' => exact h h'
  | cons t more => exact h

theorem mono (h : Opens front follow more) (hf : front ⊆ front') (hn : follow' ⊆ follow) :
    Opens front' follow' more := by
  cases more with
  | nil => exact fun k hk => hf (h (hn hk))
  | cons t more => exact hf h

end Opens

/-- After the tokens that were used, the reader takes the further ones whenever a token of a kind in
`follow` stands behind them. -/
def Completes (q : Parser α) (follow : List Kind) (used more : List Token) : Prop :=
  ∀ stop rest, stop.kind = .endOfInput → (rest.headD stop).kind ∈ follow →
    ∃ a, q stop (used ++ (more ++ rest)) = .ok (a, rest)

structure Both (p q : Parser α) (stop : Token) (ahead : List Token)
    (answer : Except ParseError (α × List Token)) : Prop where
  left : p stop ahead = answer
  right : q stop ahead = answer

/-- What `p` makes of the stream, `p` and `q` make of every stream with the same tokens up to the
one after those that were used, or with one of a kind in `follow` in its place if `p` accepts. Where
`p` rejects a token `q` accepts some other stream, if `deep` allows it. A stream that is changed from
its first token on starts with one of a kind in `front`. Besides, `p` may give up. -/
structure Foresees (deep : Prop) (front follow : List Kind) (p q : Parser α) (stop : Token)
    (ahead : List Token) : Prop where
  accepts : ∀ a rest, p stop ahead = .ok (a, rest) →
    ∃ used, ahead = used ++ rest ∧ (used = [] → follow ⊆ front) ∧
      ∀ stop' rest', stop'.kind = .endOfInput →
        rest'.headD stop' = rest.headD stop ∨ (rest'.headD stop').kind ∈ follow →
        Both p q stop' (used ++ rest') (.ok (a, rest'))
  rejects : ∀ complaint t, p stop ahead = .error (.rejected complaint t) →
    ∃ used rest, ahead = used ++ rest ∧ rest.headD stop = t ∧
      (∀ stop' rest', stop'.kind = .endOfInput → rest'.headD stop' = t →
        Both p q stop' (used ++ rest') (.error (.rejected complaint t))) ∧
      (deep → ∃ more, (used = [] → Opens front follow more) ∧ Completes q follow used more)
  marked : p stop ahead ≠ .error .openStream

structure Foreseen (deep : Prop) (front : List Kind) (more : List Token) (follow : List Kind)
    (p q : Parser α) : Prop where
  foresees : ∀ stop ahead, stop.kind = .endOfInput → Foresees deep front follow p q stop ahead
  opens : Opens front follow more
  takes : deep → Completes q follow [] more

section Primitives

variable {p : Parser α} {r : α → Parser β} {a : α} {e : ParseError}

theorem bind_of_ok (h : p stop ahead = .ok (a, rest)) : (p >>= r) stop ahead = r a stop rest := by
  change Except.bind (p stop ahead) (fun x => r x.1 stop x.2) = _
  rw [h]
  rfl

theorem bind_of_error (h : p stop ahead = .error e) : (p >>= r) stop ahead = .error e := by
  change Except.bind (p stop ahead) (fun x => r x.1 stop x.2) = _
  rw [h]
  rfl

theorem bind_eq_error :
    (p >>= r) stop ahead = .error e ↔
      p stop ahead = .error e ∨ ∃ a mid, p stop ahead = .ok (a, mid) ∧ r a stop mid = .error e := by
  cases h : p stop ahead with
  | error e' => simp [bind_of_error h]
  | ok x =>
    obtain ⟨a, mid⟩ := x
    rw [bind_of_ok h]
    constructor
    · exact fun hr => .inr ⟨a, mid, rfl, hr⟩
    · rintro (hr | ⟨b, mid', hb, hr⟩)
      · cases hr
      · cases hb
        exact hr

theorem Both.bind {q : Parser α} {s : α → Parser β} {answer : Except ParseError (β × List Token)}
    (h : Both p q stop ahead (.ok (a, rest))) (hr : Both (r a) (s a) stop rest answer) :
    Both (p >>= r) (q >>= s) stop ahead answer :=
  ⟨(bind_of_ok h.left).trans hr.left, (bind_of_ok h.right).trans hr.right⟩

theorem Both.bind_error {q : Parser α} {s : α → Parser β} (h : Both p q stop ahead (.error e)) :
    Both (p >>= r) (q >>= s) stop ahead (.error e) :=
  ⟨bind_of_error h.left, bind_of_error h.right⟩

theorem Both.peek {t : Token} {r s : Token → Parser β}
    {answer : Except ParseError (β × List Token)} (h : Both (r t) (s t) stop ahead answer)
    (ht : r (ahead.headD stop) = r t ∧ s (ahead.headD stop) = s t) :
    Both (Parser.peek >>= r) (Parser.peek >>= s) stop ahead answer := by
  constructor
  · rw [peek_bind, ht.1, h.left]
  · rw [peek_bind, ht.2, h.right]

theorem Completes.bind {q : Parser α} {s : α → Parser β} (hq : Completes q middle used more)
    (ho : Opens middle follow more') (hs : ∀ a, Completes (s a) follow [] more') :
    Completes (q >>= s) follow used (more ++ more') := by
  intro stop rest hstop hk
  obtain ⟨a, ha⟩ := hq stop (more' ++ rest) hstop (ho.headD hk)
  obtain ⟨b, hb⟩ := hs a stop rest hstop hk
  rw [List.append_assoc]
  exact ⟨b, (bind_of_ok ha).trans hb⟩

theorem Completes.mono {q : Parser α} (h : Completes q follow used more) (hn : follow' ⊆ follow) :
    Completes q follow' used more :=
  fun stop rest hs hk => h stop rest hs (hn hk)

end Primitives

namespace Foresees

variable {p q : Parser α} {r s : α → Parser β}

theorem mono (h : Foresees deep front follow p q stop ahead) (hf : front ⊆ front')
    (hn : follow' ⊆ follow) : Foresees deep front' follow' p q stop ahead where
  accepts := by
    intro a rest hp
    obtain ⟨used, hu, hne, hq⟩ := h.accepts a rest hp
    refine ⟨used, hu, fun hnil k hk => hf (hne hnil (hn hk)), fun stop' rest' hs hk => ?_⟩
    exact hq stop' rest' hs (hk.imp_right fun hk => hn hk)
  rejects := by
    intro complaint t hp
    obtain ⟨used, rest, hu, ht, hq, hd⟩ := h.rejects complaint t hp
    refine ⟨used, rest, hu, ht, hq, fun hdeep => ?_⟩
    obtain ⟨more, ho, hc⟩ := hd hdeep
    exact ⟨more, fun hnil => (ho hnil).mono hf hn, hc.mono hn⟩
  marked := h.marked

theorem congr {p' q' : Parser α} (h : Foresees deep front follow p q stop ahead)
    (hs : stop.kind = .endOfInput)
    (hp : ∀ stop ahead, stop.kind = .endOfInput → p' stop ahead = p stop ahead)
    (hq : ∀ stop ahead, stop.kind = .endOfInput → q' stop ahead = q stop ahead) :
    Foresees deep front follow p' q' stop ahead where
  accepts := by
    intro a rest ha
    obtain ⟨used, hu, hnil, hgo⟩ := h.accepts a rest (hp stop ahead hs ▸ ha)
    refine ⟨used, hu, hnil, fun stop' rest' hs' hk => ?_⟩
    obtain ⟨hl, hr⟩ := hgo stop' rest' hs' hk
    exact ⟨(hp stop' _ hs').trans hl, (hq stop' _ hs').trans hr⟩
  rejects := by
    intro complaint t ha
    obtain ⟨used, rest, hu, ht, hgo, hd⟩ := h.rejects complaint t (hp stop ahead hs ▸ ha)
    refine ⟨used, rest, hu, ht, fun stop' rest' hs' hh => ?_, fun hdeep => ?_⟩
    · obtain ⟨hl, hr⟩ := hgo stop' rest' hs' hh
      exact ⟨(hp stop' _ hs').trans hl, (hq stop' _ hs').trans hr⟩
    · obtain ⟨more, ho, hc⟩ := hd hdeep
      refine ⟨more, ho, fun stop' rest' hs' hk => ?_⟩
      obtain ⟨b, hb⟩ := hc stop' rest' hs' hk
      exact ⟨b, (hq stop' _ hs').trans hb⟩
  marked := hp stop ahead hs ▸ h.marked

theorem tooDeep (q : Parser α) :
    Foresees deep front follow Parser.tooDeep q stop ahead where
  accepts := fun _ _ h => (tooDeep_eq_ok.mp h).elim
  rejects := fun _ _ h => by cases h
  marked := fun h => by cases h

theorem pure (a : α) (hn : follow ⊆ front) :
    Foresees deep front follow (Pure.pure a) (Pure.pure a) stop ahead where
  accepts := by
    intro b rest h
    obtain ⟨rfl, rfl⟩ := pure_eq_ok.mp h
    exact ⟨[], rfl, fun _ => hn, fun _ _ _ _ => ⟨rfl, rfl⟩⟩
  rejects := fun _ _ h => by cases h
  marked := fun h => by cases h

theorem restart (h : Foresees deep front follow p q stop ahead) (hn : follow ⊆ front')
    (ho : Opens front' follow more) (hc : deep → Completes q follow [] more) :
    Foresees deep front' follow p q stop ahead where
  accepts := by
    intro a rest hp
    obtain ⟨used, hu, -, hq⟩ := h.accepts a rest hp
    exact ⟨used, hu, fun _ => hn, hq⟩
  rejects := by
    intro complaint t hp
    obtain ⟨used, rest, hu, ht, hq, hd⟩ := h.rejects complaint t hp
    refine ⟨used, rest, hu, ht, hq, fun hdeep => ?_⟩
    cases used with
    | nil => exact ⟨more, fun _ => ho, hc hdeep⟩
    | cons t used =>
      obtain ⟨more, -, hc⟩ := hd hdeep
      exact ⟨more, nofun, hc⟩
  marked := h.marked

theorem refuse {complaint : Complaint}
    (h : ∀ stop' ahead', ahead'.headD stop' = ahead.headD stop →
      Both p q stop' ahead' (.error (.rejected complaint (ahead.headD stop))))
    (ho : Opens front follow more) (hc : deep → Completes q follow [] more) :
    Foresees deep front follow p q stop ahead where
  accepts := by simp [(h stop ahead rfl).left]
  rejects := by
    intro c t ht
    rw [(h stop ahead rfl).left] at ht
    cases ht
    exact ⟨[], ahead, rfl, rfl, fun stop' rest' _ hh => h stop' rest' hh,
      fun hdeep => ⟨more, fun _ => ho, hc hdeep⟩⟩
  marked := by simp [(h stop ahead rfl).left]

theorem bind (hp : Foresees deep front middle p q stop ahead)
    (hr : ∀ a mid, p stop ahead = .ok (a, mid) → Foresees deep middle follow (r a) (s a) stop mid)
    (ho : Opens middle follow more') (hs : deep → ∀ a, Completes (s a) follow [] more') :
    Foresees deep front follow (p >>= r) (q >>= s) stop ahead where
  accepts := by
    intro b rest h
    obtain ⟨a, mid, ha, hb⟩ := bind_eq_ok.mp h
    obtain ⟨used, rfl, hnil, hq⟩ := hp.accepts a mid ha
    obtain ⟨last, rfl, hnil', hq'⟩ := (hr a mid ha).accepts b rest hb
    refine ⟨used ++ last, by simp, fun hu => ?_, fun stop' rest' hstop hk => ?_⟩
    · obtain ⟨rfl, rfl⟩ := List.append_eq_nil_iff.mp hu
      exact fun k hk => hnil rfl (hnil' rfl hk)
    · have hmid : Both p q stop' (used ++ (last ++ rest')) (.ok (a, last ++ rest')) := by
        apply hq stop' (last ++ rest') hstop
        cases last with
        | nil => exact hk.imp_right fun hk => hnil' rfl hk
        | cons t last => exact .inl rfl
      rw [List.append_assoc]
      exact hmid.bind (hq' stop' rest' hstop hk)
  rejects := by
    intro complaint t he
    obtain h | ⟨a, mid, ha, h⟩ := bind_eq_error.mp he
    · obtain ⟨used, rest, rfl, ht, hq, hd⟩ := hp.rejects complaint t h
      refine ⟨used, rest, rfl, ht, fun stop' rest' hstop hh => ?_, fun hdeep => ?_⟩
      · exact (hq stop' rest' hstop hh).bind_error
      · obtain ⟨more, hopens, hc⟩ := hd hdeep
        exact ⟨more ++ more', fun hu => (hopens hu).append ho, hc.bind ho (hs hdeep)⟩
    · obtain ⟨used, rfl, hnil, hq⟩ := hp.accepts a mid ha
      obtain ⟨last, rest, rfl, ht, hq', hd⟩ := (hr a mid ha).rejects complaint t h
      -- what is read first is settled as long as the next token is the old one or fits
      have hmid (stop' : Token) (rest' : List Token) (hstop : stop'.kind = .endOfInput)
          (hk : last = [] → rest'.headD stop' = rest.headD stop ∨
            (rest'.headD stop').kind ∈ middle) :
          Both p q stop' (used ++ (last ++ rest')) (.ok (a, last ++ rest')) := by
        apply hq stop' (last ++ rest') hstop
        cases last with
        | nil => exact hk rfl
        | cons t last => exact .inl rfl
      refine ⟨used ++ last, rest, by simp, ht, fun stop' rest' hstop hh => ?_, fun hdeep => ?_⟩
      · rw [List.append_assoc]
        exact (hmid stop' rest' hstop fun _ => .inl (hh.trans ht.symm)).bind
          (hq' stop' rest' hstop hh)
      · obtain ⟨more, hopens, hc⟩ := hd hdeep
        refine ⟨more, fun hu => ?_, fun stop' rest' hstop hk => ?_⟩
        · obtain ⟨rfl, rfl⟩ := List.append_eq_nil_iff.mp hu
          exact (hopens rfl).mono (hnil rfl) (List.Subset.refl _)
        · have hgo := hmid stop' (more ++ rest') hstop fun hl => .inr ((hopens hl).headD hk)
          obtain ⟨b, hb⟩ := hc stop' rest' hstop hk
          rw [List.append_assoc]
          exact ⟨b, (bind_of_ok hgo.right).trans hb⟩
  marked := by
    intro h
    obtain h | ⟨a, mid, ha, h⟩ := bind_eq_error.mp h
    · exact hp.marked h
    · exact (hr a mid ha).marked h

theorem map (h : Foresees deep front follow p q stop ahead) (f : α → β) :
    Foresees deep front follow (p >>= fun a => Pure.pure (f a))
      (q >>= fun a => Pure.pure (f a)) stop
      ahead :=
  h.bind (fun _ _ _ => .pure _ (List.Subset.refl _)) .nil fun _ _ _ _ _ _ => ⟨_, rfl⟩

theorem peek (front : List Kind) {r s : Token → Parser β}
    (h : Foresees deep front follow (r (ahead.headD stop)) (s (ahead.headD stop)) stop ahead)
    (hs : ∀ t : Token, t.kind ∈ front →
      r t = r (ahead.headD stop) ∧ s t = s (ahead.headD stop)) :
    Foresees deep front follow (Parser.peek >>= r) (Parser.peek >>= s) stop ahead where
  accepts := by
    intro b rest hb
    rw [peek_bind] at hb
    obtain ⟨used, rfl, hnil, hq⟩ := h.accepts b rest hb
    refine ⟨used, rfl, hnil, fun stop' rest' hstop hk => (hq stop' rest' hstop hk).peek ?_⟩
    cases used with
    | cons t used => exact ⟨rfl, rfl⟩
    | nil =>
      obtain hk | hk := hk
      · rw [List.nil_append, hk]
        exact ⟨rfl, rfl⟩
      · exact hs _ (hnil rfl hk)
  rejects := by
    intro complaint t hb
    rw [peek_bind] at hb
    obtain ⟨used, rest, rfl, rfl, hq, hd⟩ := h.rejects complaint t hb
    refine ⟨used, rest, rfl, rfl, fun stop' rest' hstop hh => ?_, fun hdeep => ?_⟩
    · refine (hq stop' rest' hstop hh).peek ?_
      cases used with
      | cons t used => exact ⟨rfl, rfl⟩
      | nil =>
        rw [List.nil_append, hh]
        exact ⟨rfl, rfl⟩
    · obtain ⟨more, hopens, hc⟩ := hd hdeep
      refine ⟨more, hopens, fun stop' rest' hstop hk => ?_⟩
      obtain ⟨b, hb⟩ := hc stop' rest' hstop hk
      refine ⟨b, ?_⟩
      rw [peek_bind]
      cases used with
      | cons t used => exact hb
      | nil =>
        rw [List.nil_append, (hs _ ((hopens rfl).headD hk)).2]
        exact hb
  marked := h.marked

theorem next {t : Token} {r s : Token → Parser β}
    (h : Foresees deep front follow (r t) (s t) stop ahead) :
    Foresees deep front' follow (Parser.next >>= r) (Parser.next >>= s) stop (t :: ahead) where
  accepts := by
    intro b rest hb
    obtain ⟨used, rfl, -, hq⟩ := h.accepts b rest hb
    refine ⟨t :: used, rfl, nofun, fun stop' rest' hs hk => ?_⟩
    exact ⟨(hq stop' rest' hs hk).left, (hq stop' rest' hs hk).right⟩
  rejects := by
    intro complaint u hb
    obtain ⟨used, rest, rfl, ht, hq, hd⟩ := h.rejects complaint u hb
    refine ⟨t :: used, rest, rfl, ht, fun stop' rest' hs hh => ?_, fun hdeep => ?_⟩
    · exact ⟨(hq stop' rest' hs hh).left, (hq stop' rest' hs hh).right⟩
    · obtain ⟨more, -, hc⟩ := hd hdeep
      exact ⟨more, nofun, hc⟩
  marked := h.marked

theorem stay (a : α) (hs : stop.kind = .endOfInput)
    (h : ∀ stop' ahead', stop'.kind = .endOfInput →
      ahead'.headD stop' = ahead.headD stop ∨ (ahead'.headD stop').kind ∈ follow →
      Both p q stop' ahead' (.ok (a, ahead'))) (hn : follow ⊆ front) :
    Foresees deep front follow p q stop ahead where
  accepts := by
    intro b rest hb
    rw [(h stop ahead hs (.inl rfl)).left] at hb
    cases hb
    exact ⟨[], rfl, fun _ => hn, h⟩
  rejects := by simp [(h stop ahead hs (.inl rfl)).left]
  marked := by simp [(h stop ahead hs (.inl rfl)).left]

theorem choose {t : Token} {r s : Token → Parser β}
    (h : Foresees deep [] follow (r t) (s t) stop (t :: ahead)) :
    Foresees deep front follow (Parser.peek >>= r) (Parser.peek >>= s) stop (t :: ahead) :=
  (Foresees.peek [] h nofun).mono (List.nil_subset _) (List.Subset.refl _)

theorem single {t : Token} {a : α} (hs : stop.kind = .endOfInput)
    (h : ∀ stop' ahead', stop'.kind = .endOfInput →
      Both p q stop' (t :: ahead') (.ok (a, ahead'))) :
    Foresees deep front follow p q stop (t :: ahead) where
  accepts := by
    intro b rest hb
    rw [(h stop ahead hs).left] at hb
    cases hb
    exact ⟨[t], rfl, nofun, fun stop' rest' hs' _ => h stop' rest' hs'⟩
  rejects := by simp [(h stop ahead hs).left]
  marked := by simp [(h stop ahead hs).left]

end Foresees

namespace Foreseen

variable {p q : Parser α} {r s : α → Parser β}

theorem mono (h : Foreseen deep front more follow p q) (hf : front ⊆ front')
    (hn : follow' ⊆ follow) :
    Foreseen deep front' more follow' p q where
  foresees := fun stop ahead hs => (h.foresees stop ahead hs).mono hf hn
  opens := h.opens.mono hf hn
  takes := fun hdeep => (h.takes hdeep).mono hn

theorem pure (a : α) (hn : follow ⊆ front) :
    Foreseen deep front [] follow (Pure.pure a) (Pure.pure a) where
  foresees := fun _ _ _ => .pure a hn
  opens := hn
  takes := fun _ _ _ _ _ => ⟨a, rfl⟩

theorem bind (hp : Foreseen deep front more middle p q)
    (hr : ∀ a, Foreseen deep middle more' follow (r a) (s a)) (ho : Opens middle follow more') :
    Foreseen deep front (more ++ more') follow (p >>= r) (q >>= s) where
  foresees := fun stop ahead hs =>
    (hp.foresees stop ahead hs).bind (fun a mid _ => (hr a).foresees stop mid hs) ho
      fun hdeep a => (hr a).takes hdeep
  opens := hp.opens.append ho
  takes := fun hdeep => (hp.takes hdeep).bind ho fun a => (hr a).takes hdeep

theorem next {t : Token} {r s : Token → Parser β} (hs : stop.kind = .endOfInput)
    (h : Foreseen deep front more follow (r t) (s t)) :
    Foresees deep front' follow (Parser.next >>= r) (Parser.next >>= s) stop (t :: ahead) :=
  .next (h.foresees stop ahead hs)

theorem map (h : Foreseen deep front more follow p q) (f : α → β) :
    Foreseen deep front more follow (p >>= fun a => Pure.pure (f a))
      (q >>= fun a => Pure.pure (f a)) := by
  rw [← List.append_nil more]
  exact h.bind (fun _ => .pure _ (List.Subset.refl _)) (List.Subset.refl _)

end Foreseen

section Tokens

variable {k : Kind} {complaint : Complaint}

theorem expect_of_kind {t : Token} (ht : t.kind = k) :
    expect k complaint stop (t :: rest) = .ok (t, rest) := by
  simp only [expect, peek_bind, List.headD_cons, ht, if_true]
  rfl

theorem expect_of_ne (h : (ahead.headD stop).kind ≠ k) :
    expect k complaint stop ahead = .error (.rejected complaint (ahead.headD stop)) := by
  simp only [expect, peek_bind, h, if_false]
  rfl

theorem expect_foreseen {t : Token} (hk : k ≠ .endOfInput) (ht : t.kind = k) :
    Foreseen deep [k] [t] follow (expect k complaint) (expect k complaint) where
  foresees := by
    intro stop ahead hs
    have hc : Completes (expect k complaint) follow [] [t] :=
      fun _ _ _ _ => ⟨t, expect_of_kind ht⟩
    by_cases hh : (ahead.headD stop).kind = k
    · obtain ⟨u, rest, rfl, hu⟩ := (headD_kind hs hk).mp hh
      exact .single hs fun _ _ _ => ⟨expect_of_kind hu, expect_of_kind hu⟩
    · have hopens : Opens [k] follow [t] := by simp [Opens, ht]
      have hrefuse (stop' : Token) (ahead' : List Token)
        (he : ahead'.headD stop' = ahead.headD stop) :
          expect k complaint stop' ahead' = .error (.rejected complaint (ahead.headD stop)) := by
        rw [← he] at hh ⊢
        exact expect_of_ne hh
      exact .refuse (fun stop' ahead' he => ⟨hrefuse stop' ahead' he, hrefuse stop' ahead' he⟩)
        hopens fun _ => hc
  opens := by simp [Opens, ht]
  takes := fun _ _ _ _ _ => ⟨t, expect_of_kind ht⟩

theorem accept_bind (r : Bool → Parser β) :
    (accept k >>= r) =
      peek >>= fun t => if t.kind = k then next >>= fun _ => r true else r false := by
  funext stop ahead
  by_cases h : (ahead.headD stop).kind = k
  · simp only [accept, peek_bind, h, if_true]
    apply bind_of_ok
    simp only [peek_bind, h, if_true]
    rfl
  · simp only [peek_bind, h, if_false]
    exact bind_of_ok (accept_eq_false.mpr ⟨rfl, h⟩)

theorem accept_foreseen {r s : Bool → Parser β} (hk : k ≠ .endOfInput) (hf : k ∉ front)
    (ht : ∀ stop ahead, stop.kind = .endOfInput →
      Foresees deep front' follow (r true) (s true) stop ahead)
    (hm : Foreseen deep front more follow (r false) (s false)) :
    Foreseen deep front more follow (accept k >>= r) (accept k >>= s) where
  foresees := by
    intro stop ahead hs
    rw [accept_bind, accept_bind]
    by_cases hh : (ahead.headD stop).kind = k
    · obtain ⟨t, rest, rfl, ht'⟩ := (headD_kind hs hk).mp hh
      have hread : Foresees deep [] follow (next >>= fun _ => r true)
        (next >>= fun _ => s true) stop
          (t :: rest) := .next (ht stop rest hs)
      refine .choose ?_
      simpa only [ht', if_true] using hread
    · refine .peek _ ?_ fun t ht => ?_
      · simpa only [hh, if_false] using hm.foresees stop ahead hs
      · have hne : t.kind ≠ k := fun he => hf (he ▸ ht)
        simp only [hh, hne, if_false, and_self]
  opens := hm.opens
  takes := by
    intro hdeep stop rest hs hn
    have hne : ((more ++ rest).headD stop).kind ≠ k := fun he => hf (he ▸ hm.opens.headD hn)
    obtain ⟨b, hb⟩ := hm.takes hdeep stop rest hs hn
    rw [accept_bind]
    exact ⟨b, by simpa only [peek_bind, List.nil_append, hne, if_false] using hb⟩

end Tokens

section Loops

variable {step step' : α → Parser (Option α)}

def advance (step : α → Parser (Option α)) (a : α) : Option α → Parser α
  | none => pure a
  | some b => foldWhile step b

theorem foldTurns_congr (hs : Shortens step stop) {turns turns' : List Token} (a : α)
    (hl : ahead.length ≤ turns.length) (hl' : ahead.length ≤ turns'.length) :
    foldTurns step turns a stop ahead = foldTurns step turns' a stop ahead := by
  induction turns generalizing turns' a ahead with
  | nil =>
    cases turns' with
    | nil => rfl
    | cons t turns' =>
      simp only [foldTurns]
      cases h : step a stop ahead with
      | error e => rw [bind_of_error h, bind_of_error h]
      | ok x =>
        obtain ⟨found, mid⟩ := x
        rw [bind_of_ok h, bind_of_ok h]
        cases found with
        | none => rfl
        | some b =>
          have hlt := hs a ahead b mid h
          rw [List.length_nil] at hl
          omega
  | cons t turns ih =>
    cases h : step a stop ahead with
    | error e => cases turns' <;> simp only [foldTurns, bind_of_error h]
    | ok x =>
      obtain ⟨found, mid⟩ := x
      cases found with
      | none =>
        cases turns' with
        | nil =>
          simp only [foldTurns, bind_of_ok h]
          rfl
        | cons t' turns' => simp only [foldTurns, bind_of_ok h]
      | some b =>
        have hlt := hs a ahead b mid h
        simp only [List.length_cons] at hl
        cases turns' with
        | nil =>
          rw [List.length_nil] at hl'
          omega
        | cons t' turns' =>
          simp only [List.length_cons] at hl'
          simp only [foldTurns, bind_of_ok h]
          exact ih b (by omega) (by omega)

theorem foldWhile_eq_advance (hs : Shortens step stop) (a : α) :
    foldWhile step a stop ahead = (step a >>= advance step a) stop ahead := by
  have hmore : foldWhile step a stop ahead = foldTurns step (stop :: ahead) a stop ahead :=
    foldTurns_congr hs a (Nat.le_refl _) (by simp)
  rw [hmore, foldTurns]
  cases h : step a stop ahead with
  | error e => rw [bind_of_error h, bind_of_error h]
  | ok x =>
    obtain ⟨found, mid⟩ := x
    rw [bind_of_ok h, bind_of_ok h]
    cases found with
    | none => rfl
    | some b =>
      have hlt := hs a ahead b mid h
      exact foldTurns_congr hs b (by omega) (Nat.le_refl _)

def Pauses (step : α → Parser (Option α)) (kinds : List Kind) : Prop :=
  ∀ a stop ahead, stop.kind = .endOfInput → (ahead.headD stop).kind ∈ kinds →
    step a stop ahead = .ok (none, ahead)

theorem Pauses.foldWhile (h : Pauses step follow)
    (hs : ∀ stop, stop.kind = .endOfInput → Shortens step stop) (a : α) :
    Completes (foldWhile step a) follow [] [] := by
  intro stop rest hstop hk
  refine ⟨a, ?_⟩
  rw [List.nil_append, List.nil_append, foldWhile_eq_advance (hs stop hstop),
    bind_of_ok (h a stop rest hstop hk)]
  rfl

/-- A loop looks one token ahead if its steps do, and it may end before any token that its step has
nothing to add before. -/
theorem foldWhile_foreseen
    (hf : ∀ a stop ahead, stop.kind = .endOfInput →
      Foresees deep front follow (step a) (step' a) stop ahead)
    (hp : Pauses step' follow) (hs : ∀ stop, stop.kind = .endOfInput → Shortens step stop)
    (hs' : ∀ stop, stop.kind = .endOfInput → Shortens step' stop) (a : α) :
    Foreseen deep follow [] follow (foldWhile step a) (foldWhile step' a) where
  foresees := by
    intro stop ahead hstop
    -- each further turn finds fewer tokens
    induction hl : ahead.length using Nat.strongRecOn generalizing a ahead with
    | _ n ih =>
      have hturn : Foresees deep front follow (step a >>= advance step a)
          (step' a >>= advance step' a) stop ahead := by
        refine (hf a stop ahead hstop).bind (fun found mid hm => ?_) .nil fun _ found => ?_
        · cases found with
          | none => exact .pure a (List.Subset.refl _)
          | some b =>
            have hlt := hs stop hstop a ahead b mid hm
            exact ih mid.length (by omega) b mid rfl
        · cases found with
          | none => exact fun _ _ _ _ => ⟨a, rfl⟩
          | some b => exact hp.foldWhile hs' b
      have hloop : Foresees deep front follow (foldWhile step a) (foldWhile step' a) stop ahead :=
        hturn.congr hstop (fun stop ahead hstop => foldWhile_eq_advance (hs stop hstop) a)
          fun stop ahead hstop => foldWhile_eq_advance (hs' stop hstop) a
      exact hloop.restart (List.Subset.refl _) .nil fun _ => hp.foldWhile hs' a
  opens := List.Subset.refl _
  takes := fun _ => hp.foldWhile hs' a

theorem Loop.pause {a b : α} (h : Loop step stop a ahead b rest) :
    ∃ last, step b stop last = .ok (none, rest) := by
  induction h with
  | done h => exact ⟨_, h⟩
  | turn _ _ ih => exact ih

end Loops

section Lists

variable {item item' : Parser α} {close : Kind} {complaint : Complaint} {t : Token}

theorem commaSeparated_foreseen (hi : Foreseen deep front more [close] item item')
    (hc : close ≠ .comma) (hs : ∀ stop, stop.kind = .endOfInput → Shortens (commaStep item) stop)
    (hs' : ∀ stop, stop.kind = .endOfInput → Shortens (commaStep item') stop) :
    Foreseen deep front more [close] (commaSeparated item) (commaSeparated item') := by
  have hstep (items : List α) : Foreseen deep [close] [] [close] (commaStep item items)
      (commaStep item' items) :=
    accept_foreseen (by decide) (by simpa using hc.symm)
      (fun stop ahead hstop => (hi.foresees stop ahead hstop).map _)
      (.pure none (List.Subset.refl _))
  have hpause : Pauses (commaStep item') [close] := by
    intro items stop ahead hstop hk
    refine (commaStep_eq_none hstop).mpr ⟨rfl, ?_⟩
    rw [List.mem_singleton.mp hk]
    exact hc
  have hloop (first : α) : Foreseen deep [close] [] [close] (foldWhile (commaStep item) [first])
      (foldWhile (commaStep item') [first]) :=
    foldWhile_foreseen (fun items => (hstep items).foresees) hpause hs hs' [first]
  have h := hi.bind (fun first => (hloop first).map List.reverse) (List.Subset.refl _)
  rwa [List.append_nil] at h

theorem commaListUntil_foreseen (hi : Foreseen deep front more [close] item item')
    (hf : close ∉ front) (hc : close ≠ .comma) (he : close ≠ .endOfInput) (ht : t.kind = close)
    (hs : ∀ stop, stop.kind = .endOfInput → Shortens (commaStep item) stop)
    (hs' : ∀ stop, stop.kind = .endOfInput → Shortens (commaStep item') stop) :
    Foreseen deep (close :: front) [t] follow (commaListUntil close complaint item)
      (commaListUntil close complaint item') where
  foresees := by
    intro stop ahead hstop
    have hend (items : List α) : Foreseen deep [close] [t] follow
        (expect close complaint >>= fun _ => pure items)
        (expect close complaint >>= fun _ => pure items) :=
      (expect_foreseen he ht).map fun _ => items
    by_cases hh : (ahead.headD stop).kind = close
    · refine (Foresees.peek [close] ?_ fun u hu => ?_).mono (by simp) (List.Subset.refl _)
      · simp only [hh, if_true]
        exact (hend []).foresees stop ahead hstop
      · simp only [List.mem_singleton.mp hu, hh, if_true, and_self]
    · refine (Foresees.peek front ?_ fun u hu => ?_).mono (by simp) (List.Subset.refl _)
      · simp only [hh, if_false]
        exact ((commaSeparated_foreseen hi hc hs hs').bind hend (hend []).opens).foresees
          stop ahead hstop
      · have hne : u.kind ≠ close := fun h => hf (h ▸ hu)
        simp only [hh, hne, if_false, and_self]
  opens := by simp [Opens, ht]
  takes := by
    intro _ stop rest hstop _
    exact ⟨[], (commaListUntil_eq_ok hstop he).mpr (.inl ⟨rfl, t, rfl, ht⟩)⟩

section Braces

variable {enclosure : Enclosure}

theorem bracedStep_pauses : Pauses (bracedStep enclosure item) [.rbrace] :=
  fun _ _ _ _ hk => bracedStep_eq_none.mpr ⟨rfl, List.mem_singleton.mp hk⟩

theorem bracedStep_foresees (hi : Foresees deep front [.rbrace] item item' stop ahead)
    (hf : .rbrace ∉ front) (he : .endOfInput ∉ front) (items : List α) :
    Foresees deep (.rbrace :: front) [.rbrace] (bracedStep enclosure item items)
      (bracedStep enclosure item' items) stop ahead := by
  by_cases hr : (ahead.headD stop).kind = .rbrace
  · refine (Foresees.peek [.rbrace] ?_ fun u hu => ?_).mono (by simp) (List.Subset.refl _)
    · simp only [hr]
      exact .pure none (List.Subset.refl _)
    · simp only [List.mem_singleton.mp hu, hr, and_self]
  by_cases hk : (ahead.headD stop).kind = .endOfInput
  · have hrefuse {item : Parser α} (stop' : Token) (ahead' : List Token)
        (hh : ahead'.headD stop' = ahead.headD stop) :
        bracedStep enclosure item items stop' ahead' =
          .error (.rejected (.unterminated enclosure) (ahead.headD stop)) := by
      simp only [bracedStep, peek_bind, hh, hk, reject]
    -- the brace that is missed could have stood here
    have hopens : Opens (.rbrace :: front) [.rbrace] [] := by simp [Opens]
    exact .refuse (fun stop' ahead' hh => ⟨hrefuse stop' ahead' hh, hrefuse stop' ahead' hh⟩) hopens
      fun _ stop rest hstop hn => ⟨none, bracedStep_pauses items stop rest hstop hn⟩
  · refine (Foresees.peek front ?_ fun u hu => ?_).mono (by simp) (List.Subset.refl _)
    · split
      · contradiction
      · contradiction
      · exact hi.map _
    · have hr' : u.kind ≠ .rbrace := fun h => hf (h ▸ hu)
      have hk' : u.kind ≠ .endOfInput := fun h => he (h ▸ hu)
      split
      · contradiction
      · contradiction
      · exact ⟨rfl, rfl⟩

theorem bracedItems_foreseen
    (hi : ∀ stop ahead, stop.kind = .endOfInput →
      Foresees deep front [.rbrace] item item' stop ahead)
    (hf : .rbrace ∉ front) (he : .endOfInput ∉ front) (ht : t.kind = .rbrace)
    (hs : ∀ stop, stop.kind = .endOfInput → Shortens (bracedStep enclosure item) stop)
    (hs' : ∀ stop, stop.kind = .endOfInput → Shortens (bracedStep enclosure item') stop) :
    Foreseen deep [.rbrace] [t] follow (bracedItems enclosure item)
      (bracedItems enclosure item') := by
  have hloop := foldWhile_foreseen
    (fun items stop ahead hstop => bracedStep_foresees (hi stop ahead hstop) hf he items)
    bracedStep_pauses hs hs' []
  have hopens : Opens [.rbrace] follow [t] := by simp [Opens, ht]
  constructor
  · intro stop ahead hstop
    refine (hloop.foresees stop ahead hstop).bind (fun items mid hm => ?_) hopens
      fun _ items _ _ _ _ => ⟨_, rfl⟩
    -- the loop ends at a brace, so that the token read after it is one
    obtain ⟨last, hlast⟩ := ((foldWhile_eq_ok (hs stop hstop)).mp hm).pause
    obtain ⟨rfl, hk⟩ := bracedStep_eq_none.mp hlast
    obtain ⟨brace, rest, rfl, -⟩ := (headD_kind hstop (by decide : Kind.rbrace ≠ _)).mp hk
    exact .next (.pure _ (List.Subset.refl _))
  · exact hopens
  · exact fun hdeep => (hloop.takes hdeep).bind hopens fun items _ _ _ _ => ⟨_, rfl⟩

end Braces

end Lists

end Bahasa.Parser
