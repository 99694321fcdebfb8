import Bahasa.Proofs.Parser.Completion

namespace Bahasa

def Motion.still : Motion := ⟨id, id, fun _ => rfl⟩

namespace Parser

variable {deep : Prop} {d d' : Nat} {stop stop' : Token} {ahead used rest rest' : List Token}

section Programs

theorem programStep_pauses (d : Nat) : Pauses (programStep d) [.endOfInput] :=
  fun _ _ _ _ hk => programStep_eq_none.mpr ⟨rfl, List.mem_singleton.mp hk⟩

theorem programStep_foresees (h : d ≤ d') (hd : deep → d < d') (hs : stop.kind = .endOfInput)
    (statements : List Node) :
    Foresees deep [.endOfInput, .ident] [.endOfInput] (programStep d statements)
      (programStep d' statements) stop ahead := by
  by_cases hk : (ahead.headD stop).kind = .endOfInput
  · refine .stay none hs (fun stop' ahead' _ hh => ?_) (by simp)
    have hend : (ahead'.headD stop').kind = .endOfInput := by
      obtain hh | hh := hh
      · rwa [hh]
      · exact List.mem_singleton.mp hh
    exact ⟨programStep_eq_none.mpr ⟨rfl, hend⟩, programStep_eq_none.mpr ⟨rfl, hend⟩⟩
  · refine (Foresees.peek [.ident] ?_ fun t ht => ?_).mono (by simp) (List.Subset.refl _)
    · simp only [hk, if_false]
      have hstatement := (careful_statement h hd).foresees stop ahead hs
      exact (hstatement.mono (List.Subset.refl _) (by decide)).map _
    · simp only [List.mem_singleton.mp ht, hk, if_false]
      exact ⟨rfl, rfl⟩

theorem programStep_shortens (hs : stop.kind = .endOfInput) (d : Nat) :
    Shortens (programStep d) stop :=
  (programStep_reads (fun _ => True) hs d).shortens

theorem statements_foreseen (deep : Prop) (h : d ≤ d') (hd : deep → d < d') :
    Foreseen deep [.endOfInput] [] [.endOfInput] (foldWhile (programStep d) [])
      (foldWhile (programStep d') []) :=
  foldWhile_foreseen (fun ns _ _ hs => programStep_foresees h hd hs ns) (programStep_pauses d')
    (fun _ hs => programStep_shortens hs d) (fun _ hs => programStep_shortens hs d') []

theorem program_eq (d : Nat) (stop : Token) (ahead : List Token) :
    program d stop ahead = (foldWhile (programStep d) [] >>= fun ns =>
      pure (Node.build .program ns.reverse (ahead.headD stop))) stop ahead :=
  rfl

theorem program_accepts (hs : stop.kind = .endOfInput) {n : Node}
    (hp : program d stop ahead = .ok (n, rest)) :
    ∃ used, ahead = used ++ rest ∧ ∀ stop' rest', stop'.kind = .endOfInput →
      rest'.headD stop' = rest.headD stop → program d stop' (used ++ rest') = .ok (n, rest') := by
  obtain ⟨ns, hf, rfl⟩ := program_eq_ok.mp hp
  have hforeseen := statements_foreseen False (Nat.le_refl d) nofun
  obtain ⟨used, rfl, -, hq⟩ := (hforeseen.foresees stop ahead hs).accepts ns rest hf
  refine ⟨used, rfl, fun stop' rest' hs' hh => ?_⟩
  refine program_eq_ok.mpr ⟨ns, (hq stop' rest' hs' (.inl hh)).left, ?_⟩
  cases used with
  | nil => rw [List.nil_append, List.nil_append, hh]
  | cons t used => rfl

/-- Where a program is rejected, the next token settles it, and with one more level of depth the
tokens before it start some program. -/
theorem program_rejects (hs : stop.kind = .endOfInput) {complaint : Complaint} {t : Token}
    (hp : program d stop ahead = .error (.rejected complaint t)) :
    ∃ used rest, ahead = used ++ rest ∧ rest.headD stop = t ∧
      (∀ stop' rest', stop'.kind = .endOfInput → rest'.headD stop' = t →
        program d stop' (used ++ rest') = .error (.rejected complaint t)) ∧
      ∃ more n, program (d + 1) stop (used ++ more) = .ok (n, []) := by
  rw [program_eq] at hp
  obtain hp | ⟨ns, mid, -, hn⟩ := bind_eq_error.mp hp
  · have hforeseen := statements_foreseen True (Nat.le_succ d) fun _ => Nat.lt_succ_self d
    obtain ⟨used, rest, hu, ht, hq, hc⟩ := (hforeseen.foresees stop ahead hs).rejects complaint t hp
    refine ⟨used, rest, hu, ht, fun stop' rest' hs' hh => ?_, ?_⟩
    · rw [program_eq]
      exact bind_of_error (hq stop' rest' hs' hh).left
    · obtain ⟨more, -, hc⟩ := hc trivial
      obtain ⟨ns, hns⟩ := hc stop [] hs (by simp [hs])
      rw [List.append_nil] at hns
      exact ⟨more, _, program_eq_ok.mpr ⟨ns, hns, rfl⟩⟩
  · cases hn

theorem program_marked (hs : stop.kind = .endOfInput) :
    program d stop ahead ≠ .error .openStream := by
  rw [program_eq]
  intro hp
  obtain hp | ⟨ns, mid, -, hn⟩ := bind_eq_error.mp hp
  · exact ((statements_foreseen False (Nat.le_refl d) nofun).foresees stop ahead hs).marked hp
  · cases hn

end Programs

section Streams

def EndMarked (tokens : List Token) : Prop :=
  ∃ last, tokens.getLast? = some last ∧ last.kind = .endOfInput

variable {tokens others us : List Token} {t : Token}

theorem EndMarked.append_stop (hs : stop.kind = .endOfInput) : EndMarked (us ++ [stop]) :=
  ⟨stop, List.getLast?_concat, hs⟩

theorem EndMarked.parseTokens_eq (h : EndMarked tokens) :
    ∃ stop rest, stop.kind = .endOfInput ∧ tokens = body tokens ++ stop :: rest ∧
      ∀ d, parseTokens d tokens = (program d stop (body tokens)).map (·.1) := by
  obtain ⟨⟨kind, text, position⟩, hlast, hk⟩ := h
  obtain rfl : kind = .endOfInput := hk
  have hparts := List.takeWhile_append_dropWhile
    (p := fun t : Token => decide (t.kind ≠ .endOfInput))
    (l := tokens)
  cases hd : tokens.dropWhile (fun t => decide (t.kind ≠ .endOfInput)) with
  | nil =>
    rw [hd, List.append_nil] at hparts
    have hmem := List.mem_of_getLast? hlast
    rw [← hparts] at hmem
    exact absurd rfl (body_kind hmem)
  | cons stop rest =>
    refine ⟨stop, rest, ?_, ?_, fun d => ?_⟩
    · have hnot := List.head?_dropWhile_not (fun t : Token => decide (t.kind ≠ .endOfInput)) tokens
      simpa only [hd, List.head?_cons, decide_eq_false_iff_not, ne_eq, Decidable.not_not] using hnot
    · rw [hd] at hparts
      exact hparts.symm
    · simp only [parseTokens, hlast, hd]
      rfl

theorem EndMarked.parseTokens_append (h : EndMarked (used ++ t :: us))
    (hu : ∀ u ∈ used, u.kind ≠ .endOfInput) :
    ∃ stop rest, stop.kind = .endOfInput ∧ rest.headD stop = t ∧
      ∀ d, parseTokens d (used ++ t :: us) = (program d stop (used ++ rest)).map (·.1) := by
  obtain ⟨stop, last, hs, hparts, hp⟩ := h.parseTokens_eq
  have hbody : body (used ++ t :: us) = used ++ body (t :: us) := by
    unfold body
    rw [List.takeWhile_append_of_pos (by simpa using hu)]
  rw [hbody] at hparts hp
  refine ⟨stop, body (t :: us), hs, ?_, hp⟩
  rw [List.append_assoc] at hparts
  have hhead := List.append_cancel_left hparts
  cases hb : body (t :: us) with
  | nil =>
    rw [hb] at hhead
    exact (List.cons.inj hhead).1.symm
  | cons v vs =>
    rw [hb] at hhead
    exact (List.cons.inj hhead).1.symm

theorem parseTokens_deeper (h : d ≤ d') (hne : ∀ t, parseTokens d tokens ≠ .error (.tooDeep t)) :
    parseTokens d' tokens = parseTokens d tokens := by
  obtain ⟨-, t, he⟩ | he := parseTokens_move .still h tokens
  · exact absurd he (hne t)
  · have htoken : Token.move .still = id := rfl
    have hnode : Node.move .still = id := funext Node.relocate_id
    rw [htoken, List.map_id, hnode] at he
    rw [he]
    cases parseTokens d tokens with
    | ok n => rfl
    | error e => cases e <;> rfl

theorem EndMarked.rejects (hm : EndMarked tokens) {complaint : Complaint}
    (h : parseTokens d tokens = .error (.rejected complaint t)) :
    ∃ used us, tokens = used ++ t :: us ∧
      (∀ vs, EndMarked (used ++ t :: vs) →
        parseTokens d (used ++ t :: vs) = .error (.rejected complaint t)) ∧
      ∃ vs tree, EndMarked (used ++ vs) ∧ parseTokens (d + 1) (used ++ vs) = .ok tree := by
  obtain ⟨stop, last, hs, hparts, hp⟩ := hm.parseTokens_eq
  have hprogram : program d stop (body tokens) = .error (.rejected complaint t) := by
    rw [hp] at h
    cases hx : program d stop (body tokens) with
    | error e =>
      rw [hx] at h
      cases h
      rfl
    | ok x =>
      rw [hx] at h
      cases h
  obtain ⟨used, rest, hu, ht, hq, more, n, hn⟩ := program_rejects hs hprogram
  have hused : ∀ u ∈ used, u.kind ≠ .endOfInput :=
    fun u hmem => body_kind (hu ▸ List.mem_append_left rest hmem)
  obtain ⟨us, hus⟩ : ∃ us, rest ++ stop :: last = t :: us := by
    cases rest with
    | nil => exact ⟨last, congrArg (· :: last) ht⟩
    | cons v vs => exact ⟨vs ++ stop :: last, congrArg (· :: (vs ++ stop :: last)) ht⟩
  refine ⟨used, us, by rw [hparts, hu, List.append_assoc, hus], fun vs hvs => ?_, ?_⟩
  · obtain ⟨stop', rest', hs', hh, hp'⟩ := hvs.parseTokens_append hused
    rw [hp', hq stop' rest' hs' hh]
    rfl
  · obtain ⟨whole, hw, -, hd⟩ := program_reads (fun _ => True) hs hn
    rw [List.append_nil] at hw
    refine ⟨more ++ [stop], n, ?_, ?_⟩
    · rw [← List.append_assoc]
      exact .append_stop hs
    · rw [← List.append_assoc,
        parseTokens_append_stop _ hs (hw ▸ hd.derived.kind_ne_endOfInput), hn]
      rfl

theorem eq_append_of_take
    (h : others.take (used.length + 1) = (used ++ t :: us).take (used.length + 1)) :
    others = used ++ t :: others.drop (used.length + 1) := by
  have hsplit := List.take_append_drop (used.length + 1) others
  rw [h, List.take_length_add_append, List.append_assoc] at hsplit
  exact hsplit.symm

/-- The error belongs to the token at an index, which is the first one that no program has there. -/
structure Earliest (depth : Nat) (tokens : List Token) (e : ParseError) (k : Nat) : Prop where
  offends : ∃ complaint token, e = .rejected complaint token ∧ tokens[k]? = some token
  /-- The tokens up to this one settle the error. -/
  settled : ∀ d others, depth ≤ d → EndMarked others →
    others.take (k + 1) = tokens.take (k + 1) → parseTokens d others = .error e
  /-- The tokens before it start some program. -/
  viable : ∃ others tree, EndMarked others ∧ others.take k = tokens.take k ∧
    ∀ d, depth < d → parseTokens d others = .ok tree

theorem parseTokens_rejects (hm : EndMarked tokens) {complaint : Complaint}
    (h : parseTokens d tokens = .error (.rejected complaint t)) :
    ∃ k, Earliest d tokens (.rejected complaint t) k := by
  obtain ⟨used, us, rfl, hfail, vs, tree, hvs, hok⟩ := hm.rejects h
  refine ⟨used.length, ⟨complaint, t, rfl, by simp⟩, fun d' others hle hmo htake => ?_, ?_⟩
  · rw [eq_append_of_take htake] at hmo ⊢
    have hd := hfail _ hmo
    rw [parseTokens_deeper hle (by simp [hd]), hd]
  · refine ⟨used ++ vs, tree, hvs, by simp, fun d' hlt => ?_⟩
    rw [parseTokens_deeper hlt (by simp [hok]), hok]

theorem parseTokens_accepts (hm : EndMarked tokens) {tree : Node}
    (h : parseTokens d tokens = .ok tree) (hmo : EndMarked others)
    (htake : others.take ((body tokens).length + 1) = tokens.take ((body tokens).length + 1)) :
    parseTokens d others = .ok tree := by
  obtain ⟨stop, last, hs, hparts, hp⟩ := hm.parseTokens_eq
  have hothers := eq_append_of_take (htake.trans (congrArg _ hparts))
  rw [hothers] at hmo ⊢
  obtain ⟨stop', rest', hs', hh, hp'⟩ := hmo.parseTokens_append fun u hu => body_kind hu
  rw [hp] at h
  rw [hp']
  cases hx : program d stop (body tokens) with
  | error e =>
    rw [hx] at h
    cases h
  | ok x =>
    rw [hx] at h
    cases h
    obtain ⟨used, hu, hq⟩ := program_accepts hs hx
    have hhead : (x.2 ++ rest').headD stop' = x.2.headD stop := by
      cases x.2 with
      | nil => exact hh
      | cons t ts => rfl
    rw [hu, List.append_assoc, hq stop' _ hs' hhead]
    rfl

theorem parseTokens_marked (hm : EndMarked tokens) : parseTokens d tokens ≠ .error .openStream := by
  obtain ⟨stop, last, hs, -, hp⟩ := hm.parseTokens_eq
  rw [hp]
  intro h
  cases hx : program d stop (body tokens) with
  | ok x =>
    rw [hx] at h
    cases h
  | error e =>
    rw [hx] at h
    cases h
    exact program_marked hs hx

/-- An error is reported at the first token that no program has where it stands, unless the nesting
went too deep. What is accepted is settled by the tokens up to the first end mark. -/
theorem parseTokens_earliest (depth : Nat) {tokens : List Token} (hm : EndMarked tokens) :
    (∀ e, parseTokens depth tokens = .error e → (∀ t, e ≠ .tooDeep t) →
      ∃ k, Earliest depth tokens e k) ∧
      ∀ tree, parseTokens depth tokens = .ok tree → ∀ others, EndMarked others →
        others.take ((body tokens).length + 1) = tokens.take ((body tokens).length + 1) →
        parseTokens depth others = .ok tree := by
  refine ⟨fun e h hne => ?_, fun tree h others hmo htake => parseTokens_accepts hm h hmo htake⟩
  cases e with
  | openStream => exact absurd h (parseTokens_marked hm)
  | tooDeep t => exact absurd rfl (hne t)
  | rejected complaint t => exact parseTokens_rejects hm h

theorem parseTokens_earliest_constant :
    ∃ k, k = 2 ∧ Earliest 2
      [⟨.constWord, "konstan", ⟨1, 1⟩⟩, ⟨.ident, "x", ⟨1, 9⟩⟩, .endMark ⟨1, 10⟩]
      (.rejected (.constantValue "x") (.endMark ⟨1, 10⟩)) k := by
  -- the stream of `konstan x`: the constant lacks its value
  have hmarked : EndMarked
      [⟨.constWord, "konstan", ⟨1, 1⟩⟩, ⟨.ident, "x", ⟨1, 9⟩⟩, .endMark ⟨1, 10⟩] := ⟨_, rfl, rfl⟩
  have herror : parseTokens 2
      [⟨.constWord, "konstan", ⟨1, 1⟩⟩, ⟨.ident, "x", ⟨1, 9⟩⟩, .endMark ⟨1, 10⟩] =
      .error (.rejected (.constantValue "x") (.endMark ⟨1, 10⟩)) := rfl
  obtain ⟨k, h⟩ := (parseTokens_earliest 2 hmarked).1 _ herror nofun
  refine ⟨k, ?_, h⟩
  obtain ⟨complaint, token, he, hk⟩ := h.offends
  cases he
  clear h
  rcases k with _ | _ | _ | k
  · exact absurd hk (by decide)
  · exact absurd hk (by decide)
  · rfl
  · simp at hk

end Streams

end Parser

end Bahasa
