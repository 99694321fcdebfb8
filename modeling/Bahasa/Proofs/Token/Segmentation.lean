import Bahasa.Proofs.Token.Language
import Bahasa.Proofs.Token.Lines

namespace Bahasa

def blanks : List Char := [' ', '\t', '\r', '\n']

theorem isSpacing_iff {c : Char} : isSpacing c = true ↔ c ∈ blanks := by
  simp [isSpacing, blanks, or_assoc]

/-- Blanks and comments before the text `rest`; a comment ends where its line does. -/
inductive Gap : List Char → List Char → Prop
  | none {rest : List Char} : Gap [] rest
  | blank {c : Char} {gap rest : List Char} (hc : c ∈ blanks) (h : Gap gap rest) :
    Gap (c :: gap) rest
  | comment {body gap rest : List Char} (hb : '\n' ∉ body)
    (he : ∀ c ∈ (gap ++ rest).head?, c = '\n') (h : Gap gap rest) : Gap ('#' :: body ++ gap) rest

/-- The text `cs` holds the lexemes `ls` and gaps between them, up to the text `rest`. -/
inductive Segments : List Lexeme → List Char → List Char → Prop
  | stop {gap rest : List Char} (hg : Gap gap rest) : Segments [] (gap ++ rest) rest
  | lexeme {l : Lexeme} {ls : List Lexeme} {gap tail rest : List Char}
    (hg : Gap gap (l.spelling ++ tail)) (hl : l.Longest (l.spelling ++ tail))
    (h : Segments ls tail rest) : Segments (l :: ls) (gap ++ (l.spelling ++ tail)) rest

def Solid (cs : List Char) : Prop :=
  ∀ c ∈ cs.head?, c ∉ blanks ∧ c ≠ '#'

/-- A text at which a segmentation cannot go on. -/
structure Ended (cs : List Char) : Prop where
  solid : Solid cs
  noLexeme : ∀ l : Lexeme, l.Lawful → ¬ l.spelling <+: cs

def Token.lexeme (t : Token) : Lexeme :=
  ⟨t.kind, t.text.toList⟩

section Solid

variable {c : Char} {l : Lexeme}

theorem solid_of_class {p : Char → Bool} (hp : ('#' :: blanks).all (fun d => !p d) = true)
    (h : p c = true) : c ∉ blanks ∧ c ≠ '#' := by
  have hno : c ∉ '#' :: blanks := fun hc => by simpa [h] using List.all_eq_true.mp hp c hc
  rw [List.mem_cons, not_or] at hno
  exact ⟨hno.2, hno.1⟩

def Lexeme.starts (c : Char) : Bool :=
  Text.isDigit c || isWordStart c ||
    ('"' :: Kind.pairs.map (·.1.1) ++ Kind.marks.map (·.1)).contains c

theorem Lexeme.Lawful.starts (h : l.Lawful) :
    ∃ c more, l.spelling = c :: more ∧ Lexeme.starts c = true := by
  cases h with
  | whole hne hd =>
    obtain ⟨c, more, rfl⟩ := List.exists_cons_of_ne_nil hne
    exact ⟨c, _, rfl, by simp [Lexeme.starts, hd c (List.mem_cons_self ..)]⟩
  | fraction hne hd hne' hp =>
    obtain ⟨c, more, rfl⟩ := List.exists_cons_of_ne_nil hne
    exact ⟨c, _, rfl, by simp [Lexeme.starts, hd c (List.mem_cons_self ..)]⟩
  | keyword hw =>
    obtain ⟨c, more, rfl, hc, -⟩ := keyword_word hw
    obtain rfl := Kind.ofWord_keyword hw
    exact ⟨c, more, spelling_of_fixed (Kind.ofWord_fixed _), by simp [Lexeme.starts, hc]⟩
  | @ident c word hc hw hk => exact ⟨c, word, rfl, by simp [Lexeme.starts, hc]⟩
  | @string body hb => exact ⟨'"', body ++ ['"'], by simp [spelling], by decide⟩
  | @pair a b k hk =>
    have hall : ∀ x ∈ Kind.pairs, Lexeme.starts x.1.1 = true := by decide
    exact ⟨a, [b], spelling_pair hk, hall _ hk⟩
  | @mark c k hk =>
    have hall : ∀ x ∈ Kind.marks, Lexeme.starts x.1 = true := by decide
    exact ⟨c, [], spelling_mark hk, hall _ hk⟩

theorem Lexeme.Lawful.solid (h : l.Lawful) :
    ∃ c more, l.spelling = c :: more ∧ c ∉ blanks ∧ c ≠ '#' := by
  obtain ⟨c, more, hs, hc⟩ := h.starts
  exact ⟨c, more, hs, solid_of_class (by decide) hc⟩

theorem Lexeme.Longest.solid {tail : List Char} (h : l.Longest (l.spelling ++ tail)) :
    Solid (l.spelling ++ tail) := by
  obtain ⟨c, more, hs, hc⟩ := h.lawful.solid
  rw [hs]
  intro d hd
  obtain rfl : c = d := by simpa using hd
  exact hc

end Solid

section Uniqueness

theorem comment_unique {body body' rest rest' : List Char} (hb : '\n' ∉ body) (hb' : '\n' ∉ body')
    (he : ∀ c ∈ rest.head?, c = '\n') (he' : ∀ c ∈ rest'.head?, c = '\n')
    (h : body ++ rest = body' ++ rest') : rest = rest' := by
  have hspan : ∀ {run more : List Char}, '\n' ∉ run → (∀ c ∈ more.head?, c = '\n') →
      (run ++ more).dropWhile (fun c => decide (c ≠ '\n')) = more := by
    intro run more hrun hmore
    refine (span_append more ?_ ?_).2
    · intro c hc
      simpa using fun hn : c = '\n' => hrun (hn ▸ hc)
    · intro c hc
      simp [hmore c hc]
  rw [← hspan hb he, h, hspan hb' he']

theorem Gap.eq_nil_of_solid {gap rest : List Char} (h : Gap gap rest) (hs : Solid (gap ++ rest)) :
    gap = [] := by
  cases h with
  | none => rfl
  | blank hc _ => exact absurd hc (hs _ rfl).1
  | comment _ _ _ => exact absurd rfl (hs '#' rfl).2

theorem Gap.unique {gap gap' rest rest' : List Char} (h : Gap gap rest) (h' : Gap gap' rest')
    (heq : gap ++ rest = gap' ++ rest') (hs : Solid rest) (hs' : Solid rest') : rest = rest' := by
  induction h generalizing gap' with
  | none =>
    obtain rfl := h'.eq_nil_of_solid (heq ▸ hs)
    exact heq
  | @blank c gap rest hc h ih =>
    cases h' with
    | none =>
      have hc' : Solid (c :: gap ++ rest) := heq ▸ hs'
      exact absurd hc (hc' c rfl).1
    | blank _ h' => exact ih h' (List.cons.inj heq).2 hs
    | comment _ _ _ =>
      obtain ⟨rfl, -⟩ := List.cons.inj heq
      exact absurd hc (by decide)
  | @comment body gap rest hb he h ih =>
    cases h' with
    | none =>
      have hc : Solid ('#' :: body ++ gap ++ rest) := heq ▸ hs'
      exact absurd rfl (hc '#' rfl).2
    | blank hc _ =>
      obtain ⟨rfl, -⟩ := List.cons.inj heq
      exact absurd hc (by decide)
    | comment hb' he' h' =>
      simp only [List.cons_append, List.append_assoc, List.cons.injEq, true_and] at heq
      exact ih h' (comment_unique hb hb' he he' heq) hs

theorem Lexeme.Longest.unique {l l' : Lexeme} {tail tail' : List Char}
    (h : l.Longest (l.spelling ++ tail)) (h' : l'.Longest (l'.spelling ++ tail'))
    (heq : l.spelling ++ tail = l'.spelling ++ tail') : l = l' ∧ tail = tail' := by
  obtain ⟨c, more, hs, -⟩ := h.lawful.solid
  have hc : l.spelling ++ tail = c :: (more ++ tail) := by rw [hs, List.cons_append]
  have hr := Lexeme.read_eq_ok.mpr ⟨hc ▸ h, hc⟩
  have hr' := Lexeme.read_eq_ok.mpr ⟨hc ▸ heq ▸ h', heq.symm.trans hc⟩
  simpa using hr.symm.trans hr'

theorem Segments.unique {ls ls' : List Lexeme} {cs rest rest' : List Char} (h : Segments ls cs rest)
    (h' : Segments ls' cs rest') (he : Ended rest) (he' : Ended rest') :
    ls = ls' ∧ rest = rest' := by
  -- lexemes and ends are solid, so two gaps at one place are the same, and then so is what follows
  induction h generalizing ls' with
  | @stop gap rest hg =>
    generalize hcs : gap ++ rest = cs at h'
    cases h' with
    | stop hg' => exact ⟨rfl, hg.unique hg' hcs he.solid he'.solid⟩
    | @lexeme l _ _ tail _ hg' hl _ =>
      obtain rfl := hg.unique hg' hcs he.solid hl.solid
      exact absurd (List.prefix_append ..) (he.noLexeme l hl.lawful)
  | @lexeme l ls gap tail rest hg hl h ih =>
    generalize hcs : gap ++ (l.spelling ++ tail) = cs at h'
    cases h' with
    | stop hg' =>
      obtain rfl := hg.unique hg' hcs hl.solid he'.solid
      exact absurd (List.prefix_append ..) (he'.noLexeme l hl.lawful)
    | lexeme hg' hl' h' =>
      obtain ⟨rfl, rfl⟩ := hl.unique hl' (hg.unique hg' hcs hl.solid hl'.solid)
      obtain ⟨rfl, rfl⟩ := ih h' he
      exact ⟨rfl, rfl⟩

end Uniqueness

namespace Segments

variable {ls : List Lexeme} {cs rest : List Char}

theorem blank {c : Char} (hc : c ∈ blanks) (h : Segments ls cs rest) :
    Segments ls (c :: cs) rest := by
  cases h with
  | stop hg => exact .stop (.blank hc hg)
  | lexeme hg hl h => exact .lexeme (.blank hc hg) hl h

theorem comment {body : List Char} (hb : '\n' ∉ body) (he : ∀ c ∈ cs.head?, c = '\n')
    (h : Segments ls cs rest) : Segments ls ('#' :: body ++ cs) rest := by
  cases h with
  | @stop gap rest hg =>
    rw [← List.append_assoc]
    exact .stop (.comment hb he hg)
  | @lexeme l ls gap tail rest hg hl h =>
    rw [← List.append_assoc]
    exact .lexeme (.comment hb he hg) hl h

end Segments

theorem Flaw.message_unterminated {flaw : Flaw} :
    flaw.message = "Unterminated string literal" ↔ flaw = .unterminated := by
  cases flaw with
  | unterminated => exact iff_of_true rfl rfl
  | unrecognized c =>
    have hm : (unrecognized c).message = "Unrecognized character " ++
        Text.quoted (String.ofList [c]) ++ " (code " ++ toString c.toNat ++ ")" := rfl
    refine iff_of_false (fun h => ?_) (by simp)
    have hl := congrArg (fun s : String => s.toList.take 3) (hm.symm.trans h)
    simp only [String.append_assoc, String.toList_append] at hl
    rw [List.take_append_of_le_length (by decide)] at hl
    revert hl
    decide

namespace Scan

/-- How a scan ends that has found the tokens `found` up to the text `rest`, after those of
`done`. -/
structure Finds (done found : List Token) (rest : List Char) (scan : Scan) : Prop where
  finished : rest = [] → ∃ p, scan = ⟨done.reverse ++ (found ++ [.endMark p]), none⟩
  broken : rest ≠ [] → ∃ e, scan = ⟨done.reverse ++ found, some e⟩ ∧
    (e.flaw = .unterminated ↔ rest.head? = some '"')

theorem Finds.cons {done found : List Token} {t : Token} {rest : List Char} {scan : Scan}
    (h : Finds (t :: done) found rest scan) : Finds done (t :: found) rest scan := by
  obtain ⟨hfin, hbro⟩ := h
  simp only [List.reverse_cons, List.append_assoc, List.singleton_append] at hfin hbro
  exact ⟨hfin, hbro⟩

theorem ended_nil : Ended [] := by
  refine ⟨by simp [Solid], ?_⟩
  intro l hl hp
  obtain ⟨c, more, hs, -⟩ := hl.solid
  simp [hs] at hp

theorem comment_line (rest : List Char) :
    '\n' ∉ rest.takeWhile (fun c => decide (c ≠ '\n')) ∧
      ∀ c ∈ (rest.dropWhile (fun c => decide (c ≠ '\n'))).head?, c = '\n' := by
  refine ⟨fun hn => by simpa using List.all_eq_true.mp List.all_takeWhile _ hn, fun c hc => ?_⟩
  have hstop := List.head?_dropWhile_not (fun c => decide (c ≠ '\n')) rest
  rw [Option.mem_def.mp hc] at hstop
  simpa using hstop

/-- The scan finds a segmentation of the text. -/
theorem resume_segments (done : List Token) (p : Position) (cs : List Char) :
    ∃ found rest, Segments (found.map Token.lexeme) cs rest ∧ Ended rest ∧
      Finds done found rest (resume done p cs) := by
  fun_induction resume done p cs with
  | case1 done p =>
    refine ⟨[], [], .stop .none, ended_nil, ?_, by simp⟩
    exact fun _ => ⟨p, by simp⟩
  | case2 done p c rest hc ih =>
    obtain ⟨found, stop, hs, he, hf⟩ := ih
    exact ⟨found, stop, hs.blank (isSpacing_iff.mp hc), he, hf⟩
  | case3 done p rest _ ih =>
    obtain ⟨found, stop, hs, he, hf⟩ := ih
    obtain ⟨hbody, hend⟩ := comment_line rest
    have hs := hs.comment hbody hend
    rw [List.cons_append, List.takeWhile_append_dropWhile] at hs
    exact ⟨found, stop, hs, he, hf⟩
  | case4 done p c rest hc hc' flaw hl =>
    have hsolid : Solid (c :: rest) := by
      intro d hd
      obtain rfl : c = d := by simpa using hd
      exact ⟨fun hb => hc (isSpacing_iff.mpr hb), hc'⟩
    refine ⟨[], c :: rest, .stop .none, ⟨hsolid, Lexeme.read_eq_error hl⟩, by simp, ?_⟩
    intro _
    refine ⟨⟨flaw, p⟩, by simp, ?_⟩
    rw [Lexeme.read_unterminated hl]
    simp
  | case5 done p c rest hc hc' l tail hl ih =>
    obtain ⟨found, stop, hs, he, hf⟩ := ih
    obtain ⟨hlong, hw⟩ := Lexeme.read_eq_ok.mp hl
    rw [← hw] at hlong ⊢
    refine ⟨⟨l.kind, String.ofList l.body, p⟩ :: found, stop, ?_, he, hf.cons⟩
    have hlex : Token.lexeme ⟨l.kind, String.ofList l.body, p⟩ = l := by
      simp [Token.lexeme]
    rw [List.map_cons, hlex]
    exact .lexeme .none hlong hs

end Scan

/-- The tokens of a source text are its one segmentation into longest lexemes with blanks and
comments between them. The scan comes to the end of the text, or it fails where neither a lexeme
nor a gap goes on. -/
theorem tokenize_segments (source : String) :
    ∃ (ts : List Token) (rest : List Char),
      Segments (ts.map Token.lexeme) source.toList rest ∧ Ended rest ∧
      (∀ ls rest', Segments ls source.toList rest' → Ended rest' →
        ls = ts.map Token.lexeme ∧ rest' = rest) ∧
      (rest = [] → (∀ t ∈ ts, t.kind ≠ .endOfInput) ∧
        ∃ p, tokenize source = .ok (ts ++ [.endMark p])) ∧
      (rest ≠ [] → (Scan.ofSource source).tokens = ts ∧
        ∃ e, tokenize source = .error e ∧
          (e.flaw.message = "Unterminated string literal" ↔ rest.head? = some '"')) := by
  obtain ⟨ts, rest, hs, he, hf⟩ := Scan.resume_segments [] .start source.toList
  refine ⟨ts, rest, hs, he, fun ls rest' hs' he' => hs'.unique hs he' he, ?_, ?_⟩
  · intro hr
    obtain ⟨p, hscan⟩ := hf.finished hr
    have hok : tokenize source = .ok (ts ++ [.endMark p]) :=
      tokenize_eq_ok.mpr ⟨congrArg Scan.error? hscan, congrArg Scan.tokens hscan⟩
    obtain ⟨body, stop, hts, -, hbody⟩ := tokenize_stop hok
    obtain ⟨rfl, -⟩ := List.append_inj' hts rfl
    exact ⟨hbody, p, hok⟩
  · intro hr
    obtain ⟨e, hscan, hq⟩ := hf.broken hr
    refine ⟨congrArg Scan.tokens hscan, e, ?_, Flaw.message_unterminated.trans hq⟩
    rw [tokenize, Scan.ofSource, hscan]

end Bahasa
