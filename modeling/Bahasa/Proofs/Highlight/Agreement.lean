import Bahasa.Proofs.Highlight.Fragments
import Bahasa.Proofs.Token.Continuation
import Mathlib.Data.List.Forall2

namespace Bahasa

namespace Scan

theorem mem_resume {t : Token} {done : List Token} (p : Position) (cs : List Char) (h : t ∈ done) :
    t ∈ (resume done p cs).tokens := by
  fun_induction resume done p cs with
  | case1 done p => exact List.mem_reverse.mpr (List.mem_cons_of_mem _ h)
  | case2 done p c rest hc ih => exact ih h
  | case3 done p rest _ ih => exact ih h
  | case4 done p c rest hc hc' flaw hl => exact List.mem_reverse.mpr h
  | case5 done p c rest hc hc' l tail hl ih => exact ih (List.mem_cons_of_mem _ h)

end Scan

namespace Lexeme

theorem readString_unterminated {rest : List Char} (h : readString rest = .error .unterminated) :
    '"' ∉ rest := by
  intro hq
  obtain ⟨body, tail, hsplit, hbody⟩ := List.eq_append_cons_of_mem hq
  cases h.symm.trans (readString_eq_ok.mpr ⟨body, hbody, hsplit, rfl⟩)

/-- A string that is closed on a later line goes over the end of its own. -/
theorem readString_over {rest ds tail : List Char} {l : Lexeme}
    (h : readString rest = .error .unterminated)
    (h' : readString (rest ++ '\n' :: ds) = .ok (l, tail)) : l.kind = .string ∧ '\n' ∈ l.body := by
  obtain ⟨body, -, hsplit, rfl⟩ := readString_eq_ok.mp h'
  refine ⟨rfl, ?_⟩
  obtain ⟨more, rfl, hmore⟩ | ⟨more, rfl, hmore⟩ := List.append_eq_append_iff.mp hsplit
  · cases more with
    | nil => exact absurd (List.cons.inj hmore).1 (by decide)
    | cons c more =>
      obtain ⟨rfl, -⟩ := List.cons.inj hmore
      exact List.mem_append_right rest (List.mem_cons_self ..)
  · cases more with
    | nil => exact absurd (List.cons.inj hmore).1 (by decide)
    | cons c more =>
      obtain ⟨rfl, -⟩ := List.cons.inj hmore
      exact absurd (List.mem_append_right body (List.mem_cons_self ..)) (readString_unterminated h)

end Lexeme

namespace Scan

theorem resume_unterminated (ds : List Char) {done : List Token} {p q : Position} {cs : List Char}
    (h : (resume done p cs).error? = some ⟨.unterminated, q⟩)
    (hok : (resume done p (cs ++ '\n' :: ds)).error? = none) :
    ∃ t ∈ (resume done p (cs ++ '\n' :: ds)).tokens, t.kind = .string ∧ '\n' ∈ t.text.toList := by
  fun_induction resume done p cs with
  | case1 done p => cases h
  | case2 done p c rest hc ih =>
    rw [List.cons_append, resume_spacing hc] at hok ⊢
    exact ih h hok
  | case3 done p rest _ ih =>
    rw [List.cons_append, resume_comment_append] at hok ⊢
    exact ih h hok
  | case4 done p c rest hc hc' flaw hl =>
    obtain ⟨rfl, rfl⟩ : flaw = .unterminated ∧ p = q := by simpa using h
    obtain rfl := (Lexeme.read_unterminated hl).mp rfl
    cases hr : Lexeme.read '"' (rest ++ '\n' :: ds) with
    | error flaw =>
      rw [List.cons_append, resume_flaw hc hc' hr] at hok
      cases hok
    | ok found =>
      obtain ⟨hkind, hbody⟩ := Lexeme.readString_over hl hr
      rw [List.cons_append, resume_lexeme hc hc' hr]
      exact ⟨_, mem_resume _ _ (List.mem_cons_self ..), hkind, by simpa using hbody⟩
  | case5 done p c rest hc hc' l tail hl ih =>
    have happend := Lexeme.read_append hl ds
    rw [List.cons_append, resume_lexeme hc hc' happend] at hok ⊢
    exact ih h hok

end Scan

/-- What can be scanned without a string that goes over the end of a line can be scanned up to the
end of any line, and from there on. -/
theorem tokenize_split {s₁ s₂ : String} {ts : List Token} (h : tokenize (s₁ ++ "\n" ++ s₂) = .ok ts)
    (hs : ∀ t ∈ ts, t.kind = .string → '\n' ∉ t.text.toList) :
    ∃ body stop us, tokenize s₁ = .ok (body ++ [stop]) ∧ stop.kind = .endOfInput ∧
      tokenize s₂ = .ok us ∧ ts = body ++ us.map (Token.move (.down (lineCount s₁))) := by
  obtain ⟨hok, rfl⟩ := tokenize_eq_ok.mp h
  have hlist : (s₁ ++ "\n" ++ s₂).toList = s₁.toList ++ '\n' :: s₂.toList := by simp
  have hfirst : (Scan.ofSource s₁).error? = none := by
    by_contra hne
    obtain ⟨⟨flaw, q⟩, he⟩ := Option.ne_none_iff_exists'.mp hne
    rw [Scan.ofSource, hlist] at hok hs
    cases flaw with
    | unterminated =>
      obtain ⟨t, ht, hkind, hover⟩ := Scan.resume_unterminated s₂.toList he hok
      exact hs t ht hkind hover
    | unrecognized c =>
      rw [Scan.resume_unrecognized s₂.toList he] at hok
      cases he.symm.trans hok
  obtain ⟨body, stop, ht, hstop, -, hj⟩ := Scan.ofSource_append s₂ hfirst
  have hsecond : (Scan.ofSource s₂).error? = none := by
    rw [hj] at hok
    exact Option.map_eq_none_iff.mp hok
  exact ⟨body, stop, _, tokenize_eq_ok.mpr ⟨hfirst, ht⟩, hstop,
    tokenize_eq_ok.mpr ⟨hsecond, rfl⟩, congrArg Scan.tokens hj⟩

theorem tokenize_laid {s : String} {ts : List Token} (h : tokenize s = .ok ts) :
    ∃ found, Laid [] found s.toList [] ∧ ts = found ++ [.endMark (.behind s.toList)] ∧
      Highlight.spans s = found.map Span.ofToken := by
  obtain ⟨hok, rfl⟩ := tokenize_eq_ok.mp h
  obtain ⟨found, rest, hl, hspans, hs⟩ := Highlight.exists_laid s
  cases rest with
  | nil =>
    refine ⟨found, hl, ?_, hspans⟩
    rw [hs.finished rfl]
    rfl
  | cons c after =>
    obtain ⟨read, flaw, -, hscan, -⟩ := hs.broken c after rfl
    rw [hscan] at hok
    cases hok

/-- The span shows the token on its line: it starts where the token does, covers the characters of
its lexeme, and has its group. -/
structure Span.Marks (line : List Char) (s : Span) (t : Token) : Prop where
  start : (s.start : Int) = t.position.column - 1
  stop : s.stop = s.start + t.lexeme.spelling.length
  covers : line.extract s.start s.stop = t.lexeme.spelling
  group : s.group = .ofToken t

theorem Span.Marks.move {line : List Char} {s : Span} {t : Token} (h : s.Marks line t) (k : Int) :
    s.Marks line (t.move (.down k)) :=
  ⟨h.start, h.stop, h.covers, h.group⟩

section Laid

variable {before cs rest : List Char} {ts : List Token} {t : Token}

theorem Laid.stands (h : Laid before ts cs rest) (ht : t ∈ ts) :
    ∃ read after, before ++ cs = read ++ (t.lexeme.spelling ++ after) ∧
      t.position = .behind read := by
  induction h with
  | stop hg => cases ht
  | @token before gap more rest u us hg hl hp h ih =>
    obtain rfl | ht := List.mem_cons.mp ht
    · exact ⟨before ++ gap, more, (List.append_assoc ..).symm, hp⟩
    · obtain ⟨read, after, hsplit, hpos⟩ := ih ht
      exact ⟨read, after, by rw [← hsplit]; simp, hpos⟩

theorem Laid.line_pos (h : Laid before ts cs rest) (ht : t ∈ ts) : 1 ≤ t.position.line := by
  obtain ⟨read, -, -, hp⟩ := h.stands ht
  rw [hp, Position.behind]
  dsimp only
  omega

theorem Laid.marks (h : Laid before ts cs rest) (hn : '\n' ∉ before ++ cs) (ht : t ∈ ts) :
    t.position.line = 1 ∧ (Span.ofToken t).Marks (before ++ cs) t := by
  obtain ⟨read, after, hsplit, hp⟩ := h.stands ht
  rw [hsplit] at hn ⊢
  have hline : '\n' ∉ read := fun hm => hn (List.mem_append_left _ hm)
  have hplace : t.position = ⟨1, 1 + read.length⟩ := hp.trans (Position.behind_line hline)
  refine ⟨by rw [hplace], ?_⟩
  rw [Span.ofToken_behind hp hline]
  refine ⟨?_, List.length_append, extract_middle _ _ _, rfl⟩
  rw [hplace]
  dsimp only
  omega

end Laid

namespace Highlight

/-- The tokens of a text that stand on the line with the given number, counted from zero. -/
def onLine (number : Nat) (ts : List Token) : List Token :=
  ts.filter fun t => t.kind ≠ .endOfInput ∧ t.position.line = number + 1

section OnLine

variable {number : Nat} {ts us : List Token} {t : Token}

theorem onLine_append : onLine number (ts ++ us) = onLine number ts ++ onLine number us :=
  List.filter_append ts us

theorem onLine_stop (h : t.kind = .endOfInput) : onLine number [t] = [] := by
  simp [onLine, h]

theorem onLine_eq_self (hk : ∀ t ∈ ts, t.kind ≠ .endOfInput)
    (h : ∀ t ∈ ts, t.position.line = number + 1) : onLine number ts = ts :=
  List.filter_eq_self.mpr fun t ht => decide_eq_true ⟨hk t ht, h t ht⟩

theorem onLine_eq_nil (h : ∀ t ∈ ts, t.kind ≠ .endOfInput → t.position.line ≠ number + 1) :
    onLine number ts = [] :=
  List.filter_eq_nil_iff.mpr fun t ht hkept =>
    h t ht (of_decide_eq_true hkept).1 (of_decide_eq_true hkept).2

theorem onLine_down : onLine (number + 1) (ts.map (Token.move (.down 1))) =
    (onLine number ts).map (Token.move (.down 1)) := by
  rw [onLine, List.filter_map, onLine]
  congr 1
  refine List.filter_congr fun t _ => decide_eq_decide.mpr (and_congr_right fun _ => ?_)
  change t.position.line + 1 = ((number + 1 : Nat) : Int) + 1 ↔ t.position.line = number + 1
  omega

theorem onLine_zero_down {s : String} (h : tokenize s = .ok us) :
    onLine 0 (us.map (Token.move (.down 1))) = [] := by
  obtain ⟨found, hl, rfl, -⟩ := tokenize_laid h
  refine onLine_eq_nil fun u hu hk => ?_
  obtain ⟨t, ht, rfl⟩ := List.mem_map.mp hu
  obtain ht | ht := List.mem_append.mp ht
  · have hpos := hl.line_pos ht
    change t.position.line + 1 ≠ ((0 : Nat) : Int) + 1
    omega
  · obtain rfl := List.mem_singleton.mp ht
    exact absurd rfl hk

end OnLine

theorem spans_single {s : String} {body : List Token} {stop : Token} (hn : '\n' ∉ s.toList)
    (h : tokenize s = .ok (body ++ [stop])) :
    (∀ t ∈ body, t.position.line = 1) ∧ onLine 0 body = body ∧
      List.Forall₂ (Span.Marks s.toList) (spans s) body := by
  obtain ⟨found, hl, hts, hspans⟩ := tokenize_laid h
  obtain ⟨rfl, -⟩ := List.append_inj' hts rfl
  have hline : ∀ t ∈ body, t.position.line = 1 := fun t ht => (hl.marks hn ht).1
  refine ⟨hline, onLine_eq_self hl.notEnd hline, ?_⟩
  rw [hspans, List.forall₂_map_left_iff, List.forall₂_same]
  exact fun t ht => (hl.marks hn ht).2

/-- A line scanned by itself has the tokens that the scan of the whole text finds on it, in their
order and each in its columns, unless a string goes over the end of a line. -/
theorem spans_onLine (text : String) (ts : List Token) (h : tokenize text = .ok ts)
    (hs : ∀ t ∈ ts, t.kind = .string → '\n' ∉ t.text.toList) (number : Nat) (content : String)
    (hc : (splitLines text)[number]? = some content) :
    List.Forall₂ (Span.Marks content.toList) (spans content) (onLine number ts) := by
  -- lines are taken off the front: the scan of the first line is the front part of the scan of the
  -- text, and that of the others is the rest of it, moved down by one
  induction text using lines_induction generalizing ts number content with
  | single s hn =>
    obtain ⟨body, stop, rfl, hstop, -⟩ := tokenize_stop h
    obtain ⟨-, hself, hspans⟩ := spans_single hn h
    rw [splitLines_single hn] at hc
    obtain ⟨hzero, rfl⟩ : number = 0 ∧ s = content := by simpa using List.getElem?_eq_some_iff.mp hc
    subst hzero
    rwa [onLine_append, onLine_stop hstop, List.append_nil, hself]
  | more s₁ s₂ hn ih =>
    obtain ⟨body, stop, us, h₁, hstop, h₂, rfl⟩ := tokenize_split h hs
    obtain ⟨hline, hself, hspans⟩ := spans_single hn h₁
    have hdown : lineCount s₁ = 1 := by rw [lineCount, List.count_eq_zero_of_not_mem hn]; rfl
    rw [splitLines_more s₂ hn] at hc
    rw [hdown, onLine_append]
    cases number with
    | zero =>
      obtain rfl := Option.some.inj hc
      rwa [hself, onLine_zero_down h₂, List.append_nil]
    | succ number =>
      have hnone : onLine (number + 1) body = [] := by
        refine onLine_eq_nil fun t ht _ => ?_
        rw [hline t ht]
        omega
      have hus : ∀ u ∈ us, u.kind = .string → '\n' ∉ u.text.toList := fun u hu =>
        hs (u.move (.down (lineCount s₁))) (List.mem_append_right body (List.mem_map_of_mem hu))
      rw [hnone, List.nil_append, onLine_down, List.forall₂_map_right_iff]
      exact (ih us h₂ hus number content hc).imp fun _ _ hm => hm.move 1

theorem spans_onLine_last :
    ∃ ts, tokenize "a = b # \"\r\n\n\t\"é\"+ len" = .ok ts ∧
      (∀ t ∈ ts, t.kind = .string → '\n' ∉ t.text.toList) ∧
      (splitLines "a = b # \"\r\n\n\t\"é\"+ len")[2]? = some "\t\"é\"+ len" ∧
      List.Forall₂ (Span.Marks "\t\"é\"+ len".toList) (spans "\t\"é\"+ len")
        [⟨.string, "é", ⟨3, 2⟩⟩, ⟨.arith, "+", ⟨3, 5⟩⟩, ⟨.ident, "len", ⟨3, 7⟩⟩] := by
  -- the last of three lines, behind a comment, a carriage return and an empty line
  have htokens : tokenize "a = b # \"\r\n\n\t\"é\"+ len" = .ok [⟨.ident, "a", ⟨1, 1⟩⟩,
      ⟨.assign, "=", ⟨1, 3⟩⟩, ⟨.ident, "b", ⟨1, 5⟩⟩, ⟨.string, "é", ⟨3, 2⟩⟩,
      ⟨.arith, "+", ⟨3, 5⟩⟩, ⟨.ident, "len", ⟨3, 7⟩⟩, .endMark ⟨3, 10⟩] := by cbv
  have hline : (splitLines "a = b # \"\r\n\n\t\"é\"+ len")[2]? = some "\t\"é\"+ len" := by
    decide
  refine ⟨_, htokens, by decide, hline, ?_⟩
  exact spans_onLine _ _ htokens (by decide) 2 _ hline

end Highlight

end Bahasa
