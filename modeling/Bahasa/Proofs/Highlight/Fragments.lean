import Bahasa.Proofs.Highlight.Lines
import Bahasa.Proofs.Token.Placement

namespace Bahasa

theorem extract_middle {α : Type} (before middle after : List α) :
    (before ++ (middle ++ after)).extract before.length (before ++ middle).length = middle := by
  rw [List.extract_eq_take_drop, List.drop_left, List.length_append, Nat.add_sub_cancel_left,
    List.take_left]

/-- Without a line feed before it, a position is a column on the first line. -/
theorem Position.behind_line {text : List Char} (h : '\n' ∉ text) :
    behind text = ⟨1, 1 + text.length⟩ := by
  have hall : ∀ c ∈ text, decide (c ≠ '\n') = true := by
    intro c hc
    simpa using fun he : c = '\n' => h (he ▸ hc)
  rw [behind, List.count_eq_zero_of_not_mem h, List.rtakeWhile_eq_self_iff.mpr hall]
  rfl

theorem Position.offset_behind {text : List Char} (h : '\n' ∉ text) :
    ((behind text).column - 1).toNat = text.length := by
  rw [behind_line h]
  change (1 + (text.length : Int) - 1).toNat = text.length
  omega

theorem Token.length_spelling (t : Token) :
    t.lexeme.spelling.length = t.text.length + if t.kind = .string then 2 else 0 := by
  rw [← String.length_toList]
  unfold Token.lexeme Lexeme.spelling
  split <;> simp

theorem Span.ofToken_behind {t : Token} {text : List Char} (hp : t.position = .behind text)
    (h : '\n' ∉ text) :
    Span.ofToken t = ⟨text.length, (text ++ t.lexeme.spelling).length, .ofToken t⟩ := by
  rw [Span.ofToken, hp, Position.offset_behind h, List.length_append, t.length_spelling]

theorem Lexeme.Longest.notEnd {l : Lexeme} {tail : List Char}
    (h : l.Longest (l.spelling ++ tail)) : l.kind ≠ .endOfInput := by
  obtain ⟨c, more, hs, -⟩ := h.lawful.solid
  have hc : l.spelling ++ tail = c :: (more ++ tail) := by rw [hs, List.cons_append]
  exact (Lexeme.read_heads (Lexeme.read_eq_ok.mpr ⟨hc ▸ h, hc⟩)).notEnd

theorem Laid.notEnd {before cs rest : List Char} {ts : List Token} (h : Laid before ts cs rest) :
    ∀ t ∈ ts, t.kind ≠ .endOfInput := by
  induction h with
  | stop hg => exact nofun
  | token hg hl hp h ih => exact List.forall_mem_cons.mpr ⟨hl.notEnd, ih⟩

namespace Group

theorem style_ofToken_ne (t : Token) : (ofToken t).style ≠ error.style := by
  have hname : ∀ name, (ofIdent name).style ≠ error.style := by
    intro name
    unfold ofIdent
    split
    · decide
    · split <;> decide
  unfold ofToken
  split <;> first | exact hname _ | decide

end Group

namespace Highlight

/-- The fragments hold the text in order, each of them some of it. -/
structure Shows (pieces : List Fragment) (cs : List Char) : Prop where
  whole : pieces.flatMap (·.text.toList) = cs
  filled : ∀ f ∈ pieces, f.text ≠ ""

namespace Shows

variable {ps qs : List Fragment} {cs ds : List Char}

theorem append (h : Shows ps cs) (h' : Shows qs ds) : Shows (ps ++ qs) (cs ++ ds) := by
  refine ⟨by rw [List.flatMap_append, h.whole, h'.whole], fun f hf => ?_⟩
  exact (List.mem_append.mp hf).elim (h.filled f) (h'.filled f)

theorem single (style : String) (h : cs ≠ []) : Shows [⟨style, String.ofList cs⟩] cs := by
  refine ⟨by simp, fun f hf => ?_⟩
  obtain rfl := List.mem_singleton.mp hf
  simpa using h

theorem fragment (style : String) (cs : List Char) : Shows (fragment style cs) cs := by
  unfold Highlight.fragment
  cases cs with
  | nil => exact ⟨rfl, nofun⟩
  | cons c cs => exact single style (List.cons_ne_nil c cs)

end Shows

theorem style_fragment_ne {style : String} {cs : List Char} (hs : style ≠ Group.error.style) :
    ∀ f ∈ fragment style cs, f.style ≠ Group.error.style := by
  intro f hf
  unfold fragment at hf
  split at hf
  · cases hf
  · obtain rfl := List.mem_singleton.mp hf
    exact hs

section Tail

open Text (trimLeft isBlank)

theorem tail_shows (rest : List Char) : Shows (tail rest) rest := by
  have hdrop : trimLeft rest = rest.drop (rest.length - (trimLeft rest).length) :=
    List.suffix_iff_eq_drop.mp (List.dropWhile_suffix isBlank)
  have hsplit : rest.take (rest.length - (trimLeft rest).length) ++ trimLeft rest = rest :=
    (congrArg (_ ++ ·) hdrop).trans (List.take_append_drop _ rest)
  unfold tail
  dsimp only
  split
  · exact .fragment "" rest
  · have hshows := (Shows.fragment "" (rest.take (rest.length - (trimLeft rest).length))).append
      (Shows.fragment Group.comment.style (trimLeft rest))
    rwa [hsplit] at hshows
  · exact .fragment Group.error.style rest

theorem tail_error {rest : List Char} :
    (∃ f ∈ tail rest, f.style = Group.error.style) ↔ ∃ c ∈ (trimLeft rest).head?, c ≠ '#' := by
  unfold tail
  dsimp only
  split
  · next hnil =>
    refine iff_of_false ?_ (by simp [hnil])
    rintro ⟨f, hf, hs⟩
    exact style_fragment_ne (by decide) f hf hs
  · next c hhash =>
    refine iff_of_false ?_ (by simp [hhash])
    rintro ⟨f, hf, hs⟩
    obtain hf | hf := List.mem_append.mp hf
    · exact style_fragment_ne (by decide) f hf hs
    · exact style_fragment_ne (by decide) f hf hs
  · next hnil hhash =>
    obtain ⟨c, more, hc⟩ := List.exists_cons_of_ne_nil hnil
    have hrest : rest ≠ [] := by
      rintro rfl
      exact hnil rfl
    refine iff_of_true ⟨⟨_, String.ofList rest⟩, ?_, rfl⟩ ⟨c, by simp [hc], ?_⟩
    · rw [fragment, if_neg (by simpa using hrest)]
      exact List.mem_singleton_self _
    · rintro rfl
      exact hhash more hc

end Tail

section Laid

variable {before gap cs rest : List Char} {t : Token} {ts : List Token}

theorem gap_eq (before gap more : List Char) :
    (if before.length < (before ++ gap).length then
        [⟨"", String.ofList
          ((before ++ (gap ++ more)).extract before.length (before ++ gap).length)⟩]
      else []) = fragment "" gap := by
  rw [extract_middle, List.length_append, fragment]
  cases gap with
  | nil => simp
  | cons c gap => simp

theorem fragments_token (more : List Char) (spans : List Span)
    (hp : t.position = .behind (before ++ gap)) (hn : '\n' ∉ before ++ gap) :
    fragments (before ++ (gap ++ (t.lexeme.spelling ++ more))) before.length
        (Span.ofToken t :: spans) =
      fragment "" gap ++ ⟨(Group.ofToken t).style, String.ofList t.lexeme.spelling⟩ ::
        fragments (before ++ gap ++ t.lexeme.spelling ++ more)
          (before ++ gap ++ t.lexeme.spelling).length spans := by
  have hlexeme := extract_middle (before ++ gap) t.lexeme.spelling more
  rw [List.append_assoc before gap] at hlexeme
  rw [Span.ofToken_behind hp hn, fragments, gap_eq]
  dsimp only
  rw [hlexeme]
  simp only [List.append_assoc]

/-- The fragments of what is laid out behind `before`: pieces for the gaps and the lexemes, and then
what follows the last lexeme. -/
theorem fragments_laid (h : Laid before ts cs rest) (hn : '\n' ∉ before ++ cs) :
    ∃ pieces shown gap, Gap gap rest ∧ cs = shown ++ (gap ++ rest) ∧ Shows pieces shown ∧
      (∀ f ∈ pieces, f.style ≠ Group.error.style) ∧
      fragments (before ++ cs) before.length (ts.map Span.ofToken) =
        pieces ++ tail (gap ++ rest) := by
  induction h with
  | @stop before gap rest hg =>
    refine ⟨[], [], gap, hg, rfl, ⟨rfl, nofun⟩, nofun, ?_⟩
    rw [List.map_nil, fragments, List.drop_left, List.nil_append]
  | @token before gap more rest t ts hg hl hp h ih =>
    have hwhole : before ++ (gap ++ (t.lexeme.spelling ++ more)) =
        before ++ gap ++ t.lexeme.spelling ++ more := by simp
    rw [hwhole] at hn
    obtain ⟨pieces, shown, last, hlast, rfl, hshows, hplain, heq⟩ := ih hn
    have hne : t.lexeme.spelling ≠ [] := by
      obtain ⟨c, tail, hs, -⟩ := hl.lawful.solid
      simp [hs]
    have hline : '\n' ∉ before ++ gap := fun hm =>
      hn (List.mem_append_left _ (List.mem_append_left _ hm))
    refine ⟨fragment "" gap ++ ⟨(Group.ofToken t).style, String.ofList t.lexeme.spelling⟩ :: pieces,
      gap ++ (t.lexeme.spelling ++ shown), last, hlast, by simp, ?_, ?_, ?_⟩
    · exact (Shows.fragment "" gap).append ((Shows.single _ hne).append hshows)
    · intro f hf
      obtain hf | hf := List.mem_append.mp hf
      · exact style_fragment_ne (by decide) f hf
      · obtain rfl | hf := List.mem_cons.mp hf
        · exact Group.style_ofToken_ne t
        · exact hplain f hf
    · rw [List.map_cons, fragments_token _ _ hp hline, heq, List.append_assoc, List.cons_append]

end Laid

theorem exists_laid (text : String) :
    ∃ ts rest, Laid [] ts text.toList rest ∧ spans text = ts.map Span.ofToken ∧
      Scan.Stops text.toList [] ts rest (Scan.ofSource text) := by
  obtain ⟨ts, rest, hl, hs⟩ := Scan.resume_laid [] [] text.toList
  have hkept : ts.filter (·.kind ≠ .endOfInput) = ts :=
    List.filter_eq_self.mpr fun t ht => decide_eq_true (hl.notEnd t ht)
  have hs : Scan.Stops text.toList [] ts rest (Scan.ofSource text) := hs
  refine ⟨ts, rest, hl, ?_, hs⟩
  rw [spans]
  cases hr : rest with
  | nil =>
    rw [hs.finished hr, List.reverse_nil, List.nil_append, List.filter_append, hkept]
    exact congrArg _ (List.append_nil ts)
  | cons c after =>
    obtain ⟨read, flaw, -, hscan, -⟩ := hs.broken c after hr
    rw [hscan]
    exact congrArg _ hkept

theorem fragments_shows {text : String} (hn : '\n' ∉ text.toList) :
    Shows (fragments text.toList 0 (spans text)) text.toList := by
  obtain ⟨ts, rest, hl, hspans, -⟩ := exists_laid text
  obtain ⟨pieces, shown, gap, -, htext, hshows, -, heq⟩ := fragments_laid hl hn
  have hall := hshows.append (tail_shows (gap ++ rest))
  rw [← htext] at hall
  rw [hspans, htext]
  exact htext ▸ heq ▸ hall

theorem line_eq (text : String) : line text = fragments text.toList 0 (spans text) ∨
    fragments text.toList 0 (spans text) = [] ∧ line text = [⟨"", text⟩] := by
  unfold line
  split
  · next h => exact .inr ⟨h, rfl⟩
  · exact .inl rfl

theorem line_shows {text : String} (hn : '\n' ∉ text.toList) :
    (line text).flatMap (·.text.toList) = text.toList ∧
      ∀ f ∈ line text, f.text = "" → text = "" := by
  have hshows := fragments_shows hn
  obtain hline | ⟨hnil, hline⟩ := line_eq text
  · rw [hline]
    exact ⟨hshows.whole, fun f hf hempty => absurd hempty (hshows.filled f hf)⟩
  · have hwhole := hshows.whole
    rw [hnil] at hwhole
    rw [hline]
    refine ⟨by simp, fun _ _ _ => ?_⟩
    rw [← String.toList_inj, ← hwhole]
    rfl

/-- Colouring loses nothing: the fragments of a line, put together, are the line, and only an empty
line has an empty fragment. Lines may be counted from the last one; before the first there are no
fragments at all. -/
theorem lines_shown (text : String) (number : Nat) (h : number < (splitLines text).length) :
    "\n".intercalate (splitLines text) = text ∧ '\n' ∉ (splitLines text)[number].toList ∧
      (∃ fragments, lineAt? text number = some fragments ∧
        String.join (fragments.map Fragment.text) = (splitLines text)[number] ∧
        ((∃ f ∈ fragments, f.text = "") → (splitLines text)[number] = "")) ∧
      lineAt? text (number - (splitLines text).length) = lineAt? text number ∧
      ∀ k, lineAt? text k = none ↔ k < -(splitLines text).length := by
  have hn := not_mem_of_mem_splitLines (List.getElem_mem h)
  obtain ⟨hwhole, hempty⟩ := line_shows hn
  have hline := lineAt?_eq (List.getElem?_eq_getElem h)
  refine ⟨intercalate_splitLines text, hn, ⟨_, hline, ?_, fun ⟨f, hf, he⟩ => hempty f hf he⟩,
    lineAt?_sub h, fun k => lineAt?_eq_none_iff⟩
  rw [← String.toList_inj, String.toList_join, List.flatMap_map]
  exact hwhole

theorem lines_shown_flawed :
    let text := "a\t1.5 # z\n\"é\"\t@ b\n\"c #"
    2 < (splitLines text).length ∧
      (∃ fragments, lineAt? text 1 = some fragments ∧
        String.join (fragments.map Fragment.text) = "\"é\"\t@ b") ∧
      ∃ fragments, lineAt? text (-1) = some fragments ∧
        String.join (fragments.map Fragment.text) = "\"c #" := by
  -- a line with a flaw behind a string and a tab, and a line whose string has no end
  intro text
  have hsecond : (splitLines text)[1]? = some "\"é\"\t@ b" := by decide
  have hthird : (splitLines text)[2]? = some "\"c #" := by decide
  obtain ⟨h₁, hline₁⟩ := List.getElem?_eq_some_iff.mp hsecond
  obtain ⟨h₂, hline₂⟩ := List.getElem?_eq_some_iff.mp hthird
  obtain ⟨-, -, ⟨fragments₁, hfragments₁, hshown₁, -⟩, -⟩ := lines_shown text 1 h₁
  obtain ⟨-, -, ⟨fragments₂, hfragments₂, hshown₂, -⟩, hback, -⟩ := lines_shown text 2 h₂
  have hlength : (splitLines text).length = 3 := by decide
  rw [hlength] at hback
  exact ⟨h₂, ⟨fragments₁, hfragments₁, hshown₁.trans hline₁⟩,
    fragments₂, hback.trans hfragments₂, hshown₂.trans hline₂⟩

end Highlight

end Bahasa
