import Bahasa.Proofs.Token.Segmentation

namespace Bahasa

def Divides (c : Char) : Prop :=
  Lexeme.isWordChar c = false ∧ c ≠ '.' ∧ c ∉ ['=', '&', '|']

instance (c : Char) : Decidable (Divides c) :=
  inferInstanceAs (Decidable (_ ∧ _ ∧ _))

/-- A text before which any lexeme ends. -/
def Dividing (cs : List Char) : Prop :=
  ∀ c ∈ cs.head?, Divides c

theorem dividing_nil : Dividing [] := by
  simp [Dividing]

theorem dividing_cons {c : Char} (hc : Divides c) (cs : List Char) : Dividing (c :: cs) := by
  intro d hd
  obtain rfl : c = d := by simpa using hd
  exact hc

theorem Dividing.not_isDigit {cs : List Char} (h : Dividing cs) :
    ∀ c ∈ cs.head?, Text.isDigit c = false := by
  intro c hc
  have hw := (h c hc).1
  rw [Lexeme.isWordChar, Bool.or_eq_false_iff] at hw
  exact hw.2

theorem Dividing.not_isWordChar {cs : List Char} (h : Dividing cs) :
    ∀ c ∈ cs.head?, Lexeme.isWordChar c = false :=
  fun c hc => (h c hc).1

namespace Lexeme

variable {l : Lexeme} {tail : List Char}

theorem readFraction_of_dividing (ht : Dividing tail) : readFraction tail = ([], tail) := by
  unfold readFraction
  split
  · next d rest => exact absurd rfl (ht '.' rfl).2.1
  · rfl

theorem readNumber_whole_exact {digits : List Char} (hd : ∀ c ∈ digits, Text.isDigit c = true)
    (ht : Dividing tail) : readNumber (digits ++ tail) = (⟨.number, digits⟩, tail) := by
  obtain ⟨htake, hdrop⟩ := span_append tail hd ht.not_isDigit
  simp only [readNumber, htake, hdrop, readFraction_of_dividing ht, List.append_nil]

theorem readNumber_fraction_exact {digits places : List Char}
    (hd : ∀ c ∈ digits, Text.isDigit c = true) (hne : places ≠ [])
    (hp : ∀ c ∈ places, Text.isDigit c = true) (ht : Dividing tail) :
    readNumber (digits ++ '.' :: places ++ tail) = (⟨.number, digits ++ '.' :: places⟩, tail) := by
  obtain ⟨d, more, rfl⟩ := List.exists_cons_of_ne_nil hne
  obtain ⟨htake, hdrop⟩ := span_append ('.' :: d :: more ++ tail) hd (by simp [Text.isDigit])
  obtain ⟨hplaces, hrest⟩ := span_append tail hp ht.not_isDigit
  have hread : readFraction ('.' :: d :: more ++ tail) = ('.' :: d :: more, tail) := by
    rw [List.cons_append] at hplaces hrest
    rw [List.cons_append, List.cons_append, readFraction_point (hp d (List.mem_cons_self ..)),
      hplaces, hrest]
  rw [List.append_assoc]
  simp only [readNumber, htake, hdrop, hread]

theorem readWord_exact {word : List Char} (hw : ∀ c ∈ word, isWordChar c = true)
    (ht : Dividing tail) :
    readWord (word ++ tail) = (⟨.ofWord (String.ofList word), word⟩, tail) := by
  obtain ⟨htake, hdrop⟩ := span_append tail hw ht.not_isWordChar
  simp only [readWord, htake, hdrop]

theorem ofPair?_of_divides {a c : Char} (hc : Divides c) : Kind.ofPair? a c = none := by
  cases h : Kind.ofPair? a c with
  | none => rfl
  | some k =>
    have hall : ∀ x ∈ Kind.pairs, x.1.2 ∈ ['=', '&', '|'] := by decide
    exact absurd (hall _ (Kind.ofPair?_eq_some.mp h)) hc.2.2

/-- A lexeme is read as it was written, if the text after it divides. -/
theorem Lawful.read_exact (hl : l.Lawful) (ht : Dividing tail) :
    ∃ c rest, l.spelling ++ tail = c :: rest ∧ read c rest = .ok (l, tail) := by
  cases hl with
  | @whole digits hne hd =>
    obtain ⟨c, more, rfl⟩ := List.exists_cons_of_ne_nil hne
    refine ⟨c, more ++ tail, rfl, ?_⟩
    rw [read_of_isDigit (hd c (List.mem_cons_self ..)), ← List.cons_append,
      readNumber_whole_exact hd ht]
  | @fraction digits places hne hd hne' hp =>
    obtain ⟨c, more, rfl⟩ := List.exists_cons_of_ne_nil hne
    refine ⟨c, more ++ '.' :: places ++ tail, rfl, ?_⟩
    rw [read_of_isDigit (hd c (List.mem_cons_self ..)), ← List.cons_append, ← List.cons_append,
      readNumber_fraction_exact hd hne' hp ht]
  | @keyword word k hw =>
    obtain ⟨c, more, rfl, hc, hmore⟩ := keyword_word hw
    obtain rfl := Kind.ofWord_keyword hw
    refine ⟨c, more ++ tail, by rw [spelling_of_fixed (Kind.ofWord_fixed _), List.cons_append], ?_⟩
    rw [read_of_isWordStart hc, ← List.cons_append, readWord_exact hmore ht]
  | @ident c word hc hw hk =>
    refine ⟨c, word ++ tail, rfl, ?_⟩
    rw [read_of_isWordStart hc, ← List.cons_append, readWord_exact (isWordChar_cons hc hw) ht,
      Kind.ofWord_ident hk]
  | @string body hb => exact ⟨'"', body ++ '"' :: tail, by simp [spelling], read_string hb tail⟩
  | @pair a b k hk => exact ⟨a, b :: tail, by rw [spelling_pair hk]; rfl, read_pair hk tail⟩
  | @mark a k hk =>
    refine ⟨a, tail, by rw [spelling_mark hk]; rfl, read_mark hk ?_⟩
    exact fun c hc => ofPair?_of_divides (ht c hc)

theorem Lawful.longest (hl : l.Lawful) (ht : Dividing tail) : l.Longest (l.spelling ++ tail) := by
  obtain ⟨c, rest, hs, hr⟩ := hl.read_exact ht
  rw [hs]
  exact (read_eq_ok.mp hr).1

end Lexeme

def CutsInto (text : List Char) (ls : List Lexeme) : Prop :=
  ∀ more tail rest, Dividing tail → Segments more tail rest →
    Segments (ls ++ more) (text ++ tail) rest

namespace CutsInto

variable {text text' : List Char} {ls ls' : List Lexeme}

theorem lexeme {l : Lexeme} (hl : l.Lawful) : CutsInto l.spelling [l] :=
  fun _ _ _ ht h => .lexeme .none (hl.longest ht) h

theorem blank {c : Char} (hc : c ∈ blanks) (h : CutsInto text ls) : CutsInto (c :: text) ls :=
  fun more tail rest ht hm => (h more tail rest ht hm).blank hc

theorem append (h : CutsInto text ls) (h' : CutsInto text' ls') (hne : text' ≠ [])
    (hd : Dividing text') : CutsInto (text ++ text') (ls ++ ls') := by
  intro more tail rest ht hm
  obtain ⟨c, cs, rfl⟩ := List.exists_cons_of_ne_nil hne
  rw [List.append_assoc, List.append_assoc]
  exact h _ _ _ (dividing_cons (hd c rfl) _) (h' more tail rest ht hm)

theorem mark {c : Char} {k : Kind} (hc : (c, k) ∈ Kind.marks) (h : CutsInto text ls)
    (hne : text ≠ []) (hd : Dividing text) : CutsInto (c :: text) (⟨k, [c]⟩ :: ls) := by
  have hmark := lexeme (.mark hc)
  rw [Lexeme.spelling_mark hc] at hmark
  exact hmark.append h hne hd

end CutsInto

theorem tokenize_of_segments {source : String} {ls : List Lexeme}
    (h : Segments ls source.toList []) :
    ∃ ts p, tokenize source = .ok (ts ++ [.endMark p]) ∧ ts.map Token.lexeme = ls := by
  obtain ⟨ts, rest, hs, he, hf⟩ := Scan.resume_segments [] .start source.toList
  obtain ⟨hls, rfl⟩ := hs.unique h he Scan.ended_nil
  obtain ⟨p, hscan⟩ := hf.finished rfl
  refine ⟨ts, p, ?_, hls⟩
  exact tokenize_eq_ok.mpr ⟨congrArg Scan.error? hscan, congrArg Scan.tokens hscan⟩

end Bahasa
