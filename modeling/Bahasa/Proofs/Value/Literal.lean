import Bahasa.Proofs.Decimal.Written
import Bahasa.Proofs.Token.Spelling
import Bahasa.Value

namespace Bahasa

/-- A finite number without a sign that is written without an exponent, and that its digits are
read as. -/
structure Decimal.Plain (x : Float) : Prop where
  notNaN : x.isNaN = false
  notInf : x.isInf = false
  notNegative : isNegative x = false
  noExponent : 'e' ∉ (write x).toList
  readBack : read? (write x) = some x

namespace Lexeme

def name (word : String) : Lexeme := ⟨.ident, word.toList⟩

def colon : Lexeme := ⟨.colon, [':']⟩

def comma : Lexeme := ⟨.comma, [',']⟩

def lbrace : Lexeme := ⟨.lbrace, ['{']⟩

def rbrace : Lexeme := ⟨.rbrace, ['}']⟩

def isName (word : String) : Bool :=
  word.toList.head?.any isWordStart && word.toList.all isWordChar && Kind.ofWord word == .ident

theorem isName_of_lawful {l : Lexeme} (h : l.Lawful) (hk : l.kind = .ident) :
    isName (String.ofList l.body) = true := by
  cases h with
  | whole | fraction | string => cases hk
  | @keyword word k hw =>
    have hall : ∀ x ∈ Kind.keywords, x.2 ≠ .ident := by decide
    exact absurd hk (hall _ hw)
  | @ident c word hc hw hno =>
    simp only [isName, String.toList_ofList, Kind.ofWord_ident hno]
    simpa [hc] using isWordChar_cons hc hw
  | @pair a b k hp =>
    have hall : ∀ x ∈ Kind.pairs, x.2 ≠ .ident := by decide
    exact absurd hk (hall _ hp)
  | @mark c k hm =>
    have hall : ∀ x ∈ Kind.marks, x.2 ≠ .ident := by decide
    exact absurd hk (hall _ hm)

theorem name_lawful_iff {word : String} : (name word).Lawful ↔ isName word = true := by
  constructor
  · intro h
    have hname := isName_of_lawful h rfl
    rwa [name, String.ofList_toList] at hname
  · intro h
    simp only [isName, Bool.and_eq_true, List.all_eq_true, beq_iff_eq] at h
    obtain ⟨⟨hs, hc⟩, hk⟩ := h
    cases hw : word.toList with
    | nil =>
      rw [hw] at hs
      cases hs
    | cons c cs =>
      rw [hw] at hs hc
      have hlawful := word_lawful (c := c) (by simpa using hs)
        fun d hd => hc d (List.mem_cons_of_mem _ hd)
      rw [← hw, String.ofList_toList, hk] at hlawful
      exact hlawful

instance (word : String) : Decidable (name word).Lawful :=
  decidable_of_iff _ name_lawful_iff.symm

end Lexeme

namespace Value

inductive Literal : Value → Prop
  | null : Literal .null
  | bool (b : Bool) : Literal (.bool b)
  | number {x : Float} (hx : Decimal.Plain x) : Literal (.number x)
  | string {s : String} (hs : '"' ∉ s.toList) : Literal (.string s)
  | object {slots : List (String × Value)} (hd : (slots.map Prod.fst).Nodup)
    (hn : ∀ slot ∈ slots, (Lexeme.name slot.1).Lawful) (hv : ∀ slot ∈ slots, Literal slot.2) :
    Literal (.object slots)

mutual

def lexemes : Value → List Lexeme
  | null => [.name "null"]
  | bool b => [.name (if b then "true" else "false")]
  | number x => [⟨.number, (Decimal.write x).toList⟩]
  | string s => [⟨.string, s.toList⟩]
  | object slots => .lbrace :: [Lexeme.comma].intercalate (slotLexemes slots) ++ [.rbrace]
  | _ => []

def slotLexemes : List (String × Value) → List (List Lexeme)
  | [] => []
  | (key, v) :: rest => (.name key :: .colon :: v.lexemes) :: slotLexemes rest

end

theorem height_le_slotsHeight {slot : String × Value} {slots : List (String × Value)}
    (h : slot ∈ slots) : slot.2.height ≤ slotsHeight slots := by
  induction slots with
  | nil => cases h
  | cons first rest ih =>
    rw [slotsHeight]
    obtain rfl | h := List.mem_cons.mp h
    · exact Nat.le_max_left _ _
    · exact Nat.le_trans (ih h) (Nat.le_max_right _ _)

theorem exists_eq_succ {v : Value} {depth : Nat} (h : v.height ≤ depth) :
    ∃ below, depth = below + 1 := by
  have hpos : 0 < v.height := by
    cases v <;> simp [height]
  exact ⟨depth - 1, by omega⟩

theorem renderSlots_ne_nil {slots : List (String × Value)} (h : slots ≠ []) :
    renderSlots slots ≠ [] := by
  obtain ⟨⟨key, v⟩, rest, rfl⟩ := List.exists_cons_of_ne_nil h
  simp [renderSlots]

theorem slotLexemes_ne_nil {slots : List (String × Value)} (h : slots ≠ []) :
    slotLexemes slots ≠ [] := by
  obtain ⟨⟨key, v⟩, rest, rfl⟩ := List.exists_cons_of_ne_nil h
  simp [slotLexemes]

theorem entry_cutsInto {key : String} {v : Value} (hk : (Lexeme.name key).Lawful)
    (hv : CutsInto v.render.toList v.lexemes) :
    CutsInto (key ++ ": " ++ v.render).toList (.name key :: .colon :: v.lexemes) := by
  have hcolon : CutsInto (':' :: ' ' :: v.render.toList) (.colon :: v.lexemes) :=
    .mark (by decide) (hv.blank (by decide)) (by simp) (dividing_cons (by decide) _)
  have hentry := (CutsInto.lexeme hk).append hcolon (by simp) (dividing_cons (by decide) _)
  have htext : (key ++ ": " ++ v.render).toList = key.toList ++ ':' :: ' ' :: v.render.toList := by
    simp
  rw [htext]
  exact hentry

theorem entries_cutsInto {slots : List (String × Value)} (hne : slots ≠ [])
    (hn : ∀ slot ∈ slots, (Lexeme.name slot.1).Lawful)
    (hv : ∀ slot ∈ slots, CutsInto slot.2.render.toList slot.2.lexemes) :
    CutsInto (", ".intercalate (renderSlots slots)).toList
      ([Lexeme.comma].intercalate (slotLexemes slots)) := by
  induction slots with
  | nil => exact absurd rfl hne
  | cons slot rest ih =>
    obtain ⟨key, v⟩ := slot
    have hentry := entry_cutsInto (hn _ (List.mem_cons_self ..)) (hv _ (List.mem_cons_self ..))
    by_cases hr : rest = []
    · subst hr
      rw [renderSlots, slotLexemes, renderSlots, slotLexemes, String.intercalate_singleton,
        List.intercalate_singleton]
      exact hentry
    · have hrest := ih hr (fun s hs => hn s (List.mem_cons_of_mem _ hs))
        (fun s hs => hv s (List.mem_cons_of_mem _ hs))
      have hcomma : CutsInto (',' :: ' ' :: (", ".intercalate (renderSlots rest)).toList)
          (.comma :: [Lexeme.comma].intercalate (slotLexemes rest)) :=
        .mark (by decide) (hrest.blank (by decide)) (by simp) (dividing_cons (by decide) _)
      have hall := hentry.append hcomma (by simp) (dividing_cons (by decide) _)
      rw [renderSlots, slotLexemes, String.intercalate_cons_of_ne_nil (renderSlots_ne_nil hr),
        List.intercalate_cons_of_ne_nil (slotLexemes_ne_nil hr)]
      simpa using hall

theorem object_cutsInto {slots : List (String × Value)}
    (hn : ∀ slot ∈ slots, (Lexeme.name slot.1).Lawful)
    (hv : ∀ slot ∈ slots, CutsInto slot.2.render.toList slot.2.lexemes) :
    CutsInto (render (.object slots)).toList (lexemes (.object slots)) := by
  have hclose : CutsInto ['}'] [.rbrace] := .lexeme (.mark (by decide))
  cases slots with
  | nil =>
    rw [render, lexemes, slotLexemes, List.intercalate_nil]
    exact .mark (by decide) hclose (by simp) (dividing_cons (by decide) _)
  | cons slot rest =>
    have hentries := entries_cutsInto (List.cons_ne_nil _ _) hn hv
    have hbody := hentries.append (hclose.blank (c := ' ') (by decide)) (by simp)
      (dividing_cons (by decide) _)
    have hopen : CutsInto ('{' :: ' ' :: ((", ".intercalate (renderSlots (slot :: rest))).toList ++
        [' ', '}'])) (.lbrace :: ([Lexeme.comma].intercalate (slotLexemes (slot :: rest)) ++
          [.rbrace])) :=
      .mark (by decide) (hbody.blank (by decide)) (by simp) (dividing_cons (by decide) _)
    rw [render, lexemes]
    simpa using hopen

theorem Literal.cutsInto {v : Value} (h : v.Literal) : CutsInto v.render.toList v.lexemes := by
  have hname : ∀ word ∈ ["null", "true", "false"], CutsInto word.toList [.name word] := by
    intro word hw
    have hall : ∀ word ∈ ["null", "true", "false"], (Lexeme.name word).Lawful := by decide
    exact .lexeme (hall word hw)
  induction h with
  | null => exact hname "null" (by decide)
  | bool b =>
    rw [render, lexemes]
    cases b with
    | false => exact hname "false" (by decide)
    | true => exact hname "true" (by decide)
  | @number x hx =>
    rw [render, lexemes]
    exact .lexeme (Decimal.write_lawful hx.notNaN hx.notInf hx.notNegative hx.noExponent)
  | @string s hs =>
    have hstring := CutsInto.lexeme (.string hs)
    rw [render, lexemes]
    simpa [Lexeme.spelling] using hstring
  | object hd hn hv ih => exact object_cutsInto hn ih

end Value

end Bahasa
