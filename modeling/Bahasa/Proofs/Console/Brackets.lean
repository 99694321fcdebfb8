import Bahasa.Console.Editing
import Bahasa.Proofs.Session.Safety

namespace Bahasa

open Editing (bracketStep openDepth enter)

namespace Kind

def closing? : Kind → Option Kind
  | lparen => some rparen
  | lbrace => some rbrace
  | lbracket => some rbracket
  | _ => none

def isBracket : Kind → Bool
  | lparen | rparen | lbrace | rbrace | lbracket | rbracket => true
  | _ => false

end Kind

section Steps

variable {t : Token} {k : Kind}

theorem bracketStep_plain (ht : t.kind = k) (hk : k.isBracket = false) (depth : Nat) :
    bracketStep depth t = depth := by
  cases k <;> simp_all [Kind.isBracket, bracketStep]

theorem bracketStep_open (h : t.kind.closing? = some k) (depth : Nat) :
    bracketStep depth t = depth + 1 := by
  cases hk : t.kind <;> simp_all [Kind.closing?, bracketStep]

theorem bracketStep_close {l : Kind} (h : l.closing? = some k) (ht : t.kind = k) (depth : Nat) :
    bracketStep (depth + 1) t = depth := by
  cases l <;> cases h <;> simp [bracketStep, ht]

end Steps

/-- At whatever depth the tokens are met, they lead back to it. -/
def Neutral (ts : List Token) : Prop :=
  ∀ depth, ts.foldl bracketStep depth = depth

namespace Neutral

variable {t left right : Token} {k : Kind} {ts us : List Token}

theorem nil : Neutral [] :=
  fun _ => rfl

theorem plain (ht : t.kind = k) (hk : k.isBracket = false) : Neutral [t] :=
  fun depth => bracketStep_plain ht hk depth

theorem append (hts : Neutral ts) (hus : Neutral us) : Neutral (ts ++ us) := by
  intro depth
  rw [List.foldl_append, hts, hus]

theorem cons (ht : t.kind = k) (hk : k.isBracket = false) (hts : Neutral ts) : Neutral (t :: ts) :=
  (plain ht hk).append hts

theorem enclosed (hl : left.kind.closing? = some k) (hr : right.kind = k) (hts : Neutral ts) :
    Neutral (left :: ts ++ [right]) := by
  intro depth
  rw [List.cons_append, List.foldl_cons, bracketStep_open hl, List.foldl_append, hts]
  exact bracketStep_close hl hr depth

theorem optional (hk : k.isBracket = false) (hts : Optional k ts) : Neutral ts := by
  obtain rfl | ⟨t, rfl, ht⟩ := hts
  · exact nil
  · exact plain ht hk

end Neutral

namespace Kind

variable {k : Kind}

theorem isBracket_of_leaf? {kind : LeafKind} (h : k.leaf? = some kind) : k.isBracket = false := by
  cases k <;> cases h <;> rfl

theorem isBracket_of_label? {level : Level} {label : Label} (h : level.label? k = some label) :
    k.isBracket = false := by
  cases level <;> cases k <;> cases h <;> rfl

theorem isBracket_of_assignment? {label : Label} (h : k.assignment? = some label) :
    k.isBracket = false := by
  cases k <;> cases h <;> rfl

end Kind

/-- The tokens of a phrase leave no bracket open and close none that was open before. -/
theorem Derives.neutral {φ : Phrase} {ts : List Token} (h : Derives φ ts) : Neutral ts := by
  induction h with
  | literal ht => exact .plain rfl (Kind.isBracket_of_leaf? ht)
  | group hl _ hr ih | object hl _ hr ih | condition hl _ hr ih | block hl _ hr ih =>
    exact .enclosed (by rw [hl]; rfl) hr ih
  | member _ hd hi ih => exact ih.append (.cons hd rfl (.plain hi rfl))
  | index _ hl _ hr ih ihk | call _ hl _ hr ih ihk =>
    rw [List.append_assoc]
    exact ih.append (.enclosed (by rw [hl]; rfl) hr ihk)
  | join _ ho _ _ ihl ihr => exact ihl.append (.cons rfl (Kind.isBracket_of_label? ho) ihr)
  | arithmetic _ ho _ _ _ ihl ihr => exact ihl.append (.cons ho rfl ihr)
  | assign _ ho _ iht ihv => exact iht.append (.cons rfl (Kind.isBracket_of_assignment? ho) ihv)
  | tighter _ _ ih | argument _ ih | itemsOne _ ih | listSome _ ih | program _ ih => exact ih
  | parameter ht => exact .plain ht rfl
  | itemsMore _ hc _ ihs ih => exact ihs.append (.cons hc rfl ih)
  | listNone | initialNone | propertiesNone | clausesNone | finalNone | statementsNone => exact .nil
  | initialSome hc _ ih => exact .cons hc rfl ih
  | propertiesMore _ hk _ hc ihs ihv =>
    exact (ihs.append (.cons hk rfl ihv)).append (.optional rfl hc)
  | clausesMore _ hk _ _ ihs ihc ihb => exact (ihs.append (.cons hk rfl ihc)).append ihb
  | finalSome hk _ ih => exact .cons hk rfl ih
  | «variable» hk hi _ hs ih => exact .cons hk rfl (.cons hi rfl (ih.append (.plain hs rfl)))
  | constant hk hi hc _ hs ih =>
    exact .cons hk rfl (.cons hi rfl (.cons hc rfl (ih.append (.plain hs rfl))))
  | function hk hi hl _ hr _ ihp ihb =>
    have hparams := Neutral.enclosed (by rw [hl]; rfl) hr ihp
    have hall := Neutral.cons hk rfl (.cons hi rfl (hparams.append ihb))
    simpa using hall
  | ifElse hk _ _ _ ihc ihb ihf => exact ((Neutral.cons hk rfl ihc).append ihb).append ihf
  | ifElifs hk _ _ _ hl _ _ _ ihc ihb ihs ihlc ihlb ihf =>
    have hfirst := (Neutral.cons hk rfl ihc).append ihb
    exact (((hfirst.append ihs).append (.cons hl rfl ihlc)).append ihlb).append ihf
  | forLoop hk hl _ _ hm _ hr _ ihs ihc ihi ihb =>
    have hinside := (ihs.append ihc).append (.cons hm rfl ihi)
    have hhead := Neutral.enclosed (by rw [hl]; rfl) hr hinside
    have hall := Neutral.cons hk rfl (hhead.append ihb)
    simpa using hall
  | expression _ hs ih => exact ih.append (.optional rfl hs)
  | statementsMore _ _ ihs ih => exact ihs.append ih

namespace Editing

theorem openDepth_of_parse {i : Interpreter} {source : String} {tree : Node}
    (h : i.parse source = .ok tree) : openDepth source = 0 := by
  obtain ⟨tokens, ht, hp⟩ := Interpreter.parse_eq_ok.mp h
  obtain ⟨ts, stop, rfl, hs, hts⟩ := tokenize_stop ht
  have hd := (Parser.parseTokens_spells (fun _ => True) hp).derived
  rw [Parser.body_append_stop hs hts] at hd
  rw [openDepth, (tokenize_eq_ok.mp ht).2]
  exact hd.neutral.append (.plain hs rfl) 0

/-- Enter hands in every text that is a program. So a text with brackets left open is none, however
deep programs may be nested. -/
theorem enter_submits (i : Interpreter) (source : String) :
    (∀ tree, i.parse source = .ok tree → openDepth source = 0 ∧ enter source = .submit) ∧
      (0 < openDepth source → ∃ e, i.parse source = .error e) := by
  refine ⟨fun tree h => ?_, fun hopen => ?_⟩
  · have hzero := openDepth_of_parse h
    exact ⟨hzero, by rw [enter, hzero]⟩
  · cases h : i.parse source with
    | ok tree => exact absurd (openDepth_of_parse h) (Nat.ne_of_gt hopen)
    | error e => exact ⟨e, rfl⟩

theorem enter_submits_nested :
    let i := Interpreter.limited 1 5 5 fun _ => 0
    ((∃ tree, i.parse "f(a[i],\n\x7bk\x7d)" = .ok tree) ∧
      openDepth "f(a[i],\n\x7bk\x7d)" = 0 ∧ enter "f(a[i],\n\x7bk\x7d)" = .submit) ∧
    0 < openDepth ") jika (x[i" ∧ ∃ e, i.parse ") jika (x[i" = .error e := by
  -- brackets of all three kinds, one in the other and over two lines; and some left open
  have ht : tokenize "f(a[i],\n\x7bk\x7d)" = .ok
      [⟨.ident, "f", ⟨1, 1⟩⟩, ⟨.lparen, "(", ⟨1, 2⟩⟩, ⟨.ident, "a", ⟨1, 3⟩⟩,
        ⟨.lbracket, "[", ⟨1, 4⟩⟩, ⟨.ident, "i", ⟨1, 5⟩⟩, ⟨.rbracket, "]", ⟨1, 6⟩⟩,
        ⟨.comma, ",", ⟨1, 7⟩⟩, ⟨.lbrace, "\x7b", ⟨2, 1⟩⟩, ⟨.ident, "k", ⟨2, 2⟩⟩,
        ⟨.rbrace, "\x7d", ⟨2, 3⟩⟩, ⟨.rparen, ")", ⟨2, 4⟩⟩, .endMark ⟨2, 5⟩] := by cbv
  have hp := Interpreter.parse_eq_ok (i := .limited 1 5 5 fun _ => 0).mpr ⟨_, ht, rfl⟩
  have ht' : tokenize ") jika (x[i" = .ok
      [⟨.rparen, ")", ⟨1, 1⟩⟩, ⟨.ifWord, "jika", ⟨1, 3⟩⟩, ⟨.lparen, "(", ⟨1, 8⟩⟩,
        ⟨.ident, "x", ⟨1, 9⟩⟩, ⟨.lbracket, "[", ⟨1, 10⟩⟩, ⟨.ident, "i", ⟨1, 11⟩⟩,
        .endMark ⟨1, 12⟩] := by cbv
  have hopen : 0 < openDepth ") jika (x[i" := by
    rw [openDepth, (tokenize_eq_ok.mp ht').2]
    decide
  exact ⟨⟨⟨_, hp⟩, (enter_submits _ _).1 _ hp⟩, hopen, (enter_submits _ _).2 hopen⟩

end Editing

end Bahasa
