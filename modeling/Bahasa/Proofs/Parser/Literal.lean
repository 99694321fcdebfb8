import Bahasa.Proofs.Parser.Followed
import Bahasa.Proofs.Parser.Joined
import Bahasa.Proofs.Value.Literal

namespace Bahasa

inductive Entries (R : Node → Value → Prop) : List Node → List (String × Value) → Prop
  | nil : Entries R [] []
  | cons {n : Node} {v : Value} {ns : List Node} {slots : List (String × Value)} (key : String)
    (p q : Option Place) (h : R n v) (more : Entries R ns slots) :
    Entries R (.tree .property [.leaf .ident key q, n] p :: ns) ((key, v) :: slots)

/-- The tree of a literal for the value. -/
inductive Denotes : Node → Value → Prop
  | null (p : Option Place) : Denotes (.leaf .ident "null" p) .null
  | bool (b : Bool) (p : Option Place) :
    Denotes (.leaf .ident (if b then "true" else "false") p) (.bool b)
  | number (x : Float) (p : Option Place) : Denotes (.leaf .number (Decimal.write x) p) (.number x)
  | string (s : String) (p : Option Place) : Denotes (.leaf .string s p) (.string s)
  | object {ns : List Node} {slots : List (String × Value)} (p : Option Place)
    (h : Entries Denotes ns slots) : Denotes (.tree .object ns p) (.object slots)

namespace Parser

open Value (slotLexemes slotLexemes_ne_nil)

variable {e : Parser Node} {stop : Token}

def TakesValue (e : Parser Node) (v : Value) : Prop :=
  ∀ ts : List Token, ts.map Token.lexeme = v.lexemes → ∃ n, TakesWhole e ts n ∧ Denotes n v

theorem takesWhole_leaf (depth : Nat) {t : Token} {kind : LeafKind}
    (ht : t.kind.leaf? = some kind) :
    TakesWhole (expression (depth + 1)) [t] (.ofToken kind t) := by
  have hleaf : Takes (expression depth) .primary [t] (.ofToken kind t) := .literal ht
  exact hleaf.loosenTo (k := .assignment) (expressive_expression depth) (by decide)

theorem TakesValue.leaf (depth : Nat) {v : Value} {k : Kind} {kind : LeafKind} {text : String}
    (hl : v.lexemes = [⟨k, text.toList⟩]) (hk : k.leaf? = some kind)
    (hd : ∀ p, Denotes (.leaf kind text p) v) : TakesValue (expression (depth + 1)) v := by
  intro ts hts
  rw [hl] at hts
  obtain ⟨t, us, rfl, ht, hus⟩ := List.map_eq_cons_iff.mp hts
  obtain rfl := List.map_eq_nil_iff.mp hus
  obtain rfl : t.kind = k := congrArg Lexeme.kind ht
  obtain rfl : t.text = text := String.toList_inj.mp (congrArg Lexeme.body ht)
  exact ⟨.ofToken kind t, takesWhole_leaf depth hk, hd _⟩

section Objects

/-- An entry is read up to the next one or the closing brace, with the comma behind it. -/
theorem entry_takes {key : String} {v : Value} (hv : TakesValue e v) {ts : List Token}
    (hts : ts.map Token.lexeme = .name key :: .colon :: v.lexemes) :
    ∃ n p q, Denotes n v ∧ ∀ stop mid rest done, stop.kind = .endOfInput →
      (mid.headD stop).kind ∈ [Kind.rbrace, .comma] → Skips .comma stop mid rest →
      bracedStep .object (property e) done stop (ts ++ mid) =
        .ok (some (.tree .property [.leaf .ident key q, n] p :: done), rest) := by
  obtain ⟨k, us, rfl, hk, hus⟩ := List.map_eq_cons_iff.mp hts
  obtain ⟨c, vs, rfl, hc, hvs⟩ := List.map_eq_cons_iff.mp hus
  obtain ⟨n, hn, hd⟩ := hv vs hvs
  have hkind : k.kind = .ident := congrArg Lexeme.kind hk
  obtain rfl : k.text = key := String.toList_inj.mp (congrArg Lexeme.body hk)
  refine ⟨n, some k.position.place, some k.position.place, hd, ?_⟩
  intro stop mid rest done hs hm hskip
  have hends : Level.assignment.EndsAt (mid.headD stop) := by
    refine endsAt_of_kind _ ?_
    generalize (mid.headD stop).kind = kind at hm
    simp only [List.mem_cons, List.not_mem_nil, or_false] at hm
    obtain rfl | rfl := hm <;> decide
  have hread : property e stop (k :: c :: vs ++ mid) =
      .ok (.build .property [.ofToken .ident k, n] k, rest) :=
    (property_eq_ok hs).mpr ⟨k, c :: vs ++ mid, n, mid, rfl, hkind,
      .inl ⟨c, vs ++ mid, rfl, congrArg Lexeme.kind hc, hn stop mid hs hends⟩, hskip, rfl⟩
  exact bracedStep_eq_some.mpr ⟨by simp [hkind], by simp [hkind], _, hread, rfl⟩

theorem entries_loop {slots : List (String × Value)} (hv : ∀ slot ∈ slots, TakesValue e slot.2)
    {ts : List Token}
    (hts : ts.map Token.lexeme = [Lexeme.comma].intercalate (slotLexemes slots)) :
    ∃ ns, Entries Denotes ns slots ∧
      ∀ stop right rest done, stop.kind = .endOfInput → right.kind = .rbrace →
        Loop (bracedStep .object (property e)) stop done (ts ++ right :: rest)
          (ns.reverse ++ done) (right :: rest) := by
  induction slots generalizing ts with
  | nil =>
    rw [slotLexemes, List.intercalate_nil, List.map_eq_nil_iff] at hts
    subst hts
    exact ⟨[], .nil, fun stop right rest done _ hr => .done (bracedStep_eq_none.mpr ⟨rfl, hr⟩)⟩
  | cons slot slots ih =>
    obtain ⟨key, v⟩ := slot
    have hfirst := hv _ (List.mem_cons_self ..)
    rw [slotLexemes] at hts
    by_cases hne : slots = []
    · subst hne
      rw [slotLexemes, List.intercalate_singleton] at hts
      obtain ⟨n, p, q, hd, hturn⟩ := entry_takes hfirst hts
      refine ⟨_, .cons key p q hd .nil, fun stop right rest done hs hr => ?_⟩
      have hskip : Skips .comma stop (right :: rest) (right :: rest) := .inr ⟨by simp [hr], rfl⟩
      exact .turn (hturn stop _ _ done hs (by simp [hr]) hskip)
        (.done (bracedStep_eq_none.mpr ⟨rfl, hr⟩))
    · rw [List.intercalate_cons_of_ne_nil (slotLexemes_ne_nil hne), List.append_assoc] at hts
      obtain ⟨us, vs, rfl, hus, hvs⟩ := List.map_eq_append_iff.mp hts
      obtain ⟨comma, vs, rfl, hcomma, hvs⟩ := List.map_eq_cons_iff.mp hvs
      obtain ⟨n, p, q, hd, hturn⟩ := entry_takes hfirst hus
      obtain ⟨ns, hns, hloop⟩ := ih (fun s h => hv s (List.mem_cons_of_mem _ h)) hvs
      refine ⟨_, .cons key p q hd hns, fun stop right rest done hs hr => ?_⟩
      have hkind : comma.kind = .comma := congrArg Lexeme.kind hcomma
      have hskip : Skips .comma stop (comma :: vs ++ right :: rest) (vs ++ right :: rest) :=
        .inl ⟨comma, rfl, hkind⟩
      rw [List.append_assoc, List.reverse_cons, List.append_assoc]
      exact .turn (hturn stop _ _ done hs (by simp [hkind]) hskip) (hloop stop right rest _ hs hr)

theorem TakesValue.object {depth : Nat} {slots : List (String × Value)}
    (hv : ∀ slot ∈ slots, TakesValue (expression depth) slot.2) :
    TakesValue (expression (depth + 1)) (.object slots) := by
  intro ts hts
  rw [Value.lexemes, List.cons_append] at hts
  obtain ⟨left, us, rfl, hleft, hus⟩ := List.map_eq_cons_iff.mp hts
  obtain ⟨vs, rs, rfl, hvs, hrs⟩ := List.map_eq_append_iff.mp hus
  obtain ⟨right, rs, rfl, hright, hnil⟩ := List.map_eq_cons_iff.mp hrs
  obtain rfl := List.map_eq_nil_iff.mp hnil
  obtain ⟨ns, hns, hloop⟩ := entries_loop hv hvs
  have hobject : Takes (expression depth) .object (left :: vs ++ [right])
    (.build .object ns left) := by
    refine Takes.object left (congrArg Lexeme.kind hleft) fun stop rest hs => ?_
    have hread := hloop stop right rest [] hs (congrArg Lexeme.kind hright)
    rw [List.append_nil] at hread
    refine bracedItems_eq_ok.mpr ⟨right :: rest, (foldWhile_eq_ok ?_).mpr hread, rfl⟩
    exact (propertyStep_reads hs (expression_reads hs depth)).shortens
  refine ⟨.build .object ns left, ?_, .object _ hns⟩
  exact hobject.loosenTo (k := .assignment) (expressive_expression depth) (by decide)

end Objects

theorem takesValue {v : Value} (h : v.Literal) {depth : Nat} (hd : v.height ≤ depth) :
    TakesValue (expression depth) v := by
  -- a leaf takes one level of expressions, an object one more than its tallest slot
  induction h generalizing depth with
  | null =>
    obtain ⟨depth, rfl⟩ := Value.exists_eq_succ hd
    exact .leaf depth rfl rfl .null
  | bool b =>
    obtain ⟨depth, rfl⟩ := Value.exists_eq_succ hd
    exact .leaf depth rfl rfl (.bool b)
  | @number x hx =>
    obtain ⟨depth, rfl⟩ := Value.exists_eq_succ hd
    exact .leaf depth rfl rfl (.number x)
  | @string s hs =>
    obtain ⟨depth, rfl⟩ := Value.exists_eq_succ hd
    exact .leaf depth rfl rfl (.string s)
  | @object slots hk hn hv ih =>
    obtain ⟨depth, rfl⟩ := Value.exists_eq_succ hd
    rw [Value.height] at hd
    refine .object fun slot hs => ih slot hs ?_
    have hle := Value.height_le_slotsHeight hs
    omega

theorem TakesWhole.program {depth : Nat} {ts : List Token} {n : Node}
    (h : TakesWhole (expression depth) ts n) (hs : stop.kind = .endOfInput) :
    parseTokens (depth + 1) (ts ++ [stop]) = .ok (.build .program [n] (ts.headD stop)) := by
  have hread := h stop [] hs (endsAt_of_kind _ (by simp [hs]))
  rw [List.append_nil] at hread
  obtain ⟨used, hu, hd⟩ := expression_reads hs depth ts n [] hread
  rw [List.append_nil] at hu
  subst hu
  obtain ⟨t, us, rfl, ht⟩ := hd.level_head
  have hopen : t.kind.opensStatement = false := by
    generalize t.kind = k at ht
    cases k <;> simp [Kind.opensOperand, Kind.opensStatement] at ht ⊢
  have hstatement : statement (depth + 1) stop (t :: us) = .ok (n, []) :=
    (statementWith_eq_ok hs).mpr (.inr (.inr (.inr (.inr ⟨hopen, [], hread,
      .inr ⟨by simp [hs], rfl⟩⟩))))
  refine (parseTokens_loop hs hd.kind_ne_endOfInput).mpr ⟨[n], ?_, rfl⟩
  refine .turn (programStep_eq_some.mpr ⟨?_, n, hstatement, rfl⟩)
    (.done (programStep_eq_none.mpr ⟨rfl, hs⟩))
  exact hd.kind_ne_endOfInput t (List.mem_cons_self ..)

end Parser

end Bahasa
