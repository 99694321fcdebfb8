import Bahasa.Proofs.Grammar

namespace Bahasa

namespace Kind

def opensOperand : Kind → Bool
  | ident | number | string | lparen => true
  | _ => false

def opensStatement : Kind → Bool
  | letWord | constWord | fnWord | ifWord | forWord => true
  | _ => false

def closesOperand : Kind → Bool
  | ident | number | string | rparen | rbracket => true
  | _ => false

theorem opensOperand_of_leaf? {k : Kind} {kind : LeafKind} (h : k.leaf? = some kind) :
    k.opensOperand = true := by
  cases k <;> cases h <;> rfl

theorem closesOperand_of_leaf? {k : Kind} {kind : LeafKind} (h : k.leaf? = some kind) :
    k.closesOperand = true := by
  cases k <;> cases h <;> rfl

end Kind

/-- The last of the tokens closes a statement. -/
def Finished (ts : List Token) : Prop :=
  ∃ t ∈ ts.getLast?, t.kind = .semicolon ∨ t.kind = .rbrace

namespace Finished

theorem concat (ts : List Token) {t : Token} (ht : t.kind = .semicolon ∨ t.kind = .rbrace) :
    Finished (ts ++ [t]) :=
  ⟨t, by simp, ht⟩

theorem append (ts : List Token) {us : List Token} (h : Finished us) : Finished (ts ++ us) := by
  obtain ⟨t, ht, hk⟩ := h
  refine ⟨t, ?_, hk⟩
  rw [List.getLast?_append, Option.mem_def.mp ht]
  rfl

end Finished

namespace Derives

/-- Only an object literal starts with a brace. -/
theorem level_head {l : Level} {n : Node} {ts : List Token} (h : Derives (.level l n) ts) :
    ∃ t us, ts = t :: us ∧ (t.kind.opensOperand = true ∨ t.kind = .lbrace ∧ l.rank ≤ 1) := by
  generalize hφ : Phrase.level l n = φ at h
  induction h generalizing l n with
  | literal ht =>
    cases hφ
    exact ⟨_, [], rfl, .inl (Kind.opensOperand_of_leaf? ht)⟩
  | group hl _ _ _ =>
    cases hφ
    exact ⟨_, _, rfl, .inl (by rw [hl]; rfl)⟩
  | member _ _ _ ih | index _ _ _ _ ih _ | call _ _ _ _ ih _ | join _ _ _ _ ih _
  | arithmetic _ _ _ _ _ ih _ =>
    cases hφ
    obtain ⟨t, us, rfl, ht⟩ := ih rfl
    exact ⟨t, _, rfl, ht⟩
  | object hl _ _ _ =>
    cases hφ
    exact ⟨_, _, rfl, .inr ⟨hl, Nat.le_refl 1⟩⟩
  | assign _ _ _ ih _ =>
    cases hφ
    obtain ⟨t, us, rfl, ht⟩ := ih rfl
    exact ⟨t, _, rfl, ht.imp_right fun h => ⟨h.1, Nat.zero_le 1⟩⟩
  | tighter ht _ ih =>
    cases hφ
    obtain ⟨t, us, rfl, hk⟩ := ih rfl
    have hr := Level.rank_tighter ht
    exact ⟨t, us, rfl, hk.imp_right fun h => ⟨h.1, by omega⟩⟩
  | _ => cases hφ

theorem statement_head {n : Node} {ts : List Token} (h : Derives (.statement n) ts) :
    ∃ t us, ts = t :: us ∧
      (t.kind.opensStatement = true ∨ t.kind.opensOperand = true ∨ t.kind = .lbrace) := by
  cases h with
  | expression hn _ =>
    obtain ⟨t, us, rfl, ht⟩ := hn.level_head
    exact ⟨t, _, rfl, .inr (ht.imp_right And.left)⟩
  | «variable» hk | constant hk | function hk | ifElse hk | ifElifs hk | forLoop hk =>
    exact ⟨_, _, rfl, .inl (by rw [hk]; rfl)⟩

theorem statements_head {ns : List Node} {ts : List Token} (h : Derives (.statements ns) ts) :
    ts = [] ∨ ∃ t us, ts = t :: us ∧
      (t.kind.opensStatement = true ∨ t.kind.opensOperand = true ∨ t.kind = .lbrace) := by
  generalize hφ : Phrase.statements ns = φ at h
  induction h generalizing ns with
  | statementsNone => exact .inl rfl
  | statementsMore _ hn ih _ =>
    obtain rfl | ⟨t, us, rfl, ht⟩ := ih rfl
    · exact .inr hn.statement_head
    · exact .inr ⟨t, _, rfl, ht⟩
  | _ => cases hφ

theorem level_last {l : Level} {n : Node} {ts : List Token} (h : Derives (.level l n) ts)
    (hl : Level.call.rank ≤ l.rank) : ∃ us t, ts = us ++ [t] ∧ t.kind.closesOperand = true := by
  generalize hφ : Phrase.level l n = φ at h
  induction h generalizing l n with
  | literal ht =>
    cases hφ
    exact ⟨[], _, rfl, Kind.closesOperand_of_leaf? ht⟩
  | group _ _ hr _ =>
    cases hφ
    exact ⟨_, _, rfl, by rw [hr]; rfl⟩
  | @member _ dot name ts _ _ _ _ hi _ =>
    cases hφ
    exact ⟨ts ++ [dot], name, by simp, by rw [hi]; rfl⟩
  | index _ _ _ hr | call _ _ _ hr =>
    cases hφ
    exact ⟨_, _, rfl, by rw [hr]; rfl⟩
  | @join level _ _ op _ _ _ _ _ _ ho =>
    cases hφ
    cases level <;> simp [Level.label?] at ho <;> simp [Level.rank] at hl
  | @arithmetic level _ _ _ _ _ _ _ _ _ _ hs =>
    cases hφ
    cases level <;> simp [Level.signs] at hs <;> simp [Level.rank] at hl
  | object =>
    cases hφ
    simp [Level.rank] at hl
  | assign =>
    cases hφ
    simp [Level.rank] at hl
  | tighter ht _ ih =>
    cases hφ
    have hr := Level.rank_tighter ht
    exact ih (by omega) rfl
  | _ => cases hφ

theorem statement_finished {n : Node} {ts : List Token} (h : Derives (.statement n) ts)
    (hk : ∃ t ∈ ts.head?, t.kind.opensStatement = true) : Finished ts := by
  have hblock {body : Node} {us : List Token} (hb : Derives (.block body) us) : Finished us := by
    cases hb with
    | block _ _ hr => exact .concat _ (.inr hr)
  have hfinal {final : Node} {us : List Token} (hf : Derives (.final final) us) :
      us = [] ∨ Finished us := by
    cases hf with
    | finalNone => exact .inl rfl
    | @finalSome keyword _ _ _ _ hb => exact .inr ((hblock hb).append [keyword])
  cases h with
  | «variable» _ _ _ hs | constant _ _ _ _ hs => exact .concat _ (.inl hs)
  | @function _ _ _ right _ _ _ _ _ _ _ _ _ _ _ _ hb
  | @forLoop _ _ _ right _ _ _ _ _ _ _ _ _ _ _ _ _ _ _ _ hb =>
    exact ((hblock hb).append [right]).append _
  | ifElse _ _ hb hf | ifElifs _ _ _ _ _ _ hb hf =>
    obtain rfl | hlast := hfinal hf
    · rw [List.append_nil]
      exact (hblock hb).append _
    · exact hlast.append _
  | expression hn _ =>
    obtain ⟨t, us, rfl, ht⟩ := hn.level_head
    obtain ⟨u, hu, hk⟩ := hk
    obtain rfl := Option.some.inj hu
    generalize t.kind = k at ht hk
    cases k <;> simp [Kind.opensOperand, Kind.opensStatement] at ht hk

theorem kind_ne_endOfInput {φ : Phrase} {ts : List Token} (h : Derives φ ts) :
    ∀ t ∈ ts, t.kind ≠ .endOfInput := by
  induction h with
  | @literal t _ _ ht =>
    intro u hu he
    obtain rfl := List.mem_singleton.mp hu
    rw [he] at ht
    cases ht
  | @join level _ _ op _ _ _ _ _ _ ho _ _ ihl ihr =>
    have hop : op.kind ≠ .endOfInput := by
      intro he
      rw [he] at ho
      cases level <;> cases ho
    simpa [or_imp, forall_and] using ⟨ihl, hop, ihr⟩
  | @assign _ op _ _ _ _ _ _ ho _ iht ihv =>
    have hop : op.kind ≠ .endOfInput := by
      intro he
      rw [he] at ho
      cases ho
    simpa [or_imp, forall_and] using ⟨iht, hop, ihv⟩
  | expression _ hs ih =>
    obtain rfl | ⟨t, rfl, ht⟩ := hs <;> simp_all [or_imp]
  | propertiesMore _ _ _ hc ihs ihv =>
    obtain rfl | ⟨t, rfl, ht⟩ := hc <;> simp_all [or_imp]
  | _ => simp_all [or_imp]

end Derives

end Bahasa
