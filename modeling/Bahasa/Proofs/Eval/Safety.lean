import Bahasa.Proofs.Eval.Invariant
import Bahasa.Proofs.Eval.Paired

namespace Bahasa

namespace Eval

theorem ofSign?_isSome {sign : String} (h : sign ∈ arithmeticSigns) :
    ∃ op, Arith.ofSign? sign = some op := by
  simp only [arithmeticSigns, List.mem_cons, List.not_mem_nil, or_false] at h
  obtain rfl | rfl | rfl | rfl | rfl := h <;> exact ⟨_, rfl⟩

end Eval

namespace Node

/-- The nodes that stand in programs: those with a role, and the lists and leaves between them. -/
inductive Occurs : Node → Prop
  | fits {form : Form} {n : Node} (hf : form ≠ .program) (h : n.Fits Readable form) : Occurs n
  | args {ns : List Node} (p : Option Place) (h : ∀ n ∈ ns, n.Fits Readable .expression) :
      Occurs (.tree .args ns p)
  | params {ns : List Node} (p : Option Place) (h : ∀ n ∈ ns, n.Fits Readable .parameter) :
      Occurs (.tree .params ns p)
  | elifs {ns : List Node} {last : Node} (p : Option Place)
      (h : ∀ n ∈ ns, n.Fits Readable .clause) (hl : last.Fits Readable .lastClause) :
      Occurs (.tree .elifs (ns ++ [last]) p)
  | leaf {kind : LeafKind} (text : String) (p : Option Place) (h : kind ≠ .number) :
      Occurs (.leaf kind text p)

namespace Fits

variable {n : Node} {form : Form}

theorem occurs (h : n.Fits Readable form) (hf : form ≠ .program := by decide) : n.Occurs :=
  .fits hf h

theorem expression_evaluable (h : n.Fits Readable .expression) : n.evaluable := by
  cases h with
  | @join label l r p hl _ _ =>
    simp only [Label.joiners, List.mem_cons, List.not_mem_nil, or_false] at hl
    obtain rfl | rfl | rfl | rfl | rfl | rfl | rfl | rfl := hl <;> rfl
  | @assign label l r p hl _ _ =>
    simp only [Label.assignments, List.mem_cons, List.not_mem_nil, or_false] at hl
    obtain rfl | rfl | rfl := hl <;> rfl
  | _ => rfl

theorem statement_evaluable (h : n.Fits Readable .statement) : n.evaluable := by
  cases h with
  | expression h => exact h.expression_evaluable
  | declaration h => cases h <;> rfl
  | _ => rfl

theorem optional (h : n.Fits Readable .value) : n.isAbsent || n.evaluable := by
  cases h with
  | noValue => rfl
  | value h => simp [h.expression_evaluable]

theorem has_body (h : n.Fits Readable .block) : n.has .body := by
  cases h
  rfl

theorem absent_or_else (h : n.Fits Readable .final) : n.isAbsent || n.has .elseClause := by
  cases h <;> rfl

theorem start_evaluable (h : n.Fits Readable .start) : n.evaluable := by
  cases h with
  | startDeclaration h => exact (Fits.declaration h).statement_evaluable
  | startExpression h => exact h.expression_evaluable

end Fits

namespace Occurs

variable {n c : Node}

theorem statement (h : n.Occurs) (he : n.evaluable) : n.Fits Readable .statement := by
  cases h with
  | @fits form _ hf h =>
    cases form with
    | expression => exact .expression h
    | statement => exact h
    | declaration => exact .declaration h
    | program => exact absurd rfl hf
    | value =>
      cases h with
      | noValue => cases he
      | value h => exact .expression h
    | start =>
      cases h with
      | startDeclaration h => exact .declaration h
      | startExpression h => exact .expression h
    | parameter =>
      cases h with
      | parameter name p => exact .expression (.ident name p)
    | _ => cases h <;> cases he
  | @leaf kind text p hk =>
    cases kind with
    | ident => exact .expression (.ident text p)
    | string => exact .expression (.string text p)
    | number => exact absurd rfl hk
    | _ => cases he
  | _ => cases he

theorem of_fits {form : Form} (h : n.Fits Readable form) : ∀ c ∈ n.children, c.Occurs := by
  have hident : ∀ name p, (Node.leaf .ident name p).Occurs := fun name p => .leaf name p (by simp)
  have habsent : Node.absent.Occurs := Fits.noFinal.occurs
  induction h with
  | ident | number | string | parameter | noValue | noFinal => exact List.forall_mem_nil _
  | value _ ih | declaration _ ih | expression _ ih | startDeclaration _ ih
  | startExpression _ ih => exact ih
  | join p _ hl hr _ _ | assign p _ hl hr _ _ | index p hl hr _ _ =>
    simpa [children] using ⟨hl.occurs, hr.occurs⟩
  | binop p q _ hl hr _ _ =>
    simpa [children] using ⟨hl.occurs, .leaf _ q (by simp), hr.occurs⟩
  | call p q hc ha _ _ => simpa [children] using ⟨hc.occurs, .args q ha⟩
  | member name p q hr _ => simpa [children] using ⟨hr.occurs, hident name q⟩
  | object p he _ => exact fun c hc => (he c hc).occurs
  | property key p q hv _ => simpa [children] using ⟨hident key q, hv.occurs⟩
  | «variable» name keyword p q r hv _ =>
    simpa [children] using ⟨hident name q, .leaf keyword r (by simp), hv.occurs⟩
  | constant name keyword p q r hv _ =>
    simpa [children] using ⟨hident name q, .leaf keyword r (by simp), hv.occurs⟩
  | function name p q r hp hb _ _ =>
    simpa [children] using ⟨hident name q, .params r hp, hb.occurs⟩
  | block p hs _ | program p hs _ => exact fun c hc => (hs c hc).occurs
  | ifElse p hc hb hf _ _ _ =>
    simpa [children] using
      ⟨hc.occurs, hb.occurs, habsent, hf.occurs⟩
  | ifElifs p q hc hb hs hl _ _ _ _ =>
    simpa [children] using ⟨hc.occurs, hb.occurs, .elifs q hs hl, habsent⟩
  | clause p hc hb _ _ =>
    simpa [children] using ⟨hc.occurs, hb.occurs, habsent⟩
  | lastClause p hc hb hf _ _ _ =>
    simpa [children] using ⟨hc.occurs, hb.occurs, hf.occurs⟩
  | final p hb _ => simpa [children] using hb.occurs
  | forLoop p hs hc hi hb _ _ _ _ =>
    simpa [children] using ⟨hs.occurs, hc.occurs, hi.occurs, hb.occurs⟩

theorem child (h : n.Occurs) (hc : c ∈ n.children) : c.Occurs := by
  cases h with
  | fits _ h => exact of_fits h c hc
  | args p h => exact (h c hc).occurs
  | params p h => exact (h c hc).occurs
  | elifs p h hl =>
    obtain hc | hc := List.mem_append.mp hc
    · exact (h c hc).occurs
    · obtain rfl := List.mem_singleton.mp hc
      exact hl.occurs
  | leaf => cases hc

theorem regular_of_fits {form : Form} (h : n.Fits Readable form) : n.regular := by
  induction h with
  | number p h => exact h
  | ident | string | parameter | noValue | noFinal => rfl
  | value _ ih | declaration _ ih | expression _ ih | startDeclaration _ ih
  | startExpression _ ih => exact ih
  | join p h hl hr _ _ =>
    simp only [Label.joiners, List.mem_cons, List.not_mem_nil, or_false] at h
    obtain rfl | rfl | rfl | rfl | rfl | rfl | rfl | rfl := h <;>
      simp [regular, suits, flanked, hl.expression_evaluable, hr.expression_evaluable]
  | assign p h hl hr _ _ =>
    simp only [Label.assignments, List.mem_cons, List.not_mem_nil, or_false] at h
    obtain rfl | rfl | rfl := h <;>
      simp [regular, suits, hl.expression_evaluable, hr.expression_evaluable]
  | binop p q h hl hr _ _ =>
    obtain ⟨op, hop⟩ := Eval.ofSign?_isSome h
    simp [regular, suits, flanked, sign?, hop, hl.expression_evaluable, hr.expression_evaluable]
  | call p q hc ha _ _ => simp [regular, suits, hc.expression_evaluable]
  | member name p q hr _ => simp [regular, suits, ident?, hr.expression_evaluable]
  | index p hl hr _ _ =>
    simp [regular, suits, hl.expression_evaluable, hr.expression_evaluable]
  | object p he _ =>
    refine List.all_eq_true.mpr fun e hm => ?_
    cases he e hm
    rfl
  | property key p q hv _ => simpa [regular, suits, ident?] using hv.optional
  | «variable» name keyword p q r hv _ => simpa [regular, suits, ident?] using hv.optional
  | constant name keyword p q r hv _ => simp [regular, suits, ident?, hv.expression_evaluable]
  | function name p q r hp hb _ _ => simp [regular, suits, ident?, hb.has_body]
  | block p hs _ | program p hs _ =>
    exact List.all_eq_true.mpr fun c hc => (hs c hc).statement_evaluable
  | ifElse p hc hb hf _ _ _ =>
    simpa [regular, suits, isAbsent, hc.expression_evaluable, hb.has_body] using hf.absent_or_else
  | ifElifs p q hc hb hs hl _ _ _ _ =>
    simp [regular, suits, isAbsent, hc.expression_evaluable, hb.has_body]
  | clause p hc hb _ _ =>
    simp [regular, suits, isAbsent, hc.expression_evaluable, hb.has_body]
  | lastClause p hc hb hf _ _ _ =>
    simpa [regular, suits, hc.expression_evaluable, hb.has_body] using hf.absent_or_else
  | final p hb _ => exact hb.has_body
  | forLoop p hs hc hi hb _ _ _ _ =>
    simp [regular, suits, hs.start_evaluable, hc.expression_evaluable, hi.expression_evaluable,
      hb.has_body]

theorem regular (h : n.Occurs) : n.regular := by
  cases h with
  | fits _ h => exact regular_of_fits h
  | args p h => exact List.all_eq_true.mpr fun c hc => (h c hc).expression_evaluable
  | params p h =>
    refine List.all_eq_true.mpr fun c hc => ?_
    cases h c hc
    rfl
  | elifs p h hl =>
    refine List.all_eq_true.mpr fun c hc => ?_
    obtain hc | hc := List.mem_append.mp hc
    · cases h c hc
      rfl
    · obtain rfl := List.mem_singleton.mp hc
      cases hl
      rfl
  | @leaf kind text p h =>
    cases kind with
    | number => exact absurd rfl h
    | _ => rfl

theorem within {x : Node} (h : n.Occurs) (hx : x.Within n) : x.Occurs := by
  induction hx with
  | child hx => exact h.child hx
  | deeper _ hc ih => exact ih (h.child hc)

end Occurs

end Node

theorem Value.inherits_sound : Inherits (Node.Fits Readable .statement) Sound where
  null := .null
  number := .number
  string := .string
  bool := .bool
  object := by
    refine ⟨fun h => ?_, .object⟩
    cases h with
    | object h => exact h
  function := by
    refine ⟨fun h => ?_, .function _ _ _⟩
    cases h with
    | function _ _ _ h => exact h

def Pairing.sound : Pairing where
  place := id
  homes _ frame frame' := frame = frame'
  parts := Node.Fits Readable .statement
  fit := Value.Sound
  strays := False
  grow _ h := h
  inherits := Value.inherits_sound

namespace Eval

open Run (Safe)

/-- The evaluator is safe on statements, and with them on expressions. -/
def SafeOn (eval : Evaluator) : Prop :=
  ∀ n frame, n.Fits Readable .statement → Safe Value.Sound (eval n frame)

def SoundReply : Reply → Prop
  | .value v => v.Sound
  | .nothing => True
  | .foreign _ => False

theorem toValue_safe {r : Reply} (hr : SoundReply r) : Safe Value.Sound r.toValue := by
  cases r with
  | value v => exact .pure hr
  | nothing => exact .pure .null
  | foreign _ => exact hr.elim

theorem standard_safe (clock : Nat → Int) {name : String} (hn : name ∈ Native.names)
    (args : List Value) (frame : FrameId) :
    Safe SoundReply (Native.standard clock name args frame) := by
  simp only [Native.names, List.mem_cons, List.not_mem_nil, or_false] at hn
  obtain rfl | rfl | rfl | rfl := hn
  · exact (Safe.emit _).bind fun _ _ => .pure .null
  · exact Safe.tick.bind fun _ _ => .pure (.number _)
  · refine .pure (Q := SoundReply) ?_
    change (Native.len args).Sound
    unfold Native.len
    split
    · exact .number _
    · exact .number _
    · exact .null
  · refine .pure (Q := SoundReply) ?_
    change (Native.str args).Sound
    unfold Native.str
    split
    · exact .string _
    · exact .string _

def SafeHost (host : Host) : Prop :=
  ∀ name args frame, name ∈ Native.names → Safe SoundReply (host name args frame)

end Eval

open Run (Safe)

theorem Pairing.values_sound {size : Nat} {v : Value} (h : v.Sound) :
    Pairing.sound.Values size v v := by
  refine ⟨h, ?_⟩
  rw [show v.relocate sound.place = v from v.relocate_id]
  exact v.like_self fun _ _ => rfl

theorem Pairing.Fails.ordinary {size : Nat} {f f' : Failure}
    (h : Pairing.sound.Fails size f f') : f.Ordinary := by
  cases h with
  | unfinished | target _ _ | notCallable _ => trivial
  | stuck h | malformed h _ => exact h.elim

theorem Paired.safe {host : Host} {R : Rights} {eval : Evaluator} {size : Nat}
    {frame frame' : FrameId} {α : Type} {Q : Pairing.sound.Yield α} {r r' : Evaluator → Run α}
    (hhost : Eval.SafeHost host) (he : Eval.SafeOn eval)
    (h : Paired host .sound R size frame frame' Q r r')
    (hR : ∀ n, R.asks n → n.Fits Readable .statement) :
    Safe (fun a => ∃ a', Q.holds size a a') (r eval) := by
  have hv : ∀ {size} v, v.Sound → ∃ v', Pairing.sound.value.holds size v v' :=
    fun v h => ⟨v, Pairing.values_sound h⟩
  induction h with
  | pure h => exact .pure ⟨_, h⟩
  | fail h => exact .throw h.ordinary
  | @bind _ size _ _ _ _ _ _ _ _ _ _ _ _ ihr ihk =>
    exact (ihr hR).bind fun a ⟨a', h⟩ => ihk size a a' (Nat.le_refl size) h hR
  | ask h => exact (he _ _ (hR _ h)).imp hv
  | lookup name => exact (Safe.lookup _ name).imp hv
  | assign name h => exact (Safe.assign _ name h.fit).imp hv
  | declare name constant h _ => exact (Safe.declare _ name constant h.fit).imp hv
  | dropped _ _ => exact (Safe.record _).imp fun _ _ => ⟨_, rfl⟩
  | @native _ _ frame _ name args _ hn _ _ =>
    cases hn with
    | native hn =>
      exact ((hhost name args frame hn).bind fun _ hr => Eval.toValue_safe hr).imp hv
  | @call _ size _ _ _ _ name _ _ home _ _ _ _ _ _ _ ihk =>
    refine (Safe.record _).bind fun _ _ => (Safe.pushFrame home).bind fun scope _ => ?_
    exact ihk size scope scope (Nat.le_refl size) rfl fun _ h => h

namespace Eval

variable {m : Machine} {eval : Evaluator}

theorem step_safe (hh : SafeHost m.host) (he : SafeOn eval) {n : Node} (frame : FrameId)
    (hn : n.regular) (hr : n.evaluable) (hc : ∀ c ∈ n.children, c.Occurs) :
    Safe Value.Sound (step m eval n frame) := by
  have hwithin : ∀ x : Node, x.Within n → x.Occurs := by
    intro x hx
    induction hx with
    | child hx => exact hc _ hx
    | deeper hx hcn _ => exact (hc _ hcn).within hx
  have hgiven : Given .sound Pairing.sound.full n :=
    ⟨.inr hn, fun x hx => .inr (hwithin x hx).regular,
      fun x hx h => (hwithin x hx).statement (h.resolve_left id)⟩
  have hstep : Paired m.host .sound Pairing.sound.full 0 frame frame Pairing.sound.value
      (fun eval => step m eval n frame) fun eval => step m eval (n.relocate id) frame :=
    step_paired m hgiven (.inr hr) (fun _ h => h) (fun _ => trivial) (fun _ => trivial) rfl
  exact (hstep.safe hh he fun _ h => h).imp fun _ ⟨_, h⟩ => h.fit

theorem node_safe (hh : SafeHost m.host) (depth : Nat) : SafeOn (node m depth) := by
  induction depth with
  | zero => exact fun n frame hn => .throw trivial
  | succ depth ih =>
    intro n frame hn
    have hstep := step_safe hh ih frame (Node.Occurs.regular_of_fits hn) hn.statement_evaluable
      (Node.Occurs.of_fits hn)
    exact hstep.located n.place?

theorem program_safe (hh : SafeHost m.host) (depth : Nat) (frame : FrameId) {n : Node}
    (hn : n.Fits Readable .program) : Safe Value.Sound (node m depth n frame) := by
  cases depth with
  | zero => exact .throw trivial
  | succ depth =>
    have hstep := step_safe hh (node_safe hh depth) frame (Node.Occurs.regular_of_fits hn)
      (by cases hn; rfl) (Node.Occurs.of_fits hn)
    exact hstep.located n.place?

end Eval

end Bahasa
