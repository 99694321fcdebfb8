import Bahasa.Proofs.Eval.Routine
import Bahasa.Proofs.Eval.Sequel
import Bahasa.Proofs.Session.Growth

namespace Bahasa

def Record.isCall : Record → Bool
  | call _ _ => true
  | _ => false

/-- The world `w'` comes after `w`. The frames of `w` that `P` means have the names they had, and
one frame was made for each call since. -/
structure World.Keeps (P : FrameId → Prop) (w w' : World) : Prop where
  names : ∀ id < w.store.frames.size, P id → w'.store.names id = w.store.names id
  frames : ∃ records, w'.log = records ++ w.log ∧
    w'.store.frames.size = w.store.frames.size + records.countP Record.isCall

namespace Store

variable (s : Store)

theorem names_push {id : FrameId} (h : id < s.frames.size) (parent : Option FrameId) :
    (s.push parent).2.names id = s.names id := by
  simp only [names, frame?_push, if_neg (Nat.ne_of_lt h)]

theorem names_modify_of_ne {id j : FrameId} (h : id ≠ j) (g : Frame → Frame) :
    (s.modify id g).names j = s.names j := by
  simp only [names, frame?_modify, if_neg h]

theorem names_update (id j : FrameId) (name : String) (v : Value) :
    (s.modify id (·.update name v)).names j = s.names j := by
  simp only [names, frame?_modify]
  split
  · cases s.frame? j with
    | none => rfl
    | some f => exact Binding.map_name_set name v f.bindings
  · rfl

theorem names_declare {id : FrameId} (h : id < s.frames.size) (b : Binding) :
    (s.modify id (·.declare b)).names id = s.names id ++ [b.name] := by
  have hf : s.frame? id = some s.frames[id] := Array.getElem?_eq_getElem h
  simp only [names, frame?_modify, hf, if_true, Option.map_some, Option.getD_some, Frame.names,
    Frame.declare, List.map_append, List.map_cons, List.map_nil]

theorem size_modify (id : FrameId) (g : Frame → Frame) :
    (s.modify id g).frames.size = s.frames.size :=
  Array.size_modify

end Store

namespace World.Keeps

variable {P : FrameId → Prop} {w w' w'' : World}

theorem refl (w : World) : w.Keeps P w :=
  ⟨fun _ _ _ => rfl, [], rfl, rfl⟩

theorem trans (h : w.Keeps P w') (h' : w'.Keeps P w'') : w.Keeps P w'' := by
  obtain ⟨records, hlog, hsize⟩ := h.frames
  obtain ⟨records', hlog', hsize'⟩ := h'.frames
  refine ⟨fun id hid hP => ?_, records' ++ records, ?_, ?_⟩
  · have hid' : id < w'.store.frames.size := by omega
    rw [h'.names id hid' hP, h.names id hid hP]
  · rw [hlog', hlog, List.append_assoc]
  · rw [hsize', hsize, List.countP_append]
    omega

theorem of_pushed {name : String} {args : Nat} {parent : Option FrameId}
    (h : Keeps (· ≠ w.store.frames.size)
      ⟨(w.store.push parent).2, w.out, .call name args :: w.log, w.ticks⟩ w') : w.Keeps P w' := by
  obtain ⟨records, hlog, hsize⟩ := h.frames
  have hpushed : (w.store.push parent).2.frames.size = w.store.frames.size + 1 := Array.size_push _
  refine ⟨fun id hid _ => ?_, records ++ [.call name args], ?_, ?_⟩
  · rw [h.names id (by dsimp only; omega) (Nat.ne_of_lt hid)]
    exact Store.names_push _ hid _
  · rw [hlog, List.append_assoc, List.singleton_append]
  · rw [hsize, hpushed, List.countP_append, List.countP_singleton, Record.isCall]
    simp only [if_true]
    omega

end World.Keeps

namespace Run

variable {α β : Type} {P : FrameId → Prop}

def Keeps (P : FrameId → Prop) (r : Run α) : Prop :=
  ∀ w : World, w.Keeps P (stateAfter (r w))

theorem Keeps.bind {r : Run α} {k : α → Run β} (hr : r.Keeps P) (hk : ∀ a, (k a).Keeps P) :
    (r >>= k).Keeps P := by
  intro w
  have h := hr w
  cases he : r w with
  | ok a w' =>
    rw [he] at h
    rw [bind_ok he]
    exact h.trans (hk a w')
  | error f w' =>
    rw [he] at h
    rw [bind_error he]
    exact h

theorem Keeps.located {r : Run α} (hr : r.Keeps P) (place? : Option Place) :
    (Run.located place? r).Keeps P := by
  intro w
  have h := hr w
  cases he : r w with
  | ok a w' =>
    rw [he] at h
    rw [located_ok he]
    exact h
  | error f w' =>
    rw [he] at h
    rw [located_error he]
    exact h

theorem Keeps.of_log {r : Run α} (hs : ∀ w, (stateAfter (r w)).store = w.store)
    (hl : ∀ w, ∃ records, (stateAfter (r w)).log = records ++ w.log ∧
      records.countP Record.isCall = 0) : r.Keeps P := by
  intro w
  obtain ⟨records, hlog, hcount⟩ := hl w
  exact ⟨fun _ _ _ => by rw [hs], records, hlog, by rw [hs, hcount, Nat.add_zero]⟩

theorem Keeps.access {op : Access α}
    (h : ∀ s, (stateAfter (op s)).frames.size = s.frames.size ∧
      ∀ id, P id → (stateAfter (op s)).names id = s.names id) : (Run.access op).Keeps P := by
  intro w
  obtain ⟨hsize, hnames⟩ := h w.store
  cases he : op w.store with
  | ok a t =>
    rw [he] at hsize hnames
    simp only [Run.access, he]
    exact ⟨fun id _ hid => hnames id hid, [], rfl, hsize⟩
  | error cause t =>
    rw [he] at hsize hnames
    simp only [Run.access, he]
    exact ⟨fun id _ hid => hnames id hid, [], rfl, hsize⟩

theorem Keeps.lookup (frame : FrameId) (name : String) :
    (Run.access (Access.lookup frame name)).Keeps P := by
  refine Keeps.access fun s => ?_
  unfold Access.lookup
  split
  · exact ⟨rfl, fun _ _ => rfl⟩
  · exact ⟨rfl, fun _ _ => rfl⟩

theorem Keeps.assign (frame : FrameId) (name : String) (v : Value) :
    (Run.access (Access.assign frame name v)).Keeps P := by
  refine Keeps.access fun s => ?_
  unfold Access.assign
  split
  · exact ⟨rfl, fun _ _ => rfl⟩
  · split
    · exact ⟨rfl, fun _ _ => rfl⟩
    · exact ⟨s.size_modify _ _, fun id _ => s.names_update _ id name v⟩

theorem Keeps.declare {frame : FrameId} (h : ¬ P frame) (name : String) (v : Value)
    (constant : Bool) : (Run.access (Access.declare frame name v constant)).Keeps P := by
  refine Keeps.access fun s => ?_
  unfold Access.declare
  split
  · exact ⟨rfl, fun _ _ => rfl⟩
  · refine ⟨s.size_modify _ _, fun id hid => s.names_modify_of_ne ?_ _⟩
    rintro rfl
    exact h hid

end Run

theorem Routine.keeps {host : Host} {R : Rights} {frame : FrameId} {α : Type}
    {r : Evaluator → Run α} (h : Routine host R frame r)
    (hhost : ∀ name args f (P : FrameId → Prop), (host name args f).Keeps P) {eval : Evaluator}
    (heval : ∀ n f, (eval n f).Keeps (· ≠ f)) {P : FrameId → Prop} (hd : R.declares → ¬ P frame)
    (ha : ∀ n, R.asks n → (eval n frame).Keeps P) : (r eval).Keeps P := by
  induction h generalizing P with
  | pure a => exact fun w => .refl w
  | fail _ => exact fun w => .refl w
  | bind _ _ ihr ihk => exact (ihr hd ha).bind fun a => ihk a hd ha
  | ask h => exact ha _ h
  | lookup name => exact .lookup _ name
  | assign name v => exact .assign _ name v
  | declare name v constant h => exact .declare (hd h) name v constant
  | dropped name extra => exact .of_log (fun _ => rfl) fun _ => ⟨[.dropped name extra], rfl, rfl⟩
  | native name args => exact hhost name args _ P
  | call name args home _ _ ih =>
    intro w
    -- all that the call may declare in is the frame that it makes, which none of `P` is
    refine .of_pushed (ih w.store.frames.size (P := (· ≠ w.store.frames.size)) ?_ ?_ _)
    · exact fun _ hne => hne rfl
    · exact fun n _ => heval n _

/-- A routine that does not call has everything evaluated in its own frame. -/
theorem Routine.congr {host : Host} {R : Rights} {frame : FrameId} {α : Type}
    {r : Evaluator → Run α} (h : Routine host R frame r) (hc : ¬ R.calls) {eval eval' : Evaluator}
    (ha : ∀ n, R.asks n → eval n frame = eval' n frame) : r eval = r eval' := by
  induction h with
  | bind _ _ ihr ihk =>
    have hk := fun a => ihk a hc ha
    simp only [ihr hc ha, hk]
  | ask h => exact ha _ h
  | native _ _ h => exact absurd h hc
  | call _ _ _ h => exact absurd h hc
  | _ => rfl

/-- Neither the node nor anything in it declares a name. -/
def Node.Quiet (n : Node) : Prop :=
  ∀ x : Node, x = n ∨ x.Within n → x.label? ≠ some .declaration ∧ x.label? ≠ some .function

namespace Node.Quiet

theorem of_children {n : Node} (hd : n.label? ≠ some .declaration) (hf : n.label? ≠ some .function)
    (hc : ∀ c ∈ n.children, c.Quiet) : n.Quiet := by
  rintro x (rfl | hx)
  · exact ⟨hd, hf⟩
  · cases hx with
    | child hx => exact hc x hx x (.inl rfl)
    | deeper hx hm => exact hc _ hm x (.inr hx)

theorem leaf (kind : LeafKind) (text : String) (place? : Option Place) :
    (Node.leaf kind text place?).Quiet :=
  of_children nofun nofun (by simp [Node.children])

theorem absent : Node.absent.Quiet :=
  of_children nofun nofun (by simp [Node.children])

theorem tree {label : Label} {children : List Node} (p : Option Place) (hd : label ≠ .declaration)
    (hf : label ≠ .function) (hc : ∀ c ∈ children, c.Quiet) : (Node.tree label children p).Quiet :=
  of_children (fun h => hd (Option.some.inj h)) (fun h => hf (Option.some.inj h)) hc

theorem pair {label : Label} {l r : Node} (p : Option Place) (hd : label ≠ .declaration)
    (hf : label ≠ .function) (hl : l.Quiet) (hr : r.Quiet) : (Node.tree label [l, r] p).Quiet :=
  tree p hd hf (by simpa using ⟨hl, hr⟩)

theorem within {n x : Node} (h : n.Quiet) (hx : x.Within n) : x.Quiet := by
  rintro y (rfl | hy)
  · exact h y (.inr hx)
  · exact h y (.inr (hy.trans hx))

end Node.Quiet

def Form.quiet : Form → Bool
  | expression | value | property | parameter => true
  | _ => false

theorem Node.Fits.quiet {numeral : String → Prop} {form : Form} {n : Node} (h : n.Fits numeral form)
    (hq : form.quiet = true) : n.Quiet := by
  induction h with
  | ident name p => exact .leaf _ _ _
  | number p _ => exact .leaf _ _ _
  | string text p => exact .leaf _ _ _
  | join p hl _ _ ihl ihr =>
    refine .pair p ?_ ?_ (ihl rfl) (ihr rfl)
    · rintro rfl
      exact absurd hl (by decide)
    · rintro rfl
      exact absurd hl (by decide)
  | binop p q _ _ _ ihl ihr =>
    exact .tree p (by decide) (by decide)
      (by simpa using ⟨ihl rfl, .leaf _ _ _, ihr rfl⟩)
  | assign p hl _ _ iht ihv =>
    refine .pair p ?_ ?_ (iht rfl) (ihv rfl)
    · rintro rfl
      exact absurd hl (by decide)
    · rintro rfl
      exact absurd hl (by decide)
  | @call _ args p q _ _ ihc iha =>
    have hargs : (Node.tree .args args q).Quiet :=
      .tree q (by decide) (by decide) fun a ha => iha a ha rfl
    exact .pair p (by decide) (by decide) (ihc rfl) hargs
  | member name p q _ ihr => exact .pair p (by decide) (by decide) (ihr rfl) (.leaf _ _ _)
  | index p _ _ ihr ihk => exact .pair p (by decide) (by decide) (ihr rfl) (ihk rfl)
  | object p _ ihe => exact .tree p (by decide) (by decide) fun e he => ihe e he rfl
  | noValue => exact .absent
  | value _ ih => exact ih rfl
  | property key p q _ ihv => exact .pair p (by decide) (by decide) (.leaf _ _ _) (ihv rfl)
  | parameter name p => exact .leaf _ _ _
  | _ => cases hq

namespace Eval

theorem standard_keeps (clock : Nat → Int) (name : String) (args : List Value) (frame : FrameId)
    (P : FrameId → Prop) : (Native.standard clock name args frame).Keeps P := by
  unfold Native.standard
  split
  · exact .of_log (fun _ => rfl) fun _ => ⟨[], rfl, rfl⟩
  · exact .of_log (fun _ => rfl) fun _ => ⟨[], rfl, rfl⟩
  · exact fun w => .refl w
  · exact fun w => .refl w
  · exact fun w => .refl w

variable {m : Machine} (hm : ∀ name args f (P : FrameId → Prop), (m.host name args f).Keeps P)

include hm

theorem node_keeps_others (depth : Nat) (n : Node) (frame : FrameId) :
    (node m depth n frame).Keeps (· ≠ frame) := by
  induction depth generalizing n frame with
  | zero => exact fun w => .refl w
  | succ depth ih =>
    refine ((step_routine_full m n frame).keeps hm ih ?_ fun x _ => ih x frame).located n.place?
    exact fun _ hne => hne rfl

theorem node_keeps_all (depth : Nat) {n : Node} (hn : n.Quiet) (frame : FrameId) :
    (node m depth n frame).Keeps fun _ => True := by
  induction depth generalizing n with
  | zero => exact fun w => .refl w
  | succ depth ih =>
    have hstep : Routine m.host ⟨Node.Quiet, False, True⟩ frame
        fun eval => step m eval n frame := by
      refine step_routine m (fun x hx => hn.within hx) ?_ fun _ => trivial
      have hself := hn n (.inl rfl)
      exact fun h => h.elim hself.1 hself.2
    refine (hstep.keeps hm (node_keeps_others hm depth) ?_ fun x hx => ih hx).located n.place?
    exact False.elim

end Eval

/-- The name that a node declares. -/
def Node.declares? : Node → Option String
  | .tree .declaration (name :: _) _ => name.ident?
  | .tree .function (name :: _) _ => name.ident?
  | _ => none

namespace Run

variable {α β : Type} {w w' : World}

theorem bind_eq_ok {r : Run α} {k : α → Run β} {b : β} (h : (r >>= k) w = .ok b w') :
    ∃ a w₁, r w = .ok a w₁ ∧ k a w₁ = .ok b w' := by
  cases he : r w with
  | ok a w₁ =>
    rw [bind_ok he] at h
    exact ⟨a, w₁, rfl, h⟩
  | error f w₁ =>
    rw [bind_error he] at h
    cases h

theorem located_eq_ok {place? : Option Place} {r : Run α} {a : α}
    (h : located place? r w = .ok a w') : r w = .ok a w' := by
  cases he : r w with
  | ok a w₁ =>
    rw [located_ok he] at h
    exact h
  | error f w₁ =>
    rw [located_error he] at h
    cases h

theorem declare_names {frame : FrameId} {name : String} {v a : Value} {constant : Bool}
    (h : access (Access.declare frame name v constant) w = .ok a w')
    (hf : frame < w.store.frames.size) : w'.store.names frame = w.store.names frame ++ [name] := by
  by_cases hs : w.store.has frame name = true
  · simp only [access, Access.declare, hs, if_true] at h
    cases h
  · simp only [access, Access.declare, hs] at h
    cases h
    exact w.store.names_declare hf ⟨name, v, constant⟩

end Run

namespace Store.Grows

variable {s t : Store}

theorem names_grow (h : s.Grows t) (id : FrameId) : s.names id <+: t.names id := by
  cases hf : s.frame? id with
  | none => simp [names, hf]
  | some f =>
    obtain ⟨g, hg, hfg⟩ := h id f hf
    simpa only [names, hf, hg, Option.map_some, Option.getD_some] using hfg.names

theorem lt_size (h : s.Grows t) {id : FrameId} (hid : id < s.frames.size) : id < t.frames.size := by
  obtain ⟨g, hg, -⟩ := h id _ (Array.getElem?_eq_getElem hid)
  exact (Array.getElem?_eq_some_iff.mp hg).1

end Store.Grows

namespace Eval

section Declarations

variable {m : Machine} {depth : Nat} {frame : FrameId} {w w' : World} {name : String}

theorem node_grown_ok (hm : GrowingHost m.host) {n : Node} {v : Value}
    (h : node m depth n frame w = .ok v w') : w.store.Grows w'.store := by
  have hgrown := node_grown hm depth n frame w
  rw [h] at hgrown
  exact hgrown

theorem identifier_eq_ok {role : NameRole} {n : Node} {found : String}
    (h : identifier role n w = .ok found w') (hn : n.ident? = some name) :
    found = name ∧ w' = w := by
  rw [identifier, hn] at h
  cases h
  exact ⟨rfl, rfl⟩

theorem declaration_shape {eval : Evaluator} {ns : List Node} {v : Value}
    (h : declaration eval frame ns w = .ok v w') :
    ∃ nameNode keyword value, ns = [nameNode, keyword, value] := by
  unfold declaration at h
  split at h
  · exact ⟨_, _, _, rfl⟩
  · cases h

theorem declaration_names (hm : GrowingHost m.host) {nameNode keyword value : Node} {v : Value}
    (h : declaration (node m depth) frame [nameNode, keyword, value] w = .ok v w')
    (hn : nameNode.ident? = some name) (hf : frame < w.store.frames.size) :
    ∃ more, w'.store.names frame = w.store.names frame ++ more ++ [name] := by
  obtain ⟨declared, w₀, hname, hrest⟩ := Run.bind_eq_ok h
  obtain ⟨rfl, rfl⟩ := identifier_eq_ok hname hn
  by_cases hv : value.isAbsent = true
  · rw [if_pos hv] at hrest
    exact ⟨[], by rw [List.append_nil, Run.declare_names hrest hf]⟩
  · rw [if_neg hv] at hrest
    obtain ⟨v', w₁, hv, hd⟩ := Run.bind_eq_ok hrest
    have hgrown := node_grown_ok hm hv
    obtain ⟨more, hmore⟩ := hgrown.names_grow frame
    exact ⟨more, by rw [Run.declare_names hd (hgrown.lt_size hf), ← hmore]⟩

theorem paramNames_world {ns : List Node} {names : List String}
    (h : paramNames ns w = .ok names w') : w' = w := by
  induction ns generalizing names with
  | nil =>
    cases h
    rfl
  | cons n ns ih =>
    cases hn : n.ident? with
    | none =>
      simp only [paramNames, hn] at h
      cases h
    | some name =>
      simp only [paramNames, hn] at h
      obtain ⟨rest, w₁, hrest, hpure⟩ := Run.bind_eq_ok h
      cases hpure
      exact ih hrest

theorem function_shape {ns : List Node} {v : Value} (h : function frame ns w = .ok v w') :
    ∃ nameNode params statements p, ns = [nameNode, params, .tree .body statements p] := by
  unfold function at h
  split at h
  · exact ⟨_, _, _, _, rfl⟩
  · cases h

theorem function_names {nameNode params : Node} {statements : List Node} {p : Option Place}
    {v : Value} (h : function frame [nameNode, params, .tree .body statements p] w = .ok v w')
    (hn : nameNode.ident? = some name) (hf : frame < w.store.frames.size) :
    w'.store.names frame = w.store.names frame ++ [name] := by
  obtain ⟨declared, w₀, hname, hrest⟩ := Run.bind_eq_ok h
  obtain ⟨rfl, rfl⟩ := identifier_eq_ok hname hn
  obtain ⟨names, w₁, hp, hd⟩ := Run.bind_eq_ok hrest
  obtain rfl := paramNames_world hp
  exact Run.declare_names hd hf

theorem node_names (hm : GrowingHost m.host) {n : Node} {v : Value}
    (h : node m depth n frame w = .ok v w') (hn : n.declares? = some name)
    (hf : frame < w.store.frames.size) :
    ∃ more, w'.store.names frame = w.store.names frame ++ more ++ [name] := by
  cases depth with
  | zero => cases h
  | succ depth =>
    have hstep := Run.located_eq_ok h
    unfold Node.declares? at hn
    split at hn
    · next nameNode rest place =>
      change declaration (node m depth) frame (nameNode :: rest) w = _ at hstep
      obtain ⟨_, keyword, value, heq⟩ := declaration_shape hstep
      cases heq
      exact declaration_names hm hstep hn hf
    · next nameNode rest place =>
      change function frame (nameNode :: rest) w = _ at hstep
      obtain ⟨_, params, statements, p, heq⟩ := function_shape hstep
      cases heq
      exact ⟨[], by rw [List.append_nil, function_names hstep hn hf]⟩
    · cases hn

theorem sequence_names (hm : GrowingHost m.host) {ns : List Node} {last v : Value}
    (h : sequence (node m depth) frame last ns w = .ok v w') (hf : frame < w.store.frames.size) :
    w.store.names frame <+: w'.store.names frame ∧
      ∀ n ∈ ns, ∀ name, n.declares? = some name → name ∈ w'.store.names frame := by
  induction ns generalizing last w with
  | nil =>
    cases h
    exact ⟨List.prefix_rfl, by simp⟩
  | cons n ns ih =>
    obtain ⟨v₁, w₁, hn, hns⟩ := Run.bind_eq_ok h
    have hgrown := node_grown_ok hm hn
    obtain ⟨hold, hrest⟩ := ih hns (hgrown.lt_size hf)
    refine ⟨(hgrown.names_grow frame).trans hold, fun x hx name hname => ?_⟩
    obtain rfl | hx := List.mem_cons.mp hx
    · obtain ⟨more, hmore⟩ := node_names hm hn hname hf
      exact hold.subset (by rw [hmore]; simp)
    · exact hrest x hx name hname

end Declarations

/-- Evaluating a node in a frame adds names to no other frame there is, and to no frame at all if
the node is an expression. Frames are made by calls only: every other node has all that it needs
evaluated in its own frame, and there a declaration puts its name behind the others, so that the
names declared in a branch or a loop are found in the frame around it. -/
theorem declarations_stay (clock : Nat → Int) (turns depth : Nat) :
    let m : Machine := ⟨Native.standard clock, turns⟩
    (∀ (n : Node) (e : FrameId) (w : World) (id : FrameId), id < w.store.frames.size → id ≠ e →
      (stateAfter (node m depth n e w)).store.names id = w.store.names id) ∧
    (∀ (n : Node) (e : FrameId) (w : World) (id : FrameId), n.Fits (fun _ => True) .expression →
      id < w.store.frames.size →
      (stateAfter (node m depth n e w)).store.names id = w.store.names id) ∧
    (∀ (n : Node) (e : FrameId) (w : World), ∃ records,
      (stateAfter (node m depth n e w)).log = records ++ w.log ∧
      (stateAfter (node m depth n e w)).store.frames.size =
        w.store.frames.size + records.countP Record.isCall) ∧
    (∀ (n : Node) (e : FrameId) (eval eval' : Evaluator), n.label? ≠ some .call →
      (∀ x, eval x e = eval' x e) → step m eval n e = step m eval' n e) ∧
    (∀ (n : Node) (e : FrameId) (name : String) (w w' : World) (v : Value),
      n.declares? = some name → e < w.store.frames.size → node m depth n e w = .ok v w' →
      ∃ more, w'.store.names e = w.store.names e ++ more ++ [name]) ∧
    ∀ (label : Label) (statements : List Node) (place? : Option Place) (e : FrameId) (w w' : World),
      e < w.store.frames.size →
      body (node m depth) e (.tree label statements place?) w = .ok () w' →
      ∀ n ∈ statements, ∀ name, n.declares? = some name → name ∈ w'.store.names e := by
  intro m
  have hm : GrowingHost m.host := fun _ => standard_alike clock
  have hkeeps := node_keeps_others (m := m) (standard_keeps clock) depth
  refine ⟨?_, ?_, ?_, ?_, ?_, ?_⟩
  · intro n e w id hid hne
    exact (hkeeps n e w).names id hid hne
  · intro n e w id hn hid
    exact (node_keeps_all (standard_keeps clock) depth (hn.quiet rfl) e w).names id hid trivial
  · intro n e w
    exact (hkeeps n e w).frames
  · intro n e eval eval' hn heval
    have hstep : Routine m.host ⟨fun _ => True, True, False⟩ e fun eval => step m eval n e :=
      step_routine m (fun _ _ => trivial) (fun _ => trivial) fun hc => hn hc
    exact hstep.congr not_false fun x _ => heval x
  · intro n e name w w' v hn he h
    exact node_names hm h hn he
  · intro label statements place? e w w' he h
    obtain ⟨v, w₁, hs, hpure⟩ := Run.bind_eq_ok h
    cases hpure
    exact (sequence_names hm hs he).2

def declareX : Node :=
  .tree .declaration [.leaf .ident "x" none, .leaf .letWord "" none, .absent] none

/-- In the outermost frame a function that declares a name when it is called, and a frame inside. -/
def declarer : World :=
  ⟨⟨#[⟨none, [⟨"f", .function "f" [] [declareX] 0, true⟩]⟩, .empty (some 0)]⟩, "", [], 0⟩

theorem declarations_stay_declarer :
    let m : Machine := ⟨Native.standard fun _ => 0, 0⟩
    let called : Node := .tree .call [.leaf .ident "f" none, .tree .args [] none] none
    (stateAfter (node m 9 called 0 declarer)).store.names 0 = ["f"] ∧
    (stateAfter (node m 9 declareX 1 declarer)).store.names 0 = ["f"] ∧
    ∃ w', body (node m 9) 1 (.tree .body [declareX] none) declarer = .ok () w' ∧
      "x" ∈ w'.store.names 1 := by
  -- a call leaves the function's frame as it was, although it declares a name; the declaration in a
  -- branch goes to the frame around it and to no other
  obtain ⟨hother, hcall, -, -, -, hbody⟩ := declarations_stay (fun _ => 0) 0 9
  refine ⟨?_, ?_, _, rfl, ?_⟩
  · exact hcall _ 0 declarer 0 (.call _ _ (.ident ..) nofun) (by decide)
  · exact hother declareX 1 declarer 0 (by decide) (by decide)
  · exact hbody .body [declareX] none 1 declarer _ (by decide) rfl _ (List.mem_cons_self ..) "x" rfl

end Eval

end Bahasa
