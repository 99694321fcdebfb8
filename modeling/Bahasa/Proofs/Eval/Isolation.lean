import Bahasa.Proofs.Eval.Alike
import Bahasa.Proofs.Store.Growth
import Bahasa.Proofs.Store.Twins

namespace Bahasa

/-- The frames that can be got at from the roots: outwards, and by the functions that are bound. -/
inductive Store.Reaches (s : Store) (roots : FrameId → Prop) : FrameId → Prop
  | root {id : FrameId} (h : roots id) : Reaches s roots id
  | outwards {id p : FrameId} {f : Frame} (h : Reaches s roots id) (hf : s.frame? id = some f)
      (hp : f.parent = some p) : Reaches s roots p
  | captured {id g : FrameId} {f : Frame} {b : Binding} (h : Reaches s roots id)
      (hf : s.frame? id = some f) (hb : b ∈ f.bindings) (hg : b.value.Captures g) :
      Reaches s roots g

/-- Both stores have the frames, and have them the same. -/
def Store.AgreeOn (R : FrameId → Prop) (s₁ s₂ : Store) : Prop :=
  ∀ id, R id → ∃ f, s₁.frame? id = some f ∧ s₂.frame? id = some f

/-- Worlds that were printed and recorded alike at the same time, with stores that are the same
through twins. -/
structure TwinWorlds (R : FrameId → Prop) (s₁ s₂ : Store) (w w' : World) : Prop where
  store : TwinStores R s₁ s₂ w.store w'.store
  out : w'.out = w.out
  log : w'.log = w.log
  ticks : w'.ticks = w.ticks

/-- The same end of two runs, but for the names of the frames that they made. -/
abbrev TwinEnds (R : FrameId → Prop) (s₁ s₂ : Store) :
    EStateM.Result Failure World Value → EStateM.Result Failure World Value → Prop :=
  Ends (Failure.Like (Twins R s₁ s₂)) (TwinWorlds R s₁ s₂) (Value.Like (Twins R s₁ s₂))

section Reach

variable {s₁ s₂ : Store} {roots : FrameId → Prop}

theorem TwinStores.start (h : ∀ id, s₁.Reaches roots id → s₂.frame? id = s₁.frame? id) :
    TwinStores (s₁.Reaches roots) s₁ s₂ s₁ s₂ := by
  refine .unchanged fun id hR => ?_
  rw [h id hR]
  cases hf : s₁.frame? id with
  | none => exact .none
  | some f =>
    refine .some (Frame.like_self (fun p hp => .inl ⟨hR.outwards hf hp, rfl⟩) ?_)
    exact fun b hb g hg => .inl ⟨hR.captured hf hb hg, rfl⟩

theorem Store.AgreeOn.oneToOne {R : FrameId → Prop} (h : AgreeOn R s₁ s₂) :
    OneToOne (Twins R s₁ s₂) := by
  refine Twins.oneToOne fun id hR => ?_
  obtain ⟨f, h₁, h₂⟩ := h id hR
  exact ⟨(Array.getElem?_eq_some_iff.mp h₁).1, (Array.getElem?_eq_some_iff.mp h₂).1⟩

end Reach

namespace Run

variable {roots : FrameId → Prop} {r r' : Run Value}

/-- The runs get at a store through the roots only, and do alike. -/
def Confined (roots : FrameId → Prop) (r r' : Run Value) : Prop :=
  ∀ l : Likeness, (∀ id, roots id → l.frames id id) → Alike l (Value.Like l.frames) r r'

theorem Confined.ends (h : Confined roots r r') {s₁ s₂ : Store}
    (hone : OneToOne (Twins (s₁.Reaches roots) s₁ s₂))
    (hs : ∀ id, s₁.Reaches roots id → s₂.frame? id = s₁.frame? id) (out : String)
    (log : List Record) (ticks : Nat) :
    TwinEnds (s₁.Reaches roots) s₁ s₂ (r ⟨s₁, out, log, ticks⟩) (r' ⟨s₂, out, log, ticks⟩) := by
  have halike := h (.twins _ s₁ s₂ hone) fun id hid => .inl ⟨.root hid, rfl⟩
  have hends := halike.ends ⟨s₁, out, log, ticks⟩ ⟨s₂, out, log, ticks⟩ ⟨.start hs, rfl, rfl, rfl⟩
  generalize r ⟨s₁, out, log, ticks⟩ = end₁, r' ⟨s₂, out, log, ticks⟩ = end₂ at hends
  cases hends with
  | ok hw hv => exact .ok ⟨hw.store, hw.out, hw.log, hw.ticks⟩ hv
  | error hw hf => exact .error ⟨hw.store, hw.out, hw.log, hw.ticks⟩ hf

theorem Confined.unchanged (h : Confined roots r r') (w : World) {id : FrameId}
    (hid : id < w.store.frames.size) (hR : ¬ w.store.Reaches roots id) :
    (stateAfter (r w)).store.frame? id = w.store.frame? id := by
  have hends : TwinEnds _ w.store w.store (r w) (r' w) :=
    h.ends Twins.oneToOne_self (fun _ _ => rfl) w.out w.log w.ticks
  generalize r w = end₁, r' w = end₂ at hends
  cases hends with
  | ok hw _ => exact hw.store.left id hid hR
  | error hw _ => exact hw.store.left id hid hR

theorem Confined.agrees (h : Confined roots r r') {s₁ s₂ : Store}
    (hs : Store.AgreeOn (s₁.Reaches roots) s₁ s₂) (out : String) (log : List Record)
    (ticks : Nat) :
    TwinEnds (s₁.Reaches roots) s₁ s₂ (r ⟨s₁, out, log, ticks⟩) (r' ⟨s₂, out, log, ticks⟩) := by
  refine h.ends hs.oneToOne (fun id hid => ?_) out log ticks
  obtain ⟨f, h₁, h₂⟩ := hs id hid
  rw [h₁, h₂]

end Run

namespace Eval

variable (clock : Nat → Int) (turns depth : Nat)

theorem node_confined (n : Node) (frame : FrameId) :
    Run.Confined (· = frame) (node ⟨Native.standard clock, turns⟩ depth n frame)
      (node ⟨Native.standard clock, turns⟩ depth n frame) :=
  fun _ hl => node_alike (standard_alike clock) depth n frame frame (hl frame rfl)

/-- The frames that the values remember. -/
def CapturedBy (vs : List Value) (g : FrameId) : Prop :=
  ∃ v ∈ vs, v.Captures g

theorem apply_confined (caller caller' : FrameId) (callee : Value) (args : List Value) :
    Run.Confined (CapturedBy (callee :: args))
      (apply (Native.standard clock) (node ⟨Native.standard clock, turns⟩ depth) caller callee args)
      (apply (Native.standard clock) (node ⟨Native.standard clock, turns⟩ depth) caller' callee
        args) := by
  intro l hl
  have hself : ∀ v ∈ callee :: args, v.Like l.frames v :=
    fun v hv => v.like_self fun g hg => hl g ⟨v, hv, hg⟩
  refine apply_alike (standard_alike clock) (node_alike (standard_alike clock) depth)
    (hself callee (List.mem_cons_self ..)) ?_ caller caller'
  exact List.forall₂_same.mpr fun a ha => hself a (List.mem_cons_of_mem _ ha)

/-- An evaluation changes no frame that cannot be reached from its own one, and ends the same in all
stores that agree on those that can. A call changes no frame that its function and its arguments do
not reach, and ends the same whatever the other frames hold and whoever calls. -/
theorem evaluation_isolated :
    let m : Machine := ⟨Native.standard clock, turns⟩
    (∀ (n : Node) (e : FrameId) (w : World) (id : FrameId), id < w.store.frames.size →
      ¬ w.store.Reaches (· = e) id →
      (stateAfter (node m depth n e w)).store.frame? id = w.store.frame? id) ∧
    (∀ (n : Node) (e : FrameId) (s₁ s₂ : Store) (out : String) (log : List Record)
      (ticks : Nat), Store.AgreeOn (s₁.Reaches (· = e)) s₁ s₂ →
      TwinEnds (s₁.Reaches (· = e)) s₁ s₂ (node m depth n e ⟨s₁, out, log, ticks⟩)
        (node m depth n e ⟨s₂, out, log, ticks⟩)) ∧
    (∀ (callee : Value) (args : List Value) (caller : FrameId) (w : World) (id : FrameId),
      id < w.store.frames.size → ¬ w.store.Reaches (CapturedBy (callee :: args)) id →
      (stateAfter (apply m.host (node m depth) caller callee args w)).store.frame? id =
        w.store.frame? id) ∧
    ∀ (callee : Value) (args : List Value) (caller caller' : FrameId) (s₁ s₂ : Store)
      (out : String) (log : List Record) (ticks : Nat),
      Store.AgreeOn (s₁.Reaches (CapturedBy (callee :: args))) s₁ s₂ →
      TwinEnds (s₁.Reaches (CapturedBy (callee :: args))) s₁ s₂
        (apply m.host (node m depth) caller callee args ⟨s₁, out, log, ticks⟩)
        (apply m.host (node m depth) caller' callee args ⟨s₂, out, log, ticks⟩) := by
  intro m
  refine ⟨?_, ?_, ?_, ?_⟩
  · intro n e w id hid hR
    exact (node_confined clock turns depth n e).unchanged w hid hR
  · intro n e s₁ s₂ out log ticks hs
    exact (node_confined clock turns depth n e).agrees hs out log ticks
  · intro callee args caller w id hid hR
    exact (apply_confined clock turns depth caller caller callee args).unchanged w hid hR
  · intro callee args caller caller' s₁ s₂ out log ticks hs
    exact (apply_confined clock turns depth caller caller' callee args).agrees hs out log ticks

def bump : Value :=
  .function "bump" [] [.tree .plusAssign [.leaf .ident "n" none, .leaf .number "1" none] none] 0

def bumpStore (secret : Value) : Store :=
  ⟨#[⟨none, [⟨"n", .number 1, false⟩, ⟨"bump", bump, true⟩]⟩, ⟨some 0, [⟨"n", secret, false⟩]⟩]⟩

theorem bumpStore_reaches {secret : Value} {id : FrameId}
    (h : (bumpStore secret).Reaches (CapturedBy [bump]) id) : id = 0 := by
  have hbump : ∀ g, bump.Captures g → g = 0 := by
    rintro g ⟨⟩
    rfl
  induction h with
  | root h =>
    obtain ⟨v, hv, hg⟩ := h
    obtain rfl := List.mem_singleton.mp hv
    exact hbump _ hg
  | outwards _ hf hp ih =>
    subst ih
    cases hf
    cases hp
  | captured _ hf hb hg ih =>
    subst ih
    cases hf
    obtain rfl | hb := List.mem_cons.mp hb
    · cases hg
    · obtain rfl := List.mem_singleton.mp hb
      exact hbump _ hg

theorem evaluation_isolated_bump :
    let host := Native.standard fun _ => 0
    let called := apply host (node ⟨host, 0⟩ 9) 1 bump []
    (stateAfter (called ⟨bumpStore (.number 7), "", [], 0⟩)).store.frame? 1 =
      some ⟨some 0, [⟨"n", .number 7, false⟩]⟩ ∧
    TwinEnds ((bumpStore (.number 7)).Reaches (CapturedBy [bump])) (bumpStore (.number 7))
      (bumpStore .null) (called ⟨bumpStore (.number 7), "", [], 0⟩)
      (called ⟨bumpStore .null, "", [], 0⟩) := by
  -- the caller's variable of the same name is neither seen nor changed
  obtain ⟨-, -, hunchanged, hsame⟩ := evaluation_isolated (fun _ => 0) 0 9
  refine ⟨hunchanged bump [] 1 ⟨bumpStore (.number 7), "", [], 0⟩ 1 (by decide) ?_, ?_⟩
  · exact fun h => absurd (bumpStore_reaches h) (by decide)
  · refine hsame bump [] 1 1 (bumpStore (.number 7)) (bumpStore .null) "" [] 0 fun id hid => ?_
    obtain rfl := bumpStore_reaches hid
    exact ⟨_, rfl, rfl⟩

end Eval

end Bahasa
