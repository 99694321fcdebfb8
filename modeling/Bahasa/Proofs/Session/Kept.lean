import Bahasa.Proofs.Eval.Alike
import Bahasa.Proofs.Parser.Desk
import Bahasa.Proofs.Session.Safety
import Bahasa.Proofs.Store.Twins
import Mathlib.Data.List.Induction

namespace Bahasa

open Bahasa.Session (Step Answer)

namespace Session

/-- Whether a step is counted: a source text is run that can be read. -/
def Step.counts (i : Interpreter) : Step → Bool
  | .run source => (i.parse source).isOk
  | _ => false

def Step.isReset : Step → Bool
  | .reset => true
  | _ => false

/-- The steps after the last reset. -/
def sinceReset (steps : List Step) : List Step :=
  (steps.reverse.takeWhile (fun step => !step.isReset)).reverse

/-- What can be seen after a step: the answer, the variables and the counter. -/
structure Sight where
  answer : Answer
  bindings : List Binding
  runs : Nat

section Steps

variable {σ : Type} (perform : σ → Step → Answer × σ)

def after (s : σ) (steps : List Step) : σ :=
  steps.foldl (fun s step => (perform s step).2) s

def trace (sight : Answer × σ → Sight) (s : σ) : List Step → List Sight
  | [] => []
  | step :: rest => sight (perform s step) :: trace sight (perform s step).2 rest

end Steps

def sight (a : Answer × Session) : Sight :=
  ⟨a.1, a.2.bindings, a.2.runs⟩

/-- A session with its reader, with all frames that were ever made and all that was ever printed. -/
structure Kept where
  store : Store
  root : FrameId
  runs : Nat
  out : String
  desk : Parser.Desk
  ticks : Nat

namespace Kept

def startAt (ticks : Nat) : Kept :=
  ⟨⟨#[.global]⟩, 0, 0, "", .new, ticks⟩

def new : Kept :=
  startAt 0

def bindings (k : Kept) : List Binding :=
  ((k.store.frame? k.root).map (·.bindings)).getD [] |>.filter
    (fun b => !builtinNames.contains b.name)

def sight (a : Answer × Kept) : Sight :=
  ⟨a.1, a.2.bindings, a.2.runs⟩

variable (stops : Parser.Desk → ParseError → Nat) (i : Interpreter)

def parse (k : Kept) (source : String) : Except Error Node × Kept :=
  match tokenize source with
  | .error e => (.error (.lex e), k)
  | .ok tokens =>
    let (tree, desk) := k.desk.parse stops i.nesting tokens
    (tree.mapError .parse, { k with desk })

def runTree (k : Kept) (tree : Node) : Report × Kept :=
  let runs := k.runs + 1
  match i.eval tree k.root ⟨k.store, "", [.run runs tree.children.length], k.ticks⟩ with
  | .ok v w =>
    (⟨.ok v, w.out, w.log.reverse⟩,
      { k with store := w.store, runs, out := k.out ++ w.out, ticks := w.ticks })
  | .error f w =>
    (⟨.error (.run f), w.out, w.log.reverse⟩,
      { k with store := w.store, runs, out := k.out ++ w.out, ticks := w.ticks })

def run (k : Kept) (source : String) : Report × Kept :=
  match k.parse stops i source with
  | (.error e, k) => (⟨.error e, "", []⟩, k)
  | (.ok tree, k) => k.runTree i tree

def reset (k : Kept) : Kept :=
  { k with store := ⟨k.store.frames.push .global⟩, root := k.store.frames.size, runs := 0 }

def perform (k : Kept) : Step → Answer × Kept
  | .run source =>
    let (report, next) := k.run stops i source
    (.ran report, next)
  | .parse source =>
    let (tree, next) := k.parse stops i source
    (.parsed tree, next)
  | .reset => (.forgotten, k.reset)

end Kept

end Session

inductive ResultLike (F : FrameId → FrameId → Prop) :
    Except Error Value → Except Error Value → Prop
  | ok {v v' : Value} (h : v.Like F v') : ResultLike F (.ok v) (.ok v')
  | run {f f' : Failure} (h : f.Like F f') : ResultLike F (.error (.run f)) (.error (.run f'))
  | unread {e : Error} (h : ∀ f, e ≠ .run f) : ResultLike F (.error e) (.error e)

structure Report.Like (F : FrameId → FrameId → Prop) (r r' : Report) : Prop where
  result : ResultLike F r.result r'.result
  out : r'.out = r.out
  log : r'.log = r.log

inductive Session.Answer.Like (F : FrameId → FrameId → Prop) : Answer → Answer → Prop
  | ran {r r' : Report} (h : r.Like F r') : Like F (.ran r) (.ran r')
  | parsed (tree : Except Error Node) : Like F (.parsed tree) (.parsed tree)
  | forgotten : Like F .forgotten .forgotten

structure Session.Sight.Like (F : FrameId → FrameId → Prop) (a a' : Sight) : Prop where
  answer : a.answer.Like F a'.answer
  bindings : List.Forall₂ (Binding.Like F) a.bindings a'.bindings
  runs : a'.runs = a.runs

/-- The first frames are left out of the count. -/
def Session.Shifted (first : Nat) (id id' : FrameId) : Prop :=
  id = first + id'

theorem Twins.empty_right (s : Store) :
    Twins (fun _ => False) s .empty = Session.Shifted s.frames.size := by
  funext id id'
  simp [Twins, Session.Shifted, Store.empty]

theorem builtins_plain : ∀ b ∈ builtins, ∀ g, ¬ b.value.Captures g := by
  intro b hb g hg
  obtain hb | hb := List.mem_append.mp hb
  · simp only [List.mem_cons, List.not_mem_nil, or_false] at hb
    obtain rfl | rfl | rfl := hb <;> cases hg
  · obtain ⟨name, -, rfl⟩ := List.mem_map.mp hb
    cases hg

theorem Frame.global_like (F : FrameId → FrameId → Prop) : Frame.global.Like F Frame.global :=
  Frame.like_self nofun fun b hb g hg => absurd hg (builtins_plain b hb g)

theorem TwinStores.apart (s s' : Store) : TwinStores (fun _ => False) s s' s s' :=
  .unchanged fun _ hfalse => hfalse.elim

theorem Twins.apart_oneToOne (s s' : Store) : OneToOne (Twins (fun _ => False) s s') :=
  Twins.oneToOne fun _ hfalse => hfalse.elim

namespace Session

namespace Kept

section Frames

variable (stops : Parser.Desk → ParseError → Nat) (i : Interpreter)

theorem parse_fst (k : Kept) (source : String) : (k.parse stops i source).1 = i.parse source := by
  unfold parse Interpreter.parse
  cases tokenize source with
  | error e => rfl
  | ok tokens =>
    have h := k.desk.parse_fst stops i.nesting tokens
    dsimp only
    rw [h]
    cases Parser.parseTokens i.nesting tokens with
    | error e => rfl
    | ok tree => rfl

theorem parse_snd (k : Kept) (source : String) :
    ∃ desk, (k.parse stops i source).2 = { k with desk } := by
  unfold parse
  cases tokenize source with
  | error e => exact ⟨k.desk, rfl⟩
  | ok tokens => exact ⟨_, rfl⟩

theorem run_eq (k : Kept) (source : String) : ∃ desk, k.run stops i source =
    match i.parse source with
    | .error e => (⟨.error e, "", []⟩, { k with desk })
    | .ok tree => { k with desk }.runTree i tree := by
  obtain ⟨desk, hdesk⟩ := k.parse_snd stops i source
  refine ⟨desk, ?_⟩
  rw [← k.parse_fst stops i source, ← hdesk, run]
  cases k.parse stops i source with
  | mk tree next =>
    cases tree with
    | error e => rfl
    | ok tree => rfl

theorem runTree_runs (k : Kept) (tree : Node) : (k.runTree i tree).2.runs = k.runs + 1 := by
  unfold runTree
  dsimp only
  cases i.eval tree k.root ⟨k.store, "", [.run (k.runs + 1) tree.children.length], k.ticks⟩ with
  | ok v w => rfl
  | error f w => rfl

theorem perform_runs (k : Kept) (step : Step) : (k.perform stops i step).2.runs =
    if step.isReset then 0 else k.runs + if step.counts i then 1 else 0 := by
  cases step with
  | run source =>
    obtain ⟨desk, hrun⟩ := k.run_eq stops i source
    change (k.run stops i source).2.runs = k.runs + if (i.parse source).isOk then 1 else 0
    rw [hrun]
    cases i.parse source with
    | error e => rfl
    | ok tree => exact runTree_runs i _ tree
  | parse source =>
    obtain ⟨desk, hdesk⟩ := k.parse_snd stops i source
    change (k.parse stops i source).2.runs = k.runs
    rw [hdesk]
  | reset => rfl

theorem run_unread (k : Kept) (source : String) {e : Error}
    (h : (k.run stops i source).1.result = .error e) (he : ∀ f, e ≠ .run f) :
    (k.run stops i source).1.out = "" ∧
      ∃ desk, (k.run stops i source).2 = { k with desk } := by
  obtain ⟨desk, hrun⟩ := k.run_eq stops i source
  rw [hrun] at h ⊢
  cases hp : i.parse source with
  | error e' => exact ⟨rfl, desk, rfl⟩
  | ok tree =>
    rw [hp] at h
    unfold runTree at h
    dsimp only at h
    split at h
    · cases h
    · cases h
      exact absurd rfl (he _)

end Frames

structure Mirrors (s₁ s₂ : Store) (k k' : Kept) : Prop where
  store : TwinStores (fun _ => False) s₁ s₂ k.store k'.store
  root : Twins (fun _ => False) s₁ s₂ k.root k'.root
  runs : k'.runs = k.runs
  ticks : k'.ticks = k.ticks

namespace Mirrors

variable {s₁ s₂ : Store} {k k' : Kept}

theorem apart (h : Mirrors s₁ s₂ k k') (out out' : String) (desk desk' : Parser.Desk) :
    Mirrors s₁ s₂ { k with out, desk } { k' with out := out', desk := desk' } :=
  ⟨h.store, h.root, h.runs, h.ticks⟩

theorem reset (k k' : Kept) (h : TwinStores (fun _ => False) s₁ s₂ k.store k'.store)
    (ht : k'.ticks = k.ticks) : Mirrors s₁ s₂ k.reset k'.reset :=
  have hadded := h.add (Twins.apart_oneToOne s₁ s₂) (Frame.global_like _)
  ⟨hadded.2, hadded.1, rfl, ht⟩

theorem startAt (k : Kept) : Mirrors k.store .empty k.reset (.startAt k.ticks) :=
  reset k ⟨.empty, 0, 0, "", .new, k.ticks⟩ (.apart k.store .empty) rfl

theorem bindings (h : Mirrors s₁ s₂ k k') :
    List.Forall₂ (Binding.Like (Twins (fun _ => False) s₁ s₂)) k.bindings k'.bindings := by
  have hframe := h.store.frames k.root k'.root h.root
  unfold Kept.bindings
  generalize k.store.frame? k.root = f?, k'.store.frame? k'.root = f'? at hframe
  cases hframe with
  | none => exact .nil
  | some hf => exact List.rel_filter (fun _ _ hb => by dsimp only; rw [hb.name]) hf.bindings

theorem runTree {i : Interpreter} (hi : ∀ l, Eval.AlikeHost l i.machine.host)
    (h : Mirrors s₁ s₂ k k') (tree : Node) :
    (k.runTree i tree).1.Like (Twins (fun _ => False) s₁ s₂) (k'.runTree i tree).1 ∧
      Mirrors s₁ s₂ (k.runTree i tree).2 (k'.runTree i tree).2 := by
  let l := Likeness.twins (fun _ => False) s₁ s₂ (Twins.apart_oneToOne s₁ s₂)
  have hends := (Eval.node_alike (hi l) i.depth tree k.root k'.root h.root).ends
    ⟨k.store, "", [.run (k.runs + 1) tree.children.length], k.ticks⟩
    ⟨k'.store, "", [.run (k'.runs + 1) tree.children.length], k'.ticks⟩
    ⟨h.store, rfl, by rw [h.runs], h.ticks⟩
  change Ends _ _ _ (i.eval tree k.root _) (i.eval tree k'.root _) at hends
  unfold Kept.runTree
  dsimp only
  generalize i.eval tree k.root _ = end₁, i.eval tree k'.root _ = end₂ at hends ⊢
  have hruns : k'.runs + 1 = k.runs + 1 := by rw [h.runs]
  cases hends with
  | ok hw hv =>
    exact ⟨⟨.ok hv, hw.out, congrArg List.reverse hw.log⟩, hw.store, h.root, hruns, hw.ticks⟩
  | error hw hf =>
    exact ⟨⟨.run hf, hw.out, congrArg List.reverse hw.log⟩, hw.store, h.root, hruns, hw.ticks⟩

theorem perform {i : Interpreter} (hi : ∀ l, Eval.AlikeHost l i.machine.host)
    (h : Mirrors s₁ s₂ k k') (stops : Parser.Desk → ParseError → Nat) (step : Step) :
    (sight (k.perform stops i step)).Like (Twins (fun _ => False) s₁ s₂)
        (sight (k'.perform stops i step)) ∧
      Mirrors s₁ s₂ (k.perform stops i step).2 (k'.perform stops i step).2 := by
  have hseen : ∀ {a a' : Answer} {k k' : Kept}, a.Like (Twins (fun _ => False) s₁ s₂) a' →
      Mirrors s₁ s₂ k k' → (sight (a, k)).Like (Twins (fun _ => False) s₁ s₂) (sight (a', k')) ∧
        Mirrors s₁ s₂ k k' := fun ha hk => ⟨⟨ha, hk.bindings, hk.runs⟩, hk⟩
  cases step with
  | run source =>
    obtain ⟨desk, hrun⟩ := k.run_eq stops i source
    obtain ⟨desk', hrun'⟩ := k'.run_eq stops i source
    have hdesk := h.apart k.out k'.out desk desk'
    unfold Kept.perform
    dsimp only
    rw [hrun, hrun']
    cases hp : i.parse source with
    | error e =>
      have he : ∀ f, e ≠ .run f := by
        rintro f rfl
        obtain ⟨_, hlex⟩ | ⟨_, hparse⟩ := Interpreter.parse_error hp
        · cases hlex
        · cases hparse
      exact hseen (.ran ⟨.unread he, rfl, rfl⟩) hdesk
    | ok tree =>
      obtain ⟨hreport, hnext⟩ := hdesk.runTree hi tree
      exact hseen (.ran hreport) hnext
  | parse source =>
    obtain ⟨desk, hdesk⟩ := k.parse_snd stops i source
    obtain ⟨desk', hdesk'⟩ := k'.parse_snd stops i source
    unfold Kept.perform
    dsimp only
    rw [k.parse_fst, k'.parse_fst, hdesk, hdesk']
    exact hseen (.parsed _) (h.apart k.out k'.out desk desk')
  | reset => exact hseen .forgotten (Mirrors.reset k k' h.store h.ticks)

end Mirrors

end Kept

section Steps

variable {σ τ : Type} {perform : σ → Step → Answer × σ} {perform' : τ → Step → Answer × τ}
  {sight : Answer × σ → Sight} {sight' : Answer × τ → Sight} {M : σ → τ → Prop}
  {Q : Sight → Sight → Prop}

theorem trace_forall₂
    (hstep : ∀ step {s t}, M s t →
      Q (sight (perform s step)) (sight' (perform' t step)) ∧
        M (perform s step).2 (perform' t step).2)
    {s : σ} {t : τ} (h : M s t) (steps : List Step) :
    List.Forall₂ Q (trace perform sight s steps) (trace perform' sight' t steps) := by
  induction steps generalizing s t with
  | nil => exact .nil
  | cons step steps ih =>
    obtain ⟨hseen, hnext⟩ := hstep step h
    exact .cons hseen (ih hnext)

theorem after_runs {i : Interpreter} (runs : σ → Nat) {s : σ} (hs : runs s = 0)
    (hstep : ∀ s step, runs (perform s step).2 =
      if step.isReset then 0 else runs s + if step.counts i then 1 else 0)
    (steps : List Step) :
    runs (after perform s steps) = (sinceReset steps).countP (·.counts i) := by
  -- from the end, since the last step decides whether those before it still count
  induction steps using List.reverseRecOn with
  | nil => exact hs
  | append_singleton steps step ih =>
    rw [after, List.foldl_append, List.foldl_cons, List.foldl_nil, hstep]
    unfold sinceReset
    rw [List.reverse_append, List.reverse_singleton, List.singleton_append, List.takeWhile_cons]
    cases step.isReset with
    | true => rfl
    | false =>
      simp only [Bool.not_false, if_true, List.reverse_cons, List.countP_append,
        List.countP_singleton]
      rw [← sinceReset, ← ih]
      rfl

end Steps

def keep (s : Session) (out : String) (desk : Parser.Desk) : Kept :=
  ⟨s.store, globalId, s.runs, out, desk, s.ticks⟩

section Keep

variable (s : Session) (out : String) (desk : Parser.Desk) (i : Interpreter)

theorem keep_runTree (tree : Node) : ∃ out', (s.keep out desk).runTree i tree =
    ((s.runTree i tree).1, (s.runTree i tree).2.keep out' desk) := by
  unfold Kept.runTree runTree keep
  dsimp only
  cases i.eval tree globalId ⟨s.store, "", [.run (s.runs + 1) tree.children.length], s.ticks⟩ with
  | ok v w => exact ⟨_, rfl⟩
  | error f w => exact ⟨_, rfl⟩

theorem keep_run (stops : Parser.Desk → ParseError → Nat) (source : String) :
    ∃ out' desk', (s.keep out desk).run stops i source =
      ((s.run i source).1, (s.run i source).2.keep out' desk') := by
  obtain ⟨desk', hrun⟩ := (s.keep out desk).run_eq stops i source
  rw [hrun, run]
  cases i.parse source with
  | error e => exact ⟨out, desk', rfl⟩
  | ok tree =>
    obtain ⟨out', htree⟩ := s.keep_runTree out desk' i tree
    exact ⟨out', desk', htree⟩

theorem perform_runs (step : Step) : (s.perform i step).2.runs =
    if step.isReset then 0 else s.runs + if step.counts i then 1 else 0 := by
  cases step with
  | run source =>
    let stops : Parser.Desk → ParseError → Nat := fun _ _ => 0
    obtain ⟨out, desk, hrun⟩ := s.keep_run "" .new i stops source
    have h := (s.keep "" .new).perform_runs stops i (.run source)
    unfold Kept.perform at h
    dsimp only at h
    rw [hrun] at h
    exact h
  | parse source => rfl
  | reset => rfl

end Keep

/-- All that is kept goes unnoticed: a session with new frames answers a step as one that keeps the
old ones, and goes on to do so. -/
theorem Kept.Mirrors.forget {i : Interpreter} (hi : ∀ l, Eval.AlikeHost l i.machine.host)
    (stops : Parser.Desk → ParseError → Nat) (step : Step) {k : Kept} {s : Session}
    (h : ∃ old out desk, Kept.Mirrors old .empty k (s.keep out desk)) :
    (∃ first, (Kept.sight (k.perform stops i step)).Like (Shifted first)
        (Session.sight (s.perform i step))) ∧
      ∃ old out desk, Kept.Mirrors old .empty (k.perform stops i step).2
        ((s.perform i step).2.keep out desk) := by
  obtain ⟨old, out, desk, h⟩ := h
  obtain ⟨hseen, hnext⟩ := h.perform hi stops step
  rw [Twins.empty_right] at hseen
  cases step with
  | run source =>
    obtain ⟨out', desk', hrun⟩ := s.keep_run out desk i stops source
    unfold Kept.perform at hseen hnext
    dsimp only at hseen hnext
    rw [hrun] at hseen hnext
    exact ⟨⟨_, hseen⟩, old, out', desk', hnext⟩
  | parse source =>
    obtain ⟨desk', hdesk⟩ := (s.keep out desk).parse_snd stops i source
    unfold Kept.perform at hseen hnext
    dsimp only at hseen hnext
    rw [(s.keep out desk).parse_fst, hdesk] at hseen
    rw [hdesk] at hnext
    exact ⟨⟨_, hseen⟩, old, out, desk', hnext⟩
  | reset =>
    -- the frames made so far are left behind: from here on those after them correspond
    have ht : s.ticks = k.ticks := h.ticks
    have hnew : Mirrors k.store .empty k.reset (.startAt s.ticks) := ht ▸ .startAt k
    have hsame := hnew.bindings
    rw [Twins.empty_right] at hsame
    exact ⟨⟨k.store.frames.size, .forgotten, hsame, rfl⟩, k.store, "", .new, hnew⟩

/-- The counter tells how many source texts that can be read were run since the last reset, however
they ended. Reading, and running what cannot be read, leaves all frames, the output and the counter.
A source text is read the same whatever the reader was used for before. After a reset every step is
answered as in a new session at that time, but for the numbers of frames; and a session that forgets
the frames from before a reset answers as one that keeps them. -/
theorem history_law (stops : Parser.Desk → ParseError → Nat) (turns nesting depth : Nat)
    (clock : Nat → Int) :
    let i := Interpreter.limited turns nesting depth clock
    let keeping := fun (k : Kept) step => k.perform stops i step
    let forgetting := fun (s : Session) step => s.perform i step
    (∀ steps : List Step,
      (after keeping .new steps).runs = (sinceReset steps).countP (·.counts i) ∧
        (after forgetting .new steps).runs = (sinceReset steps).countP (·.counts i)) ∧
    (∀ (k : Kept) source, ∃ desk, (keeping k (.parse source)).2 = { k with desk }) ∧
    (∀ (k : Kept) source e, (k.run stops i source).1.result = .error e → (∀ f, e ≠ .run f) →
      (k.run stops i source).1.out = "" ∧ ∃ desk, (keeping k (.run source)).2 = { k with desk }) ∧
    (∀ (k : Kept) source, (k.parse stops i source).1 = i.parse source) ∧
    (∀ (k : Kept) rest, List.Forall₂ (Sight.Like (Shifted k.store.frames.size))
      (trace keeping Kept.sight (keeping k .reset).2 rest)
      (trace keeping Kept.sight (.startAt k.ticks) rest)) ∧
    ∀ steps, List.Forall₂ (fun a a' => ∃ first, a.Like (Shifted first) a')
      (trace keeping Kept.sight .new steps) (trace forgetting sight .new steps) := by
  intro i keeping forgetting
  have hi : ∀ l, Eval.AlikeHost l i.machine.host := fun _ => Eval.standard_alike clock
  refine ⟨fun steps => ⟨?_, ?_⟩, ?_, ?_, ?_, ?_, fun steps => ?_⟩
  · exact after_runs Kept.runs rfl (fun k => k.perform_runs stops i) steps
  · exact after_runs Session.runs rfl (fun s => s.perform_runs i) steps
  · exact fun k source => k.parse_snd stops i source
  · exact fun k source e h he => k.run_unread stops i source h he
  · exact fun k source => k.parse_fst stops i source
  · intro k rest
    rw [← Twins.empty_right k.store]
    exact trace_forall₂ (M := Kept.Mirrors k.store .empty)
      (fun step _ _ h => h.perform hi stops step) (.startAt k) rest
  · refine trace_forall₂
      (M := fun k s => ∃ old out desk, Kept.Mirrors old .empty k (s.keep out desk))
      (fun step _ _ h => Kept.Mirrors.forget hi stops step h) ⟨.empty, "", .new, ?_⟩ steps
    exact Kept.Mirrors.startAt ⟨.empty, 0, 0, "", .new, 0⟩

/-- The reader stops at the token that it rejects. -/
def stopsAtRejected (desk : Parser.Desk) : ParseError → Nat
  | .rejected _ token => desk.tokens.idxOf token
  | _ => desk.tokens.length - 1

theorem history_law_unread :
    let i := Interpreter.limited 1 9 9 fun _ => 0
    let k := after (fun (k : Kept) step => k.perform stopsAtRejected i step) .new
      [.run "n", .parse "tetapkan ;"]
    let last := k.run stopsAtRejected i "tetapkan ;"
    k.runs = 1 ∧ k.desk.cursor = 1 ∧ (∃ flaw, last.1.result = .error (.parse flaw)) ∧
      last.1.out = "" ∧
      ∃ desk, (k.perform stopsAtRejected i (.run "tetapkan ;")).2 = { k with desk } := by
  -- a program that fails is counted and one that cannot be read is not, although the reader stopped
  -- in the middle of the text before
  intro i k last
  have ht₁ : tokenize "n" = .ok [⟨.ident, "n", ⟨1, 1⟩⟩, .endMark ⟨1, 2⟩] := by cbv
  have ht₂ : tokenize "tetapkan ;" =
      .ok [⟨.letWord, "tetapkan", ⟨1, 1⟩⟩, ⟨.semicolon, ";", ⟨1, 10⟩⟩, .endMark ⟨1, 11⟩] := by cbv
  have hparse₁ := Interpreter.parse_eq_ok (i := i).mpr ⟨_, ht₁, rfl⟩
  have hread : ∀ k', (Kept.parse stopsAtRejected i k' "tetapkan ;").2.desk.cursor = 1 := by
    intro k'
    unfold Kept.parse
    rw [ht₂]
    rfl
  obtain ⟨flaw, hparse₂⟩ : ∃ flaw, i.parse "tetapkan ;" = .error (.parse flaw) := by
    unfold Interpreter.parse
    rw [ht₂]
    exact ⟨_, rfl⟩
  have hlast : last.1.result = .error (.parse flaw) := by
    obtain ⟨desk, hrun⟩ := k.run_eq stopsAtRejected i "tetapkan ;"
    change (k.run stopsAtRejected i "tetapkan ;").1.result = _
    rw [hrun, hparse₂]
  obtain ⟨hcount, -, hleft, -⟩ := history_law stopsAtRejected 1 9 9 fun _ => 0
  obtain ⟨hout, hstate⟩ := hleft k "tetapkan ;" _ hlast fun f h => by cases h
  have hruns : List.countP (·.counts i) [Step.run "n", .parse "tetapkan ;"] = 1 := by
    simp only [List.countP_cons, List.countP_nil, Step.counts, hparse₁]
    rfl
  exact ⟨(hcount [.run "n", .parse "tetapkan ;"]).1.trans hruns, hread _, ⟨flaw, hlast⟩, hout,
    hstate⟩

end Session

end Bahasa
