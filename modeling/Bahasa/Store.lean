import Bahasa.Cause

namespace Bahasa

structure Binding where
  name : String
  value : Value
  constant : Bool

/-- The bindings with a new value in place of the one that the name has first. -/
def Binding.set (name : String) (v : Value) : List Binding → List Binding
  | [] => []
  | b :: rest => if b.name = name then { b with value := v } :: rest else b :: set name v rest

structure Frame where
  parent : Option FrameId
  bindings : List Binding

namespace Frame

def empty (parent : Option FrameId) : Frame :=
  ⟨parent, []⟩

def names (f : Frame) : List String :=
  f.bindings.map (·.name)

def find? (f : Frame) (name : String) : Option Binding :=
  f.bindings.find? (·.name == name)

def has (f : Frame) (name : String) : Bool :=
  f.bindings.any (·.name == name)

def declare (f : Frame) (b : Binding) : Frame :=
  ⟨f.parent, f.bindings ++ [b]⟩

def update (f : Frame) (name : String) (v : Value) : Frame :=
  ⟨f.parent, Binding.set name v f.bindings⟩

end Frame

structure Store where
  frames : Array Frame

namespace Store

def empty : Store := ⟨#[]⟩

def frame? (s : Store) (id : FrameId) : Option Frame :=
  s.frames[id]?

def names (s : Store) (id : FrameId) : List String :=
  ((s.frame? id).map Frame.names).getD []

def has (s : Store) (id : FrameId) (name : String) : Bool :=
  (s.frame? id).any (·.has name)

/-- The nearest frame that has the name, at most `steps` frames outwards. -/
def resolveWithin (s : Store) (name : String) : Nat → FrameId → Option FrameId
  | 0, _ => none
  | steps + 1, id =>
    match s.frame? id with
    | none => none
    | some f =>
      if f.has name then some id
      else match f.parent with
        | none => none
        | some outer => resolveWithin s name steps outer

def resolve? (s : Store) (id : FrameId) (name : String) : Option FrameId :=
  s.resolveWithin name s.frames.size id

def binding? (s : Store) (id : FrameId) (name : String) : Option Binding :=
  (s.resolve? id name).bind fun owner => (s.frame? owner).bind (·.find? name)

def push (s : Store) (parent : Option FrameId) : FrameId × Store :=
  (s.frames.size, ⟨s.frames.push (.empty parent)⟩)

def modify (s : Store) (id : FrameId) (f : Frame → Frame) : Store :=
  ⟨s.frames.modify id f⟩

end Store

abbrev Access := EStateM Cause Store

namespace Access

def declare (id : FrameId) (name : String) (v : Value) (constant : Bool) : Access Value :=
  fun s =>
    if s.has id name then .error (.redeclared name) s
    else .ok v (s.modify id (·.declare ⟨name, v, constant⟩))

def resolve (id : FrameId) (name : String) : Access FrameId :=
  fun s =>
    match s.resolve? id name with
    | some owner => .ok owner s
    | none => .error (.undeclared name) s

def lookup (id : FrameId) (name : String) : Access Value :=
  fun s =>
    match s.binding? id name with
    | some b => .ok b.value s
    | none => .error (.undeclared name) s

/-- Gives a new value to the nearest binding of the name, unless it is constant. -/
def assign (id : FrameId) (name : String) (v : Value) : Access Value :=
  fun s =>
    match s.resolve? id name with
    | none => .error (.undeclared name) s
    | some owner =>
      if ((s.frame? owner).bind (·.find? name)).any (·.constant) then .error (.constant name) s
      else .ok v (s.modify owner (·.update name v))

end Access

end Bahasa
