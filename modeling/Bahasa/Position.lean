namespace Bahasa

structure Position where
  line : Int
  column : Int
  deriving DecidableEq, Repr

namespace Position

def start : Position := ⟨1, 1⟩

def step (p : Position) (c : Char) : Position :=
  if c = '\n' then ⟨p.line + 1, 1⟩ else ⟨p.line, p.column + 1⟩

def past (p : Position) (cs : List Char) : Position :=
  cs.foldl step p

def suffix (p : Position) : String :=
  s!" at line {p.line}, col {p.column}"

end Position

end Bahasa
