import Bahasa.Node.Basic

namespace Bahasa

namespace Kind

def operand? : Kind → Option LeafKind
  | ident => some .ident
  | number => some .number
  | string => some .string
  | arith => some .operator
  | _ => none

def keyword? : Kind → Option LeafKind
  | letWord => some .letWord
  | constWord => some .constWord
  | _ => none

/-- No leaf keeps a token of this kind. -/
def Passing (k : Kind) : Prop :=
  k.operand? = none ∧ k.keyword? = none

end Kind

namespace Token

def operand? (t : Token) : Option Node :=
  t.kind.operand?.map (.ofToken · t)

def keyword? (t : Token) : Option Node :=
  t.kind.keyword?.map (.ofToken · t)

end Token

namespace Node

mutual

def preorder : Node → List Node
  | .tree label children place => .tree label children place :: preorderAll children
  | n => [n]

def preorderAll : List Node → List Node
  | [] => []
  | n :: ns => preorder n ++ preorderAll ns

end

@[simp] theorem preorderAll_eq (ns : List Node) : preorderAll ns = ns.flatMap preorder := by
  induction ns with
  | nil => rfl
  | cons n ns ih => rw [preorderAll, ih, List.flatMap_cons]

@[simp] theorem preorder_tree (label : Label) (children : List Node) (p : Option Place) :
    preorder (.tree label children p) = .tree label children p :: children.flatMap preorder := by
  rw [preorder, preorderAll_eq]

@[simp] theorem preorder_leaf (kind : LeafKind) (text : String) (p : Option Place) :
    preorder (.leaf kind text p) = [.leaf kind text p] := by
  rw [preorder]
  nofun

@[simp] theorem preorder_absent : preorder .absent = [.absent] := by
  rw [preorder]
  nofun

def isOperand : Node → Bool
  | .leaf kind _ _ => kind ∈ [.ident, .number, .string, .operator]
  | _ => false

def isKeyword : Node → Bool
  | .leaf kind _ _ => kind ∈ [.letWord, .constWord]
  | _ => false

end Node

end Bahasa
