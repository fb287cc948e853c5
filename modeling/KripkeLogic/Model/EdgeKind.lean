import KripkeLogic.Value

/-! # The two edge sets of a model -/

namespace KripkeLogic

inductive EdgeKind
  | preorder
  | relation
deriving DecidableEq, Inhabited

namespace EdgeKind

def word : EdgeKind → List Char
  | preorder => ['p', 'r', 'e', 'o', 'r', 'd', 'e', 'r']
  | relation => ['r', 'e', 'l', 'a', 't', 'i', 'o', 'n']

def ofWord? (cs : List Char) : Option EdgeKind :=
  if cs = preorder.word then some preorder
  else if cs = relation.word then some relation
  else none

end EdgeKind

end KripkeLogic
