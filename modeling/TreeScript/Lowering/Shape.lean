import TreeScript.Lowering.CompileError

/-!
# Checks on the shape of trees

The checks that lowering makes on single nodes and leaves before it looks further.
-/

namespace TreeScript.Tree

/-- Whether a tree is a leaf with the given text. -/
def isText (tree : Tree) (text : String) : Bool := tree.isLeaf && tree.text == text

/-- Require a leaf with the given text. -/
def requireText (tree : Tree) (text : String) : Except CompileError Unit :=
  if tree.isText text then .ok () else .error (tree.malformed (.wrongText text tree.text))

/-- Require a node of the given rule at a position below its parent. -/
def requireRule (tree : Tree) (rule : Rule) (index : Nat) (parent : Tree) :
    Except CompileError Unit :=
  if tree.rule? = some rule then .ok ()
  else .error (tree.malformed (.wrongRule rule index parent.rule?))

/-- The one child of a node. -/
def onlyChild (tree : Tree) : Except CompileError Tree :=
  match tree.children with
  | [child] => .ok child
  | _ => .error (tree.unsupported .notOneChild)

/-- The name in an identifier. -/
def identifierName (tree : Tree) : Except CompileError String := do
  if tree.rule? ≠ some .identifier then throw (tree.malformed .notAnIdentifier)
  let token ← tree.onlyChild
  if token.isLeaf then return token.text else throw (token.malformed .identifierNotToken)

/-- The name that an assignable binds. -/
def assignableName (tree : Tree) : Except CompileError String := do
  if tree.rule? ≠ some .assignable then throw (tree.malformed .notAnAssignable)
  let inner ← tree.onlyChild
  if inner.rule? = some .identifier then inner.identifierName
  else throw (tree.unsupported .destructuring)

/-- The name of a member that is read. -/
def memberName (tree : Tree) : Except CompileError String := do
  if tree.rule? ≠ some .identifierName then throw (tree.malformed .notAMemberName)
  let inner ← tree.onlyChild
  if inner.rule? = some .identifier then inner.identifierName
  else if inner.isLeaf then return inner.text
  else throw (inner.malformed .notAMemberName)

/-- The name of a member that is written: an identifier in front, or else the whole text. -/
def targetMemberName (tree : Tree) : Except CompileError String :=
  match tree.children.head? with
  | some inner => if inner.rule? = some .identifier then inner.identifierName else .ok tree.text
  | none => .ok tree.text

/-- The names of a function's parameters in order, after those already collected. -/
def parameterNames (seen : List String) : List Tree → Except CompileError (List String)
  | [] => .ok seen
  | parameter :: rest =>
    if parameter.isLeaf then
      if parameter.text == "," then parameterNames seen rest
      else .error (parameter.malformed .parameterSeparator)
    else
      match parameter with
      | .node .formalParameterArg [assignable] _ => do
        let name ← assignable.assignableName
        if seen.contains name then throw (parameter.malformed (.duplicateParameter name))
        parameterNames (seen ++ [name]) rest
      | _ => .error (parameter.unsupported .parameterShape)

end TreeScript.Tree
