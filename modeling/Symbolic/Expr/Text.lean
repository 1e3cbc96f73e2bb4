import Symbolic.Expr.Construction

/-! The two texts of an expression: one to read and one that nothing else shares. -/
namespace Symbolic.Expr

/-- Two ordered children stand around the tag, which has spaces if it is a word; any other number
stands in parentheses behind it. -/
def orderedText (tag : String) (isWord : Bool) : List String → String
  | [lhs, rhs] =>
    if isWord then "(" ++ lhs ++ " " ++ tag ++ " " ++ rhs ++ ")"
    else "(" ++ lhs ++ tag ++ rhs ++ ")"
  | texts => tag ++ "(" ++ ", ".intercalate texts ++ ")"

/-- A multiplicity other than one stands before the text in brackets. -/
def countedText (count : Nat) (text : String) : String :=
  if count = 1 then text else "[" ++ toString count ++ "]" ++ text

mutual

def toText : Expr → String
  | .constant value => value.toText
  | .symbol name => name
  | .nary op terms => "(" ++ op.tag.intercalate (termTexts terms) ++ ")"
  | .unary op arg => op.tag ++ "(" ++ arg.toText ++ ")"
  | .binary op lhs rhs => orderedText op.tag op.isWord [lhs.toText, rhs.toText]
  | .conditional test whenTrue whenFalse =>
    orderedText "?:" false [test.toText, whenTrue.toText, whenFalse.toText]
  | .call callee args => orderedText "fn" true (callee.toText :: argTexts args)
termination_by structural e => e

def termTexts : List (Expr × Nat) → List String
  | [] => []
  | (e, count) :: rest => countedText count e.toText :: termTexts rest
termination_by structural terms => terms

def argTexts : List Expr → List String
  | [] => []
  | e :: rest => e.toText :: argTexts rest
termination_by structural args => args

end

def debugText (e : Expr) : String := "Expr(" ++ e.toText ++ ")"

/-- Tag and children in parentheses, with a space before each child. -/
def enclosed (tag : String) (texts : List String) : String :=
  "(" ++ String.join (tag :: texts.map (" " ++ ·)) ++ ")"

/-- Doubles are marked, and symbols carry the length of their name in bytes, so that no name is
taken for a constant or for the end of its node. -/
def atomTree : Expr → String
  | .constant (.float value) => "f" ++ value.toText
  | .constant value => value.toText
  | .symbol name => "$" ++ toString name.utf8ByteSize ++ ":" ++ name
  | _ => ""

mutual

/-- The unambiguous text: every operation in parentheses, its operator first. -/
def toTree : Expr → String
  | .nary op terms => enclosed op.tag (termTrees terms)
  | .unary op arg => enclosed op.tag [arg.toTree]
  | .binary op lhs rhs => enclosed op.tag [lhs.toTree, rhs.toTree]
  | .conditional test whenTrue whenFalse =>
    enclosed "?:" [test.toTree, whenTrue.toTree, whenFalse.toTree]
  | .call callee args => enclosed "fn" (callee.toTree :: argTrees args)
  | atom => atom.atomTree
termination_by structural e => e

def termTrees : List (Expr × Nat) → List String
  | [] => []
  | (e, count) :: rest => countedText count e.toTree :: termTrees rest
termination_by structural terms => terms

def argTrees : List Expr → List String
  | [] => []
  | e :: rest => e.toTree :: argTrees rest
termination_by structural args => args

end
end Symbolic.Expr
