import Estree.Grammar.Leaf
import Estree.Grammar.Token
import Estree.Proofs.Grammar.Derivation

/-!
# What a tree spells

The words, numerals, operators and separators of a tree, one after another: what any text of it has
in common with any other.

Parentheses and blanks are not spelled, and neither are commas that stand for nothing; a hole in an
array is spelled by its comma. The lemmas tell what the nodes spell that the grammar builds while it
reads: a word, a run that has grown by a link, operands that have been joined.
-/

namespace Estree

namespace Expr

mutual

/-- What the text of a tree says apart from its layout. -/
def spelled : Expr → List Char
  | literal _ raw _ => raw.toList
  | identifier _ name => name.toList
  | this _ => "this".toList
  | array _ elements => '[' :: (spelledSlots elements ++ [']'])
  | sequence _ expressions => spelledList expressions
  | conditional _ test consequent alternate =>
    test.spelled ++ '?' :: (consequent.spelled ++ ':' :: alternate.spelled)
  | new _ callee arguments => "new".toList ++ (callee.spelled ++ spelledList arguments)
  | call _ callee arguments optional =>
    callee.spelled ++ ((if optional then ['?', '.'] else []) ++ spelledList arguments)
  | member _ object property computed optional =>
    object.spelled ++
      ((⟨optional, computed⟩ : Access).text.toList ++
        (property.spelled ++ if computed then [']'] else []))
  | chain _ expression => expression.spelled
  | update _ operator leading argument =>
    if leading then operator.text.toList ++ argument.spelled
    else argument.spelled ++ operator.text.toList
  | unary _ operator _ argument => operator.text.toList ++ argument.spelled
  | binary _ operator left right =>
    left.spelled ++ ((InfixOperator.binary operator).text.toList ++ right.spelled)
  | logical _ operator left right =>
    left.spelled ++ ((InfixOperator.logical operator).text.toList ++ right.spelled)

/-- What expressions spell with commas between them. -/
def spelledList : List Expr → List Char
  | [] => []
  | e :: rest => e.spelled ++ if rest.isEmpty then [] else ',' :: spelledList rest

/-- What elements spell: each hole a comma, and one more comma between an element and what
follows. -/
def spelledSlots : List (Option Expr) → List Char
  | [] => []
  | none :: rest => ',' :: spelledSlots rest
  | some e :: rest => e.spelled ++ if rest.isEmpty then [] else ',' :: spelledSlots rest

end

variable {e : Expr} {es : List Expr} {elements : List (Option Expr)}

/-- Before and after one expression there is no comma. -/
theorem spelledList_singleton (e : Expr) : spelledList [e] = e.spelled := by
  rw [spelledList]
  exact List.append_nil _

/-- A comma stands between an expression and the others. -/
theorem spelledList_cons (h : es ≠ []) :
    spelledList (e :: es) = e.spelled ++ ',' :: spelledList es := by
  cases es with
  | nil => exact absurd rfl h
  | cons => rfl

/-- Behind a last element there is no comma. -/
theorem spelledSlots_singleton (e : Expr) : spelledSlots [some e] = e.spelled := by
  rw [spelledSlots]
  exact List.append_nil _

/-- A comma stands between an element and the others. -/
theorem spelledSlots_cons (h : elements ≠ []) :
    spelledSlots (some e :: elements) = e.spelled ++ ',' :: spelledSlots elements := by
  cases elements with
  | nil => exact absurd rfl h
  | cons => rfl

/-! ## Nodes that the grammar builds -/

/-- A word spells itself. -/
theorem spelled_ofWord (span : Span) (word : String) :
    (Leaf.ofWord span word).spelled = word.toList := by
  unfold Leaf.ofWord
  split <;> rfl

/-- A chain spells what the run does. -/
theorem spelled_finish (links : Links) : links.finish.spelled = links.node.spelled := by
  rw [Links.finish]
  split
  next => rfl
  next => rfl

/-- Joined operands are spelled with the operator between them. -/
theorem spelled_join (operator : InfixOperator) (left right : Expr) :
    (operator.join left right).spelled =
      left.spelled ++ (operator.text.toList ++ right.spelled) := by
  cases operator with
  | binary => rfl
  | logical => rfl

/-- One more access is spelled behind the run. -/
theorem spelled_memberLinks (before : Links) (property : Expr) (access : Access) (stop : Nat) :
    (Grammar.memberLinks before property access stop).node.spelled =
      before.node.spelled ++
        (access.text.toList ++ (property.spelled ++ if access.computed then [']'] else [])) :=
  rfl

/-- So is one more call. -/
theorem spelled_callLinks (before : Links) (arguments : List Expr) (optional : Bool) (stop : Nat) :
    (Grammar.callLinks before arguments optional stop).node.spelled =
      before.node.spelled ++ ((if optional then ['?', '.'] else []) ++ spelledList arguments) :=
  rfl

end Expr

end Estree
