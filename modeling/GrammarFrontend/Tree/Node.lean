import GrammarFrontend.Token.Basic
import GrammarFrontend.Tree.Kind

/-! Syntax trees of grammars. A node has a kind, a text and children; a leaf made from a token keeps
the token, and roots and rules carry what they declare.
-/

namespace GrammarFrontend

/-- What a grammar describes; a grammar that says nothing of it describes both. -/
inductive GrammarType where
  | lexer
  | parser
  | combined
deriving DecidableEq, Repr, Inhabited

namespace GrammarType

def name : GrammarType → String
  | lexer => "Lexer"
  | parser => "Parser"
  | combined => "Combined"

def ofName? (name : String) : Option GrammarType :=
  [lexer, parser, combined].find? (·.name == name)

end GrammarType

/-- What a node declares. -/
inductive Payload where
  | none
  | grammar (type : GrammarType)
  | rule (name : String)
deriving DecidableEq, Repr, Inhabited

structure Node where
  kind : NodeKind
  token : Option Token
  text : String
  children : List Node
  payload : Payload
deriving Repr, Inhabited

namespace Node

mutual

/-- Trees are equal if all their nodes agree in kind, token, text, children and payload. -/
def decEq : (a b : Node) → Decidable (a = b)
  | ⟨kind, token, text, children, payload⟩, ⟨kind', token', text', children', payload'⟩ =>
      match decEqList children children' with
      | isTrue hc =>
          if h : kind = kind' ∧ token = token' ∧ text = text' ∧ payload = payload' then
            isTrue (by simp [h, hc])
          else
            isFalse (by simp_all)
      | isFalse hc => isFalse (by simp_all)

def decEqList : (as bs : List Node) → Decidable (as = bs)
  | [], [] => isTrue rfl
  | [], _ :: _ => isFalse (by simp)
  | _ :: _, [] => isFalse (by simp)
  | a :: as, b :: bs =>
      match decEq a b, decEqList as bs with
      | isTrue ha, isTrue has => isTrue (by rw [ha, has])
      | isFalse ha, _ => isFalse (by simp_all)
      | _, isFalse has => isFalse (by simp_all)

end

instance : DecidableEq Node := decEq

/-- A node that stands for no text of its own; its text is the name of its kind. -/
def new (kind : NodeKind) : Node :=
  { kind, token := none, text := kind.name, children := [], payload := .none }

def leaf (kind : NodeKind) (text : String) : Node := { new kind with text }

def withChildren (kind : NodeKind) (children : List Node) : Node := { new kind with children }

def ofToken (kind : NodeKind) (token : Token) : Node :=
  { new kind with text := token.text, token := some token }

/-- The root of a grammar; its first child names the grammar. -/
def grammar (type : GrammarType) (children : List Node) : Node :=
  { withChildren .grammar children with payload := .grammar type }

/-- A rule, which has the name of its first child. -/
def rule (children : List Node) : Node :=
  {
    withChildren .rule children with
    payload := .rule ((children.head?.map (·.text)).getD "")
  }

def withPayload (n : Node) (payload : Payload) : Node := { n with payload }

def span (n : Node) : Option Span := n.token.map (·.span)

def child? (n : Node) (i : Nat) : Option Node := n.children[i]?

def firstChildOf (n : Node) (kind : NodeKind) : Option Node :=
  n.children.find? (·.kind == kind)

def ruleName (n : Node) : Option String :=
  match n.payload with
  | .rule name => some name
  | _ => none

def grammarType (n : Node) : Option GrammarType :=
  match n.payload with
  | .grammar type => some type
  | _ => none

/-- The node reached from `n` by a path of child indexes. -/
def descend (n : Node) : List Nat → Option Node
  | [] => some n
  | i :: path => (n.child? i).bind (·.descend path)

mutual

/-- The tree on one line: a leaf is its text, any other node its text and its children, set apart
by blanks, in parentheses. -/
def render (n : Node) : List Char :=
  match n with
  | ⟨_, _, text, children, _⟩ =>
      match children with
      | [] => text.toList
      | children => '(' :: text.toList ++ renderAll children ++ [')']

/-- The children of a node, each after a blank. -/
def renderAll : List Node → List Char
  | [] => []
  | child :: children => ' ' :: render child ++ renderAll children

end

def toText (n : Node) : String := String.ofList n.render

mutual

/-- The number of nodes on the longest way down from a node, itself included. -/
def height (n : Node) : Nat :=
  match n with
  | ⟨_, _, _, children, _⟩ => heightAll children + 1

def heightAll : List Node → Nat
  | [] => 0
  | child :: children => max (height child) (heightAll children)

end

end Node

end GrammarFrontend
