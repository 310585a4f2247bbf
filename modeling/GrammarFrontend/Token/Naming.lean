import GrammarFrontend.Token.Uppercase

/-! Names in grammar text: the characters that names are made of, and the convention that tells
names of tokens from names of rules.
-/

namespace GrammarFrontend

/-- Ranges of the characters that a name can start with. -/
def nameStartRanges : List (Nat × Nat) :=
  [(0x41, 0x5A), (0x61, 0x7A), (0xC0, 0xD6), (0xD8, 0xF6), (0xF8, 0x2FF), (0x370, 0x37D),
    (0x37F, 0x1FFF), (0x200C, 0x200D), (0x2070, 0x218F), (0x2C00, 0x2FEF), (0x3001, 0xD7FF),
    (0xF900, 0xFDCF), (0xFDF0, 0xFEFE), (0xFF00, 0xFFFD)]

/-- Ranges of the other characters that a name can go on with. -/
def nameRestRanges : List (Nat × Nat) :=
  [(0x30, 0x39), (0x5F, 0x5F), (0xB7, 0xB7), (0x300, 0x36F), (0x203F, 0x2040)]

def inRanges (ranges : List (Nat × Nat)) (c : Char) : Bool :=
  ranges.any (fun (first, last) => first ≤ c.toNat && c.toNat ≤ last)

def isNameStart (c : Char) : Bool := inRanges nameStartRanges c

def isNameChar (c : Char) : Bool := isNameStart c || inRanges nameRestRanges c

/-- A naming convention: which names are names of tokens. -/
abbrev Naming := String → Bool

/-- The usual convention: a token's name starts with an upper-case letter. -/
def uppercaseNaming : Naming := fun name =>
  match name.toList with
  | [] => false
  | c :: _ => isUppercase c

end GrammarFrontend
