import GrammarFrontend.Source.Character

/-! Strict JSON: a value is read from a whole text, with blanks around it and nothing else. Numbers
keep their spelling. A string may hold an escaped half of a surrogate pair, and then it has no
text.
-/

namespace GrammarFrontend

inductive Json where
  | null
  | bool (value : Bool)
  | number (spelling : List Char)
  | string (text : Option (List Char))
  | array (items : List Json)
  | object (members : List (Option (List Char) × Json))

namespace Json

/-- What a reader finds at the front of a text, and what follows it. -/
abbrev Reader (α : Type) := List Char → Option (α × List Char)

def isSpace (c : Char) : Bool := c == ' ' || c == '\n' || c == '\t' || c == '\r'

def skipBlanks (text : List Char) : List Char := text.dropWhile isSpace

def digits : Reader (List Char) := fun text =>
  match text.takeWhile Char.isDigit with
  | [] => none
  | found => some (found, text.dropWhile Char.isDigit)

/-- An integer without sign; a zero is not followed by another digit. -/
def integer : Reader (List Char) := fun text =>
  match digits text with
  | some ('0' :: _ :: _, _) => none
  | found => found

def fraction : Reader (List Char)
  | '.' :: text => (digits text).map (fun (found, rest) => ('.' :: found, rest))
  | text => some ([], text)

def exponent : Reader (List Char) := fun text =>
  match text with
  | e :: text' =>
      if e == 'e' || e == 'E' then
        match text' with
        | sign :: text'' =>
            if sign == '+' || sign == '-' then
              (digits text'').map (fun (found, rest) => (e :: sign :: found, rest))
            else
              (digits text').map (fun (found, rest) => (e :: found, rest))
        | [] => none
      else
        some ([], text)
  | [] => some ([], [])

def readNumber : Reader Json := fun text => do
  let (sign, text) := match text with
    | '-' :: rest => (['-'], rest)
    | _ => ([], text)
  let (whole, text) ← integer text
  let (part, text) ← fraction text
  let (power, text) ← exponent text
  return (.number (sign ++ whole ++ part ++ power), text)

/-- One piece of a string: a character, or a 16-bit unit given by an escape. -/
inductive Piece where
  | plain (c : Char)
  | unit (n : Nat)
deriving DecidableEq, Repr

def simpleEscape? (c : Char) : Option Char :=
  [('"', '"'), ('\\', '\\'), ('/', '/'), ('b', '\x08'), ('f', '\x0c'), ('n', '\n'), ('r', '\r'),
    ('t', '\t')].lookup c

/-- The pieces of a string after its opening quote. -/
def pieces : Reader (List Piece)
  | [] => none
  | '"' :: text => some ([], text)
  | '\\' :: 'u' :: a :: b :: c :: d :: text => do
      let (found, rest) ← pieces text
      if [a, b, c, d].all isHexDigit then return (.unit (hexValue [a, b, c, d]) :: found, rest)
      else none
  | '\\' :: c :: text => do
      let escaped ← simpleEscape? c
      let (found, rest) ← pieces text
      return (.plain escaped :: found, rest)
  | c :: text =>
      if c.toNat < 0x20 || c == '\\' then none
      else do
        let (found, rest) ← pieces text
        return (.plain c :: found, rest)

/-- The text of a string: two units that form a surrogate pair are one character, and a unit of
such a pair has no meaning alone. -/
def join : List Piece → Option (List Char)
  | [] => some []
  | .plain c :: found => (join found).map (c :: ·)
  | .unit high :: .unit low :: found =>
      if 0xD800 ≤ high && high ≤ 0xDBFF then
        if 0xDC00 ≤ low && low ≤ 0xDFFF then
          (join found).map
            (Char.ofNat (0x10000 + (high - 0xD800) * 0x400 + (low - 0xDC00)) :: ·)
        else none
      else if 0xDC00 ≤ high && high ≤ 0xDFFF then none
      else (join (.unit low :: found)).map (Char.ofNat high :: ·)
  | .unit n :: found =>
      if 0xD800 ≤ n && n ≤ 0xDFFF then none else (join found).map (Char.ofNat n :: ·)

/-- The text of a string after its opening quote. -/
def readString : Reader (Option (List Char)) := fun text =>
  (pieces text).map (fun (found, rest) => (join found, rest))

mutual

/-- A value, with blanks before it; each call of one of these readers for another has less fuel. -/
def readValue : Nat → Reader Json
  | 0, _ => none
  | fuel + 1, text =>
      match skipBlanks text with
      | 'n' :: 'u' :: 'l' :: 'l' :: rest => some (.null, rest)
      | 't' :: 'r' :: 'u' :: 'e' :: rest => some (.bool true, rest)
      | 'f' :: 'a' :: 'l' :: 's' :: 'e' :: rest => some (.bool false, rest)
      | '"' :: rest => (readString rest).map (fun (found, rest) => (.string found, rest))
      | '[' :: rest =>
          match skipBlanks rest with
          | ']' :: rest => some (.array [], rest)
          | rest => (readItems fuel rest).map (fun (found, rest) => (.array found, rest))
      | '{' :: rest =>
          match skipBlanks rest with
          | '}' :: rest => some (.object [], rest)
          | rest => (readMembers fuel rest).map (fun (found, rest) => (.object found, rest))
      | rest => readNumber rest

/-- The items of an array up to its closing bracket; there is at least one. -/
def readItems : Nat → Reader (List Json)
  | 0, _ => none
  | fuel + 1, text => do
      let (first, rest) ← readValue fuel text
      match skipBlanks rest with
      | ',' :: rest =>
          let (found, rest) ← readItems fuel rest
          return (first :: found, rest)
      | ']' :: rest => return ([first], rest)
      | _ => none

/-- The members of an object up to its closing brace; there is at least one. -/
def readMembers : Nat → Reader (List (Option (List Char) × Json))
  | 0, _ => none
  | fuel + 1, text =>
      match skipBlanks text with
      | '"' :: rest => do
          let (key, rest) ← readString rest
          match skipBlanks rest with
          | ':' :: rest =>
              let (first, rest) ← readValue fuel rest
              match skipBlanks rest with
              | ',' :: rest =>
                  let (found, rest) ← readMembers fuel rest
                  return ((key, first) :: found, rest)
              | '}' :: rest => return ([(key, first)], rest)
              | _ => none
          | _ => none
      | _ => none

end

/-- The value that a whole text spells. -/
def read? (text : List Char) : Option Json :=
  match readValue (2 * text.length + 1) text with
  | some (found, rest) => if (skipBlanks rest).isEmpty then some found else none
  | none => none

end Json

end GrammarFrontend
