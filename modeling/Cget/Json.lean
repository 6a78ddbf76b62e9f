import Cget.Lib.Binary64
import Cget.Types
/-!
# JSON

`json.cpp`: the parser, which moves a cursor over the input, and the printer. The cursor is
what is left of the input; errors give its place. An object is the list of its entries in the
order of their keys, as `std::map` iterates it. NaN and the infinities are left out.
-/

namespace Cget

namespace Json

inductive Value where
  | null
  | bool (b : Bool)
  | number (d : Rat)
  | string (s : Text)
  | array (a : List Value)
  | object (o : List (Text × Value))

/-- `Value(std::uint64_t)`. -/
def Value.ofUint64 (n : Nat) : Value := .number (Binary64.nearest n)

/-! ## Numbers -/

def isDigit (b : UInt8) : Bool := 48 ≤ b && b ≤ 57

/-- The number some digits stand for. -/
def natOf (digits : Text) : Nat := digits.foldl (fun n b => 10 * n + (b.toNat - 48)) 0

def pow10 (e : Int) : Rat := if 0 ≤ e then 10 ^ e.toNat else 1 / 10 ^ (-e).toNat

/-- What follows `e` or `E`. -/
def exponentOf : Text → Int
  | 45 :: s => -(natOf (s.takeWhile isDigit) : Int)
  | 43 :: s => natOf (s.takeWhile isDigit)
  | s => natOf (s.takeWhile isDigit)

/-- `std::stod` of what `parseNumber` passes to it. -/
def stod (s : Text) : Except Exn Rat :=
  let negative := s.head? = some 45
  let s := if negative then s.tail else s
  let int := s.takeWhile isDigit
  let s := s.dropWhile isDigit
  let frac := if s.head? = some 46 then s.tail.takeWhile isDigit else []
  let s := if s.head? = some 46 then s.tail.dropWhile isDigit else s
  let exp := if s = [] then 0 else exponentOf s.tail
  if int = [] ∧ frac = [] then .error (.other (text "stod"))
  else
    let exact := natOf (int ++ frac) * pow10 (exp - frac.length)
    let d := Binary64.nearest exact
    if Binary64.overflow ≤ d ∨ exact < Binary64.smallestNormal ∧ d ≠ exact then .error (.other (text "stod"))
    else .ok (if negative then -d else d)

/-- The decimal exponent of a positive number. -/
def decimalExponent (a : Rat) : Int :=
  let e : Int := ((decimal a.num.natAbs).length : Int) - (decimal a.den).length
  if a < pow10 e then e - 1 else e

/-- The digits after the point, without trailing zeros. -/
def fraction (digits : Text) : Text :=
  let digits := (digits.reverse.dropWhile (· = 48)).reverse
  if digits = [] then [] else 46 :: digits

/-- `out << std::setprecision(17) << d`, for `d` not 0. -/
def formatDouble (d : Rat) : Text :=
  let a := if d < 0 then -d else d
  let e := decimalExponent a
  let m := (Binary64.roundEven (a / pow10 (e - 16))).toNat
  let e := if m = 10 ^ 17 then e + 1 else e
  let digits := if m = 10 ^ 17 then decimal (10 ^ 16) else decimal m
  let sign : Text := if d < 0 then [45] else []
  if e < -4 ∨ 17 ≤ e then
    sign ++ digits.take 1 ++ fraction (digits.drop 1) ++ [101, if e < 0 then 45 else 43] ++
      (if e.natAbs < 10 then [48] else []) ++ decimal e.natAbs
  else if 0 ≤ e then sign ++ digits.take (e.toNat + 1) ++ fraction (digits.drop (e.toNat + 1))
  else sign ++ [48] ++ fraction (List.replicate ((-e).toNat - 1) 48 ++ digits)

/-- How `stringifyInto` prints a number. Not defined in the source for whole numbers from 2 ^ 64 on. -/
def printNumber (d : Rat) : Text := if d.floor = d ∧ 0 ≤ d then decimal d.floor.toNat else formatDouble d

/-! ## Printing -/

/-- A byte of a string: a quote, a backslash or a control character with a name is escaped. -/
def escapeByte : UInt8 → Text
  | 34 => [92, 34]
  | 92 => [92, 92]
  | 8 => [92, 98]
  | 12 => [92, 102]
  | 10 => [92, 110]
  | 13 => [92, 114]
  | 9 => [92, 116]
  | c => [c]

def escapeString (value : Text) : Text := value.flatMap escapeByte

def appendIndent (count : Int) : Text := List.replicate count.toNat 32

/-- A string in quotes. -/
def quoted (s : Text) : Text := 34 :: escapeString s ++ [34]

mutual

def stringifyInto (indent level : Int) : Value → Text
  | .null => text "null"
  | .bool b => if b then text "true" else text "false"
  | .number d => printNumber d
  | .string s => quoted s
  | .array [] => [91, 93]
  | .array (v :: vs) => [91, 10] ++ stringifyItems indent (level + indent) (v :: vs) ++ appendIndent level ++ [93]
  | .object [] => [123, 125]
  | .object (m :: ms) => [123, 10] ++ stringifyMembers indent (level + indent) (m :: ms) ++ appendIndent level ++ [125]

/-- The loop over an array, at the level of its elements. -/
def stringifyItems (indent level : Int) : List Value → Text
  | [] => []
  | v :: vs =>
    appendIndent level ++ stringifyInto indent level v ++
      (if vs.isEmpty then [10] else [44, 10]) ++ stringifyItems indent level vs

/-- The loop over an object. -/
def stringifyMembers (indent level : Int) : List (Text × Value) → Text
  | [] => []
  | (key, v) :: ms =>
    appendIndent level ++ quoted key ++ [58, 32] ++ stringifyInto indent level v ++
      (if ms.isEmpty then [10] else [44, 10]) ++
      stringifyMembers indent level ms

end

def stringify (v : Value) (indent : Int) : Text := stringifyInto indent 0 v ++ [10]

/-! ## Parsing -/

def isWhitespace (b : UInt8) : Bool := b = 32 || b = 10 || b = 13 || b = 9

def skipWhitespace (s : Text) : Text := s.dropWhile isWhitespace

section Parser

-- the length of the input
variable (n : Nat)

/-- `fail` with the cursor at `s`. -/
def fail {α : Type} (s : Text) (message : Text) : Except Exn α :=
  .error (.other (text "json parse error at byte " ++ decimal (n - s.length) ++ text ": " ++ message))

def parseLiteral (literal : String) (v : Value) (s : Text) : Except Exn (Value × Text) :=
  if (text literal).isPrefixOf s then .ok (v, s.drop (text literal).length) else fail n s
    (text "expected " ++ text literal)

def unescape : UInt8 → Option UInt8
  | 34 => some 34
  | 92 => some 92
  | 47 => some 47
  | 98 => some 8
  | 102 => some 12
  | 110 => some 10
  | 114 => some 13
  | 116 => some 9
  | _ => none

/-- The loop of `parseString`; `escaped` after a backslash. -/
def parseChars (escaped : Bool) (result : Text) : Text → Except Exn (Text × Text)
  | [] => if escaped then fail n [] (text "unexpected end of input") else fail n [] (text "unterminated string")
  | c :: s =>
    if escaped then
      match unescape c with
      | some b => parseChars false (result ++ [b]) s
      | none => fail n s (text "unsupported escape sequence")
    else if c = 34 then .ok (result, s)
    else if c = 92 then parseChars true result s
    else parseChars false (result ++ [c]) s

def parseString : Text → Except Exn (Text × Text)
  | 34 :: s => parseChars n false [] s
  | s => fail n s (text "expected string")

/-- Where the cursor of `parseNumber` stops. -/
def numberEnd (s : Text) : Text :=
  let s := if s.head? = some 45 then s.tail else s
  let s := if s.head? = some 48 then s.tail else s.dropWhile isDigit
  let s := if s.head? = some 46 then s.tail.dropWhile isDigit else s
  if s.head? = some 101 ∨ s.head? = some 69 then
    (if s.tail.head? = some 43 ∨ s.tail.head? = some 45 then s.tail.tail else s.tail).dropWhile isDigit
  else s

def parseNumber (s : Text) : Except Exn (Value × Text) := do
  let d ← stod (s.take (s.length - (numberEnd s).length))
  pure (.number d, numberEnd s)

/-- `std::map::emplace`. -/
def emplace (key : Text) (v : Value) : List (Text × Value) → List (Text × Value)
  | [] => [(key, v)]
  | (k, u) :: o =>
    if key < k then (key, v) :: (k, u) :: o else if key = k then (k, u) :: o else (k, u) :: emplace key v o

/-- The parser has more turns than the input has bytes. -/
def outOfTurns : Exn := .cget .internalError (text "out of turns")

mutual

def parseValue : Nat → Text → Except Exn (Value × Text)
  | 0, _ => .error outOfTurns
  | turns + 1, s =>
    match skipWhitespace s with
    | 110 :: s' => parseLiteral n "null" .null (110 :: s')
    | 116 :: s' => parseLiteral n "true" (.bool true) (116 :: s')
    | 102 :: s' => parseLiteral n "false" (.bool false) (102 :: s')
    | 34 :: s' => do
      let (t, s'') ← parseString n (34 :: s')
      pure (.string t, s'')
    | 91 :: s' =>
      match skipWhitespace s' with
      | 93 :: s'' => pure (.array [], s'')
      | s'' => parseItems turns [] s''
    | 123 :: s' =>
      match skipWhitespace s' with
      | 125 :: s'' => pure (.object [], s'')
      | s'' => parseMembers turns [] s''
    | s' =>
      if (s'.head?.map fun c => c = 45 || isDigit c) = some true then parseNumber s' else fail n s'
        (text "expected value")

/-- The loop of `parseArray`. -/
def parseItems : Nat → List Value → Text → Except Exn (Value × Text)
  | 0, _, _ => .error outOfTurns
  | turns + 1, result, s => do
    let (v, s') ← parseValue turns s
    match skipWhitespace s' with
    | 93 :: s'' => pure (.array (result ++ [v]), s'')
    | 44 :: s'' => parseItems turns (result ++ [v]) s''
    | s'' => fail n s'' (text "expected ',' or ']'")

/-- The loop of `parseObject`. -/
def parseMembers : Nat → List (Text × Value) → Text → Except Exn (Value × Text)
  | 0, _, _ => .error outOfTurns
  | turns + 1, result, s => do
    let (key, s') ← parseString n (skipWhitespace s)
    match skipWhitespace s' with
    | 58 :: s'' => do
      let (v, s₁) ← parseValue turns s''
      match skipWhitespace s₁ with
      | 125 :: s₂ => pure (.object (emplace key v result), s₂)
      | 44 :: s₂ => parseMembers turns (emplace key v result) s₂
      | s₂ => fail n s₂ (text "expected ',' or '\x7d'")
    | s'' => fail n s'' (text "expected ':'")

end

end Parser

def parse (input : Text) : Except Exn Value := do
  let (v, s) ← parseValue input.length (2 * input.length + 1) (skipWhitespace input)
  match skipWhitespace s with
  | [] => pure v
  | s' => fail input.length s' (text "unexpected trailing input")

end Json

end Cget
