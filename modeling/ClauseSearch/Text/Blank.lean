/-! White space, and the words it separates. The characters are those with the property White_Space of
Unicode; bytes have a smaller set of their own, which leaves out the vertical tab. -/

namespace ClauseSearch.Blank

/-- The code points with the property, as ranges with both ends included. -/
def ranges : List (Nat × Nat) :=
  [(0x9, 0xD), (0x20, 0x20), (0x85, 0x85), (0xA0, 0xA0), (0x1680, 0x1680), (0x2000, 0x200A),
   (0x2028, 0x2029), (0x202F, 0x202F), (0x205F, 0x205F), (0x3000, 0x3000)]

def isBlank (c : Char) : Bool :=
  ranges.any fun (first, last) => first ≤ c.toNat && c.toNat ≤ last

/-- A space, tab, line feed, form feed or carriage return. -/
def isBlankByte (b : UInt8) : Bool := b == 32 || b == 9 || b == 10 || b == 12 || b == 13

/-- The text with its leading white space removed. -/
def trimStart (cs : List Char) : List Char := cs.dropWhile isBlank

/-- Puts a character before the pieces that follow it; a blank begins a new piece. -/
def consPiece (c : Char) : List (List Char) → List (List Char)
  | [] => if isBlank c then [[], []] else [[c]]
  | piece :: rest => if isBlank c then [] :: piece :: rest else (c :: piece) :: rest

/-- The pieces between blanks, of which some may be empty. -/
def pieces (cs : List Char) : List (List Char) := cs.foldr consPiece [[]]

def words (cs : List Char) : List (List Char) := (pieces cs).filter fun w => !w.isEmpty

def unwords (ws : List (List Char)) : List Char := [' '].intercalate ws

end ClauseSearch.Blank
