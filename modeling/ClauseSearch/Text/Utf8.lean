/-! Bytes read as UTF-8. A character takes one to four bytes, in the shortest form and without
surrogates. A byte that begins no character stands for an error, and reading goes on after it. -/

namespace ClauseSearch.Utf8

/-- The payload of a continuation byte. -/
def continuation? (b : UInt8) : Option Nat :=
  if b.toNat / 64 = 2 then some (b.toNat % 64) else none

/-- What a first byte announces: how many bytes follow, its own payload, and the least code point that
needs this length. -/
def announced? (b : UInt8) : Option (Nat × Nat × Nat) :=
  let n := b.toNat
  if n < 0x80 then some (0, n, 0)
  else if n / 32 = 6 then some (1, n % 32, 0x80)
  else if n / 16 = 14 then some (2, n % 16, 0x800)
  else if n / 8 = 30 then some (3, n % 8, 0x10000)
  else none

/-- The payload extended by a number of continuation bytes. -/
def extend? (payload : Nat) : Nat → List UInt8 → Option Nat
  | 0, _ => some payload
  | _ + 1, [] => none
  | count + 1, b :: rest => (continuation? b).bind fun bits => extend? (payload * 64 + bits) count rest

/-- The character that begins with the byte, and how many of the bytes after it belong to it. -/
def char? (b : UInt8) (rest : List UInt8) : Option (Char × Nat) := do
  let (count, payload, least) ← announced? b
  let n ← extend? payload count rest
  if least ≤ n ∧ n.isValidChar then some (Char.ofNat n, count) else none

/-- Reads on after `done`, whose characters are in reverse, with the next `skip` bytes already read. -/
def decodeOnto (done : List (Option Char)) : (skip : Nat) → List UInt8 → List (Option Char)
  | _, [] => done.reverse
  | skip + 1, _ :: rest => decodeOnto done skip rest
  | 0, b :: rest =>
    match char? b rest with
    | some (c, count) => decodeOnto (some c :: done) count rest
    | none => decodeOnto (none :: done) 0 rest

/-- The characters of the bytes, with none for each error. -/
def decode (bytes : List UInt8) : List (Option Char) := decodeOnto [] 0 bytes

/-- The characters, if there is no error. -/
def strict? (bytes : List UInt8) : Option (List Char) := (decode bytes).mapM id

/-- The characters, with the replacement character for each error. -/
def lossy (bytes : List UInt8) : List Char := (decode bytes).map (·.getD '\uFFFD')

end ClauseSearch.Utf8
