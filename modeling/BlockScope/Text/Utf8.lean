/-!
# Bytes as characters

Three readings of bytes. `latin1` takes each byte for the character of the same number. `decode` reads
the first character of an input by the UTF-8 bit layout; where the layout is broken it answers U+FFFD
for one byte. `lossy` reads a whole byte string by the exact UTF-8 syntax and puts one U+FFFD for every
longest stretch that starts a character but does not end one; `isValid` says that there is none.
-/
namespace BlockScope.Text

/-- The character that stands for bytes that are none. -/
def replacement : Char := Char.ofNat 0xFFFD

/-- Each byte as the character of the same number. -/
def latin1 (bytes : List UInt8) : String := String.ofList (bytes.map fun b => Char.ofNat b.toNat)

/-- Of the form `10xxxxxx`. -/
def isContinuation (b : UInt8) : Bool := 0x80 ≤ b && b < 0xC0

/-- Appends the low six bits of `n` continuation bytes to `bits`; nothing if one is missing. -/
def continued : (n : Nat) → (bits : Nat) → List UInt8 → Option Nat
  | 0, bits, _ => some bits
  | _ + 1, _, [] => none
  | n + 1, bits, b :: rest =>
    if isContinuation b then continued n (bits * 64 + b.toNat % 64) rest else none

/-- The character whose lead byte carries `bits` and calls for `n` more bytes. -/
def decodeLong (n bits : Nat) (rest : List UInt8) : Char × Nat :=
  match continued n bits rest with
  | some code => if code.isValidChar then (Char.ofNat code, n) else (replacement, 0)
  | none => (replacement, 0)

/-- The first character of the input and the number of bytes it takes after its first one. -/
def decode : List UInt8 → Option (Char × Nat)
  | [] => none
  | b :: rest => some <|
    if b < 0x80 then (Char.ofNat b.toNat, 0)
    else if b < 0xC0 then (replacement, 0)
    else if b < 0xE0 then decodeLong 1 (b.toNat % 32) rest
    else if b < 0xF0 then decodeLong 2 (b.toNat % 16) rest
    else if b < 0xF8 then decodeLong 3 (b.toNat % 8) rest
    else (replacement, 0)

/-- What the UTF-8 syntax lets follow a lead byte: how many bytes, and the range of the first of
them; the others range over all continuation bytes. -/
def followers (b : UInt8) : Option (Nat × UInt8 × UInt8) :=
  if b < 0xC2 then none
  else if b < 0xE0 then some (1, 0x80, 0xBF)
  else if b = 0xE0 then some (2, 0xA0, 0xBF)
  else if b = 0xED then some (2, 0x80, 0x9F)
  else if b < 0xF0 then some (2, 0x80, 0xBF)
  else if b = 0xF0 then some (3, 0x90, 0xBF)
  else if b < 0xF4 then some (3, 0x80, 0xBF)
  else if b = 0xF4 then some (3, 0x80, 0x8F)
  else none

/-- How many of the `n` bytes called for are there. -/
def followed : (n : Nat) → (low high : UInt8) → List UInt8 → Nat
  | n + 1, low, high, b :: rest =>
    if low ≤ b && b ≤ high then followed n 0x80 0xBF rest + 1 else 0
  | _, _, _, _ => 0

/-- The first character of a non-empty input, `none` where the syntax allows none, and the number of
bytes taken after the first one. -/
def strictHead (b : UInt8) (rest : List UInt8) : Option Char × Nat :=
  if b < 0x80 then (some (Char.ofNat b.toNat), 0)
  else match followers b with
    | none => (none, 0)
    | some (n, low, high) =>
      let found := followed n low high rest
      if found = n then ((decode (b :: rest)).map (·.1), n) else (none, found)

/-- The characters of a byte string, U+FFFD for every stretch that is none. -/
def lossy : List UInt8 → List Char
  | [] => []
  | b :: rest =>
    let (char, more) := strictHead b rest
    char.getD replacement :: lossy (rest.drop more)
  termination_by bytes => bytes.length
  decreasing_by simp only [List.length_cons, List.length_drop]; omega

/-- The byte string is UTF-8 throughout. -/
def isValid : List UInt8 → Bool
  | [] => true
  | b :: rest =>
    let (char, more) := strictHead b rest
    char.isSome && isValid (rest.drop more)
  termination_by bytes => bytes.length
  decreasing_by simp only [List.length_cons, List.length_drop]; omega

/-- The UTF-8 bytes of a text. -/
def utf8 (text : String) : List UInt8 := text.toUTF8.toList

end BlockScope.Text
