/-!
# Text — UTF-8

Bytes as characters and back.  Decoding takes any bytes: each longest run that begins a character but
cannot go on as one, and each byte that begins none, becomes one U+FFFD.  The decoder reads byte by
byte; between two bytes it is at a boundary or inside a character, and then it knows the range of the
next byte, the number of bytes after that, and the bits read so far.
-/

namespace DeskCalculator.Utf8

/-- The bytes of a text. -/
def encode (text : List Char) : List UInt8 := text.flatMap String.utf8EncodeChar

/-- The character that stands for bytes that are none. -/
def replacement : Char := '\uFFFD'

/-- Where the decoder is between two bytes. -/
inductive State where
  | boundary
  /-- The next byte lies in `low … high`, and `more` bytes follow it; `bits` are those read. -/
  | inside (more low high bits : Nat)
  deriving DecidableEq, Repr

/-- A first byte: the characters it completes, and the state after it. -/
def first (b : Nat) : List Char × State :=
  if b < 0x80 then ([Char.ofNat b], .boundary)
  else if b < 0xC2 then ([replacement], .boundary)
  else if b < 0xE0 then ([], .inside 0 0x80 0xBF (b - 0xC0))
  else if b < 0xF0 then
    let low := if b = 0xE0 then 0xA0 else 0x80
    let high := if b = 0xED then 0x9F else 0xBF
    ([], .inside 1 low high (b - 0xE0))
  else if b < 0xF5 then
    let low := if b = 0xF0 then 0x90 else 0x80
    let high := if b = 0xF4 then 0x8F else 0xBF
    ([], .inside 2 low high (b - 0xF0))
  else ([replacement], .boundary)

/-- One byte.  A byte that does not continue the character that was begun replaces it and is read as
a first byte. -/
def step : State → Nat → List Char × State
  | .boundary, b => first b
  | .inside more low high bits, b =>
      if low ≤ b ∧ b ≤ high then
        let bits := 64 * bits + (b - 0x80)
        match more with
        | 0     => ([Char.ofNat bits], .boundary)
        | n + 1 => ([], .inside n 0x80 0xBF bits)
      else (replacement :: (first b).1, (first b).2)

/-- The characters of bytes read from a state; a character cut off by the end is replaced. -/
def decodeFrom : State → List UInt8 → List Char
  | .boundary,   [] => []
  | .inside .., [] => [replacement]
  | q, b :: bytes =>
      match step q b.toNat with
      | (chars, q') => chars ++ decodeFrom q' bytes

/-- The characters of bytes. -/
def decode (bytes : List UInt8) : List Char := decodeFrom .boundary bytes

/-! ### Decoding makes no more characters than there are bytes -/

/-- The characters still owed at a state: one for the character that was begun. -/
def State.owed : State → Nat
  | .boundary  => 0
  | .inside .. => 1

theorem length_first (b : Nat) : (first b).1.length + (first b).2.owed = 1 := by
  unfold first
  repeat' split
  all_goals rfl

theorem length_step (q : State) (b : Nat) :
    (step q b).1.length + (step q b).2.owed ≤ q.owed + 1 := by
  cases q with
  | boundary => exact Nat.le_of_eq (length_first b)
  | inside more low high bits =>
      have hf := length_first b
      have ho : (State.inside more low high bits).owed = 1 := rfl
      simp only [step]
      split
      · split <;> simp [State.owed]
      · simp only [List.length_cons]
        omega

theorem length_decodeFrom (q : State) (bytes : List UInt8) :
    (decodeFrom q bytes).length ≤ q.owed + bytes.length := by
  induction bytes generalizing q with
  | nil => cases q <;> simp [decodeFrom, State.owed]
  | cons b bytes ih =>
      have h := ih (step q b.toNat).2
      have hs := length_step q b.toNat
      simp only [decodeFrom, List.length_append, List.length_cons]
      omega

theorem length_decode (bytes : List UInt8) : (decode bytes).length ≤ bytes.length := by
  have h := length_decodeFrom .boundary bytes
  rwa [State.owed, Nat.zero_add] at h

end DeskCalculator.Utf8
