import DeskCalculator.Text.Utf8

/-!
# Input — Readers

A source of bytes that arrives in chunks.  A chunk is a run of bytes, an interruption, or a failure;
after the last chunk the source is at its end for good.  An empty run of bytes is an end that does
not last: it ends the line being read, and the next read goes on with the chunk after it.

`readLine` takes bytes up to and with the next newline, across chunks and past interruptions.  A
failure ends it at once: the bytes taken for that line are lost to the caller, but they count as
consumed.  Every line that is read leaves less to read (`size_fetchLine`).
-/

namespace DeskCalculator

/-- One delivery of a reader. -/
inductive Chunk where
  | bytes (data : List UInt8)
  | interrupted
  | failure (message : String)
  deriving DecidableEq, Repr

/-- A reader: the chunks to come, and the number of bytes taken from it so far. -/
structure Reader where
  chunks : List Chunk
  consumed : Nat
  deriving DecidableEq, Repr

/-- What one attempt to read a line gives. -/
inductive LineRead where
  /-- A line with its newline, or the bytes before an end. -/
  | line (bytes : List UInt8)
  | endOfInput
  | failed (message : String)
  deriving DecidableEq, Repr

/-- The bytes taken while a line was read, the failure that ended it if one did, and what is left. -/
structure Fetched where
  bytes : List UInt8
  failure : Option String
  rest : List Chunk
  deriving DecidableEq, Repr

namespace Chunk

def newline : UInt8 := 10

/-- Puts the unread part of a chunk back; nothing when it was read to its end. -/
def putBack (data : List UInt8) (chunks : List Chunk) : List Chunk :=
  if data.isEmpty then chunks else .bytes data :: chunks

/-- Takes bytes up to and with the next newline. -/
def fetchLine : List Chunk → Fetched
  | [] => ⟨[], none, []⟩
  | .interrupted :: chunks => fetchLine chunks
  | .failure message :: chunks => ⟨[], some message, chunks⟩
  | .bytes data :: chunks =>
      if data.isEmpty then ⟨[], none, chunks⟩
      else
        match data.dropWhile (· != newline) with
        | [] =>
            match fetchLine chunks with
            | ⟨more, fault, rest⟩ => ⟨data ++ more, fault, rest⟩
        | mark :: rest => ⟨data.takeWhile (· != newline) ++ [mark], none, putBack rest chunks⟩

/-- The bytes of a chunk, and one for the delivery. -/
def size : Chunk → Nat
  | .bytes data  => data.length + 1
  | .interrupted => 1
  | .failure _   => 1

/-- The sizes of chunks together. -/
def total (chunks : List Chunk) : Nat := chunks.foldr (fun chunk n => chunk.size + n) 0

theorem total_cons (chunk : Chunk) (chunks : List Chunk) :
    total (chunk :: chunks) = chunk.size + total chunks := rfl

theorem total_putBack (data : List UInt8) (chunks : List Chunk) :
    total (putBack data chunks) ≤ data.length + 1 + total chunks := by
  unfold putBack
  split
  · omega
  · simp [total_cons, size]

theorem size_fetchLine (chunks : List Chunk) :
    (fetchLine chunks).bytes.length + total (fetchLine chunks).rest ≤ total chunks := by
  induction chunks with
  | nil => simp [fetchLine, total]
  | cons chunk chunks ih =>
      rw [total_cons]
      cases chunk with
      | interrupted => simp only [fetchLine, size]; omega
      | failure message => simp [fetchLine, size]
      | bytes data =>
          simp only [fetchLine, size]
          split
          · simp only [List.length_nil]; omega
          · split
            · simp only [List.length_append]; omega
            · rename_i mark rest hd
              have ht := List.takeWhile_append_dropWhile (p := (· != newline)) (l := data)
              have hl := congrArg List.length ht
              have hp := total_putBack rest chunks
              simp only [hd, List.length_append, List.length_cons] at hl
              simp only [List.length_append, List.length_cons, List.length_nil]
              omega

end Chunk

namespace Reader

/-- A reader that delivers `bytes` at once. -/
def ofBytes (bytes : List UInt8) : Reader := ⟨[.bytes bytes], 0⟩

/-- A reader over the bytes of a text. -/
def ofString (text : String) : Reader := ofBytes (Utf8.encode text.toList)

/-- What is left to read, in bytes and deliveries. -/
def size (r : Reader) : Nat := Chunk.total r.chunks

/-- Reads a line; no bytes at all mean the end. -/
def readLine (r : Reader) : LineRead × Reader :=
  match Chunk.fetchLine r.chunks with
  | ⟨bytes, failure, rest⟩ =>
      let after : Reader := ⟨rest, r.consumed + bytes.length⟩
      match failure with
      | some message => (.failed message, after)
      | none => if bytes.isEmpty then (.endOfInput, after) else (.line bytes, after)

theorem size_readLine {r : Reader} {bytes : List UInt8} (h : r.readLine.1 = .line bytes) :
    bytes ≠ [] ∧ bytes.length + r.readLine.2.size ≤ r.size := by
  have hs := Chunk.size_fetchLine r.chunks
  revert h
  simp only [readLine, size]
  split
  · intro h; cases h
  · split
    · intro h; cases h
    · rename_i hne
      intro h
      cases h
      exact ⟨by simpa using hne, hs⟩

end Reader

/-- How an input stands to its reader: alone with it, or on loan from someone who keeps it. -/
inductive Hold where
  | owned
  | borrowed
  deriving DecidableEq, Repr

/-- Where a lexer gets its lines. -/
structure Input where
  hold : Hold
  reader : Reader
  deriving DecidableEq, Repr

namespace Input

/-- An input over a text of its own. -/
def ofString (text : String) : Input := ⟨.owned, .ofString text⟩

/-- An input that is at its end from the start. -/
def empty : Input := ⟨.owned, ⟨[], 0⟩⟩

end Input

end DeskCalculator
