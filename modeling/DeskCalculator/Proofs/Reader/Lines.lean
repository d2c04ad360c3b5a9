import DeskCalculator.Proofs.Text.Utf8
import DeskCalculator.Reader
import Mathlib.Data.List.TakeWhile

/-!
# Input — Lines from chunks

What a line read from a reader is made of does not depend on how the bytes arrive.  As long as the
chunks are interruptions and runs of at least one byte (`Plain`), a line is the first line of their
bytes together (`fetchLine_of_mem`), and a line they leave open goes on in the chunks after them
(`fetchLine_of_not_mem`).  A reader that holds some bytes and then ends (`Holds`) hands out their
first line and holds what follows it, byte for byte (`readLine_of_holds`).  One that fails behind its
bytes (`Breaks`) does the same as long as a line is complete (`readLine_of_breaks`), and fails on the
open line, whose bytes are lost (`readLine_of_breaks_open`).  What is true of the bytes is then true of
the characters they stand for (`Spells`, `readLine_of_spells`).
-/

namespace DeskCalculator

namespace Chunk

def data : Chunk → List UInt8
  | .bytes data => data
  | _           => []

/-- A delivery that neither ends nor fails a read. -/
def Plain : Chunk → Prop
  | .bytes data  => data ≠ []
  | .interrupted => True
  | .failure _   => False

/-- The bytes of chunks together. -/
def content (chunks : List Chunk) : List UInt8 := chunks.flatMap data

theorem fetchLine_bytes_of_mem {bytes : List UInt8} (h : newline ∈ bytes) (chunks : List Chunk) :
    fetchLine (.bytes bytes :: chunks) =
      ⟨firstLine newline bytes, none, putBack (afterLine newline bytes) chunks⟩ := by
  have hb : bytes ≠ [] := List.ne_nil_of_mem h
  rw [firstLine_eq_takeWhile, afterLine_eq_dropWhile]
  cases hd : bytes.dropWhile (· != newline) with
  | nil =>
      have hn := List.dropWhile_eq_nil_iff.mp hd newline h
      simp at hn
  | cons mark rest => simp [fetchLine, hb, hd]

theorem fetchLine_bytes_of_not_mem {bytes : List UInt8} (hb : bytes ≠ []) (h : newline ∉ bytes)
    (chunks : List Chunk) :
    fetchLine (.bytes bytes :: chunks) =
      ⟨bytes ++ (fetchLine chunks).bytes, (fetchLine chunks).failure, (fetchLine chunks).rest⟩ := by
  have hd : bytes.dropWhile (· != newline) = [] := by
    refine List.dropWhile_eq_nil_iff.mpr fun b hm => bne_iff_ne.mpr ?_
    rintro rfl
    exact h hm
  simp [fetchLine, hb, hd]

theorem plain_putBack (bytes : List UInt8) {chunks : List Chunk}
    (h : ∀ chunk ∈ chunks, chunk.Plain) (tail : List Chunk) :
    ∃ plain, putBack bytes (chunks ++ tail) = plain ++ tail ∧ (∀ chunk ∈ plain, chunk.Plain) ∧
      content plain = bytes ++ content chunks := by
  by_cases hb : bytes = []
  · exact ⟨chunks, by simp [putBack, hb], h, by simp [hb]⟩
  · refine ⟨.bytes bytes :: chunks, by simp [putBack, hb], ?_, rfl⟩
    rintro chunk (_ | ⟨_, hm⟩)
    · exact hb
    · exact h chunk hm

/-- A line that the chunks complete. -/
theorem fetchLine_of_mem {chunks : List Chunk} (h : ∀ chunk ∈ chunks, chunk.Plain)
    (hn : newline ∈ content chunks) (tail : List Chunk) :
    ∃ plain, fetchLine (chunks ++ tail) =
        ⟨firstLine newline (content chunks), none, plain ++ tail⟩ ∧
      (∀ chunk ∈ plain, chunk.Plain) ∧ content plain = afterLine newline (content chunks) := by
  induction chunks with
  | nil => cases hn
  | cons chunk chunks ih =>
      obtain ⟨hc, hs⟩ := List.forall_mem_cons.mp h
      cases chunk with
      | interrupted => exact ih hs hn
      | failure message => exact hc.elim
      | bytes bytes =>
          -- the line ends in these bytes, or they are all in it and it goes on in the next ones
          by_cases hm : newline ∈ bytes
          · obtain ⟨plain, hp, hpl, hpc⟩ := plain_putBack (afterLine newline bytes) hs tail
            refine ⟨plain, ?_, hpl, ?_⟩
            · rw [List.cons_append, fetchLine_bytes_of_mem hm, hp]
              exact congrArg (Fetched.mk · none _) (firstLine_append_of_mem hm _).symm
            · exact hpc.trans (afterLine_append_of_mem hm _).symm
          · obtain ⟨plain, hp, hpl, hpc⟩ := ih hs ((List.mem_append.mp hn).resolve_left hm)
            refine ⟨plain, ?_, hpl, ?_⟩
            · rw [List.cons_append, fetchLine_bytes_of_not_mem hc hm, hp]
              exact congrArg (Fetched.mk · none _) (firstLine_append hm _).symm
            · exact hpc.trans (afterLine_append hm _).symm

/-- A line that the chunks leave open. -/
theorem fetchLine_of_not_mem {chunks : List Chunk} (h : ∀ chunk ∈ chunks, chunk.Plain)
    (hn : newline ∉ content chunks) (tail : List Chunk) :
    fetchLine (chunks ++ tail) =
      ⟨content chunks ++ (fetchLine tail).bytes, (fetchLine tail).failure,
        (fetchLine tail).rest⟩ := by
  induction chunks with
  | nil => rfl
  | cons chunk chunks ih =>
      obtain ⟨hc, hs⟩ := List.forall_mem_cons.mp h
      cases chunk with
      | interrupted => exact ih hs hn
      | failure message => exact hc.elim
      | bytes bytes =>
          obtain ⟨hm, hr⟩ := not_or.mp (mt List.mem_append.mpr hn)
          rw [List.cons_append, fetchLine_bytes_of_not_mem hc hm, ih hs hr]
          exact congrArg (Fetched.mk · _ _) (List.append_assoc _ _ _).symm

/-- The chunks deliver these bytes and then end.  The end of a reader without any bytes is a chunk of
its own. -/
def Deliver (chunks : List Chunk) (bytes : List UInt8) : Prop :=
  ∃ plain tail, chunks = plain ++ tail ∧ (∀ chunk ∈ plain, chunk.Plain) ∧
    (tail = [] ∨ tail = [.bytes []]) ∧ content plain = bytes

theorem fetchLine_of_deliver {chunks : List Chunk} {bytes : List UInt8} (h : Deliver chunks bytes) :
    ∃ rest, fetchLine chunks = ⟨firstLine newline bytes, none, rest⟩ ∧
      Deliver rest (afterLine newline bytes) := by
  obtain ⟨plain, tail, rfl, hp, ht, rfl⟩ := h
  by_cases hn : newline ∈ content plain
  · obtain ⟨rest, hf, hr, hc⟩ := fetchLine_of_mem hp hn tail
    exact ⟨rest ++ tail, hf, rest, tail, rfl, hr, ht, hc⟩
  · have hf : fetchLine tail = ⟨[], none, []⟩ := by rcases ht with rfl | rfl <;> rfl
    refine ⟨[], ?_, [], [], rfl, nofun, .inl rfl, (afterLine_of_not_mem hn).symm⟩
    rw [fetchLine_of_not_mem hp hn, hf, firstLine_of_not_mem hn]
    simp

end Chunk

namespace Reader
open Chunk (newline)

/-- The reader delivers these bytes and is then at its end. -/
def Holds (r : Reader) (bytes : List UInt8) : Prop := Chunk.Deliver r.chunks bytes

theorem holds_ofBytes (bytes : List UInt8) : (ofBytes bytes).Holds bytes := by
  by_cases hb : bytes = []
  · subst hb
    exact ⟨[], [.bytes []], rfl, nofun, .inr rfl, rfl⟩
  · refine ⟨[.bytes bytes], [], rfl, ?_, .inl rfl, by simp [Chunk.content, Chunk.data]⟩
    rintro chunk (_ | ⟨_, ⟨⟩⟩)
    exact hb

theorem holds_ofString (text : String) : (ofString text).Holds (Utf8.encode text.toList) :=
  holds_ofBytes _

/-- A reader without bytes is at its end. -/
theorem readLine_of_holds_nil {r : Reader} (h : r.Holds []) :
    ∃ r', r.readLine = (.endOfInput, r') ∧ r'.Holds [] ∧ r'.consumed = r.consumed := by
  obtain ⟨rest, hf, hr⟩ := Chunk.fetchLine_of_deliver h
  exact ⟨⟨rest, r.consumed⟩, by simp [readLine, hf, firstLine], hr, rfl⟩

/-- A reader hands out the first line of its bytes and keeps the rest. -/
theorem readLine_of_holds {r : Reader} {bytes : List UInt8} (h : r.Holds bytes) (hb : bytes ≠ []) :
    ∃ r', r.readLine = (.line (firstLine newline bytes), r') ∧
      r'.Holds (afterLine newline bytes) ∧
      r'.consumed = r.consumed + (firstLine newline bytes).length := by
  obtain ⟨rest, hf, hr⟩ := Chunk.fetchLine_of_deliver h
  have hl : firstLine newline bytes ≠ [] := mt (firstLine_eq_nil_iff newline).mp hb
  exact ⟨⟨rest, _⟩, by simp [readLine, hf, hl], hr, rfl⟩

/-! ### A reader that fails -/

/-- The reader delivers these bytes, then fails with `message`, and would go on with `later`. -/
def Breaks (r : Reader) (bytes : List UInt8) (message : String) (later : List Chunk) : Prop :=
  ∃ plain, r.chunks = plain ++ .failure message :: later ∧ (∀ chunk ∈ plain, chunk.Plain) ∧
    Chunk.content plain = bytes

section
variable {r : Reader} {bytes : List UInt8} {message : String} {later : List Chunk}
  (h : r.Breaks bytes message later)
include h

/-- A line that is complete before the failure is read like any other. -/
theorem readLine_of_breaks (hn : newline ∈ bytes) :
    ∃ r', r.readLine = (.line (firstLine newline bytes), r') ∧
      r'.Breaks (afterLine newline bytes) message later ∧
      r'.consumed = r.consumed + (firstLine newline bytes).length := by
  obtain ⟨plain, hr, hp, rfl⟩ := h
  obtain ⟨rest, hf, hr', hc⟩ := Chunk.fetchLine_of_mem hp hn (.failure message :: later)
  have hl : firstLine newline (Chunk.content plain) ≠ [] :=
    mt (firstLine_eq_nil_iff newline).mp (List.ne_nil_of_mem hn)
  exact ⟨⟨rest ++ .failure message :: later, _⟩, by simp [readLine, hr, hf, hl],
    ⟨rest, rfl, hr', hc⟩, rfl⟩

/-- The bytes of an open line are taken from the reader, and are lost with the failure. -/
theorem readLine_of_breaks_open (hn : newline ∉ bytes) :
    r.readLine = (.failed message, ⟨later, r.consumed + bytes.length⟩) := by
  obtain ⟨plain, hr, hp, rfl⟩ := h
  have hf := Chunk.fetchLine_of_not_mem hp hn (.failure message :: later)
  simp [readLine, hr, hf, Chunk.fetchLine]

end

/-! ### Characters -/

/-- The reader delivers the characters of `text`, and will then have delivered `total` bytes. -/
def Spells (r : Reader) (text : List Char) (total : Nat) : Prop :=
  ∃ bytes, r.Holds bytes ∧ Utf8.decode bytes = text ∧ r.consumed + bytes.length = total

theorem spells_ofString (text : String) :
    (ofString text).Spells text.toList (Utf8.encode text.toList).length :=
  ⟨_, holds_ofString text, Utf8.decode_encode _, Nat.zero_add _⟩

theorem Spells.consumed_eq {r : Reader} {total : Nat} (h : r.Spells [] total) :
    r.consumed = total := by
  obtain ⟨bytes, -, hd, hc⟩ := h
  cases Utf8.decode_eq_nil_iff.mp hd
  exact hc

theorem readLine_of_spells_nil {r : Reader} {total : Nat} (h : r.Spells [] total) :
    ∃ r', r.readLine = (.endOfInput, r') ∧ r'.Spells [] total := by
  obtain ⟨bytes, hb, hd, hc⟩ := h
  cases Utf8.decode_eq_nil_iff.mp hd
  obtain ⟨r', hr, hb', hc'⟩ := readLine_of_holds_nil hb
  exact ⟨r', hr, [], hb', rfl, by rw [hc', hc]⟩

theorem readLine_of_spells {r : Reader} {text : List Char} {total : Nat} (h : r.Spells text total)
    (ht : text ≠ []) :
    ∃ bytes r', r.readLine = (.line bytes, r') ∧ Utf8.decode bytes = firstLine '\n' text ∧
      r'.Spells (afterLine '\n' text) total := by
  obtain ⟨bytes, hb, rfl, hc⟩ := h
  obtain ⟨r', hr, hb', hc'⟩ := readLine_of_holds hb (mt Utf8.decode_eq_nil_iff.mpr ht)
  have hl := congrArg List.length (firstLine_append_afterLine newline bytes)
  rw [List.length_append] at hl
  exact ⟨_, r', hr, Utf8.decode_firstLine bytes, _, hb', Utf8.decode_afterLine bytes, by omega⟩

end Reader

end DeskCalculator
