import DeskCalculator.Proofs.Lexer.Chunking
import DeskCalculator.Proofs.Session.Lockstep

/-!
# Sessions — How the input arrives does not matter

Two calculators that differ in nothing but their inputs, and whose inputs have the same text to come,
are in lockstep (`lockstep_onInput`).  So the tokens of a run, its results, its diagnostics and the
number of its errors depend on the decoded text only, and not on where the reader cuts its bytes into
chunks, in the middle of a token or of a character, or on how often it is interrupted
(`run_of_chunks`).
-/

namespace DeskCalculator

namespace Calculator

/-- The calculator over another input. -/
def onInput (c : Calculator) (i : Input) : Calculator := { c with lexer := c.lexer.onInput i }

theorem advance_onInput {total : Nat} {c : Calculator} {i : Input}
    (h : c.lexer.SameText total i) :
    ∃ i', (c.onInput i).advance = c.advance.onInput i' ∧ c.advance.lexer.SameText total i' := by
  obtain ⟨i', hn, hs⟩ := Lexer.next_onInput h c.journal
  refine ⟨i', ?_, hs⟩
  simp only [advance, onInput, hn]

theorem lockstep_onInput (total : Nat) :
    Lockstep fun c d => ∃ i, d = c.onInput i ∧ c.lexer.SameText total i where
  kind := by
    rintro c _ ⟨i, rfl, -⟩
    rfl
  table := by
    rintro c _ ⟨i, rfl, -⟩
    rfl
  errors := by
    rintro c _ ⟨i, rfl, -⟩
    rfl
  report := by
    rintro c _ ⟨i, rfl, h⟩ problem
    exact ⟨i, rfl, h⟩
  withTable := by
    rintro c _ ⟨i, rfl, h⟩ t
    exact ⟨i, rfl, h⟩
  evaluated := by
    rintro c _ ⟨i, rfl, h⟩ value faulted
    exact ⟨i, rfl, h⟩
  fetch := by
    rintro c _ ⟨i, rfl, h⟩
    exact advance_onInput h
  exhausted := by
    rintro c _ ⟨i, rfl, -⟩
    rfl

end Calculator

theorem sameText_ofInput {chunks : List Chunk} (h : ∀ chunk ∈ chunks, chunk.Plain) (hold : Hold)
    (consumed : Nat) :
    (Lexer.ofInput ⟨hold, ⟨chunks, consumed⟩⟩).SameText (consumed + (Chunk.content chunks).length)
      (.ofString (.ofList (Utf8.decode (Chunk.content chunks)))) := by
  have hs := Reader.spells_ofString (.ofList (Utf8.decode (Chunk.content chunks)))
  rw [String.toList_ofList] at hs
  have hd : Chunk.Deliver chunks (Chunk.content chunks) :=
    ⟨chunks, [], (List.append_nil chunks).symm, h, .inl rfl, rfl⟩
  exact ⟨_, _, ⟨_, hd, rfl, rfl⟩, hs, nofun⟩

/-- **How the bytes arrive does not matter.**  Over bytes that come in non-empty runs, interrupted any
number of times, a lexer gets the tokens of the decoded text, a run has the outcome of the decoded
text, and both consume all bytes. -/
theorem run_of_chunks {chunks : List Chunk} (h : ∀ chunk ∈ chunks, chunk.Plain) (hold : Hold)
    (consumed : Nat) :
    let bytes := Chunk.content chunks
    let text := String.ofList (Utf8.decode bytes)
    let input : Input := ⟨hold, ⟨chunks, consumed⟩⟩
    let lexer := Lexer.ofInput input
    let journal := Journal.ofSink (.buffer "")
    let atEnd := Lexer.step^[(tokenize text).1.length + 1] (lexer, journal)
    lexer.tokens journal = tokenize text ∧
      atEnd.1.exhausted = true ∧ atEnd.2 = (tokenize text).2 ∧
      atEnd.1.input.reader.consumed = consumed + bytes.length ∧
      (runCaptured input).outcome = runSource text ∧
      (runCaptured input).journal = (runCaptured (.ofString text)).journal ∧
      (runCaptured input).input.reader.consumed = consumed + bytes.length := by
  intro bytes text input lexer journal atEnd
  have hs : lexer.SameText (consumed + bytes.length) (.ofString text) :=
    sameText_ofInput h hold consumed
  have ht : lexer.tokens journal = tokenize text := (Lexer.tokens_onInput hs journal).symm
  obtain ⟨hx, hj⟩ := Lexer.tokens_iterate lexer journal
  obtain ⟨i, hi⟩ := Lexer.sameText_iterate hs journal ((tokenize text).1.length + 1)
  rw [ht] at hx hj
  refine ⟨ht, hx, hj, hi.consumed_eq hx, ?_⟩
  obtain ⟨n, c, -, output, ⟨i', rfl, hs'⟩, hx', hf, hf'⟩ :=
    (Calculator.lockstep_onInput (consumed + bytes.length)).finish
      (s := ⟨0, .ofInput input .seeded journal, .buffer ""⟩)
      (t := ⟨0, .ofInput (.ofString text) .seeded journal, .buffer ""⟩) ⟨_, rfl, hs⟩ rfl
  have hr : runCaptured input =
      ⟨output, c.journal.note (.finished (0 + n) c.errors), c.lexer.input⟩ := by
    simp only [runCaptured, run, calculate]
    rw [hf]
    rfl
  have hr' : runCaptured (.ofString text) =
      ⟨output, c.journal.note (.finished (0 + n) c.errors), i'⟩ := by
    simp only [runCaptured, run, calculate]
    rw [hf']
    rfl
  rw [runSource, hr, hr']
  exact ⟨rfl, rfl, hs'.consumed_eq hx'⟩

/-- The bytes of `12*3`, a character and a newline, and a byte that begins no character: cut inside
the numeral and inside the character. -/
def brokenDelivery : List Chunk :=
  [.bytes [0x31], .interrupted, .bytes [0x32, 0x2A, 0x33, 0xC3], .interrupted,
    .bytes [0xA9, 0x0A, 0xFF]]

theorem run_of_brokenDelivery :
    (∀ chunk ∈ brokenDelivery, chunk.Plain) ∧
      (runCaptured ⟨.borrowed, ⟨brokenDelivery, 5⟩⟩).outcome = runSource "12*3\u00E9\n\uFFFD" ∧
      (runSource "12*3\u00E9\n\uFFFD").output = "36\n" ∧
      (runCaptured ⟨.borrowed, ⟨brokenDelivery, 5⟩⟩).input.reader.consumed = 13 := by
  have hp : ∀ chunk ∈ brokenDelivery, chunk.Plain := by simp [brokenDelivery, Chunk.Plain]
  obtain ⟨-, -, -, -, ho, -, hc⟩ := run_of_chunks hp .borrowed 5
  have ht : String.ofList (Utf8.decode (Chunk.content brokenDelivery)) = "12*3\u00E9\n\uFFFD" := by
    decide +kernel
  rw [ht] at ho
  exact ⟨hp, ho, by decide +kernel, hc⟩

end DeskCalculator
