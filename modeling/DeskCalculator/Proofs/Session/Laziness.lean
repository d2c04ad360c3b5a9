import DeskCalculator.Proofs.Lexer.Chunking
import DeskCalculator.Proofs.Lexer.Newlines
import DeskCalculator.Proofs.Session.Statements

/-!
# Sessions — A line is answered before the next one is read

Over an input whose lines all end with a newline, a calculator between two statements has read a whole
number of lines (`HasRead`).  Its next fetch goes on within the last of them, or reads one more when the
terminator of the last one is current (`HasRead.advance`).  The evaluation that follows only fetches past
tokens that stop nothing, so it stays within the line, faulty or not (`Consumes.hasRead`).

**The line** (`statement_reads_lazily`).  So a statement reads at most one line, and with its first fetch;
when it has a value, the lines up to the one of its first token have been read and no more.  An input
that takes over the reader then gets the tokens of the lines that follow.
-/

namespace DeskCalculator
namespace Calculator

/-- The calculator has read `m` of the lines of its input, which has `total` bytes in the end. -/
inductive HasRead (lines : List (List UInt8)) (total : Nat) : Nat → Calculator → Prop where
  | fresh {c : Calculator} (h : c.lexer.OnLine total 0 [] lines.flatten) (hr : c.lexer.rest = [])
      (hk : c.kind = .terminator) : HasRead lines total 0 c
  | inside {c : Calculator} {i : Nat} (h : c.lexer.Inside lines total i) :
      HasRead lines total (i + 1) c
  | behind {c : Calculator} {i : Nat} (h : c.lexer.Behind lines total i)
      (ht : c.journal.tokens.getLast? = some c.current) : HasRead lines total (i + 1) c
  | ended {c : Calculator} (h : c.lexer.Rests) (hh : c.lexer.input.reader.Holds [])
      (hc : c.lexer.input.reader.consumed = total) : HasRead lines total lines.length c

variable {lines : List (List UInt8)} {total m : Nat} {c d : Calculator}

/-- What is left in the reader are the lines that have not been read. -/
theorem HasRead.holds (h : c.HasRead lines total m) : m ≤ lines.length ∧
    c.lexer.input.reader.Holds (lines.drop m).flatten ∧
    c.lexer.input.reader.consumed + (lines.drop m).flatten.length = total := by
  have hs {i : Nat} : c.lexer.StandsOn lines total i → i + 1 ≤ lines.length ∧
      c.lexer.input.reader.Holds (lines.drop (i + 1)).flatten ∧
      c.lexer.input.reader.consumed + (lines.drop (i + 1)).flatten.length = total :=
    fun ⟨_, _, hi, _, ho⟩ => ⟨(List.getElem?_eq_some_iff.mp hi).1, ho.holds, ho.consumed⟩
  cases h with
  | fresh h => exact ⟨Nat.zero_le _, h.holds, h.consumed⟩
  | inside h => exact hs h.standsOn
  | behind h => exact hs h.standsOn
  | ended _ hh hc =>
      rw [List.drop_length]
      exact ⟨Nat.le_refl _, hh, hc⟩

theorem HasRead.congr (h : c.HasRead lines total m) (hl : d.lexer = c.lexer)
    (hj : d.journal.tokens = c.journal.tokens) : d.HasRead lines total m := by
  have hk : d.current = c.current := congrArg Lexer.current hl
  cases h with
  | fresh h hr hk' => exact .fresh (hl ▸ h) (hl ▸ hr) ((congrArg Token.kind hk).trans hk')
  | inside h => exact .inside (hl ▸ h)
  | behind h ht => exact .behind (hl ▸ h) (by rw [hj, hk, ht])
  | ended h hh hc => exact .ended (hl ▸ h) (hl ▸ hh) (hl ▸ hc)

/-! ### A fetch -/

theorem getLast?_tokens_advance (c : Calculator) :
    c.advance.journal.tokens.getLast? = some c.advance.current := by
  rw [tokens_advance, List.getLast?_concat]

/-- A fetch within a line stays there. -/
theorem advance_of_inside {i : Nat} (h : c.lexer.Inside lines total i) :
    c.advance.HasRead lines total (i + 1) ∧ c.advance.lexer.input = c.lexer.input ∧
      c.advance.lexer.TookFrom lines i := by
  obtain ⟨hn, hi, ht⟩ := h.next c.journal
  refine ⟨?_, hi, ht⟩
  rcases hn with hn | hn
  · exact .inside hn
  · exact .behind hn (getLast?_tokens_advance c)

/-- A fetch behind a line takes the first token of the next one, or finds the end. -/
theorem advance_of_scanned (hl : ∀ line ∈ lines, Terminated line) {before : List Char}
    (h : c.lexer.OnLine total m before (lines.drop m).flatten) (hr : c.lexer.rest = [])
    (hm : m ≤ lines.length) :
    c.advance.HasRead lines total (m + 1) ∧ c.advance.lexer.TookFrom lines m ∨
      c.advance.HasRead lines total m ∧ c.advance.lexer.Rests := by
  rcases Nat.lt_or_eq_of_le hm with hm | rfl
  · obtain ⟨l, hn, hi⟩ := Lexer.next_of_scanned hl h hr hm c.journal
    have ha : c.advance.lexer = (c.lexer.next c.journal).1 := rfl
    rw [hn] at ha
    obtain ⟨hn, -, ht⟩ := hi.next c.journal
    rw [← ha] at hn ht
    refine .inl ⟨?_, ht⟩
    rcases hn with hn | hn
    · exact .inside hn
    · exact .behind hn (getLast?_tokens_advance c)
  · rw [List.drop_length] at h
    obtain ⟨hx, -, hh, hc⟩ := h.next_end (by rw [hr]; rfl) rfl c.journal
    exact .inr ⟨.ended hx hh hc, hx⟩

/-- The newline of the last line read is the token fetched last. -/
def Finished (lines : List (List UInt8)) (m : Nat) (c : Calculator) : Prop :=
  ∃ i bytes u, m = i + 1 ∧ lines[i]? = some bytes ∧ Utf8.decode bytes = u ++ ['\n'] ∧
    c.journal.tokens.getLast? = some ⟨.terminator, .at m u ['\n']⟩

/-- **A fetch between statements** goes on within the line, or reads one line, which it does only
behind the newline of the line before. -/
theorem HasRead.advance (hl : ∀ line ∈ lines, Terminated line) (h : c.HasRead lines total m) :
    ∃ k, m ≤ k ∧ k ≤ m + 1 ∧ c.advance.HasRead lines total k ∧
      (k = m + 1 → m = 0 ∨ c.Finished lines m) ∧
      (c.advance.lexer.Rests ∨ ∃ i, k = i + 1 ∧ c.advance.lexer.TookFrom lines i) := by
  have hstay {k : Nat} {P : Prop} : k = k + 1 → P := fun hk => absurd hk (Nat.succ_ne_self k).symm
  cases h with
  | fresh h hr =>
      rcases advance_of_scanned hl h hr (Nat.zero_le _) with ⟨ha, ht⟩ | ⟨ha, hx⟩
      · exact ⟨1, Nat.zero_le _, Nat.le_refl _, ha, fun _ => .inl rfl, .inr ⟨0, rfl, ht⟩⟩
      · exact ⟨0, Nat.le_refl _, Nat.zero_le _, ha, hstay, .inl hx⟩
  | @inside _ i h =>
      obtain ⟨ha, -, ht⟩ := advance_of_inside h
      exact ⟨i + 1, Nat.le_refl _, Nat.le_succ _, ha, hstay, .inr ⟨i, rfl, ht⟩⟩
  | @behind _ i h ht =>
      obtain ⟨bytes, before, hi, hd, ho⟩ := h.standsOn
      obtain ⟨u, hu, hc⟩ := h.current
      have hf : c.Finished lines (i + 1) := by
        refine ⟨i, bytes, u, rfl, hi, hd.trans hu, ?_⟩
        rw [ht, ← hc]
        rfl
      have hle : i + 1 ≤ lines.length := (List.getElem?_eq_some_iff.mp hi).1
      rcases advance_of_scanned hl ho h.rest hle with ⟨ha, ht⟩ | ⟨ha, hx⟩
      · exact ⟨i + 2, Nat.le_succ _, Nat.le_refl _, ha, fun _ => .inr hf, .inr ⟨i + 1, rfl, ht⟩⟩
      · exact ⟨i + 1, Nat.le_refl _, Nat.le_succ _, ha, hstay, .inl hx⟩
  | ended h hh hc =>
      have hx : c.advance.lexer = c.lexer := congrArg Prod.fst (Lexer.next_of_rests h c.journal)
      refine ⟨lines.length, Nat.le_refl _, Nat.le_succ _, ?_, hstay, .inl (hx ▸ h)⟩
      exact .ended (hx ▸ h) (hx ▸ hh) (hx ▸ hc)

/-! ### An evaluation -/

/-- An evaluation stays within the line. -/
theorem Consumes.hasRead {consumed : List Token} (h : c.Consumes consumed d)
    (hc : c.HasRead lines total m) :
    d.HasRead lines total m ∧ d.lexer.input = c.lexer.input := by
  induction h with
  | done => exact ⟨hc, rfl⟩
  | fetch hk _ ih =>
      -- a token that does not stop the evaluation is not the last of its line
      cases hc with
      | fresh _ _ hn => exact absurd (hn ▸ hk) nofun
      | inside h =>
          obtain ⟨ha, hi, -⟩ := advance_of_inside h
          obtain ⟨hd, hi'⟩ := ih ha
          exact ⟨hd, hi'.trans hi⟩
      | behind h _ =>
          obtain ⟨u, -, hn⟩ := h.current
          rw [kind, hn] at hk
          cases hk
      | ended h =>
          rw [kind, h.kind] at hk
          cases hk
  | @report c d consumed problem _ _ ih =>
      exact ih (hc.congr rfl (Journal.tokens_report c.journal problem))
  | withTable t _ ih => exact ih (hc.congr rfl rfl)

/-- A statement reads nothing after its first fetch. -/
theorem hasRead_statement (h : c.advance.HasRead lines total m) :
    c.statement.2.HasRead lines total m ∧ c.statement.2.lexer.input = c.advance.lexer.input := by
  rcases statement_cases c with he | ⟨use, d, ht⟩
  · rw [he.statement]
    exact ⟨h, rfl⟩
  · rw [ht.statement]
    cases ht with
    | evaluation _ _ hc _ =>
        obtain ⟨hr, hi⟩ := hc.hasRead h
        exact ⟨hr.congr rfl (tokens_evaluated _ _ _), hi⟩
    | empty => exact ⟨h, rfl⟩

/-- **Between statements a whole number of lines has been read.** -/
theorem hasRead_iterate (hl : ∀ line ∈ lines, Terminated line) (h : c.HasRead lines total m)
    (n : Nat) : ∃ k, ((fun c => c.statement.2)^[n] c).HasRead lines total k := by
  induction n with
  | zero => exact ⟨m, h⟩
  | succ n ih =>
      obtain ⟨k, hk⟩ := ih
      obtain ⟨k', -, -, ha, -, -⟩ := hk.advance hl
      rw [Function.iterate_succ_apply']
      exact ⟨k', (hasRead_statement ha).1⟩

end Calculator

/-- The number of bytes of the first `m` lines. -/
def bytesOf (lines : List (List UInt8)) (m : Nat) : Nat := (lines.take m).flatten.length

theorem bytesOf_add (lines : List (List UInt8)) (m : Nat) :
    bytesOf lines m + (lines.drop m).flatten.length = lines.flatten.length := by
  rw [bytesOf, ← List.length_append, ← List.flatten_append, List.take_append_drop]

/-- **Reading is lazy by a line.**  After any number of statements a whole number `m` of lines has been
read.  The next statement reads at most one line more, with its first fetch, and only when the newline
of the last line read is the token fetched last.  If it has a value, its first token is on the last
line read by then.  And an input that takes over the reader gets the tokens of the other lines. -/
theorem statement_reads_lazily {r : Reader} {lines : List (List UInt8)}
    (hl : ∀ line ∈ lines, Terminated line) (hr : r.Holds lines.flatten) (hold : Hold) (table : Table)
    (journal : Journal) (n : Nat) :
    let c := (fun c => c.statement.2)^[n] (Calculator.ofInput ⟨hold, r⟩ table journal)
    ∃ m k, m ≤ k ∧ k ≤ m + 1 ∧ k ≤ lines.length ∧
      c.lexer.input.reader.consumed = r.consumed + bytesOf lines m ∧
      c.statement.2.lexer.input.reader.consumed = r.consumed + bytesOf lines k ∧
      c.statement.2.lexer.input = c.advance.lexer.input ∧
      (k = m + 1 → m = 0 ∨ c.Finished lines m) ∧
      (∀ value, c.statement.1 = .value value → ∃ i, k = i + 1 ∧ c.advance.lexer.TookFrom lines i) ∧
      ∀ (hold' : Hold) (j : Journal),
        ((c.setInput ⟨hold', c.lexer.input.reader⟩).lexer.tokens j).1 =
          (tokenize (String.ofList (Utf8.decode (lines.drop m).flatten))).1 := by
  intro c
  have hs : (Calculator.ofInput ⟨hold, r⟩ table journal).HasRead lines
      (r.consumed + lines.flatten.length) 0 :=
    .fresh (Lexer.onLine_ofInput hr) rfl rfl
  have hread {d : Calculator} {m : Nat} (h : d.HasRead lines (r.consumed + lines.flatten.length) m) :
      d.lexer.input.reader.consumed = r.consumed + bytesOf lines m := by
    have hc := h.holds.2.2
    rw [← bytesOf_add lines m, ← Nat.add_assoc] at hc
    exact Nat.add_right_cancel hc
  obtain ⟨m, hm⟩ := Calculator.hasRead_iterate hl hs n
  obtain ⟨k, hmk, hkm, hk, hf, ht⟩ := hm.advance hl
  obtain ⟨hk', hi⟩ := Calculator.hasRead_statement hk
  refine ⟨m, k, hmk, hkm, hk.holds.1, hread hm, hread hk', hi, hf, fun value hv => ?_,
    fun hold' j => Lexer.tokens_setInput (i := ⟨hold', _⟩) _ hm.holds.2.1 j⟩
  refine ht.resolve_left fun hx => ?_
  rcases Calculator.statement_cases c with he | ⟨use, d, hturn⟩
  · rw [he.statement] at hv
    cases hv
  · exact hturn.not_rests hx

/-- The lines `1+` and `(2;3`, in chunks that are cut elsewhere. -/
def twoLines : List (List UInt8) := [[0x31, 0x2B, 0x0A], [0x28, 0x32, 0x3B, 0x33, 0x0A]]

/-- A sum without its second term and a parenthesis that is not closed: neither asks for a further
line. -/
theorem statement_reads_lazily_dangling :
    let r : Reader :=
      ⟨[.bytes [0x31], .interrupted, .bytes [0x2B, 0x0A, 0x28], .bytes [0x32, 0x3B, 0x33, 0x0A]], 7⟩
    (∀ line ∈ twoLines, Terminated line) ∧ r.Holds twoLines.flatten ∧
      let c := (fun c => c.statement.2)^[1] (Calculator.ofInput ⟨.borrowed, r⟩ .seeded (.ofSink .silent))
      c.statement.1 = .value faultValue ∧ c.lexer.input.reader.consumed = 7 + 3 ∧
        c.statement.2.lexer.input.reader.consumed = 7 + 8 ∧
        c.statement.2.lexer.input = c.advance.lexer.input ∧ c.advance.lexer.TookFrom twoLines 1 ∧
        ((c.setInput ⟨.borrowed, c.lexer.input.reader⟩).lexer.tokens (.ofSink .silent)).1 =
          (tokenize "(2;3\n").1 := by
  intro r
  have hl : ∀ line ∈ twoLines, Terminated line := by
    intro line hm
    rcases List.mem_cons.mp hm with rfl | hm
    · exact ⟨[0x31, 0x2B], by decide, rfl⟩
    · cases List.mem_singleton.mp hm
      exact ⟨[0x28, 0x32, 0x3B, 0x33], by decide, rfl⟩
  have hr : r.Holds twoLines.flatten :=
    ⟨r.chunks, [], rfl, by simp [r, Chunk.Plain], .inl rfl, rfl⟩
  refine ⟨hl, hr, ?_⟩
  intro c
  obtain ⟨m, k, hmk, hkm, hk, hm, hk', hi, -, hv, ht⟩ :=
    statement_reads_lazily hl hr .borrowed .seeded (.ofSink .silent) 1
  have hvalue : c.statement.1 = .value faultValue := by decide +kernel
  have hc : c.lexer.input.reader.consumed = 7 + 3 := by decide +kernel
  have hc' : c.statement.2.lexer.input.reader.consumed = 7 + 8 := by decide +kernel
  obtain ⟨i, rfl, hfrom⟩ := hv _ hvalue
  have hb : bytesOf twoLines m = 3 := Nat.add_left_cancel (hm.symm.trans hc)
  have hb' : bytesOf twoLines (i + 1) = 8 := Nat.add_left_cancel (hk'.symm.trans hc')
  -- the numbers of bytes tell how many lines have been read, before and after
  obtain rfl : i = 1 := by
    have hle : i < 2 := hk
    cases i with
    | zero => exact absurd hb' (by decide)
    | succ i => omega
  obtain rfl : m = 1 := by
    cases m with
    | zero => exact absurd hb (by decide)
    | succ m =>
        cases m with
        | zero => rfl
        | succ m =>
            have hle : m + 2 ≤ 2 := hmk
            obtain rfl : m = 0 := by omega
            exact absurd hb (by decide)
  have hs : String.ofList (Utf8.decode (twoLines.drop 1).flatten) = "(2;3\n" := by decide +kernel
  have ht := ht .borrowed (.ofSink .silent)
  rw [hs] at ht
  exact ⟨hvalue, hc, hc', hi, hfrom, ht⟩

end DeskCalculator
