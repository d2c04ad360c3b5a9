import DeskCalculator.Proofs.Lexer.Chunking
import DeskCalculator.Proofs.Lexer.Exhaustion

/-!
# Tokens — A read that fails

A lexer whose reader is going to fail, beside the same lexer over an input that holds the whole lines
before the failure and then ends (`ToFail`).  They read the same lines.  Where the one input ends, the
other one has an open line at most, and the read of it fails: that is noted, and from there on the
lexers are exhausted in the same way (`next_toFail`).  What the reader would have delivered behind the
failure it still holds (`Failed`).
-/

namespace DeskCalculator.Lexer
open Chunk (newline)

variable (message : String) (later : List Chunk) (lines total : Nat)

/-- The reader of the lexer is going to fail, after `lines` lines and `total` bytes in all, and `i`
holds the whole lines that come before. -/
structure ToFail (l : Lexer) (i : Input) : Prop where
  exhausted : l.exhausted = false
  breaks : ∃ bytes, l.input.reader.Breaks bytes message later ∧
    i.reader.Holds (wholeLines newline bytes) ∧
    l.lineNumber + UInt32.ofNat (bytes.count newline) = UInt32.ofNat lines ∧
    l.input.reader.consumed + bytes.length = total

/-- The reader has failed after `total` bytes, and the lexer is exhausted. -/
structure Failed (l : Lexer) : Prop where
  rests : l.Rests
  reader : l.input.reader = ⟨later, total⟩

variable {message later lines total} {l : Lexer} {i : Input}

theorem ToFail.wellFormed (h : l.ToFail message later lines total i) : l.WellFormed :=
  fun he => absurd (h.exhausted.symm.trans he) nofun

theorem Rests.onInput (h : l.Rests) (i : Input) : (l.onInput i).Rests :=
  ⟨h.exhausted, h.rest, h.offset, h.current⟩

/-- The lexers read the same line, or one finds the end and the read of the other fails. -/
theorem refill_toFail (h : l.ToFail message later lines total i) (j : Journal) :
    (∃ i', (l.onInput i).refill j = ((l.refill j).1.onInput i', (l.refill j).2) ∧
      (l.refill j).2 = j ∧ (l.refill j).1.ToFail message later lines total i') ∨
    ∃ r, (l.onInput i).refill j = ((l.onInput i).exhaust r, j) ∧
      l.refill j = (l.exhaust ⟨later, total⟩, j.note (.readFailed message (UInt32.ofNat lines))) := by
  obtain ⟨hx, bytes, hb, hi, hn, ht⟩ := h
  by_cases hm : newline ∈ bytes
  · obtain ⟨hf, ha⟩ := firstLine_wholeLines hm
    have hl := congrArg List.length (firstLine_append_afterLine newline bytes)
    rw [List.length_append] at hl
    obtain ⟨r, hr, hb', hc⟩ := Reader.readLine_of_breaks hb hm
    obtain ⟨r', hr', hi', -⟩ := Reader.readLine_of_holds hi (wholeLines_ne_nil hm)
    rw [hf] at hr'
    rw [ha] at hi'
    have hfill : l.refill j = (l.atLine r (Utf8.decode (firstLine newline bytes)), j) := by
      rw [refill, hr]
    have hfill' : (l.onInput i).refill j =
        ((l.onInput i).atLine r' (Utf8.decode (firstLine newline bytes)), j) := by
      rw [refill, show (l.onInput i).input.reader.readLine = _ from hr']
    rw [hfill, hfill']
    refine .inl ⟨⟨i.hold, r'⟩, rfl, rfl, hx, _, hb', hi', ?_, ?_⟩
    · rw [← hn, count_of_mem hm, UInt32.ofNat_add, ← UInt32.add_assoc]
      rfl
    · rw [← ht, ← hl, ← Nat.add_assoc, ← hc]
      rfl
  · have hr := Reader.readLine_of_breaks_open hb hm
    rw [wholeLines_of_not_mem hm] at hi
    obtain ⟨r', hr', -⟩ := Reader.readLine_of_holds_nil hi
    rw [List.count_eq_zero_of_not_mem hm, show UInt32.ofNat 0 = 0 from rfl, UInt32.add_zero] at hn
    refine .inr ⟨r', ?_, ?_⟩
    · rw [refill, show (l.onInput i).input.reader.readLine = _ from hr']
    · rw [refill, hr, ht, hn]

/-- Before a token the lexers stand at the same place, or both are exhausted. -/
theorem seek_toFail (h : l.ToFail message later lines total i) (j : Journal) :
    (∃ i', (l.onInput i).seek j = ((l.seek j).1.onInput i', (l.seek j).2) ∧ (l.seek j).2 = j ∧
      (l.seek j).1.ToFail message later lines total i') ∨
    ∃ i', (l.onInput i).seek j = ((l.seek j).1.onInput i', j) ∧
      (l.seek j).2 = j.note (.readFailed message (UInt32.ofNat lines)) ∧
      (l.seek j).1.exhausted = true ∧ (l.seek j).1.input.reader = ⟨later, total⟩ := by
  fun_induction seek l j generalizing i with
  | case1 l j hc ih =>
      have hn := seek_further (l := l.onInput i) j hc
      rcases refill_toFail (l := l.skipBlanks) ⟨h.exhausted, h.breaks⟩ j with
        ⟨i', hf, hj, hs⟩ | ⟨r, hf, hf'⟩
      · have hk := ih hs
        rw [hj] at hk hf ⊢
        rw [hn, show (l.onInput i).skipBlanks.refill j = _ from hf]
        exact hk
      · rw [hn, show (l.onInput i).skipBlanks.refill j = _ from hf, hf',
          seek_exhausted (l := (l.skipBlanks.onInput i).exhaust r) _ rfl,
          seek_exhausted (l := l.skipBlanks.exhaust ⟨later, total⟩) _ rfl]
        exact .inr ⟨⟨i.hold, r⟩, rfl, rfl, rfl, rfl⟩
  | case2 l j hc =>
      exact .inl ⟨i, seek_here (l := l.onInput i) j hc, rfl, h.exhausted, h.breaks⟩

/-- **A failed read is the end of the whole lines.**  The next tokens are the same, and so is what is
noted of them; but when the one input ends, the failure is noted first. -/
theorem next_toFail (h : l.ToFail message later lines total i) (j : Journal) :
    (∃ i', (l.onInput i).next j = ((l.next j).1.onInput i', (l.next j).2) ∧
      (l.next j).2 = (check (l.next j).1.current.kind j).note (.fetched (l.next j).1.current) ∧
      (l.next j).1.ToFail message later lines total i') ∨
    ∃ i', (l.onInput i).next j =
        ((l.next j).1.onInput i', j.note (.fetched (l.next j).1.current)) ∧
      (l.next j).2 = (j.note (.readFailed message (UInt32.ofNat lines))).note
        (.fetched (l.next j).1.current) ∧
      (l.next j).1.Failed later total := by
  rcases seek_toFail h j with ⟨i', hs, hj, ht⟩ | ⟨i', hs, hj, hx, hr⟩
  · obtain ⟨kind, text, hf⟩ := fetch_eq_take (l.seek j).1 (l.seek j).2
    have hn : (l.next j).1 = (l.seek j).1.take kind text := congrArg Prod.fst hf
    refine .inl ⟨i', ?_, ?_, hn ▸ ⟨ht.exhausted, ht.breaks⟩⟩
    · simp only [next, hs, fetch_onInput]
      rfl
    · rw [next_journal, hj]
  · -- nothing is left of the line, so both take the terminator, which is not reported
    have hw := h.wellFormed.seek j
    obtain ⟨hl, -⟩ := hw hx
    have hf (m : Lexer) (k : Journal) (hm : m.rest = []) :
        m.fetch k = (m.take .terminator [], k) := by
      simp only [fetch, hm]
    have hn : l.next j = ((l.seek j).1.take .terminator [],
        (l.seek j).2.note (.fetched ((l.seek j).1.take .terminator []).current)) := by
      simp only [next, hf _ _ hl]
    rw [hn, hj]
    refine .inr ⟨i', ?_, rfl, hw.rests_take hx, hr⟩
    simp only [next, hs, hf ((l.seek j).1.onInput i') j hl]
    rfl

end DeskCalculator.Lexer
