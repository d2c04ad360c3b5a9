import DeskCalculator.Proofs.Lexer.History
import DeskCalculator.Proofs.Session.Requests

/-!
# Sessions — The end of the input

Whatever a calculator is asked to do, its lexer fetches or is given a new input, and nothing else happens
to it.  So what fetches and new inputs keep of a lexer is kept by all requests (`lexer_performAll`).

**The end is sound, and final** (`exhaustion_sound`).  A lexer finds the end of its input with a
terminator, once it has walked all lines it has read; from then on it stays where it is, whatever its
reader does.  A statement tells of the end exactly if its fetch has found the lexer there, and never
because of a separator.
-/

namespace DeskCalculator

namespace Calculator

/-! ### What happens to the lexer -/

section
variable {P : Lexer → Prop} (hn : ∀ l j, P l → P (Lexer.next l j).1)
include hn

theorem Consumes.lexer {c c' : Calculator} {consumed : List Token} (h : c.Consumes consumed c')
    (hp : P c.lexer) : P c'.lexer := by
  induction h with
  | done => exact hp
  | fetch _ _ ih => exact ih (hn _ _ hp)
  | report _ _ ih | withTable _ _ ih => exact ih hp

theorem Turn.lexer {c d : Calculator} {use : Use} (h : c.Turn use d) (hp : P c.lexer) : P d.lexer := by
  have ha : P c.advance.lexer := hn _ _ hp
  cases h with
  | evaluation _ _ hc _ => exact hc.lexer hn ha
  | empty => exact ha

theorem Conducts.lexer {c d : Calculator} {uses : List Use} (h : c.Conducts uses d) (hp : P c.lexer) :
    P d.lexer := by
  induction h with
  | refl => exact hp
  | more h _ ih => exact ih (h.lexer hn hp)

theorem lexer_evaluateFrom {c : Calculator} (hp : P c.lexer) (lookahead : Lookahead) :
    P (c.evaluateFrom lookahead).2.lexer := by
  rw [evaluateFrom_eq_evaluate]
  obtain ⟨consumed, hc⟩ := consumes_evaluate (c.start lookahead)
  refine hc.lexer hn ?_
  cases lookahead with
  | fetch => exact hn _ _ hp
  | current => exact hp

theorem lexer_statement {c : Calculator} (hp : P c.lexer) : P c.statement.2.lexer := by
  rcases c.statement_cases with he | ⟨use, d, ht⟩
  · rw [he.statement]
    exact hn _ _ hp
  · rw [ht.statement]
    exact ht.lexer hn hp

theorem lexer_calculate {c : Calculator} (hp : P c.lexer) (output : Sink) :
    P (DeskCalculator.calculate c output).1.lexer := by
  obtain ⟨uses, d, hc, -, hr⟩ := calculate_conducts c output
  rw [hr]
  exact hn _ _ (hc.lexer hn hp)

/-- What fetches keep of a lexer is kept by every request, unless it is lost with a new input. -/
theorem lexer_performAll {c : Calculator} (hp : P c.lexer) {requests : List Request}
    (hs : ∀ input, .setInput input ∈ requests → ∀ l, P (Lexer.setInput l input)) :
    P (c.performAll requests).lexer := by
  induction requests generalizing c with
  | nil => exact hp
  | cons r requests ih =>
      refine ih ?_ fun input hm => hs input (List.mem_cons_of_mem r hm)
      cases r with
      | statement => exact lexer_statement hn hp
      | evaluate lookahead => exact lexer_evaluateFrom hn hp lookahead
      | calculate output => exact lexer_calculate hn hp output
      | setInput input => exact hs input List.mem_cons_self c.lexer
      | report | clear | take | write => exact hp

end

/-! ### The lexer of a calculator -/

/-- The lexer of a calculator has always been fetching since its last new input. -/
theorem fetching_performAll (input : Input) (table : Table) (journal : Journal)
    (requests : List Request) :
    ((ofInput input table journal).performAll requests).lexer.Fetching :=
  lexer_performAll (fun _ j h => h.next j) ⟨.ofInput input, input, [], rfl⟩
    fun input _ l => ⟨l, input, [], rfl⟩

/-- Only with a new input a lexer goes on from the end. -/
theorem lexer_performAll_of_rests {c : Calculator} (h : c.lexer.Rests) {requests : List Request}
    (hs : ∀ input, .setInput input ∉ requests) : (c.performAll requests).lexer = c.lexer := by
  have hn (l : Lexer) (j : Journal) (hl : l = c.lexer) : (l.next j).1 = c.lexer := by
    rw [hl, Lexer.next_of_rests h]
  exact lexer_performAll (P := (· = c.lexer)) hn rfl fun input hm => absurd hm (hs input)

variable {c : Calculator} (h : c.lexer.WellFormed)
include h

theorem statement_eq_exhausted_iff :
    c.statement.1 = .exhausted ↔ c.advance.lexer.exhausted = true := by
  constructor
  · intro hs
    have hr : c.statement = (.exhausted, c.statement.2) := by rw [← hs]
    obtain ⟨hx, he⟩ := exhausted_of_statement hr
    rwa [he] at hx
  · intro hx
    have hk : c.advance.kind = .terminator := (Lexer.rests_next h hx).kind
    simp [statement, hk, hx]

/-- A separator is an empty statement, and not the end. -/
theorem statement_of_separator {sep : Char} {rest : List Char} (hsep : Separates sep)
    (hr : (c.lexer.seek c.journal).1.rest = sep :: rest) : c.statement.1 = .empty := by
  have hx : (c.lexer.seek c.journal).1.exhausted = false := by
    cases hx : (c.lexer.seek c.journal).1.exhausted with
    | false => rfl
    | true =>
        rw [((h.seek c.journal) hx).1] at hr
        cases hr
  have ha : c.advance.lexer = (c.lexer.seek c.journal).1.take .terminator [sep] := by
    show (c.lexer.next c.journal).1 = _
    simp only [Lexer.next, Lexer.fetch, hr, hsep.startingWith]
  have hk : c.advance.kind = .terminator := by rw [kind, ha]; rfl
  have hx' : c.advance.lexer.exhausted = false := by rw [ha]; exact hx
  simp [statement, hk, hx']

end Calculator

/-- **The end is sound, and final.**  A lexer with a new input, which is not exhausted yet, fetches some
tokens.  If the next fetch is the one that finds the end, then the lexer has read some lines, asked its
reader once more and got none, because the input had come to an end or the read failed; the tokens
fetched are those of all these lines, of which each character is in the text of a token or is a blank;
and the fetch takes a terminator, which is without a byte.  At the end any number of further fetches
take this same token, leave the lexer with its reader as it is, whatever that one would deliver, and
note nothing but the token.

In a session, whatever is asked of the calculator, its lexer has always been fetching like this since
its last new input.  A statement tells of the end if and only if its fetch has found the lexer there; a
separator is an empty statement; and once a statement has told of the end, nothing but a new input
brings the lexer to go on. -/
theorem exhaustion_sound (old : Lexer) (input : Input) (journals : List Journal) (j : Journal)
    (first : Input) (table : Table) (journal : Journal) (requests : List Request) :
    let tokens := ((old.setInput input).fetchAll journals).1
    let before := ((old.setInput input).fetchAll journals).2
    let after := (before.next j).1
    let c := (Calculator.ofInput first table journal).performAll requests
    (old.setInput input).exhausted = false ∧
    (before.exhausted = false → after.exhausted = true → ∃ lines reader,
      input.reader.Reads lines reader ∧ (∀ bytes, reader.readLine.1 ≠ .line bytes) ∧
      after.input.reader = reader.readLine.2 ∧ Tiles 0 [] [] (lines.map Utf8.decode) tokens ∧
      after.current = ⟨.terminator, UInt32.ofNat lines.length, 0, 0⟩) ∧
    (after.exhausted = true → ∀ more k,
      after.fetchAll more = (List.replicate more.length after.current, after) ∧
      after.next k = (after, k.note (.fetched after.current))) ∧
    c.lexer.Fetching ∧
    (c.statement.1 = .exhausted ↔ c.advance.lexer.exhausted = true) ∧
    (∀ sep rest, Separates sep → (c.lexer.seek c.journal).1.rest = sep :: rest →
      c.statement.1 = .empty) ∧
    (c.statement.1 = .exhausted → ∀ later : List Request, (∀ input, .setInput input ∉ later) →
      (c.statement.2.performAll later).lexer = c.statement.2.lexer) := by
  intro tokens before after c
  have hb : before.Fetching := ⟨old, input, journals, rfl⟩
  have hf : c.lexer.Fetching := Calculator.fetching_performAll first table journal requests
  have hw := hf.wellFormed
  refine ⟨rfl, fun hx hx' => ?_, fun hx more k => ?_, hf, Calculator.statement_eq_exhausted_iff hw,
    fun sep rest hsep hr => Calculator.statement_of_separator hw hsep hr, fun hs later hl => ?_⟩
  · obtain ⟨lines, ho⟩ := Lexer.exists_walkedThrough hx hx'
    obtain ⟨reader, hr, hn, hi⟩ := ho.reads
    exact ⟨lines, reader, hr, hn, hi, ho.tiles, ho.current⟩
  · have hr : after.Rests := Lexer.rests_next hb.wellFormed hx
    exact ⟨Lexer.fetchAll_of_rests hr more, Lexer.next_of_rests hr k⟩
  · have hr : c.statement = (.exhausted, c.statement.2) := by rw [← hs]
    obtain ⟨hx, he⟩ := Calculator.exhausted_of_statement hr
    rw [he] at hx ⊢
    exact Calculator.lexer_performAll_of_rests (Lexer.rests_next hw hx) hl

/-- A reader that comes to an end and would deliver more behind it, and a statement whose fetch finds the
end behind a separator. -/
theorem exhaustion_sound_resuming :
    let input : Input := ⟨.borrowed, [.bytes [49, 59, 10], .bytes [], .bytes [51]], 0⟩
    let quiet : Journal := .ofSink .silent
    let all := ((Lexer.ofInput .empty).setInput input).fetchAll [quiet, quiet, quiet]
    let after := (all.2.next quiet).1
    let c := (Calculator.ofInput (.ofString "1;") .empty quiet).performAll [.statement]
    all.2.exhausted = false ∧ after.exhausted = true ∧ after.input.reader.chunks = [.bytes [51]] ∧
      (∃ lines reader, input.reader.Reads lines reader ∧ after.input.reader = reader.readLine.2 ∧
        Tiles 0 [] [] (lines.map Utf8.decode) all.1) ∧
      after.next quiet = (after, quiet.note (.fetched after.current)) ∧
      c.advance.lexer.exhausted = true ∧ c.statement.1 = .exhausted := by
  intro input quiet all after c
  have hx : all.2.exhausted = false := by decide +kernel
  have hx' : after.exhausted = true := by decide +kernel
  have hc : c.advance.lexer.exhausted = true := by decide +kernel
  obtain ⟨-, hs, ha, -, he, -⟩ := exhaustion_sound (.ofInput .empty) input [quiet, quiet, quiet] quiet
    (.ofString "1;") .empty quiet [.statement]
  obtain ⟨lines, reader, hr, -, hi, ht, -⟩ := hs hx hx'
  exact ⟨hx, hx', by decide +kernel, ⟨lines, reader, hr, hi, ht⟩, (ha hx' [] quiet).2, hc, he.mpr hc⟩

end DeskCalculator
