import DeskCalculator.Proofs.Lexer.Walk
import Mathlib.Data.List.Pairwise

/-!
# Tokens — The tokens tile the text

The lexer loses and invents nothing.  A token lies on a line, between what stands before it and what
stands behind it (`Token.Lies`); the lines and the offsets of the tokens are numbers of limited size,
and as long as there is room for them (`Room`) they say where the tokens are.

**The tiling** (`tokenize_tiling`).  Where there is room, the spans of the tokens are not empty, are in
order and do not overlap; they cover every character that is no blank, each once, and no blank; the
terminators are the newlines and the `;`; the text that a token covers decides its kind; and the bad
ones, of one character each, are what is reported, each once.
-/

namespace DeskCalculator
open Lexeme (byteLength)

/-! ### Lines and bytes -/

/-- The token stands on line `n` between `before` and `after`, and covers `text`. -/
structure Token.Lies (token : Token) (n : Nat) (before text after : List Char) : Prop where
  line : token.span.line.toNat = n
  start : token.span.start.toNat = byteLength before
  stop : token.span.stop.toNat = byteLength (before ++ text)
  denotes : Denotes after text token.kind

/-- The span of the token takes in the character `c` that stands behind `before` on line `n`. -/
structure Token.Covers (token : Token) (n : Nat) (before : List Char) (c : Char) : Prop where
  line : token.span.line.toNat = n
  start : token.span.start.toNat ≤ byteLength before
  stop : byteLength (before ++ [c]) ≤ token.span.stop.toNat

/-- The span of the first token ends before that of the second starts. -/
def Token.Precedes (t u : Token) : Prop :=
  t.span.line < u.span.line ∨ t.span.line = u.span.line ∧ t.span.stop ≤ u.span.start

/-- The lines, of which the first has the number `n`, have room in spans. -/
structure Room (n : Nat) (lines : List (List Char)) : Prop where
  number : n + lines.length ≤ UInt32.size
  bytes : ∀ line ∈ lines, byteLength line < UInt32.size

theorem Room.tail {n : Nat} {line : List Char} {lines : List (List Char)}
    (h : Room n (line :: lines)) : Room (n + 1) lines where
  number := by
    have hn := h.number
    rw [List.length_cons] at hn
    omega
  bytes l hl := h.bytes l (List.mem_cons_of_mem line hl)

theorem Lexeme.byteLength_le_of_prefix {u v : List Char} (h : u <+: v) :
    byteLength u ≤ byteLength v := by
  obtain ⟨w, rfl⟩ := h
  rw [byteLength_append]
  exact Nat.le_add_right _ _

theorem toNat_spanOffset_of_lt {offset : Nat} (h : offset < UInt32.size) :
    (spanOffset offset).toNat = offset := by
  rw [toNat_spanOffset]
  exact Nat.min_eq_left (Nat.le_of_lt_succ h)

/-- Where there is room, a span says where its token is. -/
theorem Room.lies {n i : Nat} {lines : List (List Char)} (h : Room n lines)
    {u text v : List Char} (hi : lines[i]? = some (u ++ text ++ v)) {token : Token}
    (hs : token.span = .at (n + i) u text) (hk : Denotes v text token.kind) :
    token.Lies (n + i) u text v := by
  have hb := h.bytes _ (List.mem_of_getElem? hi)
  have hut : byteLength (u ++ text) < UInt32.size :=
    Nat.lt_of_le_of_lt (Lexeme.byteLength_le_of_prefix (List.prefix_append _ _)) hb
  have hu : byteLength u < UInt32.size :=
    Nat.lt_of_le_of_lt (Lexeme.byteLength_le_of_prefix (List.prefix_append _ _)) hut
  have hl : n + i < UInt32.size :=
    Nat.lt_of_lt_of_le (Nat.add_lt_add_left (List.getElem?_eq_some_iff.mp hi).1 n) h.number
  constructor
  · rw [hs]
    exact UInt32.toNat_ofNat_of_lt' hl
  · rw [hs]
    exact toNat_spanOffset_of_lt hu
  · rw [hs]
    exact toNat_spanOffset_of_lt hut
  · exact hk

/-- A token covers each character of its text. -/
theorem Token.Lies.covers {token : Token} {n : Nat} {w x y z : List Char} {c : Char}
    (h : token.Lies n w (x ++ c :: y) z) : token.Covers n (w ++ x) c where
  line := h.line
  start := by
    rw [h.start]
    exact Lexeme.byteLength_le_of_prefix (List.prefix_append w x)
  stop := by
    rw [h.stop]
    refine Lexeme.byteLength_le_of_prefix ⟨y, ?_⟩
    rw [List.append_assoc, List.append_assoc]
    rfl

/-- A character within the span of a token is one of its text. -/
theorem Token.Lies.mem_of_covers {token : Token} {n m : Nat} {u text v before after : List Char}
    {c : Char} (h : token.Lies n u text v) (hc : token.Covers m before c)
    (hl : u ++ text ++ v = before ++ c :: after) : ∃ x y, before = u ++ x ∧ text = x ++ c :: y := by
  have hs : byteLength u ≤ byteLength before := h.start ▸ hc.start
  have he : byteLength (before ++ [c]) ≤ byteLength (u ++ text) := h.stop ▸ hc.stop
  have hp : 0 < c.utf8Size := c.utf8Size_pos
  simp only [Lexeme.byteLength_append] at he
  rw [show byteLength [c] = c.utf8Size from rfl] at he
  rw [List.append_assoc] at hl
  obtain ⟨x, rfl, hx⟩ : ∃ x, before = u ++ x ∧ text ++ v = x ++ c :: after := by
    rcases List.append_eq_append_iff.mp hl with hx | ⟨x, rfl, hx⟩
    · exact hx
    · -- the text starts no later than the character, so nothing is in between
      cases x with
      | nil => exact ⟨[], by rw [List.append_nil, List.append_nil], hx.symm⟩
      | cons d x =>
          rw [Lexeme.byteLength_append] at hs
          have hd : 0 < byteLength (d :: x) := Lexeme.byteLength_pos nofun
          omega
  rw [Lexeme.byteLength_append] at he
  rcases List.append_eq_append_iff.mp hx with ⟨z, rfl, -⟩ | ⟨z, rfl, hz⟩
  · rw [Lexeme.byteLength_append] at he
    omega
  · cases z with
    | nil =>
        rw [List.append_nil] at he
        omega
    | cons d z =>
        cases (List.cons.inj hz).1
        exact ⟨x, z, rfl, rfl⟩

/-- Of two tokens that are in order, at most one covers a character. -/
theorem Token.Precedes.not_covers {t u : Token} {n : Nat} {before : List Char} {c : Char}
    (h : t.Precedes u) (ht : t.Covers n before c) (hu : u.Covers n before c) : False := by
  rcases h with h | ⟨-, h⟩
  · have hlt := UInt32.lt_iff_toNat_lt.mp h
    rw [ht.line, hu.line] at hlt
    exact Nat.lt_irrefl _ hlt
  · have hle := UInt32.le_iff_toNat_le.mp h
    have hp : 0 < byteLength [c] := Lexeme.byteLength_pos nofun
    have hs := ht.stop
    have hst := hu.start
    rw [Lexeme.byteLength_append] at hs
    omega

theorem Tiles.ordered {n : Nat} {before rest : List Char} {lines : List (List Char)}
    {tokens : List Token} (h : Tiles n before rest lines tokens)
    (hr : Room n ((before ++ rest) :: lines)) : tokens.Pairwise Token.Precedes := by
  induction h with
  | done => exact .nil
  | line _ ih => exact ih hr.tail
  | blank _ _ ih => exact ih (by rwa [List.append_assoc])
  | @token n before text rest kind lines tokens hk h ih =>
      have hr' : Room n ((before ++ text ++ rest) :: lines) := by rwa [List.append_assoc]
      refine .cons (fun token ht => ?_) (ih hr')
      obtain ⟨i, u, text', v, hi, hu, hs, hk'⟩ := h.placed token ht
      have hl := hr'.lies hi hs hk'
      have hf : Token.Lies ⟨kind, .at n before text⟩ n before text rest :=
        hr'.lies (i := 0) rfl rfl hk
      cases i with
      | zero =>
          refine .inr ⟨UInt32.toNat_inj.mp (hf.line.trans hl.line.symm), ?_⟩
          rw [UInt32.le_iff_toNat_le, hf.stop, hl.start]
          exact Lexeme.byteLength_le_of_prefix (hu rfl)
      | succ i =>
          refine .inl ?_
          rw [UInt32.lt_iff_toNat_lt, hf.line, hl.line]
          exact Nat.lt_add_of_pos_right (Nat.succ_pos i)

/-! ### The tiling -/

/-- The spans of the tokens tile the lines, which are counted from one. -/
structure Tiling (lines : List (List Char)) (tokens : List Token) : Prop where
  /-- Every token stands on a line, and its kind is what the text it covers says. -/
  lies : ∀ token ∈ tokens, ∃ i before text after,
    lines[i]? = some (before ++ text ++ after) ∧ token.Lies (i + 1) before text after
  nonempty : ∀ token ∈ tokens, token.span.start < token.span.stop
  ordered : tokens.Pairwise Token.Precedes
  covered : ∀ i before c after, lines[i]? = some (before ++ c :: after) → isBlank c = false →
    ∃! token, token ∈ tokens ∧ token.Covers (i + 1) before c
  blank : ∀ i before c after, lines[i]? = some (before ++ c :: after) → isBlank c = true →
    ∀ token ∈ tokens, ¬ token.Covers (i + 1) before c
  /-- What covers a newline or a `;` is a terminator of one byte. -/
  separator : ∀ i before c after, lines[i]? = some (before ++ c :: after) → Separates c →
    ∀ token ∈ tokens, token.Covers (i + 1) before c →
      token.Lies (i + 1) before [c] after ∧ token.kind = .terminator ∧
        token.span.stop.toNat = token.span.start.toNat + 1
  terminator : ∀ token ∈ tokens, token.kind = .terminator → ∃ i before c after,
    lines[i]? = some (before ++ c :: after) ∧ Separates c ∧ token.Lies (i + 1) before [c] after

section
variable {lines : List (List Char)} {tokens : List Token}

/-- A walk that starts before the first line stands on no token there. -/
theorem Tiles.lies (h : Tiles 0 [] [] lines tokens) (hr : Room 0 ([] :: lines)) :
    ∀ token ∈ tokens, ∃ i before text after,
      lines[i]? = some (before ++ text ++ after) ∧ token.Lies (i + 1) before text after := by
  intro token ht
  obtain ⟨i, u, text, v, hi, -, hs, hk⟩ := h.placed token ht
  have hl := hr.lies hi hs hk
  rw [Nat.zero_add] at hl
  cases i with
  | zero =>
      have hn := Option.some.inj hi
      rw [List.append_nil, List.nil_eq_append_iff, List.append_eq_nil_iff] at hn
      exact absurd hn.1.2 hk.ne_nil
  | succ i => exact ⟨i, u, text, v, hi, hl⟩

theorem Tiles.exists_covers (h : Tiles 0 [] [] lines tokens) (hr : Room 0 ([] :: lines)) {i : Nat}
    {before after : List Char} {c : Char} (hi : lines[i]? = some (before ++ c :: after))
    (hc : isBlank c = false) : ∃ token ∈ tokens, token.Covers (i + 1) before c := by
  obtain ⟨token, ht, w, x, y, z, rfl, rfl, hs, hk⟩ := h.met (i := i + 1) hc hi nofun
  have hw : ([] :: lines)[i + 1]? = some (w ++ (x ++ c :: y) ++ z) := by
    rw [List.getElem?_cons_succ, hi]
    simp only [List.append_assoc, List.cons_append]
  have hl := hr.lies hw hs hk
  rw [Nat.zero_add] at hl
  exact ⟨token, ht, hl.covers⟩

/-- A token that covers a character stands on the line of the character, and has it in its text. -/
theorem Tiles.lies_of_covers (h : Tiles 0 [] [] lines tokens) (hr : Room 0 ([] :: lines)) {i : Nat}
    {before after : List Char} {c : Char} (hi : lines[i]? = some (before ++ c :: after))
    {token : Token} (ht : token ∈ tokens) (hc : token.Covers (i + 1) before c) :
    ∃ u x y v, before = u ++ x ∧ after = y ++ v ∧ token.Lies (i + 1) u (x ++ c :: y) v := by
  obtain ⟨k, u, text, v, hk, hl⟩ := h.lies hr token ht
  have hik : k + 1 = i + 1 := hl.line.symm.trans hc.line
  cases Nat.succ.inj hik
  have hline := Option.some.inj (hk.symm.trans hi)
  obtain ⟨x, y, rfl, rfl⟩ := hl.mem_of_covers hc hline
  refine ⟨u, x, y, v, rfl, ?_, hl⟩
  have hv : (u ++ x) ++ c :: (y ++ v) = u ++ x ++ c :: after := by
    rw [← hline]
    simp only [List.append_assoc, List.cons_append]
  exact (List.cons.inj (List.append_cancel_left hv)).2.symm

theorem Tiles.tiling (h : Tiles 0 [] [] lines tokens) (hr : Room 0 ([] :: lines)) :
    Tiling lines tokens where
  lies := h.lies hr
  nonempty token ht := by
    obtain ⟨i, before, text, after, -, hl⟩ := h.lies hr token ht
    rw [UInt32.lt_iff_toNat_lt, hl.start, hl.stop, Lexeme.byteLength_append]
    exact Nat.lt_add_of_pos_right (Lexeme.byteLength_pos hl.denotes.ne_nil)
  ordered := h.ordered hr
  covered i before c after hi hc := by
    obtain ⟨token, ht, hl⟩ := h.exists_covers hr hi hc
    refine ⟨token, ⟨ht, hl⟩, fun other ⟨ho, hl'⟩ => ?_⟩
    let atMostOne (t u : Token) : Prop :=
      t.Covers (i + 1) before c → u.Covers (i + 1) before c → t = u
    have : Std.Symm atMostOne := ⟨fun _ _ h hu ht => (h ht hu).symm⟩
    have hp : tokens.Pairwise atMostOne :=
      (h.ordered hr).imp fun hp ht hu => (hp.not_covers ht hu).elim
    exact hp.forall_of_forall (fun _ _ _ _ => rfl) ho ht hl' hl
  blank i before c after hi hb token ht hc := by
    obtain ⟨u, x, y, v, -, -, hl⟩ := h.lies_of_covers hr hi ht hc
    have hn := hl.denotes.not_blank c (List.mem_append_right _ List.mem_cons_self)
    exact absurd (hn.symm.trans hb) nofun
  separator i before c after hi hs token ht hc := by
    obtain ⟨u, x, y, v, rfl, rfl, hl⟩ := h.lies_of_covers hr hi ht hc
    obtain ⟨he, hk⟩ := hl.denotes.eq_of_separates (List.mem_append_right _ List.mem_cons_self) hs
    obtain ⟨rfl, rfl⟩ : x = [] ∧ y = [] := by
      rw [List.append_eq_singleton_iff] at he
      simpa using he
    rw [List.append_nil]
    refine ⟨hl, hk, ?_⟩
    rw [hl.start, hl.stop, Lexeme.byteLength_append]
    rcases hs with rfl | rfl <;> rfl
  terminator token ht hk := by
    obtain ⟨i, before, text, after, hi, hl⟩ := h.lies hr token ht
    obtain ⟨c, rfl, hs⟩ := (hk ▸ hl.denotes).separator_of_terminator
    refine ⟨i, before, c, after, ?_, hs, hl⟩
    rwa [List.append_assoc] at hi

end

/-- **The tokens tile the text.**  The lines of a text, each with the newline that ends it, are tiled by
the tokens; the text of a token decides its kind; and the problems are those of the bad tokens. -/
theorem tokenize_tiling (source : String)
    (hn : (cutLines '\n' source.toList).length < UInt32.size)
    (hb : ∀ line ∈ cutLines '\n' source.toList, byteLength line < UInt32.size) :
    let lines := cutLines '\n' source.toList
    let tokens := (tokenize source).1
    let journal := (tokenize source).2
    (lines.flatten = source.toList ∧ (∀ line ∈ lines, line ≠ [] ∧ '\n' ∉ line.dropLast) ∧
      ∀ line ∈ lines.dropLast, line.getLast? = some '\n') ∧
      Tiling lines tokens ∧
      (∀ after after' text k k', Denotes after text k → Denotes after' text k' → k = k') ∧
      journal.problems = (tokens.flatMap fun token => token.kind.problems) ∧
      journal.errors = journal.problems.length := by
  intro lines tokens journal
  have hl := Lexer.onLine_ofInput (i := .ofString source) (Reader.holds_ofString source)
  have ht := tiles_coming hl
  rw [Utf8.decode_encode, Lexer.coming_eq _ (.ofSink (.buffer ""))] at ht
  have hr : Room 0 ([] :: lines) := by
    refine ⟨?_, fun line hm => ?_⟩
    · rw [List.length_cons, Nat.zero_add]
      exact hn
    · rcases List.mem_cons.mp hm with rfl | hm
      · decide
      · exact hb line hm
  have hp : journal.problems = tokens.flatMap fun token => token.kind.problems :=
    Lexer.problems_tokens _ _
  refine ⟨⟨flatten_cutLines _ _, fun line hm => ?_, fun line hm => ?_⟩, ht.tiling hr,
    fun _ _ _ _ _ => Denotes.kind_eq, hp, ?_⟩
  · exact ⟨ne_nil_of_mem_cutLines _ hm, not_mem_dropLast_cutLines _ hm⟩
  · exact getLast?_of_mem_dropLast_cutLines _ hm
  · rw [hp]
    exact (Lexer.errors_tokens _ _).trans (Nat.zero_add _)

/-- An exponent with no digits, a character of three bytes, a point alone, blanks before a newline, and
a line with no newline. -/
theorem tokenize_tiling_patchwork :
    let source := "r2 = .5e+ ;\u20AC .\r\n \t12"
    let lines := cutLines '\n' source.toList
    lines.length < UInt32.size ∧ (∀ line ∈ lines, byteLength line < UInt32.size) ∧
      Tiling ["r2 = .5e+ ;\u20AC .\r\n".toList, " \t12".toList]
        [⟨.name "r2", 1, 0, 2⟩, ⟨.assign, 1, 3, 4⟩, ⟨.number 0.5, 1, 5, 7⟩, ⟨.name "e", 1, 7, 8⟩,
          ⟨.plus, 1, 8, 9⟩, ⟨.terminator, 1, 10, 11⟩, ⟨.bad '\u20AC', 1, 11, 14⟩,
          ⟨.bad '.', 1, 15, 16⟩, ⟨.terminator, 1, 17, 18⟩, ⟨.number 12, 2, 2, 4⟩] ∧
      (tokenize source).2.problems = [.badToken '\u20AC', .badToken '.'] := by
  intro source lines
  have hn : lines.length < UInt32.size := by decide +kernel
  have hb : ∀ line ∈ lines, byteLength line < UInt32.size := by decide +kernel
  obtain ⟨-, ht, -, hp, -⟩ := tokenize_tiling source hn hb
  have hl : lines = ["r2 = .5e+ ;\u20AC .\r\n".toList, " \t12".toList] := by decide +kernel
  have hs : (tokenize source).1 =
      [⟨.name "r2", 1, 0, 2⟩, ⟨.assign, 1, 3, 4⟩, ⟨.number 0.5, 1, 5, 7⟩, ⟨.name "e", 1, 7, 8⟩,
        ⟨.plus, 1, 8, 9⟩, ⟨.terminator, 1, 10, 11⟩, ⟨.bad '\u20AC', 1, 11, 14⟩,
        ⟨.bad '.', 1, 15, 16⟩, ⟨.terminator, 1, 17, 18⟩, ⟨.number 12, 2, 2, 4⟩] := by
    decide +kernel
  rw [hs] at ht hp
  rw [← hl]
  exact ⟨hn, hb, ht, hp⟩

end DeskCalculator
