import DeskCalculator.Lexer.Cursor
import DeskCalculator.Proofs.Decimal.Reading

/-!
# Tokens — Scanning by bytes

The places on a line are those numbers of bytes that are valid positions of a string
(`isSome_cutBytes?_iff`).  At a place (`Cursor.behind`) every part of a token is scanned: no check of the
cursor fails, the cursor is at a place again, and what it has passed are the characters that are read
there (`eat?_behind`, `exponent?_behind`, `number?_behind`, `name?_behind`, `kind?_behind`).
-/

namespace DeskCalculator
open Lexeme (byteLength)

/-! ### Places -/

theorem cutBytes?_append (u v : List Char) : cutBytes? (u ++ v) (byteLength u) = some (u, v) := by
  induction u with
  | nil => exact cutBytes?.eq_1 v
  | cons c u ih =>
      have hl : byteLength (c :: u) = c.utf8Size + byteLength u := rfl
      have hc := c.utf8Size_pos
      obtain ⟨n, hn⟩ := Nat.exists_eq_succ_of_ne_zero (n := byteLength (c :: u)) (by omega)
      rw [hn, List.cons_append, cutBytes?, if_pos (by omega), ← Nat.succ_eq_add_one, ← hn, hl,
        Nat.add_sub_cancel_left, ih]
      rfl

theorem eq_of_cutBytes? {text u v : List Char} {n : Nat} (h : cutBytes? text n = some (u, v)) :
    text = u ++ v ∧ n = byteLength u := by
  fun_induction cutBytes? text n generalizing u with
  | case1 text =>
      cases h
      exact ⟨rfl, rfl⟩
  | case2 => cases h
  | case3 c text n hc ih =>
      obtain ⟨⟨u', v'⟩, hcut, he⟩ := Option.map_eq_some_iff.mp h
      cases he
      obtain ⟨rfl, hn⟩ := ih hcut
      refine ⟨rfl, ?_⟩
      rw [show byteLength (c :: u') = c.utf8Size + byteLength u' from rfl, ← hn]
      omega
  | case4 => cases h

theorem utf8ByteSize_ofList (text : List Char) :
    (String.ofList text).utf8ByteSize = byteLength text := by
  rw [String.utf8ByteSize_ofList]
  induction text with
  | nil => rfl
  | cons c text ih =>
      rw [String.utf8Len_cons, ih, Nat.add_comm]
      rfl

/-- The places on a line are the positions of a string that are valid: not beyond its end, and not
inside a character. -/
theorem isSome_cutBytes?_iff (text : List Char) (n : Nat) :
    (cutBytes? text n).isSome ↔ String.Pos.Raw.IsValid (String.ofList text) ⟨n⟩ := by
  rw [String.Pos.Raw.isValid_iff_exists_append]
  constructor
  · intro h
    obtain ⟨⟨u, v⟩, hcut⟩ := Option.isSome_iff_exists.mp h
    obtain ⟨rfl, rfl⟩ := eq_of_cutBytes? hcut
    refine ⟨String.ofList u, String.ofList v, String.ofList_append, ?_⟩
    rw [← utf8ByteSize_ofList]
    rfl
  · rintro ⟨s, t, hs, hn⟩
    have htext : text = s.toList ++ t.toList := by
      rw [← String.toList_append, ← hs, String.toList_ofList]
    have hlen : n = byteLength s.toList := by
      rw [← utf8ByteSize_ofList, String.ofList_toList]
      exact congrArg String.Pos.Raw.byteIdx hn
    rw [htext, hlen, cutBytes?_append]
    rfl

/-- Inside a character, and beyond the line, there is no place. -/
example : [1, 2, 3, 4].map (cutBytes? ['\u20AC']) = [none, none, some (['\u20AC'], []), none] := rfl

/-! ### Bytes and characters -/

theorem length_encode (text : List Char) : (Utf8.encode text).length = byteLength text := by
  induction text with
  | nil => rfl
  | cons c text ih =>
      rw [Utf8.encode, List.flatMap_cons, List.length_append, String.length_utf8EncodeChar]
      exact congrArg (c.utf8Size + ·) ih

/-- Letters and digits are of one byte. -/
theorem utf8Size_of_isAlphanum {c : Char} (h : c.isAlphanum = true) : c.utf8Size = 1 := by
  rw [Char.utf8Size_eq_one_iff]
  simp only [Char.isAlphanum, Char.isAlpha, Char.isUpper, Char.isLower, Char.isDigit,
    Bool.or_eq_true, Bool.and_eq_true, decide_eq_true_eq] at h
  rcases h with (⟨-, h⟩ | ⟨-, h⟩) | ⟨-, h⟩
  · exact UInt32.le_trans h (by decide)
  · exact UInt32.le_trans h (by decide)
  · exact UInt32.le_trans h (by decide)

/-- A character of one byte is that byte. -/
theorem ofUInt8_toUInt8 {c : Char} (h : c.utf8Size = 1) : Char.ofUInt8 c.val.toUInt8 = c := by
  have hv : c.val.toNat ≤ 127 := UInt32.le_iff_toNat_le.mp (Char.utf8Size_eq_one_iff.mp h)
  refine Char.ext (UInt32.toNat_inj.mp ?_)
  rw [show (Char.ofUInt8 c.val.toUInt8).val = c.val.toUInt8.toUInt32 from rfl,
    UInt8.toNat_toUInt32, UInt32.toNat_toUInt8]
  omega

/-- The first byte of a longer character is none of a single one. -/
theorem exists_head_utf8EncodeChar {c : Char} (h : c.utf8Size ≠ 1) :
    ∃ b bytes, String.utf8EncodeChar c = b :: bytes ∧ (Char.ofUInt8 b).utf8Size ≠ 1 := by
  have hv : ¬ c.val.toNat ≤ 127 := fun hv => h (Char.utf8Size_eq_one_iff.mpr hv)
  have hb (b : UInt8) (hb : 128 ≤ b.toNat) : (Char.ofUInt8 b).utf8Size ≠ 1 := fun h1 => by
    have hle : b.toUInt32.toNat ≤ 127 :=
      UInt32.le_iff_toNat_le.mp (Char.utf8Size_eq_one_iff.mp h1)
    rw [UInt8.toNat_toUInt32] at hle
    omega
  unfold String.utf8EncodeChar
  generalize c.val.toNat = v at hv
  dsimp only
  rw [if_neg hv]
  split
  · refine ⟨_, _, rfl, hb _ ?_⟩
    rw [UInt8.toNat_ofNat']
    omega
  · split
    · refine ⟨_, _, rfl, hb _ ?_⟩
      rw [UInt8.toNat_ofNat']
      omega
    · refine ⟨_, _, rfl, hb _ ?_⟩
      rw [UInt8.toNat_ofNat']
      omega

section
variable {p : Char → Bool} (hp : ∀ c, p c = true → c.utf8Size = 1)
include hp

/-- For characters of one byte, counting bytes is counting characters. -/
theorem length_takeWhile_encode (text : List Char) :
    ((Utf8.encode text).takeWhile fun b => p (Char.ofUInt8 b)).length =
      (text.takeWhile p).length := by
  induction text with
  | nil => rfl
  | cons c text ih =>
      rw [Utf8.encode, List.flatMap_cons, ← Utf8.encode]
      by_cases hc : c.utf8Size = 1
      · rw [String.utf8EncodeChar_eq_singleton hc, List.singleton_append, List.takeWhile_cons,
          ofUInt8_toUInt8 hc, List.takeWhile_cons]
        cases p c with
        | true => exact congrArg (· + 1) ih
        | false => rfl
      · -- a longer character ends the run, and so does its first byte
        have hf : p c = false := eq_false_of_ne_true (mt (hp c) hc)
        obtain ⟨b, bytes, he, hb⟩ := exists_head_utf8EncodeChar hc
        have hg : p (Char.ofUInt8 b) = false := eq_false_of_ne_true (mt (hp _) hb)
        rw [he, List.cons_append, List.takeWhile_cons, List.takeWhile_cons, hf, hg]
        rfl

theorem byteLength_takeWhile (text : List Char) :
    byteLength (text.takeWhile p) = (text.takeWhile p).length :=
  Lexeme.byteLength_of_single fun c hc => hp c (List.mem_takeWhile_imp hc)

end

/-- Behind the mark of an exponent its digits decide whether it is one. -/
theorem Exponent.read?_of_mark {mark : Char} (h : mark = 'e' ∨ mark = 'E') {rest after : List Char}
    {sign : Option Char} (hs : splitSign rest = (sign, after)) :
    read? (mark :: rest) =
      if after.takeWhile Char.isDigit = [] then none
      else some ⟨mark, sign, after.takeWhile Char.isDigit⟩ := by
  rw [read?, if_pos h, hs]
  dsimp only
  split
  · rename_i ht
    rw [if_pos ht]
  · rename_i ht
    rw [if_neg ht]

/-- A numeral has a digit before its exponent, and its text is the mantissa and the exponent. -/
theorem Numeral.parts_of_read? {v after : List Char} {n : Numeral} {fraction : Option (List Char)}
    (h : read? v = some n) (hf : splitFraction (v.dropWhile Char.isDigit) = (fraction, after)) :
    let whole := v.takeWhile Char.isDigit
    let exponent := (Exponent.read? after).elim [] Exponent.text
    whole.length + (fraction.getD []).length ≠ 0 ∧
      n.text = whole ++ fraction.elim [] ('.' :: ·) ++ exponent ∧
      v.drop n.text.length = after.drop exponent.length := by
  intro whole exponent
  have hv : whole ++ v.dropWhile Char.isDigit = v := List.takeWhile_append_dropWhile
  have ha := splitFraction_append (v.dropWhile Char.isDigit)
  simp only [read?, hf] at h ha
  split at h
  · cases h
  · rename_i hd
    have hn : n.text = whole ++ fraction.elim [] ('.' :: ·) ++ exponent := by
      cases h
      exact (List.append_assoc _ _ _).symm
    refine ⟨?_, hn, ?_⟩
    · rw [Bool.and_eq_true, List.isEmpty_iff_length_eq_zero, List.isEmpty_iff_length_eq_zero] at hd
      exact fun h0 => hd (Nat.add_eq_zero_iff.mp h0)
    · rw [hn, ← hv, ← ha, ← List.append_assoc, drop_append_length_append]

namespace Cursor

/-! ### At a place -/

/-- The place behind `before` on a line that goes on with `rest`. -/
def behind (before rest : List Char) : Cursor := ⟨before ++ rest, byteLength before⟩

/-- Every cut of the line is a place. -/
theorem moveTo?_of_line {c : Cursor} {u v : List Char} (h : c.line = u ++ v) :
    c.moveTo? (byteLength u) = some (behind u v) := by
  rw [moveTo?, h, cutBytes?_append]
  rfl

section
variable (u v : List Char)

theorem rest?_behind : (behind u v).rest? = some v := by
  rw [rest?, behind, cutBytes?_append]
  rfl

theorem peek?_behind : (behind u v).peek? = some v.head? := by
  rw [peek?, rest?_behind]
  rfl

/-- Behind a character is a place. -/
theorem pass_behind (c : Char) :
    (behind u (c :: v)).moveTo? ((behind u (c :: v)).pos + c.utf8Size) =
      some (behind (u ++ [c]) v) := by
  have hl : (behind u (c :: v)).pos + c.utf8Size = byteLength (u ++ [c]) := by
    rw [Lexeme.byteLength_append]
    rfl
  rw [hl, moveTo?_of_line]
  exact (List.append_assoc u [c] v).symm

theorem take?_behind (c : Char) : (behind u (c :: v)).take? = some (c, behind (u ++ [c]) v) := by
  rw [take?, rest?_behind]
  show ((behind u (c :: v)).moveTo? _).bind _ = _
  rw [pass_behind]
  rfl

theorem text?_behind (t : List Char) : (behind (u ++ t) v).text? (byteLength u) = some t := by
  have hl : byteLength (u ++ t) - byteLength u = byteLength t := by
    rw [Lexeme.byteLength_append, Nat.add_sub_cancel_left]
  have hle : byteLength u ≤ byteLength (u ++ t) := by
    rw [Lexeme.byteLength_append]
    exact Nat.le_add_right _ _
  rw [text?, show (behind (u ++ t) v).pos = byteLength (u ++ t) from rfl, if_pos hle,
    show (behind (u ++ t) v).line = u ++ (t ++ v) from List.append_assoc u t v, cutBytes?_append,
    Option.bind_some, hl, cutBytes?_append]
  rfl

theorem bytes?_behind : (behind u v).bytes? = some (Utf8.encode v) := by
  have hl : (behind u v).pos = (Utf8.encode u).length := (length_encode u).symm
  have he : Utf8.encode (behind u v).line = Utf8.encode u ++ Utf8.encode v := List.flatMap_append
  rw [bytes?, hl, he, List.drop_left, if_pos]
  rw [List.length_append]
  exact Nat.le_add_right _ _

theorem eat?_behind {p : Char → Bool} (hp : ∀ c, p c = true → c.utf8Size = 1) :
    (behind u v).eat? p =
      some ((v.takeWhile p).length, behind (u ++ v.takeWhile p) (v.dropWhile p)) := by
  have hl : (behind u v).pos + (v.takeWhile p).length = byteLength (u ++ v.takeWhile p) := by
    rw [Lexeme.byteLength_append, byteLength_takeWhile hp]
    rfl
  have hc : (behind u v).line = u ++ v.takeWhile p ++ v.dropWhile p := by
    rw [List.append_assoc, List.takeWhile_append_dropWhile]
    rfl
  rw [eat?, bytes?_behind]
  show ((behind u v).moveTo? ((behind u v).pos + _)).bind _ = _
  rw [length_takeWhile_encode hp, hl, moveTo?_of_line hc]
  rfl

theorem digits?_behind : (behind u v).eat? Char.isDigit =
    some ((v.takeWhile Char.isDigit).length,
      behind (u ++ v.takeWhile Char.isDigit) (v.dropWhile Char.isDigit)) :=
  eat?_behind u v fun _ h => utf8Size_of_isAlphanum (Bool.or_eq_true_iff.mpr (.inr h))

theorem sign?_behind : (behind u v).sign? =
    some (behind (u ++ (Exponent.splitSign v).1.toList) (Exponent.splitSign v).2) := by
  rw [sign?, peek?_behind]
  show (if v.head? = some '+' ∨ v.head? = some '-' then _ else _) = _
  split
  · rename_i h
    rcases h with h | h
    · obtain ⟨rest, rfl⟩ := List.head?_eq_some_iff.mp h
      exact pass_behind u rest '+'
    · obtain ⟨rest, rfl⟩ := List.head?_eq_some_iff.mp h
      exact pass_behind u rest '-'
  · rename_i h
    have hs : Exponent.splitSign v = (none, v) := Exponent.splitSign.eq_3 v
      (fun _ hv => h (.inl (by rw [hv]; rfl))) fun _ hv => h (.inr (by rw [hv]; rfl))
    rw [hs, Option.toList_none, List.append_nil]
    rfl

theorem fraction?_behind : (behind u v).fraction? =
    some (((Numeral.splitFraction v).1.getD []).length,
      behind (u ++ (Numeral.splitFraction v).1.elim [] ('.' :: ·)) (Numeral.splitFraction v).2) := by
  rw [fraction?, peek?_behind]
  show (if v.head? = some '.' then _ else _) = _
  split
  · rename_i h
    obtain ⟨rest, rfl⟩ := List.head?_eq_some_iff.mp h
    show ((behind u ('.' :: rest)).moveTo? ((behind u ('.' :: rest)).pos + '.'.utf8Size)).bind _ = _
    rw [pass_behind, Option.bind_some, digits?_behind, List.append_assoc]
    rfl
  · rename_i h
    have hf : Numeral.splitFraction v = (none, v) :=
      Numeral.splitFraction_eq_none fun c hc hp => h (hp ▸ hc)
    rw [hf, Option.elim_none, List.append_nil]
    rfl

/-- Behind the mark and the sign, the digits of an exponent decide whether it is passed. -/
theorem exponent?_of_mark {mark : Char} (hm : mark = 'e' ∨ mark = 'E') {rest after : List Char}
    {sign : Option Char} (hs : Exponent.splitSign rest = (sign, after)) :
    let digits := after.takeWhile Char.isDigit
    (behind u (mark :: rest)).exponent? =
      if digits = [] then some (behind u (mark :: rest))
      else some (behind (u ++ (mark :: (sign.toList ++ digits))) (after.dropWhile Char.isDigit)) := by
  intro digits
  have hsize : mark.utf8Size = 1 := by rcases hm with rfl | rfl <;> rfl
  have hpeek : some mark = some 'e' ∨ some mark = some 'E' := by
    rwa [Option.some_inj, Option.some_inj]
  rw [exponent?, peek?_behind]
  show (if some mark = some 'e' ∨ some mark = some 'E' then
    ((behind u (mark :: rest)).moveTo? ((behind u (mark :: rest)).pos + 1)).bind _ else _) = _
  rw [if_pos hpeek, ← hsize, pass_behind, Option.bind_some]
  show (sign? _).bind _ = _
  rw [sign?_behind, hs, Option.bind_some]
  show (eat? _ _).bind _ = _
  rw [digits?_behind, Option.bind_some]
  dsimp only
  by_cases hd : digits = []
  · -- the whole line is still there, so the mark is a place on it
    have hline : u ++ [mark] ++ sign.toList ++ digits ++ after.dropWhile Char.isDigit =
        u ++ mark :: rest := by
      have hl := Exponent.splitSign_append rest
      rw [hs] at hl
      rw [← hl, List.append_assoc, List.takeWhile_append_dropWhile]
      simp
    rw [if_pos (List.length_eq_zero_iff.mpr hd), if_pos hd]
    exact moveTo?_of_line hline
  · rw [if_neg (mt List.length_eq_zero_iff.mp hd), if_neg hd]
    simp [digits]

/-- An exponent without digits is left to what follows. -/
theorem exponent?_behind :
    let exponent := (Exponent.read? v).elim [] Exponent.text
    (behind u v).exponent? = some (behind (u ++ exponent) (v.drop exponent.length)) := by
  intro exponent
  have hnone (h : Exponent.read? v = none) :
      behind (u ++ exponent) (v.drop exponent.length) = behind u v := by
    rw [show exponent = [] from congrArg (Option.elim · [] Exponent.text) h, List.append_nil]
    rfl
  cases v with
  | nil =>
      rw [exponent?, peek?_behind, hnone rfl]
      rfl
  | cons mark rest =>
      by_cases hm : mark = 'e' ∨ mark = 'E'
      · obtain ⟨sign, after, hs⟩ : ∃ sign after, Exponent.splitSign rest = (sign, after) := ⟨_, _, rfl⟩
        have hread := Exponent.read?_of_mark hm hs
        rw [exponent?_of_mark u hm hs]
        split
        · rename_i hd
          rw [hnone (hread.trans (if_pos hd))]
        · rename_i hd
          have he : exponent = mark :: (sign.toList ++ after.takeWhile Char.isDigit) :=
            congrArg (Option.elim · [] Exponent.text) (hread.trans (if_neg hd))
          have hl := Exponent.splitSign_append rest
          rw [hs] at hl
          rw [he, ← hl, List.length_cons, List.drop_succ_cons, drop_append_length_append,
            drop_length_takeWhile]
      · rw [exponent?, peek?_behind, hnone (if_neg hm)]
        exact if_neg fun h => hm (h.imp Option.some.inj Option.some.inj)

theorem mantissa?_behind {fraction : Option (List Char)} {after : List Char}
    (hf : Numeral.splitFraction (v.dropWhile Char.isDigit) = (fraction, after)) :
    (behind u v).mantissa? =
      some ((v.takeWhile Char.isDigit).length + (fraction.getD []).length,
        behind (u ++ (v.takeWhile Char.isDigit ++ fraction.elim [] ('.' :: ·))) after) := by
  rw [mantissa?, digits?_behind]
  show (fraction? _).bind _ = _
  rw [fraction?_behind, hf, List.append_assoc]
  rfl

theorem number?_behind {n : Numeral} (h : Numeral.read? v = some n) :
    (behind u v).number? (byteLength u) =
      some (.number n.value, behind (u ++ n.text) (v.drop n.text.length)) := by
  obtain ⟨fraction, after, hf⟩ :
      ∃ fraction after, Numeral.splitFraction (v.dropWhile Char.isDigit) = (fraction, after) :=
    ⟨_, _, rfl⟩
  obtain ⟨hdigits, hn, hrest⟩ := Numeral.parts_of_read? h hf
  have hparse := Double.parse?_text (Numeral.written_of_read? h)
  rw [number?, mantissa?_behind u v hf]
  show (if _ then _ else _) = _
  rw [if_neg hdigits]
  show (exponent? _).bind _ = _
  rw [exponent?_behind, Option.bind_some, List.append_assoc, ← hn, ← hrest]
  show (text? _ _).bind _ = _
  rw [text?_behind, Option.bind_some, hparse]
  rfl

/-- Where no numeral is, there is a point alone. -/
theorem number?_behind_point {rest : List Char} (h : Numeral.read? ('.' :: rest) = none) :
    (behind u ('.' :: rest)).number? (byteLength u) = some (.bad '.', behind (u ++ ['.']) rest) := by
  have ha := List.takeWhile_append_dropWhile (p := Char.isDigit) (l := rest)
  have hd : rest.takeWhile Char.isDigit = [] := by
    -- with a digit behind the point there would be a numeral
    by_contra hne
    exact absurd ((Numeral.read?_of_parts rfl rfl rfl (.inr ⟨_, rfl, hne⟩)).symm.trans h) nofun
  rw [hd, List.nil_append] at ha
  have hf : Numeral.splitFraction (('.' :: rest).dropWhile Char.isDigit) = (some [], rest) := by
    show (some (rest.takeWhile Char.isDigit), rest.dropWhile Char.isDigit) = _
    rw [hd, ha]
  rw [number?, mantissa?_behind u ('.' :: rest) hf]
  rfl

theorem name?_behind (c : Char) :
    let name := c :: v.takeWhile Char.isAlphanum
    (behind (u ++ [c]) v).name? (byteLength u) =
      some (.name (String.ofList name), behind (u ++ name) ((c :: v).drop name.length)) := by
  intro name
  have hl : u ++ [c] ++ v.takeWhile Char.isAlphanum = u ++ name := by simp [name]
  have hd : v.dropWhile Char.isAlphanum = (c :: v).drop name.length :=
    (drop_length_takeWhile Char.isAlphanum v).symm
  rw [name?, eat?_behind _ _ fun _ => utf8Size_of_isAlphanum, hl, hd]
  show (text? _ _).bind _ = _
  rw [text?_behind]
  rfl

theorem start?_behind (c : Char) : (behind (u ++ [c]) v).start? c = some (byteLength u) := by
  have hl : (behind (u ++ [c]) v).pos = byteLength u + c.utf8Size := Lexeme.byteLength_append u [c]
  rw [start?, hl, if_pos (Nat.le_add_left _ _), Nat.add_sub_cancel]

/-- Behind its first character, the token is the lexeme there, and no check fails. -/
theorem kind?_behind (c : Char) :
    let lexeme := Lexeme.startingWith c v
    (behind (u ++ [c]) v).kind? c (byteLength u) =
      some (lexeme.kind, behind (u ++ lexeme.text) ((c :: v).drop lexeme.text.length)) := by
  have hline : (behind (u ++ [c]) v).line = u ++ c :: v := List.append_assoc u [c] v
  unfold kind? Lexeme.startingWith
  split
  · rfl
  · cases Kind.ofOperator? c with
    | some kind => rfl
    | none =>
        dsimp only
        split
        · rename_i hc
          rw [moveTo?_of_line hline, Option.bind_some]
          split
          · exact number?_behind u (c :: v) ‹_›
          · rename_i hn
            obtain rfl := hc.resolve_left fun hd => Numeral.read?_ne_none hd v hn
            exact number?_behind_point u hn
        · split
          · exact name?_behind u v c
          · rfl

end

end Cursor

end DeskCalculator
