import DeskCalculator.Proofs.Lexer.Layout
import DeskCalculator.Proofs.Lexer.Names

/-!
# Tokens — Segments

The newlines and the `;` of a text cut it into segments (`segments`).  A text has no separator, and is
its only segment, or it has a first one, and the segments are what stands before it and those of what
stands behind it (`segments_induction`).

A lexer reads segment by segment: the tokens of a text are of the same kinds as those of its segments,
read one at a time, with a terminator for each separator in between (`kinds_segments`).  Within a
segment there is no terminator (`terminator_not_mem_kinds`), and a segment without tokens has blanks
only (`kinds_eq_nil_iff`).
-/

namespace DeskCalculator

/-- What stands between the separators of a text. -/
def segments (source : String) : List String :=
  (source.toList.splitOnP fun c => decide (Separates c)).map String.ofList

/-- A text without a separator. -/
def Unseparated (text : String) : Prop := ∀ c ∈ text.toList, ¬ Separates c

variable {source a b : String} {sep : Char}

theorem segments_of_unseparated (h : Unseparated source) : segments source = [source] := by
  rw [segments, List.splitOnP_eq_singleton fun c hc => decide_eq_false (h c hc), List.map_singleton,
    String.ofList_toList]

theorem segments_separated (ha : Unseparated a) (hs : Separates sep) (b : String) :
    segments (a ++ .singleton sep ++ b) = a :: segments b := by
  rw [segments, toList_separated, List.splitOnP_append_cons_of_forall_mem
    (fun c hc => decide_eq_false (ha c hc)) sep (decide_eq_true hs), List.map_cons,
    String.ofList_toList]
  rfl

/-- A text has no separator, or a first one. -/
theorem exists_first_separator (source : String) : Unseparated source ∨
    ∃ a sep b, Unseparated a ∧ Separates sep ∧ source = a ++ .singleton sep ++ b := by
  let p (c : Char) : Bool := !decide (Separates c)
  have hp : source.toList.takeWhile p ++ source.toList.dropWhile p = source.toList :=
    List.takeWhile_append_dropWhile
  have hf : ∀ c ∈ source.toList.takeWhile p, ¬ Separates c := fun c hc => by
    simpa [p] using List.mem_takeWhile_imp hc
  cases hd : source.toList.dropWhile p with
  | nil =>
      rw [hd, List.append_nil] at hp
      rw [hp] at hf
      exact .inl hf
  | cons sep rest =>
      have hs : Separates sep := by
        have hn := head?_dropWhile_eq_false p source.toList sep (by rw [hd]; rfl)
        simpa [p] using hn
      refine .inr ⟨.ofList (source.toList.takeWhile p), sep, .ofList rest, ?_, hs, ?_⟩
      · rw [Unseparated, String.toList_ofList]
        exact hf
      · apply String.toList_inj.mp
        rw [toList_separated, String.toList_ofList, String.toList_ofList, ← hd, hp]

/-- **Segment by segment**: a text is its last segment, or it has one in front of a separator. -/
theorem segments_induction {motive : String → Prop}
    (last : ∀ text, Unseparated text → motive text)
    (first : ∀ a sep b, Unseparated a → Separates sep → motive b →
      motive (a ++ .singleton sep ++ b)) (source : String) : motive source := by
  rcases exists_first_separator source with h | ⟨a, sep, b, ha, hs, h⟩
  · exact last source h
  · rw [h]
    exact first a sep b ha hs (segments_induction last first b)
termination_by source.toList.length
decreasing_by
  rw [h, toList_separated, List.length_append, List.length_cons]
  omega

/-- No segment has a separator. -/
theorem unseparated_of_mem_segments (source : String) :
    ∀ text ∈ segments source, Unseparated text := by
  induction source using segments_induction with
  | last source h =>
      rw [segments_of_unseparated h]
      exact List.forall_mem_singleton.mpr h
  | first a sep b ha hs ih =>
      rw [segments_separated ha hs]
      exact List.forall_mem_cons.mpr ⟨ha, ih⟩

/-- The segments have the characters of the text but for the separators. -/
theorem forall_mem_segments_iff {p : Char → Prop} (source : String) :
    (∀ text ∈ segments source, ∀ c ∈ text.toList, p c) ↔ ∀ c ∈ source.toList, p c ∨ Separates c := by
  have hu {text : String} (h : Unseparated text) :
      (∀ c ∈ text.toList, p c ∨ Separates c) ↔ ∀ c ∈ text.toList, p c :=
    forall₂_congr fun c hc => or_iff_left (h c hc)
  induction source using segments_induction with
  | last source h => rw [segments_of_unseparated h, List.forall_mem_singleton, hu h]
  | first a sep b ha hs ih =>
      rw [segments_separated ha hs, List.forall_mem_cons, toList_separated, List.forall_mem_append,
        List.forall_mem_cons, hu ha, and_iff_right (Or.inr hs)]
      exact and_congr_right fun _ => ih

/-! ### The tokens of a segment -/

/-- Whether a token of this kind is bad. -/
def Kind.isBad : Kind → Bool
  | .bad _ => true
  | _      => false

/-- Bad tokens are reported, each once. -/
theorem length_flatMap_problems (kinds : List Kind) :
    (kinds.flatMap Kind.problems).length = kinds.countP Kind.isBad := by
  induction kinds with
  | nil => rfl
  | cons k kinds ih =>
      rw [List.flatMap_cons, List.length_append, ih, List.countP_cons, Nat.add_comm]
      cases k <;> rfl

/-- The kinds of the tokens of a text. -/
def kinds (source : String) : List Kind := (tokenize source).1.map Token.kind

theorem kinds_eq (source : String) :
    kinds source = (Lexer.ofInput (.ofString source)).coming.map Token.kind := by
  rw [Lexer.coming_eq _ (.ofSink (.buffer ""))]
  rfl

theorem terminator_not_mem_kinds (h : Unseparated source) : .terminator ∉ kinds source := by
  intro hm
  obtain ⟨token, ht, hk⟩ := List.mem_map.mp hm
  obtain ⟨after, text, hsub, hd⟩ := exists_denotes ht
  obtain ⟨c, rfl, hs⟩ := (hk ▸ hd).separator_of_terminator
  exact h c (hsub List.mem_cons_self) hs

namespace Lexer
variable {l l' : Lexer} {j : Journal} {kind : Kind}

/-- A token with more to come behind it is not the terminator of the exhausted lexer. -/
theorem coming_of_spells {text : List Char} (h : l.Fetches j kind l') (hs : l'.Spells text) :
    l.coming = l'.current :: l'.coming := by
  have hc := coming_cons (l := l) (j := j) fun hx => by
    rw [h.1] at hx
    cases hs.1.symm.trans hx.2
  rwa [h.1] at hc

theorem coming_of_atEnd (h : l.Fetches j .terminator l') (ha : l'.AtEnd) : l.coming = [] := by
  refine coming_nil (j := j) ?_
  rw [h.1, h.2]
  exact ⟨rfl, ha.1⟩

/-- The tokens to come are those before the separator, the separator, and those behind it. -/
theorem kinds_of_before {behind : List Char} {m r : Lexer} (hsep : Separates sep)
    (h : Before sep behind l m) (hr : r.Spells behind) :
    l.coming.map Token.kind = m.coming.map Token.kind ++ .terminator :: r.coming.map Token.kind := by
  generalize hj : Journal.ofSink .silent = j
  clear hj
  induction m, j using tokens.induct generalizing l with
  | case1 m j m' j' hn hx =>
      obtain ⟨kind, l₁, m₁, hl, hm, ha⟩ := fetches_apart hsep h j j
      cases (Prod.mk.inj (hn.symm.trans hm.1)).1
      obtain ⟨text, -, hb⟩ | ⟨ht, hs, he⟩ := ha
      · cases hb.1.symm.trans hx.2
      · -- the second lexer has come to its end, and the first one to the separator
        obtain rfl : kind = .terminator := hl.2.symm.trans ht
        rw [coming_of_atEnd hm he, coming_of_spells hl hs, List.map_cons, ht,
          map_kind_coming fetches_together Together.exhausted_eq (.inl ⟨_, hr, hs⟩)]
        rfl
  | case2 m j m' j' hn hx tokens j'' ht ih =>
      obtain ⟨kind, l₁, m₁, hl, hm, ha⟩ := fetches_apart hsep h j j
      cases (Prod.mk.inj (hn.symm.trans hm.1)).1
      obtain hb | ⟨ht, -, he⟩ := ha
      · -- both go on before the separator
        obtain ⟨text, hs, hs'⟩ := id hb
        rw [coming_of_spells hl hs, coming_of_spells hm hs', List.map_cons, List.map_cons, hl.2,
          hm.2, ih hb, List.cons_append]
      · refine absurd ⟨?_, he.1⟩ hx
        rw [hm.2, ← hl.2, ht]
        rfl

end Lexer

/-- A text has no tokens if it has blanks only. -/
theorem kinds_eq_nil_iff : kinds source = [] ↔ ∀ c ∈ source.toList, isBlank c = true := by
  rw [kinds_eq, List.map_eq_nil_iff, ← List.dropWhile_eq_nil_iff]
  have hl := Lexer.spells_ofInput source
  cases hd : source.toList.dropWhile isBlank with
  | nil =>
      obtain ⟨l, hf, ha⟩ := Lexer.fetches_of_blank hl hd (.ofSink .silent)
      exact iff_of_true (Lexer.coming_of_atEnd hf ha) rfl
  | cons c rest =>
      obtain ⟨l, hf, hs⟩ := Lexer.fetches_of_cons hl hd (.ofSink .silent)
      rw [Lexer.coming_of_spells hf hs]
      exact iff_of_false nofun nofun

/-- **The tokens of a text are those of its segments**, with a terminator for each separator. -/
theorem kinds_segments (source : String) :
    kinds source = [.terminator].intercalate ((segments source).map kinds) := by
  induction source using segments_induction with
  | last source h => rw [segments_of_unseparated h, List.map_singleton, List.intercalate_singleton]
  | first a sep b ha hs ih =>
      have hb : kinds (a ++ .singleton sep ++ b) = kinds a ++ .terminator :: kinds b := by
        simp only [kinds_eq]
        exact Lexer.kinds_of_before hs (before_ofString sep a b) (Lexer.spells_ofInput b)
      have hn : (segments b).map kinds ≠ [] := by simp [segments]
      rw [segments_separated ha hs, List.map_cons, List.intercalate_cons_of_ne_nil hn, hb, ih,
        List.append_assoc]
      rfl

end DeskCalculator
