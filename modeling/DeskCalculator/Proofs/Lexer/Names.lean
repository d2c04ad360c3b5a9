import DeskCalculator.Proofs.Lexer.Chunking
import DeskCalculator.Proofs.Lexer.Exhaustion
import DeskCalculator.Proofs.Lexer.Walk
import Mathlib.Data.List.Infix

/-!
# Tokens — The names of a text

A text mentions a name where a token is that name, and assigns it where the next token is a `=`.  What
is ahead of a lexer, its current token and those to come, mentions and assigns no other names than the
text it started with (`Within`); no fetch changes that (`Within.next`).  A text without a `=` assigns
nothing (`not_assigns`).
-/

namespace DeskCalculator

/-- A token of the text is the name. -/
def Mentions (source name : String) : Prop := .name name ∈ (tokenize source).1.map Token.kind

/-- A token of the text is the name, and the one directly behind it is a `=`. -/
def Assigns (source name : String) : Prop :=
  [.name name, .assign] <:+: (tokenize source).1.map Token.kind

instance (source name : String) : Decidable (Mentions source name) :=
  inferInstanceAs (Decidable (_ ∈ _))

instance (source name : String) : Decidable (Assigns source name) :=
  inferInstanceAs (Decidable (_ <:+: _))

theorem Assigns.mentions {source name : String} (h : Assigns source name) :
    Mentions source name := h.subset List.mem_cons_self

namespace Lexer

/-- The kinds of the current token and of those to come. -/
def ahead (l : Lexer) : List Kind := (l.current :: l.coming).map Token.kind

/-- What is ahead mentions no names but `reads`, and assigns none but `writes`. -/
structure Within (reads writes : String → Prop) (l : Lexer) : Prop where
  wellFormed : l.WellFormed
  reads {name : String} : .name name ∈ l.ahead → reads name
  writes {name : String} : [.name name, .assign] <:+: l.ahead → writes name

/-- A fetch leaves ahead what was ahead, less one token; or it is at the end of the input. -/
theorem ahead_next {l : Lexer} (h : l.WellFormed) (j : Journal) :
    l.ahead = l.current.kind :: (l.next j).1.ahead ∨ (l.next j).1.ahead = [.terminator] := by
  rcases coming_next h j with ⟨-, hc⟩ | ⟨hr, -⟩
  · exact .inl (by rw [ahead, hc]; rfl)
  · exact .inr (by rw [ahead, coming_of_rests hr, List.map_singleton, hr.kind])

namespace Within
variable {reads writes : String → Prop} {l : Lexer} (h : l.Within reads writes)
include h

theorem next (j : Journal) : (l.next j).1.Within reads writes := by
  refine ⟨h.wellFormed.next j, fun hm => ?_, fun hi => ?_⟩
  · rcases ahead_next h.wellFormed j with ha | ha
    · exact h.reads (ha ▸ List.mem_cons_of_mem _ hm)
    · rw [ha] at hm
      cases List.mem_singleton.mp hm
  · rcases ahead_next h.wellFormed j with ha | ha
    · exact h.writes (ha ▸ hi.trans (List.suffix_cons _ _).isInfix)
    · rw [ha] at hi
      cases List.mem_singleton.mp (hi.subset List.mem_cons_self)

theorem of_name {name : String} (hk : l.current.kind = .name name) : reads name :=
  h.reads (hk ▸ List.mem_cons_self)

theorem of_assign {name : String} {j : Journal} (hk : l.current.kind = .name name)
    (ha : (l.next j).1.current.kind = .assign) : writes name := by
  rcases ahead_next h.wellFormed j with hn | hn
  · refine h.writes (List.IsPrefix.isInfix ⟨((l.next j).1.coming).map Token.kind, ?_⟩)
    rw [hn, hk, ← ha]
    rfl
  · have ht : (l.next j).1.current.kind = .terminator := (List.cons.inj hn).1
    cases ha.symm.trans ht

end Within

/-- What is ahead of a lexer over a text are the names of the text. -/
theorem within_ofString (source : String) (token : Token) (hk : token.kind = .terminator) :
    ({ ofInput (.ofString source) with current := token } : Lexer).Within (Mentions source)
      (Assigns source) := by
  have hc : ({ ofInput (.ofString source) with current := token } : Lexer).coming =
      (tokenize source).1 := by
    rw [coming_eq _ (.ofSink (.buffer "")), tokens_congr (next_withCurrent _ token _)]
    rfl
  refine ⟨nofun, fun hm => ?_, fun hi => ?_⟩
  · rw [ahead, hc, List.map_cons, hk] at hm
    refine (List.mem_cons.mp hm).resolve_left fun he => ?_
    cases he
  · rw [ahead, hc, List.map_cons, hk] at hi
    exact (List.infix_cons_iff.mp hi).resolve_left fun hp => by
      cases (List.cons_prefix_cons.mp hp).1

end Lexer

/-! ### Texts without a `=` -/

theorem ofOperator?_eq_assign {c : Char} (h : Kind.ofOperator? c = some .assign) : c = '=' := by
  unfold Kind.ofOperator? at h
  split at h <;> first | rfl | cases h

theorem Denotes.eq_of_assign {after text : List Char} (h : Denotes after text .assign) :
    text = ['='] := by
  cases h with
  | operator hk => rw [ofOperator?_eq_assign hk]

/-- What a token covers is part of the text, and says its kind. -/
theorem exists_denotes {source : String} {token : Token} (h : token ∈ (tokenize source).1) :
    ∃ after text, text ⊆ source.toList ∧ Denotes after text token.kind := by
  have hl := Lexer.onLine_ofInput (i := .ofString source) (Reader.holds_ofString source)
  have hw := tiles_coming hl
  rw [Utf8.decode_encode, Lexer.coming_eq _ (.ofSink (.buffer ""))] at hw
  obtain ⟨i, u, text, v, hi, -, -, hd⟩ := hw.placed token h
  obtain ⟨c, rest, rfl⟩ := List.exists_cons_of_ne_nil hd.ne_nil
  have hm : u ++ c :: rest ++ v ∈ [] :: cutLines '\n' source.toList := List.mem_of_getElem? hi
  have hm' := (List.mem_cons.mp hm).resolve_left (by simp)
  refine ⟨v, c :: rest, fun d hd => ?_, hd⟩
  rw [← flatten_cutLines '\n' source.toList]
  exact List.mem_flatten_of_mem hm' (List.mem_append_left v (List.mem_append_right u hd))

theorem mem_of_assign {source : String} (h : .assign ∈ (tokenize source).1.map Token.kind) :
    '=' ∈ source.toList := by
  obtain ⟨token, ht, hk⟩ := List.mem_map.mp h
  obtain ⟨after, text, hs, hd⟩ := exists_denotes ht
  obtain rfl := (hk ▸ hd).eq_of_assign
  exact hs List.mem_cons_self

/-- A text without a `=` assigns nothing. -/
theorem not_assigns {source : String} (h : '=' ∉ source.toList) (name : String) :
    ¬ Assigns source name :=
  fun ha => h (mem_of_assign (ha.subset (List.mem_cons_of_mem _ List.mem_cons_self)))

end DeskCalculator
