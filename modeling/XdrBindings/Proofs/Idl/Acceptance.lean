import XdrBindings.Idl.Parsing
import XdrBindings.Proofs.Idl.Fields

/-!
# The parser accepts its grammar

A definition is chosen by its first keyword, and a file is a repetition of items up to its end.  The
rules for files give no tokens back, so they are described by whether they succeed.  They work on
the tokens in front of the end mark, while the words of files have it as their last token.

## Main results

* `definition_reads` — a definition is read, whatever follows.
* `definitions_isOk_iff` — items are read up to the end or the brace of the namespace.
* `parseTokens_isOk_iff` — just the words of the grammar are read as files.
-/

namespace XdrBindings.Idl

open scoped Computability

variable {follow : Language TokenKind} {tokens rest : List Token}

namespace Grammar

/-! ## Definitions -/

theorem definition_reads : Reads Words.definition follow tokens (definition tokens) := by
  have hWords : Words.definition = Words.keyword .const * Words.constant +
      (Words.keyword .typedef * Words.declaration + (Words.keyword .enum * Words.enum +
        (Words.keyword .struct * Words.struct + (Words.keyword .union * Words.union + 0)))) := by
    simp only [Words.definition, add_zero, add_assoc]
  unfold definition
  rw [hWords]
  refine .choice isKeywordAhead_iff (fun _ => constant_reads.map fun _ _ => ⟨_, rfl⟩) ?_ (by simp)
  refine .choice isKeywordAhead_iff (fun _ => typedef_reads.map fun _ _ => ⟨_, rfl⟩) ?_ (by simp)
  refine .choice isKeywordAhead_iff (fun _ => enum_reads.map fun _ _ => ⟨_, rfl⟩) ?_ (by simp)
  refine .choice isKeywordAhead_iff (fun _ => struct_reads.map fun _ _ => ⟨_, rfl⟩) ?_ (by simp)
  refine .choice isKeywordAhead_iff (fun _ => union_reads.map fun _ _ => ⟨_, rfl⟩) ?_ (by simp)
  exact .error fun ⟨_, _, hFront, _⟩ => hFront

theorem begins_definition {kinds : TokenKind → Prop} (hKeyword : ∀ word, kinds (.keyword word)) :
    Begins kinds Words.definition := by
  simp [Words.definition, hKeyword]

/-! ## Files -/

/-- A rule before another one that reads all the rest. -/
theorem bind_isOk_iff {α β : Type} {words others : Language TokenKind}
    {first : Except Fault (Read α)} {next : Read α → Except Fault β}
    (hFirst : Reads words 1 tokens first)
    (hNext : ∀ value mid, Takes words tokens mid →
      ((∃ last, next (value, mid) = .ok last) ↔ Takes others mid [])) :
    (∃ last, first >>= next = .ok last) ↔ Takes (words * others) tokens [] := by
  rw [takes_mul]
  constructor
  · rintro ⟨last, hLast⟩
    rcases first with fault | ⟨value, mid⟩
    · cases hLast
    · have hTakes := hFirst.sound rfl
      exact ⟨mid, hTakes, (hNext value mid hTakes).mp ⟨last, hLast⟩⟩
  · rintro ⟨mid, hTakes, hOthers⟩
    obtain ⟨value, rfl⟩ := hFirst.ok_iff.mpr hTakes
    exact (hNext value mid hTakes).mpr hOthers

/-- What is made of a result changes nothing about its success. -/
theorem map_isOk_iff {α β : Type} {result : Except Fault α} {next : α → Except Fault β}
    (hNext : ∀ value, ∃ last, next value = .ok last) :
    (∃ last, result >>= next = .ok last) ↔ ∃ value, result = .ok value := by
  rcases result with fault | value
  · exact iff_of_false nofun nofun
  · exact iff_of_true (hNext value) ⟨value, rfl⟩

/-- What may stand behind the items of a file, the end of the tokens left out. -/
def ending (inNameSpace : Bool) : Language TokenKind :=
  if inNameSpace then 1 + Words.symbol .closeBrace * ⊤ else 1

theorem takes_top : Takes ⊤ tokens [] := ⟨tokens, trivial, (List.append_nil tokens).symm⟩

theorem takes_ending_iff {inNameSpace : Bool} : Takes (ending inNameSpace) tokens [] ↔
    tokens.isEmpty || (inNameSpace && isAhead .closeBrace tokens) := by
  cases inNameSpace <;> simp [ending, takes_symbol_mul, takes_top]

/-- Items are read up to the ending.  The bound is never reached, because every item takes a
token. -/
theorem definitions_isOk_iff (inNameSpace : Bool) (bound : Nat) (tokens : List Token)
    (hBound : tokens.length < bound) :
    (∃ found, definitions inNameSpace bound tokens = .ok found) ↔
      Takes (Words.item∗ * ending inNameSpace) tokens [] := by
  induction bound generalizing tokens with
  | zero => omega
  | succ bound ih =>
    have hWords : Words.item∗ * ending inNameSpace = ending inNameSpace +
        (Words.symbol .semicolon * (Words.item∗ * ending inNameSpace) +
          Words.definition * (Words.item∗ * ending inNameSpace)) := by
      nth_rewrite 1 [← Language.one_add_self_mul_kstar_eq_kstar]
      rw [add_mul, one_mul, mul_assoc]
      nth_rewrite 1 [Words.item]
      rw [add_mul]
    rw [hWords, takes_add, takes_add, takes_ending_iff, takes_symbol_mul]
    unfold definitions
    split
    · rename_i hEnd
      exact iff_of_true ⟨[], rfl⟩ (.inl hEnd)
    · rename_i hEnd
      rw [or_iff_right hEnd]
      split
      · rename_i hSemicolon
        have hTail := (isAhead_iff.mp hSemicolon).length_tail_lt
        have hDefinition :
            ¬Takes (Words.definition * (Words.item∗ * ending inNameSpace)) tokens [] :=
          fun hTakes => Ahead.not_of_begins ⟨_, hTakes⟩ (begins_definition (by simp)).mul
            (isAhead_iff.mp hSemicolon)
        rw [or_iff_left hDefinition, ih tokens.tail (by omega), and_iff_right hSemicolon]
      · rename_i hSemicolon
        rw [or_iff_right fun h => hSemicolon h.1]
        refine bind_isOk_iff definition_reads fun first mid hTakes => ?_
        have hBegins : Begins (fun _ => True) Words.definition := begins_definition fun _ => trivial
        have hMid := hBegins.length_lt hTakes
        rw [← ih mid (by omega)]
        exact map_isOk_iff fun _ => ⟨_, rfl⟩

theorem topLevel_isOk_iff : (∃ parsed, topLevel tokens = .ok parsed) ↔
    Takes (Words.item∗ * ending false + Words.keyword .nameSpace * Words.identifier *
      Words.symbol .openBrace * Words.item∗ * ending true) tokens [] := by
  have hWords : Words.keyword .nameSpace * Words.identifier * Words.symbol .openBrace *
      Words.item∗ * ending true = Words.keyword .nameSpace * (Words.identifier *
        (Words.symbol .openBrace * (Words.item∗ * ending true))) := by
    simp only [mul_assoc]
  rw [hWords, takes_add, takes_keyword_mul,
    ← definitions_isOk_iff false _ tokens (Nat.lt_succ_self _)]
  unfold topLevel
  split
  · rename_i hNameSpace
    have hItems : ¬∃ found, definitions false (tokens.length + 1) tokens = .ok found := by
      obtain ⟨rest, hToken⟩ := isKeywordAhead_iff.mp hNameSpace
      obtain ⟨token, hKind, rfl⟩ := takes_oneOf.mp hToken
      simp [definitions, definition, isAhead, isKeywordAhead, hKind, bind, Except.bind]
    rw [or_iff_right hItems, and_iff_right hNameSpace]
    refine bind_isOk_iff identifier_reads fun name mid _ => ?_
    rw [takes_symbol_mul, ← definitions_isOk_iff true _ mid.tail (Nat.lt_succ_self _)]
    dsimp only
    unfold symbol
    split
    · rename_i hOpen
      rw [and_iff_right hOpen]
      exact map_isOk_iff fun _ => ⟨_, rfl⟩
    · rename_i hOpen
      refine iff_of_false ?_ fun h => hOpen h.1
      rintro ⟨parsed, hParsed⟩
      cases hParsed
  · rename_i hNameSpace
    rw [or_iff_left fun h => hNameSpace h.1]
    exact map_isOk_iff fun _ => ⟨_, rfl⟩

end Grammar

/-! ## The end of the tokens -/

theorem append_finish_mem_mul_finish {words : Language TokenKind} {word : List TokenKind} :
    word ++ [.finish] ∈ words * Words.finish ↔ word ∈ words := by
  constructor
  · intro hWord
    obtain ⟨front, hFront, _, ⟨_, rfl, rfl⟩, hSplit⟩ := Language.mem_mul.mp hWord
    exact List.append_cancel_right hSplit ▸ hFront
  · exact fun hWord => Language.append_mem_mul hWord ⟨_, rfl, rfl⟩

/-- Behind a closing brace the end of the tokens is one of the things that may stand there. -/
theorem append_finish_mem_mul_top {words : Language TokenKind} {word : List TokenKind} :
    word ++ [.finish] ∈ words * (Words.symbol .closeBrace * (1 + Words.symbol .semicolon) * ⊤) ↔
      word ∈ words * (Words.symbol .closeBrace * ⊤) := by
  have hTop : (1 + Words.symbol .semicolon) * (⊤ : Language TokenKind) = ⊤ := by
    rw [add_mul, one_mul, add_eq_sup, top_sup_eq]
  rw [mul_assoc, hTop]
  constructor
  · intro hWord
    obtain ⟨front, hFront, behind, hBehind, hSplit⟩ := Language.mem_mul.mp hWord
    obtain ⟨mark, hMark, others, -, rfl⟩ := Language.mem_mul.mp hBehind
    obtain ⟨_, rfl, rfl⟩ := id hMark
    rcases others.eq_nil_or_concat with rfl | ⟨others, last, rfl⟩
    · simp at hSplit
    · rw [List.concat_eq_append, ← List.append_assoc, ← List.append_assoc] at hSplit
      obtain ⟨rfl, -⟩ := List.append_inj' hSplit rfl
      rw [List.append_assoc]
      exact Language.append_mem_mul hFront (Language.append_mem_mul hMark trivial)
  · intro hWord
    obtain ⟨front, hFront, behind, hBehind, rfl⟩ := Language.mem_mul.mp hWord
    obtain ⟨mark, hMark, others, -, rfl⟩ := Language.mem_mul.mp hBehind
    rw [List.append_assoc, List.append_assoc]
    exact Language.append_mem_mul hFront (Language.append_mem_mul hMark trivial)

theorem append_finish_mem_file {word : List TokenKind} : word ++ [.finish] ∈ Words.file ↔
    word ∈ Words.item∗ * Grammar.ending false + Words.keyword .nameSpace * Words.identifier *
      Words.symbol .openBrace * Words.item∗ * Grammar.ending true := by
  rw [Words.file, Language.mem_add, append_finish_mem_mul_finish, mul_add, Language.mem_add,
    append_finish_mem_mul_finish, append_finish_mem_mul_top]
  simp only [Grammar.ending, Bool.false_eq_true, if_false, if_true, mul_one, mul_add,
    Language.mem_add]

theorem takes_nil_iff {words : Language TokenKind} :
    Takes words tokens [] ↔ tokens.map Token.kind ∈ words := by
  simp [Takes]

theorem parseTokens_isOk_iff_topLevel {ink : Ink} {filename : String} {source : Option Text} :
    (∃ file, parseTokens ink filename source tokens = .ok file) ↔
      ∃ parsed, Grammar.topLevel (beforeEnd tokens) = .ok parsed := by
  unfold parseTokens
  cases Grammar.topLevel (beforeEnd tokens) <;> simp

theorem beforeEnd_append_finish {last : Token} (hTokens : ∀ token ∈ tokens, token.kind ≠ .finish)
    (hLast : last.kind = .finish) : beforeEnd (tokens ++ [last]) = tokens := by
  unfold beforeEnd
  rw [List.takeWhile_append_of_pos (by simpa using hTokens)]
  simp [hLast]

/-- Just the words of the grammar are read as files. -/
theorem parseTokens_isOk_iff (ink : Ink) (filename : String) (source : Option Text)
    (tokens : List Token) (last : Token) (hTokens : ∀ token ∈ tokens, token.kind ≠ .finish)
    (hLast : last.kind = .finish) :
    (∃ file, parseTokens ink filename source (tokens ++ [last]) = .ok file) ↔
      (tokens ++ [last]).map Token.kind ∈ Words.file := by
  rw [parseTokens_isOk_iff_topLevel, beforeEnd_append_finish hTokens hLast,
    Grammar.topLevel_isOk_iff, takes_nil_iff, List.map_append, List.map_singleton, hLast,
    append_finish_mem_file]

/-- The tokens of a file in which a structure and a union are written in place.  What stands behind
the brace of the namespace is not looked at. -/
def nestedTokens : List Token :=
  ([.keyword .nameSpace, .identifier "n", .symbol .openBrace,
    .keyword .struct, .identifier "A", .symbol .openBrace,
    .keyword .struct, .symbol .openBrace,
    .keyword .int, .identifier "b", .symbol .semicolon,
    .symbol .closeBrace, .identifier "c", .symbol .openAngle, .symbol .closeAngle,
    .symbol .semicolon,
    .keyword .union, .keyword .switch, .symbol .openParen, .keyword .int, .identifier "v",
    .symbol .closeParen, .symbol .openBrace,
    .keyword .case, .number 0, .symbol .colon, .keyword .case, .identifier "K", .symbol .colon,
    .keyword .void, .symbol .semicolon,
    .keyword .default, .symbol .colon, .keyword .hyper, .identifier "d", .symbol .openBracket,
    .number 4, .symbol .closeBracket, .symbol .semicolon,
    .symbol .closeBrace, .identifier "e", .symbol .semicolon,
    .symbol .closeBrace, .symbol .semicolon, .symbol .closeBrace, .keyword .void] :
      List TokenKind).map fun kind => ⟨kind, [], ⟨1, 1⟩, ⟨0, 0⟩⟩

/-- An end mark. -/
def finishToken : Token := ⟨.finish, [], ⟨1, 1⟩, ⟨0, 0⟩⟩

theorem nestedTokens_mem_file : (∀ token ∈ nestedTokens, token.kind ≠ .finish) ∧
    finishToken.kind = .finish ∧ (nestedTokens ++ [finishToken]).map Token.kind ∈ Words.file := by
  have hTokens : ∀ token ∈ nestedTokens, token.kind ≠ .finish := by decide
  have hOk : (parseTokens .plain "nested.x" none (nestedTokens ++ [finishToken])).isOk := by cbv
  refine ⟨hTokens, rfl,
    (parseTokens_isOk_iff .plain "nested.x" none nestedTokens finishToken hTokens rfl).mp ?_⟩
  cases hFile : parseTokens .plain "nested.x" none (nestedTokens ++ [finishToken]) with
  | error fault =>
    rw [hFile] at hOk
    cases hOk
  | ok file => exact ⟨file, rfl⟩

end XdrBindings.Idl
