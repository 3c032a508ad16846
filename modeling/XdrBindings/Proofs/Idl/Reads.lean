import XdrBindings.Idl.Grammar.Basic
import XdrBindings.Proofs.Idl.Words

/-!
# Rules that read languages

A rule reads a language before another one when it is sound and complete for it: what it takes off
the tokens is a word of the first, and it takes any such word behind which a word of the second
stands.  What follows matters to rules that stop where they can not go on, such as repetitions.

The lemmas here follow the shapes of rules: one rule behind another, a mark or a keyword before a
rule, a choice by the next token, and items in braces.

## Main results

* `Reads.bind` — one rule behind another reads the product of their languages.
* `Reads.choice` — a choice by the next token reads the sum of the languages.
* `body_reads` — a body reads repeated items and the closing brace.
-/

namespace XdrBindings.Idl

open scoped Computability

variable {α β : Type} {words others follow : Language TokenKind} {tokens mid rest : List Token}

/-! ## Words at the front of tokens -/

/-- The tokens begin with one of the words, and the rest stands behind it. -/
def Takes (words : Language TokenKind) (tokens rest : List Token) : Prop :=
  ∃ front, front.map Token.kind ∈ words ∧ tokens = front ++ rest

/-- The tokens begin with one of the words. -/
def Ahead (words : Language TokenKind) (tokens : List Token) : Prop :=
  ∃ rest, Takes words tokens rest

@[simp]
theorem takes_one : Takes 1 tokens rest ↔ tokens = rest := by
  simp [Takes, Language.mem_one]

theorem takes_add : Takes (words + others) tokens rest ↔
    Takes words tokens rest ∨ Takes others tokens rest := by
  simp only [Takes, Language.mem_add, or_and_right, exists_or]

@[simp]
theorem takes_sup : Takes (words ⊔ others) tokens rest ↔
    Takes words tokens rest ∨ Takes others tokens rest := by
  rw [← add_eq_sup, takes_add]

theorem takes_mul : Takes (words * others) tokens rest ↔
    ∃ mid, Takes words tokens mid ∧ Takes others mid rest := by
  constructor
  · rintro ⟨front, hFront, rfl⟩
    obtain ⟨first, hFirst, second, hSecond, hSplit⟩ := Language.mem_mul.mp hFront
    obtain ⟨firstTokens, secondTokens, rfl, rfl, rfl⟩ := List.append_eq_map_iff.mp hSplit
    exact ⟨secondTokens ++ rest, ⟨firstTokens, hFirst, List.append_assoc ..⟩,
      secondTokens, hSecond, rfl⟩
  · rintro ⟨_, ⟨first, hFirst, rfl⟩, second, hSecond, rfl⟩
    refine ⟨first ++ second, ?_, (List.append_assoc ..).symm⟩
    rw [List.map_append]
    exact Language.append_mem_mul hFirst hSecond

theorem takes_kstar :
    Takes words∗ tokens rest ↔ ∃ count : ℕ, Takes (words ^ count) tokens rest := by
  simp only [Takes, Language.kstar_eq_iSup_pow, Language.mem_iSup, ← exists_and_right]
  exact exists_comm

@[simp]
theorem takes_oneOf {kinds : TokenKind → Prop} : Takes (Words.oneOf kinds) tokens rest ↔
    ∃ token, kinds token.kind ∧ tokens = token :: rest := by
  constructor
  · rintro ⟨front, ⟨kind, hKind, hFront⟩, rfl⟩
    obtain ⟨token, rfl, rfl⟩ := List.map_eq_singleton_iff.mp hFront
    exact ⟨token, hKind, rfl⟩
  · rintro ⟨token, hKind, rfl⟩
    exact ⟨[token], ⟨token.kind, hKind, rfl⟩, rfl⟩

theorem takes_oneOf_mul {kinds : TokenKind → Prop} :
    Takes (Words.oneOf kinds * words) tokens rest ↔
      Ahead (Words.oneOf kinds) tokens ∧ Takes words tokens.tail rest := by
  rw [takes_mul]
  constructor
  · rintro ⟨mid, hToken, hWord⟩
    obtain ⟨token, -, rfl⟩ := takes_oneOf.mp hToken
    exact ⟨⟨mid, hToken⟩, hWord⟩
  · rintro ⟨⟨mid, hToken⟩, hWord⟩
    obtain ⟨token, -, rfl⟩ := takes_oneOf.mp hToken
    exact ⟨mid, hToken, hWord⟩

theorem Takes.mono (hTakes : Takes words tokens rest) (hWords : words ≤ others) :
    Takes others tokens rest :=
  hTakes.imp fun _ hFront => ⟨hWords hFront.1, hFront.2⟩

theorem Takes.length_le (hTakes : Takes words tokens rest) : rest.length ≤ tokens.length := by
  obtain ⟨front, -, rfl⟩ := hTakes
  simp

theorem Takes.ahead_mul (hTakes : Takes words tokens mid) (hAhead : Ahead others mid) :
    Ahead (words * others) tokens := by
  obtain ⟨rest, hRest⟩ := hAhead
  exact ⟨rest, takes_mul.mpr ⟨mid, hTakes, hRest⟩⟩

/-! ## First tokens -/

/-- None of the words is empty, and each begins with a token of some kinds. -/
def Begins (kinds : TokenKind → Prop) (words : Language TokenKind) : Prop :=
  ∀ word ∈ words, ∃ kind others, word = kind :: others ∧ kinds kind

theorem Begins.of_ahead {kinds : TokenKind → Prop} (hBegins : Begins kinds words)
    (hAhead : Ahead words tokens) :
    ∃ token others, tokens = token :: others ∧ kinds token.kind := by
  obtain ⟨rest, front, hFront, rfl⟩ := hAhead
  obtain ⟨kind, others, hSplit, hKind⟩ := hBegins _ hFront
  obtain ⟨token, behind, rfl, rfl, -⟩ := List.map_eq_cons_iff.mp hSplit
  exact ⟨token, behind ++ rest, rfl, hKind⟩

theorem Begins.length_lt {kinds : TokenKind → Prop} (hBegins : Begins kinds words)
    (hTakes : Takes words tokens rest) : rest.length < tokens.length := by
  obtain ⟨front, hFront, rfl⟩ := hTakes
  obtain ⟨kind, others, hSplit, -⟩ := hBegins _ hFront
  obtain ⟨token, behind, rfl, -⟩ := List.map_eq_cons_iff.mp hSplit
  simp only [List.length_append, List.length_cons]
  omega

section

variable {kinds kinds' : TokenKind → Prop}

@[simp]
theorem begins_oneOf : Begins kinds (Words.oneOf kinds') ↔ ∀ kind, kinds' kind → kinds kind := by
  constructor
  · intro hBegins kind hKind
    obtain ⟨kind', _, hSplit, hKind'⟩ := hBegins [kind] ⟨kind, hKind, rfl⟩
    obtain ⟨rfl, -⟩ := List.cons_eq_cons.mp hSplit
    exact hKind'
  · rintro hKinds _ ⟨kind, hKind, rfl⟩
    exact ⟨kind, [], rfl, hKinds kind hKind⟩

@[simp]
theorem begins_symbol {mark : Symbol} :
    Begins kinds (Words.symbol mark) ↔ kinds (.symbol mark) := by
  simp [Words.symbol]

@[simp]
theorem begins_keyword {word : Keyword} :
    Begins kinds (Words.keyword word) ↔ kinds (.keyword word) := by
  simp [Words.keyword]

@[simp]
theorem begins_identifier :
    Begins kinds Words.identifier ↔ ∀ name, kinds (.identifier name) := by
  simp [Words.identifier]

@[simp]
theorem begins_zero : Begins kinds 0 := fun _ hWord => absurd hWord (Language.notMem_zero _)

theorem begins_add : Begins kinds (words + others) ↔ Begins kinds words ∧ Begins kinds others := by
  simp only [Begins, Language.mem_add, or_imp, forall_and]

@[simp]
theorem begins_sup : Begins kinds (words ⊔ others) ↔ Begins kinds words ∧ Begins kinds others := by
  rw [← add_eq_sup, begins_add]

@[simp]
theorem begins_size : Begins kinds Words.size ↔
    (∀ name, kinds (.identifier name)) ∧ ∀ value, 0 ≤ value → kinds (.number value) := by
  rw [Words.size, begins_add, begins_identifier, begins_oneOf]
  refine and_congr_right fun _ => ⟨fun h value hSign => h _ ⟨value, hSign, rfl⟩, ?_⟩
  rintro h _ ⟨value, hSign, rfl⟩
  exact h value hSign

@[simp]
theorem Begins.mul (hBegins : Begins kinds words) : Begins kinds (words * others) := by
  intro word hWord
  obtain ⟨first, hFirst, second, -, rfl⟩ := Language.mem_mul.mp hWord
  obtain ⟨kind, behind, rfl, hKind⟩ := hBegins first hFirst
  exact ⟨kind, behind ++ second, rfl, hKind⟩

/-- Where a repetition is empty, what stands behind it comes first. -/
@[simp]
theorem Begins.kstar_mul (hWords : Begins kinds words) (hOthers : Begins kinds others) :
    Begins kinds (words∗ * others) := by
  rw [← Language.one_add_self_mul_kstar_eq_kstar, add_mul, one_mul, mul_assoc]
  exact begins_add.mpr ⟨hOthers, hWords.mul⟩

end

theorem Ahead.of_begins {kinds : TokenKind → Prop} (hAhead : Ahead words tokens)
    (hBegins : Begins kinds words) : Ahead (Words.oneOf kinds) tokens := by
  obtain ⟨token, rest, rfl, hKind⟩ := hBegins.of_ahead hAhead
  exact ⟨rest, takes_oneOf.mpr ⟨token, hKind, rfl⟩⟩

theorem Ahead.not_of_begins {kind : TokenKind} (hAhead : Ahead words tokens)
    (hBegins : Begins (· ≠ kind) words) : ¬Ahead (Words.oneOf (· = kind)) tokens := by
  obtain ⟨token, rest, rfl, hKind⟩ := hBegins.of_ahead hAhead
  simp [Ahead, hKind]

theorem Ahead.length_tail_lt {kinds : TokenKind → Prop}
    (hAhead : Ahead (Words.oneOf kinds) tokens) : tokens.tail.length < tokens.length := by
  obtain ⟨rest, hToken⟩ := hAhead
  obtain ⟨token, -, rfl⟩ := takes_oneOf.mp hToken
  exact Nat.lt_succ_self _

/-! ## Rules -/

/-- The result of a rule that reads one language before another off the tokens. -/
structure Reads (words follow : Language TokenKind) (tokens : List Token)
    (result : Except Fault (Read α)) : Prop where
  sound : ∀ {value rest}, result = .ok (value, rest) → Takes words tokens rest
  complete : ∀ {rest}, Takes words tokens rest → Ahead follow rest →
    ∃ value, result = .ok (value, rest)

namespace Reads

/-- A rule that succeeds just where a word is ahead reads the words before anything. -/
theorem of_iff {result : Except Fault (Read α)}
    (hResult : ∀ rest, (∃ value, result = .ok (value, rest)) ↔ Takes words tokens rest) :
    Reads words follow tokens result where
  sound hOk := (hResult _).mp ⟨_, hOk⟩
  complete hTakes _ := (hResult _).mpr hTakes

theorem ok_iff {result : Except Fault (Read α)} (hReads : Reads words 1 tokens result) :
    (∃ value, result = .ok (value, rest)) ↔ Takes words tokens rest :=
  ⟨fun ⟨_, hResult⟩ => hReads.sound hResult, fun hTakes => hReads.complete hTakes ⟨rest, by simp⟩⟩

theorem pure (value : α) : Reads 1 follow tokens (Pure.pure (value, tokens)) where
  sound hResult := by
    cases hResult
    exact takes_one.mpr rfl
  complete hTakes _ := ⟨value, by rw [takes_one.mp hTakes]; rfl⟩

theorem bind {first : Except Fault (Read α)} {next : Read α → Except Fault (Read β)}
    (hFirst : Reads words (others * follow) tokens first)
    (hNext : ∀ value mid, Takes words tokens mid → Reads others follow mid (next (value, mid))) :
    Reads (words * others) follow tokens (first >>= next) where
  sound {value rest} hResult := by
    rcases first with fault | ⟨value', mid⟩
    · cases hResult
    · have hTakes := hFirst.sound rfl
      exact takes_mul.mpr ⟨mid, hTakes, (hNext value' mid hTakes).sound hResult⟩
  complete {rest} hTakes hFollow := by
    obtain ⟨mid, hWord, hOther⟩ := takes_mul.mp hTakes
    obtain ⟨value', rfl⟩ := hFirst.complete hWord (hOther.ahead_mul hFollow)
    exact (hNext value' mid hWord).complete hOther hFollow

/-- A rule may look ahead, as long as it succeeds wherever the words are ahead. -/
theorem lookAhead {first : Except Fault α} {next : α → Except Fault (Read β)}
    (hFirst : Ahead (words * follow) tokens → ∃ value, first = .ok value)
    (hNext : ∀ value, Reads words follow tokens (next value)) :
    Reads words follow tokens (first >>= next) where
  sound hResult := by
    rcases first with fault | value
    · cases hResult
    · exact (hNext value).sound hResult
  complete hTakes hFollow := by
    obtain ⟨value, rfl⟩ := hFirst (hTakes.ahead_mul hFollow)
    exact (hNext value).complete hTakes hFollow

/-- What is made of the value takes no tokens. -/
theorem map {result : Except Fault (Read α)} {next : Read α → Except Fault (Read β)}
    (hReads : Reads words follow tokens result)
    (hNext : ∀ value mid, ∃ made, next (value, mid) = .ok (made, mid)) :
    Reads words follow tokens (result >>= next) := by
  rw [← mul_one words]
  refine bind (by rwa [one_mul]) fun value mid _ => ?_
  obtain ⟨made, hMade⟩ := hNext value mid
  rw [hMade]
  exact pure made

theorem error {fault : Fault} (hAhead : ¬Ahead words tokens) :
    Reads words follow tokens (.error fault : Except Fault (Read α)) where
  sound hResult := by cases hResult
  complete hTakes _ := absurd ⟨_, hTakes⟩ hAhead

/-- A token that is ahead is passed over. -/
theorem behind {kinds : TokenKind → Prop} {result : Except Fault (Read α)}
    (hAhead : Ahead (Words.oneOf kinds) tokens) (hReads : Reads words follow tokens.tail result) :
    Reads (Words.oneOf kinds * words) follow tokens result where
  sound hResult := takes_oneOf_mul.mpr ⟨hAhead, hReads.sound hResult⟩
  complete hTakes hFollow := hReads.complete (takes_oneOf_mul.mp hTakes).2 hFollow

/-- A choice is sound and complete when the condition tells which language is ahead. -/
theorem ite {condition : Prop} [Decidable condition] {yes no : Except Fault (Read α)}
    (hYes : condition → Reads words follow tokens yes)
    (hNo : ¬condition → Reads others follow tokens no)
    (hWords : Ahead (words * follow) tokens → condition)
    (hOthers : Ahead (others * follow) tokens → ¬condition) :
    Reads (words + others) follow tokens (if condition then yes else no) where
  sound {value rest} hResult := by
    split at hResult
    · exact takes_add.mpr (.inl ((hYes ‹_›).sound hResult))
    · exact takes_add.mpr (.inr ((hNo ‹_›).sound hResult))
  complete {rest} hTakes hFollow := by
    rcases takes_add.mp hTakes with hWord | hOther
    · have hCondition := hWords (hWord.ahead_mul hFollow)
      rw [if_pos hCondition]
      exact (hYes hCondition).complete hWord hFollow
    · have hCondition := hOthers (hOther.ahead_mul hFollow)
      rw [if_neg hCondition]
      exact (hNo hCondition).complete hOther hFollow

/-- In a choice by a token, the token is passed over before one rule, and no word of the other
begins with it. -/
theorem choice {kind : TokenKind} {condition : Prop} [Decidable condition]
    {yes no : Except Fault (Read α)}
    (hCondition : condition ↔ Ahead (Words.oneOf (· = kind)) tokens)
    (hYes : tokens.tail.length < tokens.length → Reads words follow tokens.tail yes)
    (hNo : Reads others follow tokens no) (hApart : Begins (· ≠ kind) (others * follow)) :
    Reads (Words.oneOf (· = kind) * words + others) follow tokens
      (if condition then yes else no) := by
  refine ite (fun h => ?_) (fun _ => hNo) (fun hAhead => ?_) fun hAhead h => ?_
  · have hToken := hCondition.mp h
    exact behind hToken (hYes hToken.length_tail_lt)
  · exact hCondition.mpr (hAhead.of_begins (Begins.mul (Begins.mul (by simp))))
  · exact hAhead.not_of_begins hApart (hCondition.mp h)

/-- A token that must be there is passed over. -/
theorem skip {kind : TokenKind} {condition : Prop} [Decidable condition] {fault : Fault}
    {next : List Token → Except Fault (Read α)}
    (hCondition : condition ↔ Ahead (Words.oneOf (· = kind)) tokens)
    (hNext : ∀ mid, mid.length < tokens.length → Reads words follow mid (next mid)) :
    Reads (Words.oneOf (· = kind) * words) follow tokens
      ((if condition then .ok tokens.tail else .error fault) >>= next) := by
  split
  · have hToken := hCondition.mp ‹_›
    exact behind hToken (hNext _ hToken.length_tail_lt)
  · refine error fun hAhead => ?_
    have hToken : Ahead (Words.oneOf (· = kind)) tokens := hAhead.of_begins (Begins.mul (by simp))
    exact absurd (hCondition.mpr hToken) ‹_›

end Reads

namespace Grammar

/-! ## Marks and keywords -/

theorem isAhead_iff {mark : Symbol} : isAhead mark tokens ↔ Ahead (Words.symbol mark) tokens := by
  cases tokens <;> simp [isAhead, Ahead, Words.symbol]

theorem isKeywordAhead_iff {word : Keyword} :
    isKeywordAhead word tokens ↔ Ahead (Words.keyword word) tokens := by
  cases tokens <;> simp [isKeywordAhead, Ahead, Words.keyword]

theorem takes_symbol_mul {mark : Symbol} : Takes (Words.symbol mark * words) tokens rest ↔
    isAhead mark tokens ∧ Takes words tokens.tail rest := by
  rw [isAhead_iff]
  exact takes_oneOf_mul

theorem takes_keyword_mul {word : Keyword} : Takes (Words.keyword word * words) tokens rest ↔
    isKeywordAhead word tokens ∧ Takes words tokens.tail rest := by
  rw [isKeywordAhead_iff]
  exact takes_oneOf_mul

theorem takes_keyword {word : Keyword} : Takes (Words.keyword word) tokens rest ↔
    isKeywordAhead word tokens ∧ tokens.tail = rest := by
  rw [← mul_one (Words.keyword word), takes_keyword_mul, takes_one]

theorem symbol_reads {mark : Symbol} {next : List Token → Except Fault (Read α)}
    (hNext : ∀ mid, mid.length < tokens.length → Reads words follow mid (next mid)) :
    Reads (Words.symbol mark * words) follow tokens (symbol mark tokens >>= next) :=
  Reads.skip isAhead_iff hNext

theorem keyword_reads {word : Keyword} {next : List Token → Except Fault (Read α)}
    (hNext : ∀ mid, mid.length < tokens.length → Reads words follow mid (next mid)) :
    Reads (Words.keyword word * words) follow tokens (keyword word tokens >>= next) :=
  Reads.skip isKeywordAhead_iff hNext

/-! ## Bodies -/

section

variable {item : List Token → Except Fault (Read α)}

/-- Items are read as long as no closing brace is ahead.  The bound is never reached, because every
item takes a token. -/
theorem itemsUntilClose_reads (hStart : Begins (· ≠ .symbol .closeBrace) words)
    (hFollow : Begins (· = .symbol .closeBrace) follow) (bound : Nat) (tokens : List Token)
    (hBound : tokens.length < bound)
    (hItem : ∀ part, part.length ≤ tokens.length → Reads words (words∗ * follow) part (item part)) :
    Reads words∗ follow tokens (itemsUntilClose item bound tokens) := by
  induction bound generalizing tokens with
  | zero => omega
  | succ bound ih =>
    unfold itemsUntilClose
    rw [← Language.one_add_self_mul_kstar_eq_kstar]
    refine .ite (fun _ => .pure _) (fun _ => ?_) (fun hAhead => ?_) fun hAhead hClose => ?_
    · refine .bind (hItem tokens (Nat.le_refl _)) fun value mid hTakes => ?_
      have := hStart.length_lt hTakes
      have hOthers := ih mid (by omega) fun part hPart => hItem part (by omega)
      exact hOthers.map fun _ _ => ⟨_, rfl⟩
    · rw [one_mul] at hAhead
      exact isAhead_iff.mpr (hAhead.of_begins hFollow)
    · exact hAhead.not_of_begins hStart.mul.mul (isAhead_iff.mp hClose)

/-- A body reads its items and the closing brace. -/
theorem body_reads (hStart : Begins (· ≠ .symbol .closeBrace) words)
    (hItem : ∀ part, part.length ≤ tokens.length →
      Reads words (words∗ * (Words.symbol .closeBrace * follow)) part (item part)) :
    Reads (words∗ * Words.symbol .closeBrace) follow tokens (body item tokens) := by
  rw [← mul_one (Words.symbol .closeBrace)] at hItem ⊢
  unfold body
  refine .bind ?_ fun _ _ _ => symbol_reads fun _ _ => .pure _
  exact itemsUntilClose_reads hStart (by simp) _ tokens (Nat.lt_succ_self _) hItem

end

end Grammar

end XdrBindings.Idl
