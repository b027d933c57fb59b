import TreeScript.Proofs.Session.Concatenation
import TreeScript.Proofs.Session.SingleExpression

/-!
# Texts between quotes as programs

A text may stand between two quotes if it is `Quotable`: each backslash is followed by a character
that it protects, and neither the quote nor a line break stands in it without protection. From an
opening quote on, a string is read exactly if such a text and its closing quote follow, and it ends
there. With an end mark behind it, it is the program of one string literal, which keeps every
character of the text as it is written. No other text gives that program, because the literal must
come from a string token, and there is no room for one elsewhere.
-/

namespace TreeScript

open Surface (Quote)
open Lowering (opened value)

/-! ## Quotable texts -/

/-- The texts that may stand between two quotes. A backslash protects the character behind it. -/
inductive Quotable (quote : Char) : List Char → Prop
  | nil : Quotable quote []
  | escaped {c : Char} {rest : List Char} : Quotable quote rest → Quotable quote ('\\' :: c :: rest)
  | plain {c : Char} {rest : List Char} :
      c ≠ '\\' → c ≠ quote → c ≠ '\n' → c ≠ '\r' → Quotable quote rest → Quotable quote (c :: rest)

/-- Quotes are no other marks. -/
theorem Surface.Quote.char_ne (quote : Quote) :
    quote.char ≠ '\\' ∧ quote.char ≠ '\n' ∧ quote.char ≠ '\r' ∧ quote.char ≠ ';' := by
  cases quote <;> decide

namespace Scan

/-- Two characters are line feeds. -/
theorem isLineFeed_eq_false_iff {c : Char} : isLineFeed c = false ↔ c ≠ '\n' ∧ c ≠ '\r' := by
  simp [isLineFeed]

/-- A quotable text and its closing quote are read to the quote. -/
theorem quotedTail_of_quotable (quote : Quote) {content : List Char}
    (h : Quotable quote.char content) (rest : List Char) :
    quotedTail quote.char (content ++ quote.char :: rest) =
      ⟨.string, content ++ [quote.char], rest⟩ := by
  obtain ⟨hescape, hline, hreturn, -⟩ := quote.char_ne
  induction h with
  | nil =>
    have hquote : isLineFeed quote.char = false := isLineFeed_eq_false_iff.mpr ⟨hline, hreturn⟩
    rw [List.nil_append, quotedTail.eq_def]
    simp [hquote]
  | escaped _ ih =>
    have hquote : ('\\' == quote.char) = false := beq_eq_false_iff_ne.mpr hescape.symm
    have hfeed : isLineFeed '\\' = false := rfl
    simp only [List.cons_append, quotedTail, hfeed, hquote, ih, Lexeme.prepend]
    rfl
  | plain hbackslash hquote hfeed hreturn _ ih =>
    have hbreak := isLineFeed_eq_false_iff.mpr ⟨hfeed, hreturn⟩
    rw [List.cons_append, quotedTail.eq_def]
    simp [hbreak, hquote, hbackslash, ih, Lexeme.prepend]

/-- Only a quotable text is read as a string. -/
theorem exists_quotable {quote : Char} {chars : List Char}
    (h : (quotedTail quote chars).kind = .string) :
    ∃ content, Quotable quote content ∧ (quotedTail quote chars).text = content ++ [quote] := by
  fun_induction quotedTail quote chars with
  | case1 => cases h
  | case2 c rest hbreak => cases h
  | case3 c rest hbreak hquote => exact ⟨[], .nil, by rw [beq_iff_eq.mp hquote]; rfl⟩
  | case4 c hbreak hquote hescape => cases h
  | case5 c hbreak hquote hescape d rest ih =>
    obtain ⟨content, hcontent, htext⟩ := ih h
    obtain rfl := beq_iff_eq.mp hescape
    exact ⟨'\\' :: d :: content, .escaped hcontent, by rw [Lexeme.prepend, htext]; rfl⟩
  | case6 c rest hbreak hquote hescape ih =>
    obtain ⟨content, hcontent, htext⟩ := ih h
    obtain ⟨hfeed, hreturn⟩ := isLineFeed_eq_false_iff.mp (Bool.not_eq_true _ ▸ hbreak)
    refine ⟨c :: content, .plain ?_ ?_ hfeed hreturn hcontent, by rw [Lexeme.prepend, htext]; rfl⟩
    · simpa using hescape
    · simpa using hquote

/-- A quote begins a quoted text. -/
theorem lexeme_quote (quote : Quote) (chars : List Char) :
    lexeme quote.char chars = (quotedTail quote.char chars).prepend [quote.char] := by
  cases quote <;> rfl

/-- A quote begins a token. -/
theorem startsToken_quote (quote : Quote) (chars : List Char) :
    StartsToken (quote.char :: chars) := by
  cases quote <;> rfl

end Scan

/-! ## Where string constants come from -/

namespace Tree

/-- The leaves of a tree are leaves of all. -/
theorem mem_allLeaves {trees : List Tree} {tree leaf : Tree} (h : leaf ∈ tree.leaves)
    (hmem : tree ∈ trees) : leaf ∈ allLeaves trees := by
  induction trees with
  | nil => cases hmem
  | cons first rest ih =>
    rw [allLeaves, List.mem_append]
    rcases List.mem_cons.mp hmem with rfl | hrest
    · exact .inl h
    · exact .inr (ih hrest)

mutual

/-- Leaves keep their order without spans. -/
theorem leaves_withoutSpans (tree : Tree) :
    tree.withoutSpans.leaves = tree.leaves.map withoutSpans := by
  cases tree with
  | leaf category text span => rfl
  | node rule children span =>
    rw [withoutSpans, leaves, leaves]
    exact allLeaves_allWithoutSpans children

/-- So do those of several trees. -/
theorem allLeaves_allWithoutSpans (trees : List Tree) :
    allLeaves (allWithoutSpans trees) = (allLeaves trees).map withoutSpans := by
  cases trees with
  | nil => rfl
  | cons tree rest =>
    rw [allWithoutSpans, allLeaves, allLeaves, List.map_append, leaves_withoutSpans tree,
      allLeaves_allWithoutSpans rest]

end

end Tree

namespace Surface

open TreeScript.Tree (mem_allLeaves)

/-- No assignment is a literal. -/
theorem store_ne_literal (place : Target) (value : Operation) (policy : Policy)
    (literal : Literal) : store place value policy ≠ .literal literal := by
  cases place <;> exact Operation.noConfusion

/-- Only literals are lowered to constants, also in parentheses. -/
theorem Expression.lower?_eq_literal {expression : Expression} {literal : Literal}
    (h : expression.lower? = some (.literal literal)) :
    (∃ constant, expression = .constant constant ∧ constant.value? = some literal) ∨
      ∃ inner, expression = .parenthesized inner ∧ inner.lower? = some (.literal literal) := by
  cases expression with
  | constant constant =>
    rw [Expression.lower?] at h
    obtain ⟨value, hvalue, hsame⟩ := Option.bind_eq_some_iff.mp h
    cases hsame
    exact .inl ⟨constant, rfl, hvalue⟩
  | parenthesized inner =>
    rw [Expression.lower?] at h
    exact .inr ⟨inner, rfl, h⟩
  | _ => simp [Expression.lower?, Option.bind_eq_some_iff, store_ne_literal] at h

/-- Only a text between quotes is a string constant. -/
theorem Constant.value?_eq_string {constant : Constant} {content : String}
    (h : constant.value? = some (.string content)) : ∃ quote, constant = .quoted quote content := by
  cases constant with
  | quoted quote other =>
    cases h
    exact ⟨quote, rfl⟩
  | number number =>
    simp only [Constant.value?, numberLiteral?, floating?] at h
    split_ifs at h <;> cases h
  | _ => cases h

mutual

/-- An expression that is lowered to a string has the text between quotes in it. -/
theorem Expression.mem_leaves_of_string {content : String} (expression : Expression)
    (h : expression.lower? = some (.literal (.string content))) :
    ∃ quote : Quote, token .string (quote.enclose content) ∈ expression.tree.leaves := by
  rcases Expression.lower?_eq_literal h with ⟨constant, rfl, hvalue⟩ | ⟨inner, rfl, hinner⟩
  · obtain ⟨quote, rfl⟩ := Constant.value?_eq_string hvalue
    exact ⟨quote, List.mem_singleton.mpr rfl⟩
  · obtain ⟨quote, hleaf⟩ := inner.mem_leaves_of_string hinner
    refine ⟨quote, ?_⟩
    rw [Expression.tree]
    exact mem_allLeaves hleaf (by simp)

/-- A sequence that means a text has it quoted. -/
theorem Sequence.mem_leaves_of_string {content : String} : (sequence : Sequence) →
    sequence.lower? = some (.literal (.string content)) →
    ∃ quote : Quote, token .string (quote.enclose content) ∈ sequence.tree.leaves
  | .mk first [], h => by
    rw [Sequence.lower?] at h
    obtain ⟨quote, hleaf⟩ := first.mem_leaves_of_string h
    refine ⟨quote, ?_⟩
    rw [Sequence.tree]
    exact mem_allLeaves hleaf (by simp [separated, allTrees])
  | .mk _ (_ :: _), h => by cases h

end

section

variable {content : String} {operations : List Operation}

/-- So has a statement. -/
theorem Statement.mem_leaves_of_string {statement : Statement}
    (h : statement.lower? .among = some operations)
    (hmem : .literal (.string content) ∈ operations) :
    ∃ quote : Quote, token .string (quote.enclose content) ∈ statement.tree.leaves := by
  cases statement with
  | expression sequence ending =>
    rw [Statement.lower?] at h
    obtain ⟨operation, hoperation, hsame⟩ := Option.bind_eq_some_iff.mp h
    cases hsame
    cases List.mem_singleton.mp hmem
    obtain ⟨quote, hleaf⟩ := sequence.mem_leaves_of_string hoperation
    refine ⟨quote, ?_⟩
    have hinside : token .string (quote.enclose content) ∈
        (node .expressionStatement [sequence.tree, ending.tree]).leaves :=
      mem_allLeaves hleaf List.mem_cons_self
    rw [Statement.tree]
    exact mem_allLeaves hinside List.mem_cons_self
  -- All other statements append nothing or one operation of another form.
  | empty =>
    cases h
    cases hmem
  | loop condition body => cases h
  | block body =>
    obtain ⟨_, -, hsame⟩ := Option.bind_eq_some_iff.mp h
    cases hsame
    cases List.mem_singleton.mp hmem
  | declaration declarer first rest ending =>
    cases declarer <;> cases rest <;> try cases h
    obtain ⟨_, -, hsame⟩ := Option.bind_eq_some_iff.mp h
    cases hsame
    cases List.mem_singleton.mp hmem
  | ifThen condition consequence =>
    obtain ⟨_, -, hthen⟩ := Option.bind_eq_some_iff.mp h
    obtain ⟨_, -, hsame⟩ := Option.bind_eq_some_iff.mp hthen
    cases hsame
    cases List.mem_singleton.mp hmem
  | ifThenElse condition consequence alternative =>
    obtain ⟨_, -, hthen⟩ := Option.bind_eq_some_iff.mp h
    obtain ⟨_, -, helse⟩ := Option.bind_eq_some_iff.mp hthen
    obtain ⟨_, -, hsame⟩ := Option.bind_eq_some_iff.mp helse
    cases hsame
    cases List.mem_singleton.mp hmem
  | giveBack value ending =>
    cases value with
    | none =>
      cases h
      cases List.mem_singleton.mp hmem
    | some sequence =>
      obtain ⟨_, -, hsame⟩ := Option.bind_eq_some_iff.mp h
      cases hsame
      cases List.mem_singleton.mp hmem
  | function name parameters body =>
    rw [Statement.lower?] at h
    split at h
    · obtain ⟨_, -, hsame⟩ := Option.bind_eq_some_iff.mp h
      cases hsame
      cases List.mem_singleton.mp hmem
    · cases h

/-- So have statements. -/
theorem mem_leaves_of_string {statements : List Statement}
    (h : lowerStatements? statements = some operations)
    (hmem : .literal (.string content) ∈ operations) :
    ∃ quote : Quote,
      token .string (quote.enclose content) ∈ Tree.allLeaves (elementTrees statements) := by
  induction statements generalizing operations with
  | nil =>
    cases h
    cases hmem
  | cons statement rest ih =>
    rw [lowerStatements?] at h
    obtain ⟨first, hfirst, hothers⟩ := Option.bind_eq_some_iff.mp h
    obtain ⟨others, hrest, hsame⟩ := Option.bind_eq_some_iff.mp hothers
    cases hsame
    rw [elementTrees, Tree.allLeaves]
    rcases List.mem_append.mp hmem with hhere | hlater
    · obtain ⟨quote, hleaf⟩ := Statement.mem_leaves_of_string hfirst hhere
      exact ⟨quote, List.mem_append_left _ (mem_allLeaves hleaf List.mem_cons_self)⟩
    · obtain ⟨quote, hleaf⟩ := ih hrest hlater
      exact ⟨quote, List.mem_append_right _ hleaf⟩

end

end Surface

/-- Only a quoted text is a string. -/
theorem Category.ofKind_eq_stringLiteral {kind : Kind} (h : ofKind kind = .stringLiteral) :
    kind = .string := by
  unfold ofKind at h
  split at h <;> first | rfl | cases h

/-- The tree that a program comes from is, but for its spans, that of a script which means it. -/
theorem Surface.exists_script_of_ofTree {source : String} {tree : Tree} {program : Program}
    {c : Cursor} (hreads : Reads .done .program (Cursor.ofSource source) [tree] c)
    (h : Program.ofTree tree = .ok program) :
    ∃ script : Script, tree.withoutSpans = script.tree ∧ script.lower? = some program := by
  obtain ⟨script, hscript⟩ :=
    exists_script (hreads.produces (Cursor.isSpelled_ofSource source)).2
  have haccords := accords_ofTree hscript
  refine ⟨script, hscript, ?_⟩
  cases hlower : script.lower? with
  | none =>
    rw [hlower] at haccords
    obtain ⟨error, herror, -⟩ := haccords
    rw [h] at herror
    cases herror
  | some meant =>
    rw [hlower] at haccords
    rw [Except.ok.inj (haccords.symm.trans h)]

/-- A string among the statements of a program stands between quotes in its source text. -/
theorem exists_string_token {source content : String} {program : Program}
    (h : Program.ofSource source = .ok program)
    (hmem : .literal (.string content) ∈ program.body) :
    ∃ token ∈ (TokenStream.ofSource source).tokens, token.kind = .string ∧
      ∃ quote : Quote, token.text = quote.enclose content := by
  cases hparse : Tree.parse source with
  | error error =>
    rw [Program.ofSource, hparse] at h
    cases h
  | ok tree =>
    rw [Program.ofSource_eq_ok_iff hparse] at h
    obtain ⟨c, hreads⟩ := Tree.parse_eq_ok_iff.mp hparse
    obtain ⟨script, hscript, hlower⟩ := Surface.exists_script_of_ofTree hreads h
    obtain ⟨operations, hoperations, hsame⟩ := Option.bind_eq_some_iff.mp hlower
    cases hsame
    obtain ⟨quote, hinside⟩ := Surface.mem_leaves_of_string hoperations hmem
    have hleaf : Surface.token .string (quote.enclose content) ∈ tree.withoutSpans.leaves := by
      rw [hscript]
      exact List.mem_append_left _ hinside
    rw [Tree.leaves_withoutSpans, hreads.leaves_ofSource] at hleaf
    obtain ⟨leaf, hmem, hsame⟩ := List.mem_map.mp hleaf
    rcases List.mem_append.mp hmem with htoken | hend
    · obtain ⟨token, hstream, rfl⟩ := List.mem_map.mp htoken
      obtain ⟨hcategory, htext, -⟩ := Tree.leaf.inj hsame
      exact ⟨token, hstream, Category.ofKind_eq_stringLiteral hcategory, quote, htext⟩
    · rw [List.mem_singleton.mp hend] at hsame
      cases hsame

/-! ## Programs -/

/-- A text between quotes with an end mark behind it. -/
def Surface.Quote.statement (quote : Quote) (content : String) : String :=
  quote.enclose content ++ ";"

/-- The characters of the statement. -/
theorem Surface.Quote.toList_statement (quote : Quote) (content : String) :
    (quote.statement content).toList = quote.char :: (content.toList ++ [quote.char]) ++ [';'] := by
  simp only [statement, enclose, String.toList_append, String.toList_ofList]
  rfl

/-- A text that can be quoted is one token. -/
theorem Scan.lexeme_of_quotable (quote : Quote) {content : List Char}
    (h : Quotable quote.char content) (rest : List Char) :
    lexeme quote.char (content ++ quote.char :: rest) =
      ⟨.string, quote.char :: (content ++ [quote.char]), rest⟩ := by
  rw [lexeme_quote, quotedTail_of_quotable quote h]
  rfl

/-- The leaf of a text between quotes is lowered to the text. -/
theorem Lowering.value_quoted (quote : Quote) (content : String) (span : Span) :
    value (.atom (.leaf (.ofKind .string) (quote.enclose content) span)) opened =
      (.ok (.literal (.string content)), opened) := by
  change value (.expression [.wrap .literal (.leaf (.ofKind .string) _ span)]) opened = _
  rw [Tree.expression_eq, Tree.wrap_eq, value_constant rfl, Surface.literal_quoted]
  rfl

/-- A quotable text is a program of one literal. -/
theorem Program.ofSource_of_quotable {quote : Quote} {content : String}
    (h : Quotable quote.char content.toList) :
    Program.ofSource (quote.statement content) = .ok ⟨[.literal (.string content)]⟩ := by
  have hread := Scan.lexeme_of_quotable quote h [';']
  rw [List.append_cons] at hread
  have hsource := Cursor.ofSource_before_semicolon (quote.toList_statement content)
    (Scan.startsToken_quote quote _) hread
  rw [Program.ofSource_of_reads hsource
    (.noPower (.unsigned rfl (.noStep (.accesses (.subject (.atom (.intro rfl))) rfl) rfl)) rfl)
    rfl rfl rfl Kind.noConfusion (Lowering.value_quoted quote content _)]
  rfl

/-- Between the opening quote and the end mark there is no room for another string as long. -/
theorem Surface.Quote.char_eq_of_within {quote other : Quote} {content front rest : List Char}
    (h : quote.char :: (content ++ [quote.char]) ++ [';'] =
      front ++ (other.char :: (content ++ [other.char]) ++ rest)) :
    other.char = quote.char := by
  cases front with
  | nil => exact (List.cons.inj h).1.symm
  | cons c front =>
    have hlength := congrArg List.length h
    simp only [List.length_append, List.length_cons, List.length_nil] at hlength
    obtain rfl : rest = [] := List.eq_nil_of_length_eq_zero (by omega)
    -- The end mark would be the closing quote.
    have hlast := congrArg List.getLast? h
    rw [List.getLast?_concat, List.append_nil, ← List.cons_append, ← List.append_assoc,
      List.getLast?_concat] at hlast
    exact absurd (Option.some.inj hlast).symm other.char_ne.2.2.2

/-- No other text is a program of the one literal. -/
theorem Program.quotable_of_ofSource {quote : Quote} {content : String}
    (h : Program.ofSource (quote.statement content) = .ok ⟨[.literal (.string content)]⟩) :
    Quotable quote.char content.toList := by
  obtain ⟨token, htoken, hkind, other, htext⟩ := exists_string_token h (List.mem_singleton.mpr rfl)
  obtain ⟨front, first, rest, hsource, -, hread, hchars⟩ :=
    Scan.read_of_mem_scanFrom 0 _ [] rfl htoken
  have hlexeme :
      (Scan.lexeme first rest).text = other.char :: (content.toList ++ [other.char]) := by
    rw [htext, Quote.enclose] at hchars
    exact (String.ofList_injective hchars).symm
  have happend := Scan.lexeme_append first rest
  rw [hlexeme] at happend
  rw [← happend, List.nil_append, quote.toList_statement] at hsource
  have hquote : other.char = quote.char := Quote.char_eq_of_within hsource
  obtain rfl : quote.char = first := hquote.symm.trans (List.cons.inj happend).1
  rw [hkind, Scan.lexeme_quote] at hread
  obtain ⟨inside, hinside, hends⟩ := Scan.exists_quotable hread.symm
  rw [Scan.lexeme_quote, Scan.Lexeme.prepend, hends, hquote] at hlexeme
  obtain rfl : inside = content.toList := List.append_cancel_right (List.cons.inj hlexeme).2
  exact hinside

/-! ## Tokens from an opening quote on -/

/-- The first token from a quote on begins at the quote. -/
theorem Scan.head?_scanFrom_quote (quote : Quote) (offset : Nat) (chars : List Char) :
    (scanFrom offset (quote.char :: chars)).tokens.head? =
      some ⟨(lexeme quote.char chars).kind, String.ofList (lexeme quote.char chars).text,
        ⟨offset, offset + Source.byteLength (lexeme quote.char chars).text⟩, false⟩ := by
  rw [scanFrom_of_lexeme (startsToken_quote quote chars) rfl]
  rfl

/-- From a quote on a string is read exactly if a quotable text and the closing quote follow. -/
theorem Scan.kind_lexeme_quote (quote : Quote) (chars : List Char) :
    (lexeme quote.char chars).kind = .string ↔
      ∃ content rest, chars = content ++ quote.char :: rest ∧ Quotable quote.char content := by
  constructor
  · intro h
    have happend := quotedTail_append quote.char chars
    rw [lexeme_quote] at h
    obtain ⟨content, hcontent, htext⟩ := exists_quotable h
    refine ⟨content, (quotedTail quote.char chars).rest, ?_, hcontent⟩
    rw [List.append_cons, ← htext, happend]
  · rintro ⟨content, rest, rfl, hcontent⟩
    rw [lexeme_of_quotable quote hcontent]

/-- A text between quotes with an end mark behind it is the program of one string literal, the text
as it is written, exactly if the text is quotable, and then it evaluates to the text in every
session. From an opening quote on, wherever it stands, the next token is a string exactly if a
quotable text and a closing quote follow, and then the token is this text with its two quotes and
ends right after the closing one. -/
theorem literal_iff_quotable (quote : Quote) :
    (∀ content : String,
      (Program.ofSource (quote.statement content) = .ok ⟨[.literal (.string content)]⟩ ↔
        Quotable quote.char content.toList) ∧
      (Quotable quote.char content.toList → ∀ session : Session,
        session.evaluate (quote.statement content) = (.ok (.string content), session.cleared))) ∧
    ∀ (offset : Nat) (chars : List Char),
      ((∃ token ∈ (Scan.scanFrom offset (quote.char :: chars)).tokens.head?,
          token.kind = .string) ↔
        ∃ content rest, chars = content ++ quote.char :: rest ∧ Quotable quote.char content) ∧
      ∀ content rest, chars = content ++ quote.char :: rest → Quotable quote.char content →
        (Scan.scanFrom offset (quote.char :: chars)).tokens.head? =
          some ⟨.string, quote.enclose (.ofList content),
            ⟨offset, offset + Source.byteLength (quote.char :: content ++ [quote.char])⟩,
            false⟩ := by
  refine ⟨fun content => ⟨⟨Program.quotable_of_ofSource, Program.ofSource_of_quotable⟩, ?_⟩,
    fun offset chars => ⟨?_, ?_⟩⟩
  · intro hcontent session
    exact session.evaluate_literal (Program.ofSource_of_quotable hcontent)
  · rw [← Scan.kind_lexeme_quote, Scan.head?_scanFrom_quote]
    simp
  · rintro content rest rfl hcontent
    rw [Scan.head?_scanFrom_quote, Scan.lexeme_of_quotable quote hcontent, Quote.enclose,
      String.toList_ofList]
    rfl

/-- A letter of two bytes between an escaped line break and an escaped quote, and a backslash that
takes the closing quote away. -/
theorem literal_iff_quotable_escapes :
    Session.new.evaluate "\"\\\né\\\"\";" = (.ok (.string "\\\né\\\""), Session.new.cleared) ∧
    Program.ofSource "\"\\\";" ≠ .ok ⟨[.literal (.string "\\")]⟩ ∧
    (∃ token ∈ (Scan.scanFrom 3 "'é\\'' x".toList).tokens.head?, token.kind = .string ∧
      token.text = "'é\\''" ∧ token.span = ⟨3, 9⟩) := by
  obtain ⟨hdouble, -⟩ := literal_iff_quotable .double
  obtain ⟨-, hsingle⟩ := literal_iff_quotable .single
  have hletter {quote : Char} {rest : List Char} (hquote : 'é' ≠ quote)
      (hrest : Quotable quote rest) : Quotable quote ('é' :: rest) :=
    .plain (by decide) hquote (by decide) (by decide) hrest
  refine ⟨?_, fun h => ?_, ?_⟩
  · exact (hdouble "\\\né\\\"").2 (.escaped (hletter (by decide) (.escaped .nil))) Session.new
  · cases (hdouble "\\").1.mp h with
    | plain hbackslash => exact hbackslash rfl
  · have htoken := (hsingle 3 _).2 ['é', '\\', '\''] [' ', 'x'] rfl
      (hletter (by decide) (.escaped .nil))
    exact ⟨_, htoken, rfl, rfl, rfl⟩

end TreeScript
