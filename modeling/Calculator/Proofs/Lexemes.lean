import Calculator.Proofs.Dangling
import Mathlib.Data.List.SplitBy

/-!
Lexemes. A text is cut at its boundary characters, and what lies between them is consumed from the
left by literals and names; nothing is looked up for that. Each lexeme then stands for a token, and
the token before it decides on signs and products. Reading does all this in one pass.
-/

namespace Calculator

inductive Lexeme
  | literal (l : Number.Literal)
  | name (letters : List Char)
  | boundary (c : Char)
  /-- What is left of a run where neither a literal nor a name starts. -/
  | unreadable (rest : List Char)
deriving DecidableEq

namespace Lexeme

def chars : Lexeme → List Char
  | literal l => l.text
  | name letters => letters
  | boundary c => [c]
  | unreadable rest => rest

theorem length_dropWhile_lt {run : List Char} {c : Char} {cs : List Char}
    (letters : run.takeWhile Text.isLetter = c :: cs) :
    (run.dropWhile Text.isLetter).length < run.length := by
  have whole := congrArg List.length
    (List.takeWhile_append_dropWhile (p := Text.isLetter) (l := run))
  rw [letters, List.length_append, List.length_cons] at whole
  omega

/-- A run is consumed from the left: by the literal at its start, else by all letters there. -/
def ofRun (run : List Char) : List Lexeme :=
  if run = [] then []
  else
    match _ : Number.Literal.read? run with
    | some (l, rest) => literal l :: ofRun rest
    | none =>
      match _ : run.takeWhile Text.isLetter with
      | [] => [unreadable run]
      | c :: cs => name (c :: cs) :: ofRun (run.dropWhile Text.isLetter)
termination_by run.length
decreasing_by
  · exact Number.Literal.length_lt_of_read? (by assumption)
  · exact length_dropWhile_lt (by assumption)

theorem ofRun_nil : ofRun [] = [] := by
  rw [ofRun, if_pos rfl]

theorem ofRun_literal {run rest : List Char} {l : Number.Literal}
    (found : Number.Literal.read? run = some (l, rest)) : ofRun run = literal l :: ofRun rest := by
  have some : run ≠ [] := by
    rintro rfl
    cases found
  rw [ofRun, if_neg some]
  split
  · rename_i found'
    rw [found] at found'
    cases found'
    rfl
  · rename_i unread
    rw [found] at unread
    cases unread

theorem ofRun_letters {run : List Char} {c : Char} {cs : List Char}
    (unread : Number.Literal.read? run = none) (letters : run.takeWhile Text.isLetter = c :: cs) :
    ofRun run = name (c :: cs) :: ofRun (run.dropWhile Text.isLetter) := by
  have some : run ≠ [] := by
    rintro rfl
    cases letters
  rw [ofRun, if_neg some]
  split
  · rename_i found
    rw [unread] at found
    cases found
  · split
    · rename_i none
      rw [letters] at none
      cases none
    · rename_i letters'
      rw [letters] at letters'
      cases letters'
      rfl

/-- Boundary characters, each by itself, and the runs between them. -/
def pieces (text : List Char) : List (List Char) :=
  text.splitBy fun c d => !Token.isBoundary c && !Token.isBoundary d

def ofPiece : List Char → List Lexeme
  | [] => []
  | c :: cs => if Token.isBoundary c then [boundary c] else ofRun (c :: cs)

def ofChars (text : List Char) : List Lexeme :=
  ((pieces text).filter fun piece => !piece.all Text.isBlank).flatMap ofPiece

def ofText (text : String) : List Lexeme := ofChars text.toList

def boundaryToken : Char → Token
  | '(' => .leftParen
  | ')' => .rightParen
  | ',' => .separator
  | symbol => .binaryOp symbol

def token (env : Environment) : Lexeme → Except Error Token
  | literal l => .ok (.number l.value.toFloat)
  | name letters =>
    match env.lookup (String.ofList letters), Builtin.ofName? (String.ofList letters) with
    | some x, _ => .ok (.number x)
    | none, some f => .ok (.call f.name 0)
    | none, none => .error (.unknownToken (String.ofList letters))
  | boundary c => .ok (boundaryToken c)
  | unreadable rest => .error (.unknownToken (String.ofList rest))

/-- A name of nothing, or what cannot be read. -/
def Unknown (env : Environment) : Lexeme → Prop
  | name letters =>
    env.lookup (String.ofList letters) = none ∧ Builtin.ofName? (String.ofList letters) = none
  | unreadable _ => True
  | literal _ | boundary _ => False

/-- The lexeme is unknown and those before it are not. -/
def FirstUnknown (env : Environment) (ls : List Lexeme) (l : Lexeme) : Prop :=
  ∃ before after, ls = before ++ l :: after ∧ (∀ b ∈ before, ¬ b.Unknown env) ∧ l.Unknown env

section Pieces

variable {c : Char}

theorem pieces_append_boundary (p q : List Char) (ends : Token.isBoundary c = true) :
    pieces (p ++ c :: q) = pieces p ++ [c] :: pieces q := by
  have before : pieces (p ++ c :: q) = pieces p ++ pieces (c :: q) := by
    apply List.splitBy_append_cons
    simp [ends]
  have after : pieces ([c] ++ q) = pieces [c] ++ pieces q := by
    apply List.splitBy_append
    simp [ends]
  rw [before]
  exact congrArg (pieces p ++ ·) after

theorem pieces_unbroken {run : List Char} (some : run ≠ [])
    (unbroken : ∀ d ∈ run, Token.isBoundary d = false) : pieces run = [run] := by
  apply List.splitBy_of_isChain some
  apply List.Pairwise.isChain
  apply List.pairwise_of_forall_mem_list
  intro d mem e mem'
  simp [unbroken d mem, unbroken e mem']

theorem ofChars_unbroken {run : List Char} (unbroken : ∀ d ∈ run, Token.isBoundary d = false) :
    ofChars run = ofRun run := by
  cases run with
  | nil => exact ofRun_nil.symm
  | cons d run =>
    have plain : Text.isBlank d = false := by
      have inside := unbroken d List.mem_cons_self
      simp only [Token.isBoundary, Bool.or_eq_false_iff] at inside
      exact inside.1.1
    have inside : ¬ Token.isBoundary d = true := by simp [unbroken d]
    simp [ofChars, pieces_unbroken (List.cons_ne_nil d run) unbroken, plain, ofPiece, inside]

/-- The lexemes on both sides of a boundary character have nothing to do with one another. -/
theorem ofChars_append_boundary (p q : List Char) (ends : Token.isBoundary c = true) :
    ofChars (p ++ c :: q) =
      ofChars p ++ (if Text.isBlank c then [] else [boundary c]) ++ ofChars q := by
  simp only [ofChars, pieces_append_boundary p q ends, List.filter_append, List.filter_cons,
    List.flatMap_append]
  split
  · rename_i plain
    have plain : Text.isBlank c = false := by simpa using plain
    simp [plain, ofPiece, ends]
  · rename_i blank
    have blank : Text.isBlank c = true := by simpa using blank
    simp [blank]

/-- A text is a run, or a run up to a boundary character and what comes behind it. -/
theorem boundaryInduction {motive : List Char → Prop}
    (run : ∀ run, (∀ d ∈ run, Token.isBoundary d = false) → motive run)
    (boundary : ∀ run c rest, (∀ d ∈ run, Token.isBoundary d = false) →
      Token.isBoundary c = true → motive rest → motive (run ++ c :: rest))
    (text : List Char) : motive text := by
  suffices pending : ∀ taken, (∀ d ∈ taken, Token.isBoundary d = false) →
      motive (taken ++ text) from pending [] (by simp)
  induction text with
  | nil =>
    intro taken unbroken
    rw [List.append_nil]
    exact run taken unbroken
  | cons c rest ih =>
    intro taken unbroken
    cases ends : Token.isBoundary c with
    | true => exact boundary taken c rest unbroken ends (ih [] (by simp))
    | false =>
      have longer := ih (taken ++ [c]) (by
        intro d mem
        rcases List.mem_append.mp mem with mem | mem
        · exact unbroken d mem
        · exact List.mem_singleton.mp mem ▸ ends)
      simpa using longer

end Pieces

/-- What a lexeme has to be like. -/
def Fits : Lexeme → Prop
  | literal l => ∃ rest, Number.Literal.read? (l.text ++ rest) = some (l, rest)
  | name letters => letters ≠ [] ∧ ∀ c ∈ letters, Text.isLetter c = true
  | boundary c => Token.isBoundary c = true ∧ Text.isBlank c = false
  | unreadable rest =>
    rest ≠ [] ∧ Number.Literal.read? rest = none ∧ ∀ c ∈ rest.head?, Text.isLetter c = false

theorem fits_ofRun (run : List Char) : ∀ l ∈ ofRun run, l.Fits := by
  fun_induction ofRun run with
  | case1 => simp
  | case2 run some l rest found ih =>
    have whole := Number.Literal.text_append_of_read? found
    exact List.forall_mem_cons.mpr ⟨⟨rest, whole ▸ found⟩, ih⟩
  | case3 run some unread letters =>
    refine List.forall_mem_singleton.mpr ⟨some, unread, ?_⟩
    cases run with
    | nil => simp
    | cons c run => simpa [List.takeWhile_cons] using letters
  | case4 run some unread c cs letters ih =>
    refine List.forall_mem_cons.mpr ⟨⟨List.cons_ne_nil c cs, ?_⟩, ih⟩
    intro d mem
    rw [← letters] at mem
    exact List.mem_takeWhile_imp mem

theorem chars_ofRun (run : List Char) : (ofRun run).flatMap chars = run := by
  fun_induction ofRun run with
  | case1 => rfl
  | case2 run some l rest found ih =>
    rw [List.flatMap_cons, ih]
    exact Number.Literal.text_append_of_read? found
  | case3 run some unread letters => simp [chars]
  | case4 run some unread c cs letters ih =>
    rw [List.flatMap_cons, ih, chars, ← letters, List.takeWhile_append_dropWhile]

theorem fits_ofChars (text : List Char) : ∀ l ∈ ofChars text, l.Fits := by
  induction text using boundaryInduction with
  | run run unbroken =>
    rw [ofChars_unbroken unbroken]
    exact fits_ofRun run
  | boundary run c rest unbroken ends ih =>
    rw [ofChars_append_boundary run rest ends, ofChars_unbroken unbroken]
    intro l mem
    simp only [List.mem_append] at mem
    rcases mem with (mem | mem) | mem
    · exact fits_ofRun run l mem
    · split at mem
      · cases mem
      · rename_i plain
        exact List.mem_singleton.mp mem ▸ ⟨ends, by simpa using plain⟩
    · exact ih l mem

/-- Every character but the blanks is in exactly one lexeme. -/
theorem chars_ofChars (text : List Char) :
    (ofChars text).flatMap chars = text.filter fun c => !Text.isBlank c := by
  have solid {run : List Char} (unbroken : ∀ d ∈ run, Token.isBoundary d = false) :
      run.filter (fun c => !Text.isBlank c) = run := by
    apply List.filter_eq_self.mpr
    intro d mem
    have inside := unbroken d mem
    simp only [Token.isBoundary, Bool.or_eq_false_iff] at inside
    simp [inside.1.1]
  induction text using boundaryInduction with
  | run run unbroken => rw [ofChars_unbroken unbroken, chars_ofRun, solid unbroken]
  | boundary run c rest unbroken ends ih =>
    rw [ofChars_append_boundary run rest ends, ofChars_unbroken unbroken, List.flatMap_append,
      List.flatMap_append, chars_ofRun, ih, List.filter_append, solid unbroken, List.append_assoc]
    cases blank : Text.isBlank c with
    | true => simp [blank]
    | false => simp [blank, chars]

end Lexeme

namespace Token

/-- An operator that may be a sign is one where an operand is expected. -/
def asSign (before : Option Token) : Token → Token
  | binaryOp c =>
    if (Operator.signOfSymbol? c).isSome && expectsOperand before then prefixOp c else binaryOp c
  | t => t

/-- Signs and products that are not written, told from left to right. -/
def inContext (before : Option Token) : List Token → List Token
  | [] => []
  | t :: rest =>
    let t := asSign before t
    if endsValue before && t.kind.startsValue then binaryOp '*' :: t :: inContext (some t) rest
    else t :: inContext (some t) rest

theorem emit_eq (emitted : Emitted) (t : Token) :
    emit emitted t =
      if endsValue emitted.head? && (asSign emitted.head? t).kind.startsValue then
        asSign emitted.head? t :: binaryOp '*' :: emitted
      else asSign emitted.head? t :: emitted := by
  cases emitted with
  | nil => cases t <;> rfl
  | cons before emitted => cases t <;> rfl

theorem foldl_emit (emitted : Emitted) (tokens : List Token) :
    tokens.foldl emit emitted = (inContext emitted.head? tokens).reverse ++ emitted := by
  induction tokens generalizing emitted with
  | nil => rfl
  | cons t tokens ih =>
    rw [List.foldl_cons, ih, emit_eq, inContext]
    split
    · simp
    · simp

variable {env : Environment}

/-- Emits the token of a lexeme. -/
def emitLexeme (env : Environment) (emitted : Emitted) (l : Lexeme) : Except Error Emitted :=
  (l.token env).map (emit emitted)

theorem emitRun_eq (emitted : Emitted) (run : List Char) :
    emitRun env emitted run = (Lexeme.ofRun run).foldlM (emitLexeme env) emitted := by
  fun_induction Lexeme.ofRun run generalizing emitted with
  | case1 => exact emitRun_nil
  | case2 run some l rest found ih => rw [emitRun_literal found, ih]; rfl
  | case3 run some unread letters => rw [emitRun_unreadable some unread letters]; rfl
  | case4 run some unread c cs letters ih =>
    have looked : emitLexeme env emitted (.name (c :: cs)) =
        (ofName env (String.ofList (c :: cs))).map (emit emitted) := by
      simp only [emitLexeme, Lexeme.token, ofName]
      cases env.lookup (String.ofList (c :: cs)) with
      | some x => rfl
      | none => cases Builtin.ofName? (String.ofList (c :: cs)) <;> rfl
    rw [emitRun_letters unread letters, List.foldlM_cons, looked]
    cases ofName env (String.ofList (c :: cs)) with
    | error e => rfl
    | ok t => exact ih _

theorem foldlM_boundary (c : Char) (emitted : Emitted) :
    (if Text.isBlank c then [] else [Lexeme.boundary c]).foldlM (emitLexeme env) emitted =
      .ok (emitBoundary emitted c) := by
  cases blank : Text.isBlank c with
  | true => exact congrArg Except.ok (emitBoundary_blank blank emitted).symm
  | false =>
    have emits : emitBoundary emitted c = emit emitted (Lexeme.boundaryToken c) := by
      by_cases opens : c = '('
      · subst opens
        rfl
      by_cases closes : c = ')'
      · subst closes
        rfl
      by_cases separates : c = ','
      · subst separates
        rfl
      · simp [emitBoundary, Lexeme.boundaryToken, opens, closes, separates, blank]
    rw [emits]
    rfl

theorem scan_eq (emitted : Emitted) (text : List Char) :
    scan env emitted [] text = (Lexeme.ofChars text).foldlM (emitLexeme env) emitted := by
  induction text using Lexeme.boundaryInduction generalizing emitted with
  | run run unbroken =>
    rw [scan_unbroken unbroken, Lexeme.ofChars_unbroken unbroken]
    exact emitRun_eq emitted run
  | boundary run c rest unbroken ends ih =>
    have first : scan env emitted [] run = emitRun env emitted run :=
      scan_unbroken unbroken emitted []
    rw [scan_append_boundary emitted [] run rest ends, first,
      Lexeme.ofChars_append_boundary run rest ends, Lexeme.ofChars_unbroken unbroken,
      List.foldlM_append, List.foldlM_append, ← emitRun_eq]
    cases emitRun env emitted run with
    | error e => rfl
    | ok flushed =>
      simp only [Except.bind, bind, foldlM_boundary]
      exact ih (emitBoundary flushed c)

/-- Tokens are looked up first and emitted afterwards. -/
theorem foldlM_emitLexeme (emitted : Emitted) (ls : List Lexeme) :
    ls.foldlM (emitLexeme env) emitted =
      (ls.mapM (Lexeme.token env)).map (List.foldl emit emitted) := by
  induction ls generalizing emitted with
  | nil => rfl
  | cons l ls ih =>
    rw [List.foldlM_cons, List.mapM_cons, emitLexeme]
    cases l.token env with
    | error e => rfl
    | ok t =>
      simp only [Except.map, bind, Except.bind, ih]
      cases ls.mapM (Lexeme.token env) with
      | error e => rfl
      | ok ts => rfl

end Token

namespace Lexeme

variable {env : Environment}

theorem token_of_not_unknown {l : Lexeme} (known : ¬ l.Unknown env) : ∃ t, l.token env = .ok t := by
  cases l with
  | literal l => exact ⟨_, rfl⟩
  | boundary c => exact ⟨_, rfl⟩
  | unreadable rest => exact absurd trivial known
  | name letters =>
    simp only [token]
    cases value : env.lookup (String.ofList letters) with
    | some x => exact ⟨_, rfl⟩
    | none =>
      cases function : Builtin.ofName? (String.ofList letters) with
      | some f => exact ⟨_, rfl⟩
      | none => exact absurd ⟨value, function⟩ known

theorem token_of_unknown {l : Lexeme} (unknown : l.Unknown env) :
    l.token env = .error (.unknownToken (String.ofList l.chars)) := by
  cases l with
  | literal l => exact unknown.elim
  | boundary c => exact unknown.elim
  | unreadable rest => rfl
  | name letters =>
    obtain ⟨value, function⟩ := unknown
    simp only [token, value, function, chars]

theorem firstUnknown_cons_of_unknown {l u : Lexeme} {ls : List Lexeme} (unknown : l.Unknown env) :
    FirstUnknown env (l :: ls) u ↔ u = l := by
  constructor
  · rintro ⟨before, after, parts, none, _⟩
    cases before with
    | nil =>
      cases parts
      rfl
    | cons b before =>
      cases parts
      exact absurd unknown (none _ List.mem_cons_self)
  · rintro rfl
    exact ⟨[], ls, rfl, by simp, unknown⟩

theorem firstUnknown_cons_of_known {l u : Lexeme} {ls : List Lexeme} (known : ¬ l.Unknown env) :
    FirstUnknown env (l :: ls) u ↔ FirstUnknown env ls u := by
  constructor
  · rintro ⟨before, after, parts, none, unknown⟩
    cases before with
    | nil =>
      cases parts
      exact absurd unknown known
    | cons b before =>
      cases parts
      exact ⟨before, after, rfl, (List.forall_mem_cons.mp none).2, unknown⟩
  · rintro ⟨before, after, rfl, none, unknown⟩
    exact ⟨l :: before, after, rfl, List.forall_mem_cons.mpr ⟨known, none⟩, unknown⟩

theorem exists_firstUnknown_iff (ls : List Lexeme) :
    (∃ l, FirstUnknown env ls l) ↔ ∃ l ∈ ls, l.Unknown env := by
  induction ls with
  | nil => simp [FirstUnknown]
  | cons l ls ih =>
    by_cases unknown : l.Unknown env
    · simp [firstUnknown_cons_of_unknown unknown, unknown]
    · simp [firstUnknown_cons_of_known unknown, unknown, ih]

/-- The first unknown lexeme decides on the error. -/
theorem mapM_token_eq_error_iff (ls : List Lexeme) (e : Error) :
    ls.mapM (token env) = .error e ↔
      ∃ l, FirstUnknown env ls l ∧ e = .unknownToken (String.ofList l.chars) := by
  induction ls with
  | nil => simp [FirstUnknown, pure, Except.pure]
  | cons l ls ih =>
    rw [List.mapM_cons]
    by_cases unknown : l.Unknown env
    · simp only [firstUnknown_cons_of_unknown unknown, token_of_unknown unknown, exists_eq_left]
      constructor
      · intro failed
        cases failed
        rfl
      · rintro rfl
        rfl
    · obtain ⟨t, known⟩ := token_of_not_unknown unknown
      simp only [firstUnknown_cons_of_known unknown, ← ih, known]
      cases ls.mapM (token env) with
      | error e' => simp [bind, Except.bind]
      | ok ts => simp [bind, Except.bind, pure, Except.pure]

end Lexeme

namespace Token

theorem ofText_eq (env : Environment) (text : String) :
    ofText env text = ((Lexeme.ofText text).mapM (Lexeme.token env)).map (inContext none) := by
  rw [ofText, scan_eq, foldlM_emitLexeme, Lexeme.ofText]
  cases (Lexeme.ofChars text.toList).mapM (Lexeme.token env) with
  | error e => rfl
  | ok ts => simp [Except.map, foldl_emit]

/-- Reading has two levels. The tokens of a text are those of its lexemes, with signs and products
told from left to right. It fails where a name is that of nothing or where neither a literal nor a
name starts, and the first such place decides on the error. Every character but the blanks is in one
lexeme, and each lexeme is as it should be. -/
theorem ofText_lexemes (env : Environment) (text : String) :
    ofText env text = ((Lexeme.ofText text).mapM (Lexeme.token env)).map (inContext none) ∧
      ((∃ e, ofText env text = .error e) ↔ ∃ l ∈ Lexeme.ofText text, l.Unknown env) ∧
      (∀ e, ofText env text = .error e ↔
        ∃ l, Lexeme.FirstUnknown env (Lexeme.ofText text) l ∧
          e = .unknownToken (String.ofList l.chars)) ∧
      (Lexeme.ofText text).flatMap Lexeme.chars = text.toList.filter (fun c => !Text.isBlank c) ∧
      ∀ l ∈ Lexeme.ofText text, l.Fits := by
  have errors (e : Error) : ofText env text = .error e ↔
      ∃ l, Lexeme.FirstUnknown env (Lexeme.ofText text) l ∧
        e = .unknownToken (String.ofList l.chars) := by
    rw [ofText_eq, ← Lexeme.mapM_token_eq_error_iff]
    cases (Lexeme.ofText text).mapM (Lexeme.token env) with
    | error e' => simp [Except.map]
    | ok ts => simp [Except.map]
  refine ⟨ofText_eq env text, ?_, errors, Lexeme.chars_ofChars text.toList,
    Lexeme.fits_ofChars text.toList⟩
  rw [← Lexeme.exists_firstUnknown_iff]
  constructor
  · rintro ⟨e, failed⟩
    obtain ⟨l, first, _⟩ := (errors e).mp failed
    exact ⟨l, first⟩
  · rintro ⟨l, first⟩
    exact ⟨_, (errors _).mpr ⟨l, first, rfl⟩⟩

section Example

/-- Neither the name nor what follows it is known, and the name comes first. -/
theorem ofText_two_unknown :
    Lexeme.ofText "2 x_1" =
        [.literal ⟨['2'], none, none⟩, .name ['x'], .unreadable ['_', '1']] ∧
      ofText .initial "2 x_1" = .error (.unknownToken "x") := by
  have lexemes : Lexeme.ofText "2 x_1" =
      [.literal ⟨['2'], none, none⟩, .name ['x'], .unreadable ['_', '1']] := by
    decide +kernel
  have hidden : Environment.initial.lookup "x" = none := rfl
  have foreign : Builtin.ofName? "x" = none := by decide
  refine ⟨lexemes, ((ofText_lexemes .initial "2 x_1").2.2.1 _).mpr ⟨.name ['x'], ?_, rfl⟩⟩
  exact ⟨[.literal ⟨['2'], none, none⟩], [.unreadable ['_', '1']], lexemes,
    List.forall_mem_singleton.mpr id, hidden, foreign⟩

end Example

end Token

end Calculator
