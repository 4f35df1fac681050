import Calculator.Proofs.Arity
import Calculator.Proofs.Balance

/-!
Which errors a text can meet at which stage. Reading fails at an unknown token only, compiling at
parentheses, at a separator or for want of any value, and running at operands and at numbers of
arguments. What compiles leaves a single value if it runs to its end: an operator stands between
any two values, and a tuple takes the arguments together.
-/

namespace Calculator

namespace Token

variable {env : Environment} {e : Error}

theorem exists_unknownToken_of_ofName {name : String} (h : ofName env name = .error e) :
    ∃ text, e = .unknownToken text := by
  unfold ofName at h
  split at h
  · cases h
  · split at h
    · cases h
    · cases h
      exact ⟨name, rfl⟩

theorem exists_unknownToken_of_emitRun {emitted : Emitted} {run : List Char}
    (h : emitRun env emitted run = .error e) : ∃ text, e = .unknownToken text := by
  fun_induction emitRun env emitted run with
  | case1 => cases h
  | case2 _ _ _ _ _ _ ih => exact ih h
  | case3 =>
    cases h
    exact ⟨_, rfl⟩
  | case4 _ _ _ _ _ _ _ _ unknown =>
    cases h
    exact exists_unknownToken_of_ofName unknown
  | case5 _ _ _ _ _ _ _ _ _ ih => exact ih h

theorem exists_unknownToken_of_scan {emitted : Emitted} {run rest : List Char}
    (h : scan env emitted run rest = .error e) : ∃ text, e = .unknownToken text := by
  induction rest generalizing emitted run with
  | nil => exact exists_unknownToken_of_emitRun h
  | cons c rest ih =>
    simp only [scan] at h
    split at h
    · split at h
      · rename_i unknown
        cases h
        exact exists_unknownToken_of_emitRun unknown
      · exact ih h
    · exact ih h

theorem exists_unknownToken_of_ofText {text : String} (h : ofText env text = .error e) :
    ∃ text, e = .unknownToken text := by
  cases scanned : scan env [] [] text.toList with
  | error e' =>
    simp only [ofText, scanned, Except.map] at h
    cases h
    exact exists_unknownToken_of_scan scanned
  | ok last =>
    simp only [ofText, scanned, Except.map] at h
    cases h

theorem exists_follows {before : Option Token} {ts : List Token} {t : Token}
    (context : Contexted env before ts) (mem : t ∈ ts) : ∃ before, Follows env before t := by
  induction ts generalizing before with
  | nil => cases mem
  | cons u ts ih =>
    rcases List.mem_cons.mp mem with rfl | mem
    · exact ⟨before, context.1⟩
    · exact ih context.2 mem

/-- The machine can carry the token out: a symbol or a function in it is a known one. -/
def Executable : Token → Prop
  | number _ | tuple _ => True
  | prefixOp c => (Operator.signOfSymbol? c).isSome
  | binaryOp c => (Operator.ofSymbol? c).isSome
  | call name _ => (Builtin.ofName? name.text).isSome
  | leftParen | rightParen | separator => False

/-- Parentheses that are matched, and nothing else. -/
inductive Balanced : List Token → Prop
  | nil : Balanced []
  | group {inner rest : List Token} (inside : Balanced inner) (others : Balanced rest) :
    Balanced (.leftParen :: (inner ++ .rightParen :: rest))

end Token

namespace Nest

open Token (Executable Balanced)

theorem executable_packed (arity : Nat) : ∀ t ∈ Code.Yard.packed arity, t.Executable := by
  intro t mem
  unfold Code.Yard.packed at mem
  split at mem
  · cases List.mem_singleton.mp mem
    trivial
  · cases mem

theorem executable_emitted (nest : Nest) {env : Environment} {before : Option Token}
    (context : Token.Contexted env before nest.tokens) : ∀ t ∈ nest.emitted, t.Executable := by
  induction nest using Nest.callInduction generalizing before with
  | nil =>
    intro t mem
    cases mem
  | number x rest ih => exact List.forall_mem_cons.mpr ⟨trivial, ih context.2⟩
  | sign c rest ih => exact List.forall_mem_cons.mpr ⟨context.1.1, ih context.2⟩
  | operator c rest ih => exact List.forall_mem_cons.mpr ⟨context.1.1, ih context.2⟩
  | separator rest ih => exact ih context.2
  | call f claimed inner rest ihInner ihRest =>
    have context' := Token.contexted_append.mp context.2.2
    simp only [emitted, List.forall_mem_append, List.forall_mem_cons]
    exact ⟨ihInner context'.1, context.1.2.2.2, ihRest context'.2.2⟩
  | name f claimed rest notGroup ih =>
    rw [emitted_name notGroup]
    exact List.forall_mem_cons.mpr ⟨context.1.2.2.2, ih context.2⟩
  | group inner rest ihInner ihRest =>
    have context' := Token.contexted_append.mp context.2
    simp only [emitted, List.forall_mem_append]
    exact ⟨ihInner context'.1, executable_packed _, ihRest context'.2.2⟩

/-- Where nothing is emitted there are parentheses only. -/
theorem balanced_of_emitted_eq_nil (nest : Nest) (separated : nest.Separated false)
    (nothing : nest.emitted = []) : Balanced nest.tokens ∧ nest.arity false = 0 := by
  induction nest using Nest.callInduction with
  | nil => exact ⟨.nil, rfl⟩
  | number x rest ih => cases nothing
  | sign c rest ih => cases nothing
  | operator c rest ih => cases nothing
  | separator rest ih => cases separated.1
  | call f claimed inner rest ihInner ihRest => simp [emitted] at nothing
  | name f claimed rest notGroup ih =>
    rw [emitted_name notGroup] at nothing
    cases nothing
  | group inner rest ihInner ihRest =>
    simp only [emitted, List.append_eq_nil_iff] at nothing
    obtain ⟨separatedInner, separatedRest⟩ := separated
    obtain ⟨inside, none⟩ := ihInner separatedInner nothing.1
    rw [none] at separatedRest
    obtain ⟨others, noneRest⟩ := ihRest separatedRest nothing.2.2
    constructor
    · exact .group inside others
    · simp only [arity, none]
      exact noneRest

end Nest

/-- The error is about operands, or about how many arguments a function has. -/
def Error.ConcernsOperands : Error → Prop
  | operand _ | tooManyArguments _ _ _ | tooFewArguments _ _ _ => True
  | _ => False

namespace Code

open Token (Executable Balanced)

namespace Yard

variable {y z : Yard} {t : Token} {ts : List Token} {e : Error}

/-- For what error a token can be refused. -/
inductive Refuses : Token → Error → Prop
  | operator {c : Char} (unknown : Operator.ofSymbol? c = none) : Refuses (.binaryOp c) (.operator c)
  | separator : Refuses .separator .misplacedSeparator
  | closing : Refuses .rightParen .unbalancedParenthesis
  | tuple (n : Nat) : Refuses (.tuple n) (.equation .strayTuple)

theorem refuses_of_push (h : y.push t = .error e) : Refuses t e := by
  cases t with
  | binaryOp c =>
    simp only [push, binary] at h
    split at h
    · rename_i unknown
      cases h
      exact .operator unknown
    · cases h
  | separator =>
    simp only [push, separate] at h
    split at h
    · cases h
    · cases h
      exact .separator
  | rightParen =>
    simp only [push, close] at h
    split at h
    · cases h
      exact .closing
    · split at h
      · cases h
      · split at h
        · cases h
        · split at h
          · cases h
          · cases h
      · cases h
        exact .closing
  | tuple n =>
    cases h
    exact .tuple n
  | number x => cases h
  | prefixOp c => cases h
  | leftParen => cases h
  | call f claimed => cases h

theorem exists_refuses_of_run (h : y.run ts = .error e) : ∃ t ∈ ts, Refuses t e := by
  induction ts generalizing y with
  | nil => cases h
  | cons t ts ih =>
    rw [run_cons] at h
    cases pushed : y.push t with
    | error e' =>
      rw [pushed] at h
      cases h
      exact ⟨t, List.mem_cons_self, refuses_of_push pushed⟩
    | ok m =>
      rw [pushed] at h
      obtain ⟨u, mem, refused⟩ := ih h
      exact ⟨u, List.mem_cons_of_mem t mem, refused⟩

theorem error_of_finish (h : y.finish = .error e) :
    e = .unbalancedParenthesis ∨
      e = .equation .noValue ∧ y.outer = [] ∧ y.code = [] ∧ y.waiting = [] := by
  unfold finish at h
  split at h
  · cases h
    exact .inl rfl
  split at h
  · cases h
    exact .inl rfl
  · rename_i closed _
    by_cases several : 1 < y.group.arity
    · simp [several] at h
    · simp only [if_neg several] at h
      split at h
      · rename_i nothing
        cases h
        have both := List.append_eq_nil_iff.mp nothing
        exact .inr ⟨rfl, not_not.mp closed, both.2, List.reverse_eq_nil_iff.mp both.1⟩
      · cases h

/-- Balanced parentheses change nothing. -/
theorem run_balanced (balanced : Balanced ts) (y : Yard)
    (bare : ∀ t ∈ y.waiting.head?, t.kind ≠ .call) : y.run ts = .ok y := by
  induction balanced generalizing y with
  | nil => rfl
  | @group inner rest _ _ ihInner ihRest =>
    obtain ⟨code, waiting, group, outer⟩ := y
    have inside := ihInner ⟨code, .leftParen :: waiting, .opened (waiting.length + 1),
      group :: outer⟩ (by simp [Token.kind])
    have closed : push ⟨code, .leftParen :: waiting, .opened (waiting.length + 1), group :: outer⟩
        .rightParen = .ok ⟨code, waiting, group, outer⟩ := by
      have bracket : push ⟨code, [] ++ .leftParen :: waiting,
          ⟨false, 0, (Token.leftParen :: waiting).length⟩, group :: outer⟩ .rightParen = _ :=
        push_rightParen_bare bare
      simpa [packed, Group.opened] using bracket
    rw [run_cons_ok rfl, run_append_ok inside, run_cons_ok closed]
    exact ihRest _ bare

end Yard

namespace Machine

variable {m n : Machine} {t : Token} {code : List Token} {e : Error}

/-- For what error a token can break a run off. -/
inductive Breaks : Token → Error → Prop
  | sign {c : Char} (unknown : Operator.signOfSymbol? c = none) : Breaks (.prefixOp c) (.operator c)
  | operator {c : Char} (unknown : Operator.ofSymbol? c = none) : Breaks (.binaryOp c) (.operator c)
  | function {name : FunctionName} (arity : Nat) (unknown : Builtin.ofName? name.text = none) :
    Breaks (.call name arity) (.function name.text)
  | fewer (name : FunctionName) (arity expected found : Nat) :
    Breaks (.call name arity) (.tooFewArguments name.text expected found)
  | more (name : FunctionName) (expected arity : Nat) :
    Breaks (.call name arity) (.tooManyArguments name.text expected arity)
  | operand (t : Token) (fault : OperandFault) : Breaks t (.operand fault)
  | delimiter {t : Token} (refused : ¬ t.Executable) :
    Breaks t (.equation (.delimiterInCode t.text))

theorem breaks_of_popScalar {stack : List Value} (h : popScalar stack = .error e) : Breaks t e := by
  cases stack with
  | nil =>
    cases h
    exact .operand t .missing
  | cons v stack =>
    cases v with
    | scalar x => cases h
    | tuple xs =>
      cases h
      exact .operand t (.tuple xs.length)

theorem breaks_of_popScalars {count : Nat} {stack : List Value}
    (h : popScalars count stack = .error e) : Breaks t e := by
  induction count generalizing stack with
  | zero => cases h
  | succ count ih =>
    rcases error_of_bind h with first | ⟨popped, _, h⟩
    · exact breaks_of_popScalar first
    · rcases error_of_bind h with others | ⟨r, _, h⟩
      · exact ih others
      · cases h

theorem breaks_of_call {name : FunctionName} {arity : Nat} (h : m.call name.text arity = .error e) :
    Breaks (.call name arity) e := by
  unfold call at h
  cases known : Builtin.ofName? name.text with
  | none =>
    rw [known] at h
    cases h
    exact .function arity known
  | some f =>
    simp only [known] at h
    split at h
    · cases h
      exact .fewer name arity _ _
    split at h
    · cases h
      exact .more name _ arity
    split at h
    · cases h
      exact .fewer name arity _ _
    · rcases error_of_bind h with popped | ⟨r, _, h⟩
      · exact breaks_of_popScalars popped
      · cases h

theorem breaks_of_step (h : m.step t = .error e) : Breaks t e := by
  cases t with
  | number x => cases h
  | prefixOp c =>
    simp only [step] at h
    split at h
    · rcases error_of_bind h with popped | ⟨r, _, h⟩
      · exact breaks_of_popScalar popped
      · cases h
    · rename_i unknown
      cases h
      exact .sign (Option.eq_none_iff_forall_ne_some.mpr unknown)
  | binaryOp c =>
    simp only [step] at h
    split at h
    · rcases error_of_bind h with popped | ⟨right, _, h⟩
      · exact breaks_of_popScalar popped
      · rcases error_of_bind h with popped | ⟨left, _, h⟩
        · exact breaks_of_popScalar popped
        · cases h
    · rename_i unknown
      cases h
      exact .operator (Option.eq_none_iff_forall_ne_some.mpr unknown)
  | call name arity => exact breaks_of_call h
  | tuple arity =>
    simp only [step] at h
    split at h
    · cases h
      exact .operand _ _
    · rcases error_of_bind h with popped | ⟨r, _, h⟩
      · exact breaks_of_popScalars popped
      · cases h
  | leftParen =>
    cases h
    exact .delimiter id
  | rightParen =>
    cases h
    exact .delimiter id
  | separator =>
    cases h
    exact .delimiter id

theorem exists_breaks_of_run (h : m.run code = (.error e, n)) : ∃ t ∈ code, Breaks t e := by
  induction code generalizing m with
  | nil => cases h
  | cons t code ih =>
    rw [run_cons] at h
    cases stepped : m.step t with
    | error e' =>
      rw [stepped] at h
      cases h
      exact ⟨t, List.mem_cons_self, breaks_of_step stepped⟩
    | ok next =>
      rw [stepped] at h
      obtain ⟨u, mem, breaks⟩ := ih h
      exact ⟨u, List.mem_cons_of_mem t mem, breaks⟩

end Machine

theorem error_of_ofTokens {tokens : List Token} {e : Error} (h : ofTokens tokens = .error e) :
    tokens = [] ∧ e = .equation .empty ∨ (∃ t ∈ tokens, Yard.Refuses t e) ∨
      ∃ y : Yard, Yard.initial.run tokens = .ok y ∧ y.finish = .error e := by
  unfold ofTokens at h
  split at h
  · rename_i empty
    cases h
    exact .inl ⟨empty, rfl⟩
  · cases ran : Yard.initial.run tokens with
    | error e' =>
      rw [ran] at h
      cases h
      exact .inr (.inl (Yard.exists_refuses_of_run ran))
    | ok y =>
      rw [ran] at h
      exact .inr (.inr ⟨y, rfl, h⟩)

theorem ofTokens_balanced {tokens : List Token} (balanced : Balanced tokens) :
    ∃ fault, ofTokens tokens = .error (.equation fault) := by
  by_cases empty : tokens = []
  · exact ⟨.empty, by rw [ofTokens, if_pos empty]⟩
  · refine ⟨.noValue, ?_⟩
    rw [ofTokens, if_neg empty, Yard.run_balanced balanced .initial (by simp [Yard.initial])]
    rfl

section Text

variable {env : Environment} {tokens code : List Token} {e : Error} {g : Random.Generator}

theorem error_of_ofTokens_contexted (context : Token.Contexted env none tokens)
    (h : ofTokens tokens = .error e) :
    e = .unbalancedParenthesis ∨ e = .misplacedSeparator ∨
      (e = .equation .empty ∨ e = .equation .noValue) ∧ Balanced tokens := by
  rcases error_of_ofTokens h with ⟨rfl, rfl⟩ | ⟨t, mem, refused⟩ | ⟨y, ran, finished⟩
  · exact .inr (.inr ⟨.inl rfl, .nil⟩)
  · obtain ⟨before, follows⟩ := Token.exists_follows context mem
    cases refused with
    | operator unknown =>
      have known := follows.1
      rw [unknown] at known
      cases known
    | separator => exact .inr (.inl rfl)
    | closing => exact .inl rfl
    | tuple n => exact follows.elim
  · rcases Yard.error_of_finish finished with rfl | ⟨rfl, closed, sent, waiting⟩
    · exact .inl rfl
    · obtain ⟨nest, sent', kept, hasValue, complete, rfl, separated, rfl, _, perm⟩ :=
        Yard.exists_nest_of_initial context ran closed
      simp only at sent waiting
      rw [List.reverse_eq_nil_iff.mp sent, waiting] at perm
      have nothing : nest.emitted = [] := perm.nil_eq.symm
      exact .inr (.inr ⟨.inr rfl, (nest.balanced_of_emitted_eq_nil separated nothing).1⟩)

/-- Compiled code has no parenthesis or separator in it and knows what it names. -/
theorem executable_of_ofTokens (context : Token.Contexted env none tokens)
    (h : ofTokens tokens = .ok code) : ∀ t ∈ code, t.Executable := by
  obtain ⟨nest, rfl, _, perm⟩ := Nest.exists_of_ofTokens context h
  intro t mem
  rcases List.mem_append.mp (perm.mem_iff.mp mem) with mem | mem
  · exact nest.executable_emitted context t mem
  · exact Nest.executable_packed _ t mem

/-- No operand is left over: compiled code that runs to its end leaves one value. -/
theorem exists_singleton_of_run (context : Token.Contexted env none tokens)
    (compiled : ofTokens tokens = .ok code) {m : Machine}
    (ran : Machine.run ⟨[], g⟩ code = (.ok (), m)) : ∃ v, m.stack = [v] := by
  obtain ⟨nest, rfl, _, perm⟩ := Nest.exists_of_ofTokens context compiled
  have calls : Nest.CallsTake nest.emitted :=
    Nest.callsTake_of_run ran fun t mem => perm.mem_iff.mpr (List.mem_append_left _ mem)
  have le := Nest.balance_code_le context calls perm
  have height := (Machine.length_of_run ran).1
  obtain ⟨v, rest, stack, _⟩ := Machine.exists_of_run (ne_nil_of_ofTokens compiled) ran
  rw [stack] at height
  have none : rest = [] := by
    apply List.length_eq_zero_iff.mp
    simp only [List.length_cons, List.length_nil] at height
    omega
  exact ⟨v, by rw [stack, none]⟩

theorem Machine.Breaks.concernsOperands {t : Token} (breaks : Breaks t e)
    (executable : t.Executable) : e.ConcernsOperands := by
  cases breaks with
  | sign unknown => simp [Executable, unknown] at executable
  | operator unknown => simp [Executable, unknown] at executable
  | function arity unknown => simp [Executable, unknown] at executable
  | delimiter refused => exact absurd executable refused
  | fewer => trivial
  | more => trivial
  | operand => trivial

theorem concernsOperands_of_evaluate (context : Token.Contexted env none tokens)
    (compiled : ofTokens tokens = .ok code) (h : (evaluate code g).1 = .error e) :
    e.ConcernsOperands := by
  rw [evaluate, if_neg (ne_nil_of_ofTokens compiled)] at h
  cases ran : Machine.run ⟨[], g⟩ code with
  | mk r m =>
    rw [ran] at h
    cases r with
    | error e' =>
      cases h
      obtain ⟨t, mem, breaks⟩ := Machine.exists_breaks_of_run ran
      exact breaks.concernsOperands (executable_of_ofTokens context compiled t mem)
    | ok u =>
      obtain ⟨v, stack⟩ := exists_singleton_of_run context compiled ran
      simp only [Machine.result, stack] at h
      cases h

end Text

end Code

/-- A text fails to be read at an unknown token, to compile at parentheses or a separator or for want
of a value, and to run at operands. -/
theorem Environment.error_of_interpret {env : Environment} {text : String} {e : Error}
    (h : (env.interpret text).1 = .error e) :
    (∃ unread, e = .unknownToken unread) ∨ e = .unbalancedParenthesis ∨ e = .misplacedSeparator ∨
      e.ConcernsOperands ∨
      (e = .equation .empty ∨ e = .equation .noValue) ∧
        ∃ tokens, Token.ofText env text = .ok tokens ∧ Token.Balanced tokens := by
  rw [interpret_result] at h
  rcases Code.Machine.error_of_bind h with unread | ⟨tokens, read, h⟩
  · exact .inl (Token.exists_unknownToken_of_ofText unread)
  have context := Token.contexted_of_ofText read
  rcases Code.Machine.error_of_bind h with uncompiled | ⟨code, compiled, failed⟩
  · rcases Code.error_of_ofTokens_contexted context uncompiled with same | same | ⟨fault, balanced⟩
    · exact .inr (.inl same)
    · exact .inr (.inr (.inl same))
    · exact .inr (.inr (.inr (.inr ⟨fault, tokens, read, balanced⟩)))
  · have operands := Code.concernsOperands_of_evaluate context compiled failed
    exact .inr (.inr (.inr (.inl operands)))

/-- No text, however malformed, leads to an unknown operator or function, to a result of a wrong type
or to the name of a variable, nor to code that has a delimiter in it or leaves several values. That
there is nothing to evaluate is said exactly of the texts without tokens and of those whose tokens
are balanced parentheses. -/
theorem Environment.errors_of_text (env : Environment) (text : String) :
    (∀ e, (env.interpret text).1 = .error e →
      (∀ c, e ≠ .operator c) ∧ (∀ name, e ≠ .function name) ∧
        (∀ found target, e ≠ .resultType found target) ∧ ∀ name, e ≠ .variableName name) ∧
      (∀ tokens, Token.ofText env text = .ok tokens →
        Code.ofTokens tokens ≠ .error (.equation .strayTuple) ∧
          ∀ code, Code.ofTokens tokens = .ok code →
            (∀ t ∈ code, t ≠ .leftParen ∧ t ≠ .rightParen ∧ t ≠ .separator) ∧
              ∀ (user : Environment) fault, (user.evaluate code).1 ≠ .error (.equation fault)) ∧
      ((∃ fault, (env.interpret text).1 = .error (.equation fault)) ↔
        ∃ tokens, Token.ofText env text = .ok tokens ∧ Token.Balanced tokens) := by
  refine ⟨?_, ?_, ?_⟩
  · intro e failed
    rcases error_of_interpret failed with ⟨unread, rfl⟩ | rfl | rfl | operands | ⟨rfl | rfl, _⟩
    · simp
    · simp
    · simp
    · refine ⟨?_, ?_, ?_, ?_⟩
      all_goals
        intros
        rintro rfl
        exact operands
    · simp
    · simp
  · intro tokens read
    have context := Token.contexted_of_ofText read
    constructor
    · intro stray
      rcases Code.error_of_ofTokens_contexted context stray with same | same | ⟨same | same, _⟩
      · cases same
      · cases same
      · cases same
      · cases same
    · intro code compiled
      constructor
      · intro t mem
        have executable := Code.executable_of_ofTokens context compiled t mem
        refine ⟨?_, ?_, ?_⟩
        all_goals
          rintro rfl
          exact executable
      · intro user fault failed
        exact Code.concernsOperands_of_evaluate context compiled failed
  · constructor
    · rintro ⟨fault, failed⟩
      rcases error_of_interpret failed with ⟨unread, same⟩ | same | same | operands | ⟨_, balanced⟩
      · cases same
      · cases same
      · cases same
      · exact operands.elim
      · exact balanced
    · rintro ⟨tokens, read, balanced⟩
      obtain ⟨fault, uncompiled⟩ := Code.ofTokens_balanced balanced
      refine ⟨fault, ?_⟩
      rw [interpret_result, read]
      simp only [Except.bind, uncompiled]

section Parens

theorem Token.ofText_parens (env : Environment) :
    Token.ofText env "()" = .ok [.leftParen, .rightParen] := by
  have chars : "()".toList = ['(', ')'] := by decide
  have ends : Token.isBoundary '(' = true ∧ Token.isBoundary ')' = true := by decide
  simp [Token.ofText, chars, Token.scan, ends, Token.emitRun_nil, Token.emitBoundary, Token.emit,
    Except.map, Token.kind, TokenKind.endsValue, TokenKind.startsValue]

/-- In `()` there is nothing to evaluate, which is none of the errors that no text has. -/
theorem Environment.errors_of_text_parens :
    Token.Balanced [.leftParen, .rightParen] ∧ ∃ fault,
      (initial.interpret "()").1 = .error (.equation fault) ∧
        ∀ name, Error.equation fault ≠ .function name := by
  obtain ⟨never, _, nothing⟩ := errors_of_text initial "()"
  have balanced : Token.Balanced [.leftParen, .rightParen] := .group .nil .nil
  obtain ⟨fault, failed⟩ := nothing.mpr ⟨_, Token.ofText_parens initial, balanced⟩
  exact ⟨balanced, fault, failed, (never _ failed).2.1⟩

end Parens

end Calculator
