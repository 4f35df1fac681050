import Calculator.Proofs.Compilation
import Calculator.Proofs.Derivation
import Calculator.Proofs.Evaluation

/-!
What is accepted is grammatical. A text that has a value is derived from the grammar, provided that
behind each separator there is an argument with a number or a function in it, or none; its calls
have the right number of arguments, and no tuple is in it but the value itself.
-/

namespace Calculator

namespace Token

/-- The tokens up to the separator or the parenthesis that ends the argument, of which so many
groups are open. -/
def argument : (depth : Nat) → List Token → List Token
  | _, [] => []
  | depth, .leftParen :: ts => .leftParen :: argument (depth + 1) ts
  | 0, .rightParen :: _ => []
  | depth + 1, .rightParen :: ts => .rightParen :: argument depth ts
  | 0, .separator :: _ => []
  | depth, t :: ts => t :: argument depth ts

/-- Each argument behind a separator is empty or has a number or a function in it. -/
def FilledBehind : List Token → Prop
  | [] => True
  | .separator :: ts =>
    (argument 0 ts = [] ∨ ∃ t ∈ argument 0 ts, t.kind = .number ∨ t.kind = .call) ∧ FilledBehind ts
  | _ :: ts => FilledBehind ts

theorem FilledBehind.tail {t : Token} {ts : List Token} (h : FilledBehind (t :: ts)) :
    FilledBehind ts := by
  cases t with
  | separator => exact h.2
  | _ => exact h

theorem FilledBehind.of_append {p q : List Token} (h : FilledBehind (p ++ q)) : FilledBehind q := by
  induction p with
  | nil => exact h
  | cons t p ih => exact ih h.tail

end Token

namespace Nest

open Token (argument FilledBehind)

theorem argument_open (nest : Nest) (depth : Nat) (after : List Token) :
    argument (depth + 1) (nest.tokens ++ after) = nest.tokens ++ argument (depth + 1) after := by
  induction nest generalizing depth after with
  | nil => rfl
  | number x rest ih => simp only [tokens, List.cons_append, argument, ih]
  | sign c rest ih => simp only [tokens, List.cons_append, argument, ih]
  | operator c rest ih => simp only [tokens, List.cons_append, argument, ih]
  | separator rest ih => simp only [tokens, List.cons_append, argument, ih]
  | name f claimed rest ih => simp only [tokens, List.cons_append, argument, ih]
  | group inner rest ihInner ihRest =>
    simp only [tokens, List.cons_append, List.append_assoc, argument, ihInner, ihRest]

/-- The group at the start of a nest without arguments has none either. -/
theorem arity_parts_eq_zero {inner rest : Nest} (none : (group inner rest).arity false = 0) :
    inner.arity false = 0 ∧ rest.arity false = 0 := by
  simp only [arity, Bool.false_or] at none
  by_cases takes : 0 < inner.arity false
  · rw [decide_eq_true takes] at none
    exact absurd none (Nat.pos_iff_ne_zero.mp rest.arity_true_pos)
  · rw [decide_eq_false takes] at none
    exact ⟨Nat.eq_zero_of_not_pos takes, none⟩

theorem argument_of_arity_eq_zero (nest : Nest) {after : List Token}
    (calls : CallsTake nest.emitted) (separated : nest.Separated false)
    (none : nest.arity false = 0)
    (ended : argument 0 after = []) : argument 0 (nest.tokens ++ after) = nest.tokens := by
  induction nest using Nest.callInduction generalizing after with
  | nil => exact ended
  | number x rest ih => exact absurd none (Nat.pos_iff_ne_zero.mp rest.arity_true_pos)
  | sign c rest ih =>
    simp only [tokens, List.cons_append, argument, ih calls.tail separated none ended]
  | operator c rest ih =>
    simp only [tokens, List.cons_append, argument, ih calls.tail separated none ended]
  | separator rest ih => cases separated.1
  | call f claimed inner rest ihInner ihRest =>
    exact absurd none (Nat.pos_iff_ne_zero.mp rest.arity_true_pos)
  | name f claimed rest notGroup ih => exact (calls.not_unapplied notGroup).elim
  | group inner rest ihInner ihRest =>
    obtain ⟨noneInner, noneRest⟩ := arity_parts_eq_zero none
    obtain ⟨_, separatedRest⟩ := separated
    rw [noneInner] at separatedRest
    simp only [tokens, List.cons_append, List.append_assoc, argument, argument_open,
      ihRest calls.group_parts.2 separatedRest noneRest ended]

theorem not_value_of_arity_eq_zero (nest : Nest) (calls : CallsTake nest.emitted)
    (separated : nest.Separated false) (none : nest.arity false = 0) :
    ∀ t ∈ nest.tokens, ¬ (t.kind = .number ∨ t.kind = .call) := by
  induction nest using Nest.callInduction with
  | nil => simp [tokens]
  | number x rest ih => exact absurd none (Nat.pos_iff_ne_zero.mp rest.arity_true_pos)
  | sign c rest ih =>
    have others := ih calls.tail separated none
    simpa [tokens, Token.kind] using others
  | operator c rest ih =>
    have others := ih calls.tail separated none
    simpa [tokens, Token.kind] using others
  | separator rest ih => cases separated.1
  | call f claimed inner rest ihInner ihRest =>
    exact absurd none (Nat.pos_iff_ne_zero.mp rest.arity_true_pos)
  | name f claimed rest notGroup ih => exact (calls.not_unapplied notGroup).elim
  | group inner rest ihInner ihRest =>
    obtain ⟨noneInner, noneRest⟩ := arity_parts_eq_zero none
    obtain ⟨separatedInner, separatedRest⟩ := separated
    rw [noneInner] at separatedRest
    have inside := ihInner calls.group_parts.1 separatedInner noneInner
    have others := ihRest calls.group_parts.2 separatedRest noneRest
    intro t mem
    simp only [tokens, List.mem_cons, List.mem_append] at mem
    rcases mem with rfl | mem | rfl | mem
    · simp [Token.kind]
    · exact inside t mem
    · simp [Token.kind]
    · exact others t mem

theorem eq_nil_of_tokens_eq_nil {nest : Nest} (h : nest.tokens = []) : nest = nil := by
  cases nest <;> first | rfl | cases h

theorem filled_of_filledBehind (nest : Nest) {hasValue : Bool} {after : List Token}
    (calls : CallsTake nest.emitted) (separated : nest.Separated hasValue)
    (ended : argument 0 after = []) (behind : FilledBehind (nest.tokens ++ after)) :
    nest.Filled := by
  induction nest using Nest.callInduction generalizing hasValue after with
  | nil => trivial
  | number x rest ih => exact ih calls.tail separated ended behind
  | sign c rest ih => exact ih calls.tail separated ended behind
  | operator c rest ih => exact ih calls.tail separated ended behind
  | separator rest ih =>
    rw [tokens, List.cons_append] at behind
    obtain ⟨behind, behindRest⟩ := behind
    refine ⟨fun none => ?_, ih calls separated.2 ended behindRest⟩
    rw [argument_of_arity_eq_zero rest calls separated.2 none ended] at behind
    rcases behind with empty | ⟨t, mem, value⟩
    · exact eq_nil_of_tokens_eq_nil empty
    · exact absurd value (not_value_of_arity_eq_zero rest calls separated.2 none t mem)
  | call f claimed inner rest ihInner ihRest =>
    obtain ⟨_, callsInner, callsRest⟩ := calls.call_parts
    simp only [tokens, List.cons_append, List.append_assoc] at behind
    exact ⟨ihInner callsInner separated.1 rfl behind,
      ihRest callsRest separated.2 ended (FilledBehind.of_append behind.tail.tail).tail⟩
  | name f claimed rest notGroup ih => exact (calls.not_unapplied notGroup).elim
  | group inner rest ihInner ihRest =>
    obtain ⟨callsInner, callsRest⟩ := calls.group_parts
    simp only [tokens, List.cons_append, List.append_assoc] at behind
    exact ⟨ihInner callsInner separated.1 rfl behind,
      ihRest callsRest separated.2 ended (FilledBehind.of_append behind.tail).tail⟩

end Nest

theorem Nest.tight_of_evaluate {env : Environment} {nest : Nest} {code : List Token}
    {xs : List Float} {g g' : Random.Generator} (context : Token.Contexted env none nest.tokens)
    (separated : nest.Separated false)
    (perm : code.Perm (nest.emitted ++ Code.Yard.packed (nest.arity false)))
    (ok : Code.evaluate code g = (.ok xs, g')) :
    Tight env nest none false ∧ 0 < nest.arity false := by
  obtain ⟨v, ran, _⟩ := Code.evaluate_eq_ok_iff.mp ok
  obtain ⟨height, _⟩ := Code.Machine.length_of_run ran
  have calls : CallsTake nest.emitted :=
    callsTake_of_run ran fun t mem => perm.mem_iff.mpr (List.mem_append_left _ mem)
  have le := balance_le nest none false context calls
  have total : Code.Machine.balance nest.emitted +
      Code.Machine.balance (Code.Yard.packed (nest.arity false)) = 1 := by
    rw [← Code.Machine.balance_append, ← Code.Machine.balance_eq_of_perm perm]
    simpa using height.symm
  have start : behindValue none false = 0 := rfl
  rw [Code.Machine.balance_packed] at total
  refine ⟨⟨context, calls, separated, ?_⟩, ?_⟩
  · split at total <;> omega
  · split at total <;> omega

open Grammar in
/-- Where behind each separator there is an argument with a number or a function in it, or none,
only formulas of the grammar have a value. Each call has as many arguments as its function takes,
of which there is none without, and a tuple can be nothing but the value. -/
theorem grammatical_of_interpret {env env' : Environment} {text : String} {xs : List Float}
    (behind : ∀ tokens, Token.ofText env text = .ok tokens → Token.FilledBehind tokens)
    (ok : env.interpret text = (.ok xs, env')) :
    ∃ formula : Arguments, Token.ofText env text = .ok formula.tokens ∧
      (∀ name n, (name, n) ∈ formula.tree.calls →
        0 < n ∧ ∃ f, Builtin.ofName? name.text = some f ∧ n = f.arity) ∧
      ∃ v, formula.tree.eval env.generator = (.ok v, env'.generator) ∧ v.components = xs ∧
        (formula.tree.tuples = 0 ∨
          formula.tree.tuples = 1 ∧ ∃ items, formula.tree = .tuple items ∧
            v = .tuple xs ∧ xs.length = items.length) := by
  obtain ⟨tokens, code, read, compiled, value, _⟩ := Environment.interpret_eq_ok_iff.mp ok
  obtain ⟨nest, rfl, separated, perm⟩ :=
    Nest.exists_of_ofTokens (Token.contexted_of_ofText read) compiled
  obtain ⟨tight, some⟩ :=
    Nest.tight_of_evaluate (Token.contexted_of_ofText read) separated perm value
  have filled : nest.Filled := by
    have ended : Token.argument 0 [] = [] := rfl
    apply nest.filled_of_filledBehind tight.calls separated ended
    rw [List.append_nil]
    exact behind _ read
  obtain ⟨formula, tokens⟩ := nest.derives tight filled some
  -- The code is that of the formula's tree, since both come from one run.
  have same : code = formula.tree.code := by
    obtain ⟨y, ran, finished⟩ := Code.ofTokens_eq_ok_iff.mp compiled
    obtain ⟨_, _, rfl, _⟩ := Code.Yard.finish_eq_ok_iff.mp finished
    obtain ⟨sent, kept, hasValue, complete, ran', code, _⟩ := exists_run_tokens formula
    rw [tokens, ran] at ran'
    cases ran'
    simp [code, Code.Yard.arity_mk]
  subst same
  obtain ⟨v, ran, components⟩ := Code.evaluate_eq_ok_iff.mp value
  obtain ⟨_, declared⟩ := Code.Machine.length_of_run ran
  obtain ⟨w, evaluated, stack⟩ := Tree.exists_of_run_code ran
  cases stack
  refine ⟨formula, tokens ▸ read, ?_, v, evaluated, components, ?_⟩
  · intro name n mem
    obtain ⟨f, known, exact⟩ := declared name n (formula.tree.mem_code_of_mem_calls mem)
    exact ⟨exact ▸ f.arity_pos, f, known, exact⟩
  · have shape := formula.tree.hasShape_of_eval evaluated
    cases v with
    | scalar x => exact .inl shape
    | tuple ys =>
      obtain ⟨items, whole, none, length⟩ := shape
      cases components
      exact .inr ⟨by rw [whole, Tree.tuples, none], items, whole, rfl, length⟩

section Pair

open Token (digit)

theorem ofText_pair (env : Environment) :
    Token.ofText env "(1,2)," =
      .ok [.leftParen, .number (digit '1'), .separator, .number (digit '2'), .rightParen,
        .separator] := by
  have chars : "(1,2),".toList = ['(', '1', ',', '2', ')', ','] := by decide
  have ends : Token.isBoundary '(' = true ∧ Token.isBoundary '1' = false ∧
      Token.isBoundary ',' = true ∧ Token.isBoundary '2' = false ∧
      Token.isBoundary ')' = true := by decide
  simp [Token.ofText, chars, Token.scan, ends, Token.emitRun_nil, Token.emitRun_digit,
    Token.emitBoundary, Token.emit, Except.map, Token.kind, TokenKind.endsValue,
    TokenKind.startsValue]

theorem interpret_pair (env : Environment) :
    env.interpret "(1,2)," = (.ok [digit '1', digit '2'], env) := by
  rw [Environment.interpret_eq_ok_iff]
  exact ⟨_, [.number (digit '1'), .number (digit '2'), .tuple 2], ofText_pair env, rfl, rfl, rfl⟩

theorem filledBehind_pair (env : Environment) (tokens : List Token)
    (read : Token.ofText env "(1,2)," = .ok tokens) : Token.FilledBehind tokens := by
  rw [ofText_pair] at read
  cases read
  simp [Token.FilledBehind, Token.argument, Token.kind]

open Grammar in
theorem grammatical_pair :
    ∃ formula : Arguments, Token.ofText .initial "(1,2)," = .ok formula.tokens ∧
      (∀ name n, (name, n) ∈ formula.tree.calls →
        0 < n ∧ ∃ f, Builtin.ofName? name.text = some f ∧ n = f.arity) ∧
      ∃ v, formula.tree.eval Environment.initial.generator =
          (.ok v, Environment.initial.generator) ∧
        v.components = [digit '1', digit '2'] ∧
        (formula.tree.tuples = 0 ∨
          formula.tree.tuples = 1 ∧ ∃ items, formula.tree = .tuple items ∧
            v = .tuple [digit '1', digit '2'] ∧ [digit '1', digit '2'].length = items.length) :=
  grammatical_of_interpret (filledBehind_pair .initial) (interpret_pair .initial)

end Pair

end Calculator
