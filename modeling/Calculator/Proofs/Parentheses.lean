import Calculator.Proofs.Enclosure
import Calculator.Proofs.Remembrance
import Calculator.Proofs.Sessions

/-!
A text in parentheses, or as the arguments of a function. Its code is the same but for its end,
where the function comes instead of a tuple, or where there is none behind the rest. So parentheses
around a formula are redundant.
-/

namespace Calculator

open Token (valuedArguments)

namespace Enclosure

open Code Yard

/-- Tokens that compile do so where they are enclosed, and the code is the same up to what ends it.
-/
theorem exists_ofTokens_enclosed (k : Enclosure) {tokens code : List Token}
    (compiled : ofTokens tokens = .ok code) :
    ∃ body, code = body ++ packed (valuedArguments tokens.reverse) ∧
      ofTokens (k.opening ++ tokens ++ k.closing) =
        .ok (body ++ k.closes (valuedArguments tokens.reverse)) := by
  obtain ⟨y, ran, finished⟩ := ofTokens_eq_ok_iff.mp compiled
  obtain ⟨closed, operators, rfl, some⟩ := finish_eq_ok_iff.mp finished
  have remembers := remembers_of_run ran
  have base := remembers.base_eq_zero closed
  obtain ⟨sent, kept, ⟨hasValue, complete, height⟩, outer⟩ := y
  simp only at closed operators base some
  subst closed base
  have arity : complete + hasValue.toNat = valuedArguments tokens.reverse :=
    (arity_mk 0).symm.trans remembers.arity
  rw [arity_mk, arity] at some ⊢
  refine ⟨sent.reverse ++ kept, rfl, ?_⟩
  rw [← List.reverse_reverse sent] at ran
  have opened := k.run_first ran
  have ends : sent.reverse ++ kept ++ k.closes (complete + hasValue.toNat) ≠ [] := by
    rw [arity]
    cases k with
    | formula | parens => exact some
    | args f => simp [closes]
  have operators : ∀ t ∈ kept, isParen t = false := by simpa using operators
  obtain ⟨z, last, finished⟩ := k.exists_finish operators ends
  rw [arity] at finished
  exact ofTokens_eq_ok_iff.mpr ⟨z, (run_append_ok opened _).trans last, finished⟩

end Enclosure

namespace Formula

variable {env : Environment} {s : String} {f : Formula}

theorem exists_compile_enclosed {k : Enclosure} (visible : k.Visible env)
    (compiled : compile env s = .ok f) :
    ∃ body g, compile env (k.text s) = .ok g ∧
      f.code = body ++ Code.Yard.packed (valuedArguments f.tokens.reverse) ∧
      g.code = body ++ k.closes (valuedArguments f.tokens.reverse) := by
  obtain ⟨tokens, code, read, ordered, rfl⟩ := exists_of_compile compiled
  obtain ⟨body, whole, enclosed⟩ := k.exists_ofTokens_enclosed ordered
  refine ⟨body, ⟨k.text s, k.opening ++ tokens ++ k.closing, _⟩, ?_, whole, rfl⟩
  simp only [compile, Token.ofText_enclosed visible, read, Except.map, bind, Except.bind, enclosed]

end Formula

/-- So many parentheses around a text. -/
def parenthesized (s : String) : Nat → String
  | 0 => s
  | n + 1 => "(" ++ parenthesized s n ++ ")"

theorem Formula.exists_compile_parenthesized {env : Environment} {s : String} {f : Formula}
    (compiled : compile env s = .ok f) (n : Nat) :
    ∃ g, compile env (parenthesized s n) = .ok g ∧ g.code = f.code := by
  induction n with
  | zero => exact ⟨f, compiled, rfl⟩
  | succ n ih =>
    obtain ⟨g, inside, same⟩ := ih
    obtain ⟨body, g', outside, code, code'⟩ := exists_compile_enclosed (k := .parens) trivial inside
    exact ⟨g', outside, by rw [code', ← same, code]; rfl⟩

/-- A text that compiles does so to the same code in parentheses, and as the arguments of a function
to code in which the call stands for the tuple of the arguments, or behind the rest if there is no
such tuple. Parentheses around a text, however many, change neither its value or error nor the
random numbers that are drawn. -/
theorem Formula.compile_enclosed {env : Environment} {s : String} {f : Formula}
    (compiled : compile env s = .ok f) :
    (∃ g, compile env ("(" ++ s ++ ")") = .ok g ∧ g.code = f.code) ∧
      (∀ b : Builtin, env.lookup b.name.text = none →
        ∃ g, compile env (b.name.text ++ "(" ++ s ++ ")") = .ok g ∧
          (2 ≤ valuedArguments f.tokens.reverse → ∃ body,
            f.code = body ++ [.tuple (valuedArguments f.tokens.reverse)] ∧
              g.code = body ++ [.call b.name (valuedArguments f.tokens.reverse)]) ∧
          (valuedArguments f.tokens.reverse ≤ 1 →
            g.code = f.code ++ [.call b.name (valuedArguments f.tokens.reverse)])) ∧
      ∀ n, env.interpret (parenthesized s n) = env.interpret s := by
  refine ⟨exists_compile_parenthesized compiled 1, ?_, ?_⟩
  · intro b visible
    obtain ⟨body, g, enclosed, code, code'⟩ :=
      exists_compile_enclosed (k := .args b) visible compiled
    refine ⟨g, enclosed, ?_, ?_⟩
    · intro several
      rw [Code.Yard.packed, if_pos (Nat.lt_of_succ_le several)] at code
      exact ⟨body, code, code'⟩
    · intro few
      rw [Code.Yard.packed, if_neg (Nat.not_lt.mpr few), List.append_nil] at code
      rw [code', code]
      rfl
  · intro n
    obtain ⟨g, enclosed, same⟩ := exists_compile_parenthesized compiled n
    rw [Environment.interpret_eq, enclosed, Environment.interpret_eq, compiled]
    simp only [same]

section Pair

open Token (digit)

theorem Formula.compile_one_two (env : Environment) :
    compile env "1,2" = .ok ⟨"1,2", [.number (digit '1'), .separator, .number (digit '2')],
      [.number (digit '1'), .number (digit '2'), .tuple 2]⟩ := by
  have chars : "1,2".toList = ['1', ',', '2'] := by decide
  have ends : Token.isBoundary '1' = false ∧ Token.isBoundary ',' = true ∧
      Token.isBoundary '2' = false := by decide
  simp [compile, Token.ofText, chars, Token.scan, ends, Token.emitRun_digit, Token.emitBoundary,
    Token.emit, Except.map, bind, Except.bind, Token.kind, TokenKind.endsValue,
    TokenKind.startsValue]
  rfl

/-- The tuple of `1,2` is that of `(1,2)` and becomes the call in `max(1,2)`. -/
theorem Formula.compile_enclosed_one_two :
    (∃ g, compile .initial ("(" ++ "1,2" ++ ")") = .ok g ∧
      g.code = [.number (digit '1'), .number (digit '2'), .tuple 2]) ∧
    ∃ g, compile .initial (Builtin.max.name.text ++ "(" ++ "1,2" ++ ")") = .ok g ∧
      g.code = [.number (digit '1'), .number (digit '2'), .call Builtin.max.name 2] := by
  obtain ⟨parens, args, _⟩ := compile_enclosed (compile_one_two .initial)
  obtain ⟨g, enclosed, several, _⟩ := args .max rfl
  obtain ⟨body, code, code'⟩ := several (by decide)
  refine ⟨parens, g, enclosed, ?_⟩
  have body_eq : [.number (digit '1'), .number (digit '2')] = body :=
    List.append_cancel_right code
  rw [code', ← body_eq]
  rfl

end Pair

end Calculator
