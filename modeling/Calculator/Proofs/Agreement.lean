import Calculator.Proofs.Adaptation
import Calculator.Proofs.Shape

/-!
Environments that agree on the names of variables agree on what becomes of a text: on whether it
is read, compiled and evaluated, on the error if not, and on the size of the result. So a formula
can be read again whenever variables have got other values.
-/

namespace Calculator

section Alike

variable {env env' : Environment} (names : env.SameNames env')

include names

theorem Formula.shapes_compile (source : String) :
    (compile env source).map (fun f => Token.shapes f.code) =
      (compile env' source).map fun f => Token.shapes f.code := by
  refine map_bind_eq (Token.shapes_ofText names source) ?_
  intro tokens tokens' same
  refine map_bind_eq (Code.shapes_ofTokens_eq same) ?_
  intro code code' same
  exact congrArg Except.ok same

theorem Formula.exists_refresh {source : String} {f : Formula} (compiled : compile env source = .ok f) :
    ∃ f', f.refresh env' = .ok f' ∧ f'.arity = f.arity := by
  obtain ⟨f', again, same⟩ := exists_ok_of_map_eq (shapes_compile names source) compiled
  obtain ⟨tokens, code, _, _, rfl⟩ := exists_of_compile compiled
  exact ⟨f', again, (Code.resultArity_eq_of_shapes_eq same).symm⟩

/-- Into every type both texts convert or neither does, and then for one error. -/
theorem Environment.adapt_alike (t : Target) (source : String) :
    (env.adapt t source).1.map (fun _ => ()) = (env'.adapt t source).1.map fun _ => () := by
  by_cases numeric : t ≠ .text
  · rcases error_or_ok_of_map_eq (Formula.shapes_compile names source) with
      ⟨e, failed, failed'⟩ | ⟨f, f', compiled, compiled', same⟩
    · rw [adapt_of_compile_error numeric failed, adapt_of_compile_error numeric failed']
    · have arity : f.arity = f'.arity := Code.resultArity_eq_of_shapes_eq same
      cases shape : t.accepts f.arity with
      | false =>
        have shape' : t.accepts f'.arity = false := arity ▸ shape
        rw [adapt_of_refused numeric compiled shape, adapt_of_refused numeric compiled' shape',
          arity]
      | true =>
        have shape' : t.accepts f'.arity = true := arity ▸ shape
        have lengths := Code.length_evaluate same env.generator env'.generator
        rcases error_or_ok_of_map_eq lengths with ⟨e, failed, failed'⟩ | ⟨xs, xs', value, value', _⟩
        · rw [adapt_of_evaluate_error numeric compiled shape (Prod.ext failed rfl),
            adapt_of_evaluate_error numeric compiled' shape' (Prod.ext failed' rfl)]
        · obtain ⟨v, _, adapted⟩ :=
            exists_adapt_of_evaluate numeric compiled shape (Prod.ext value rfl)
          obtain ⟨v', _, adapted'⟩ :=
            exists_adapt_of_evaluate numeric compiled' shape' (Prod.ext value' rfl)
          rw [adapted, adapted']
          rfl
  · rw [not_not] at numeric
    subst numeric
    rfl

end Alike

namespace Environment

open Token (shapes)

/-- The names of variables alone decide what becomes of a text. Read with other values, it has the
same tokens up to numbers or the same error, and so do code and the size of the result; it converts
into the same types, and a formula that was compiled can be read again and keeps its arity. -/
theorem agree_of_sameNames {env env' : Environment} (names : env.SameNames env') (text : String) :
    (Token.ofText env text).map shapes = (Token.ofText env' text).map shapes ∧
      (∀ tokens tokens', Token.ofText env text = .ok tokens → Token.ofText env' text = .ok tokens' →
        (Code.ofTokens tokens).map shapes = (Code.ofTokens tokens').map shapes ∧
          ∀ code code', Code.ofTokens tokens = .ok code → Code.ofTokens tokens' = .ok code' →
            (env.evaluate code).1.map List.length = (env'.evaluate code').1.map List.length) ∧
      (∀ t : Target,
        (env.adapt t text).1.map (fun _ => ()) = (env'.adapt t text).1.map fun _ => ()) ∧
      ∀ f, Formula.compile env text = .ok f → ∃ f', f.refresh env' = .ok f' ∧ f'.arity = f.arity := by
  refine ⟨Token.shapes_ofText names text, ?_, ?_, ?_⟩
  · intro tokens tokens' read read'
    have same := Token.shapes_ofText names text
    rw [read, read'] at same
    have compiles := Code.shapes_ofTokens_eq (Except.ok.inj same)
    constructor
    · exact compiles
    · intro code code' compiled compiled'
      rw [compiled, compiled'] at compiles
      exact Code.length_evaluate (Except.ok.inj compiles) env.generator env'.generator
  · intro t
    exact adapt_alike names t text
  · intro f compiled
    exact Formula.exists_refresh names compiled

section Constant

/-- Where it is a variable, its name alone is read as its value. -/
theorem compile_pi {env : Environment} {x : Float} (known : env.lookup "pi" = some x) :
    Formula.compile env "pi" = .ok ⟨"pi", [.number x], [.number x]⟩ := by
  have chars : "pi".toList = ['p', 'i'] := by decide
  have inside : Token.isBoundary 'p' = false ∧ Token.isBoundary 'i' = false := by decide
  have unread : Number.Literal.read? ['p', 'i'] = none := by decide
  have letters : ['p', 'i'].takeWhile Text.isLetter = ['p', 'i'] := by decide
  have rest : ['p', 'i'].dropWhile Text.isLetter = [] := by decide
  have read : Token.ofName env (String.ofList ['p', 'i']) = .ok (.number x) := by
    have name : String.ofList ['p', 'i'] = "pi" := by decide
    simp only [Token.ofName, name, known]
  have tokens : Token.ofText env "pi" = .ok [.number x] := by
    simp [Token.ofText, chars, Token.scan, inside, Token.emitRun_letters unread letters, read, rest,
      Token.emitRun_nil, Token.emit, Except.map]
  simp only [Formula.compile, tokens, bind, Except.bind]
  rfl

/-- With another value for `pi` its name is read as a number again. -/
theorem agree_of_sameNames_pi : ∃ before changed, initial.set "pi" 3 = .ok (before, changed) ∧
    initial.SameNames changed ∧
    (Token.ofText initial "pi").map shapes = (Token.ofText changed "pi").map shapes ∧
    ∃ f f', Formula.compile initial "pi" = .ok f ∧ f.refresh changed = .ok f' ∧ f'.arity = 1 := by
  have known : initial.lookup "pi" = some 3.141592653589793 := rfl
  have changes : initial.set "pi" 3 = .ok (some 3.141592653589793,
      { initial with values := initial.values.insert "pi" 3 }) := rfl
  have names := sameNames_of_set (by rw [known]; rfl) changes
  obtain ⟨reads, _, _, refreshes⟩ := agree_of_sameNames names "pi"
  obtain ⟨f', again, arity⟩ := refreshes _ (compile_pi known)
  exact ⟨_, _, changes, names, reads, _, f', compile_pi known, again, arity⟩

end Constant

end Environment

end Calculator
