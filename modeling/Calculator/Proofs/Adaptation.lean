import Calculator.Proofs.Acceptance
import Calculator.Proofs.Faults
import Calculator.Typed.Conversion

/-!
Results in a numeric type. What a type accepts by the number of components is what it can be built
from, and the number that is read off the code is the one that the result has; so a formula is
either refused before it is evaluated or its result fits.
-/

namespace Calculator

namespace Target

theorem exists_ofSingle_iff (t : Target) (f : Float → Typed) (xs : List Float) :
    (∃ v, t.ofSingle f xs = .ok v) ↔ xs.length = 1 := by
  rcases xs with _ | ⟨x, _ | ⟨y, rest⟩⟩
  · simp [ofSingle]
  · simp [ofSingle]
  · simp [ofSingle]

/-- Components make a value of the type exactly when it accepts so many. -/
theorem exists_convert_iff {t : Target} (numeric : t ≠ .text) (xs : List Float) :
    (∃ v, t.convert xs = .ok v) ↔ t.accepts xs.length = true := by
  cases t with
  | text => exact absurd rfl numeric
  | single => exact (exists_ofSingle_iff single _ xs).trans decide_eq_true_iff.symm
  | double => exact (exists_ofSingle_iff double _ xs).trans decide_eq_true_iff.symm
  | int32 => exact (exists_ofSingle_iff int32 _ xs).trans decide_eq_true_iff.symm
  | int64 => exact (exists_ofSingle_iff int64 _ xs).trans decide_eq_true_iff.symm
  | uint32 => exact (exists_ofSingle_iff uint32 _ xs).trans decide_eq_true_iff.symm
  | uint64 => exact (exists_ofSingle_iff uint64 _ xs).trans decide_eq_true_iff.symm
  | vec2 => rcases xs with _ | ⟨x, _ | ⟨y, _ | ⟨z, rest⟩⟩⟩ <;> simp [convert, accepts]
  | vec3 => rcases xs with _ | ⟨x, _ | ⟨y, _ | ⟨z, _ | ⟨w, rest⟩⟩⟩⟩ <;> simp [convert, accepts]
  | vec4 =>
    rcases xs with _ | ⟨x, _ | ⟨y, _ | ⟨z, _ | ⟨w, _ | ⟨u, rest⟩⟩⟩⟩⟩ <;> simp [convert, accepts]
  | quaternion =>
    rcases xs with _ | ⟨x, _ | ⟨y, _ | ⟨z, _ | ⟨w, _ | ⟨u, rest⟩⟩⟩⟩⟩ <;> simp [convert, accepts]

end Target

namespace Formula

variable {env env' : Environment} {source : String} {f : Formula} {t : Target} {e : Error}

theorem exists_of_compile (h : compile env source = .ok f) :
    ∃ tokens code, Token.ofText env source = .ok tokens ∧ Code.ofTokens tokens = .ok code ∧
      f = ⟨source, tokens, code⟩ := by
  obtain ⟨tokens, read, h⟩ := Code.Machine.exists_of_bind h
  obtain ⟨code, compiled, h⟩ := Code.Machine.exists_of_bind h
  cases h
  exact ⟨tokens, code, read, compiled, rfl⟩

theorem error_of_compile (h : compile env source = .error e) :
    Token.ofText env source = .error e ∨
      ∃ tokens, Token.ofText env source = .ok tokens ∧ Code.ofTokens tokens = .error e := by
  rcases Code.Machine.error_of_bind h with unread | ⟨tokens, read, h⟩
  · exact .inl unread
  · rcases Code.Machine.error_of_bind h with uncompiled | ⟨code, _, h⟩
    · exact .inr ⟨tokens, read, uncompiled⟩
    · cases h

theorem compile_of_ofText_error (h : Token.ofText env source = .error e) :
    compile env source = .error e := by
  simp only [compile, h, bind, Except.bind]

theorem compile_of_ofTokens_error {tokens : List Token} (read : Token.ofText env source = .ok tokens)
    (h : Code.ofTokens tokens = .error e) : compile env source = .error e := by
  simp only [compile, read, h, bind, Except.bind]

theorem ne_resultType_of_compile (h : compile env source = .error e) (found : Nat)
    (target : Target) : e ≠ .resultType found target := by
  rintro rfl
  rcases error_of_compile h with unread | ⟨tokens, read, uncompiled⟩
  · obtain ⟨text, same⟩ := Token.exists_unknownToken_of_ofText unread
    cases same
  · have context := Token.contexted_of_ofText read
    rcases Code.error_of_ofTokens_contexted context uncompiled with same | same | ⟨same | same, _⟩
    · cases same
    · cases same
    · cases same
    · cases same

theorem ne_resultType_of_evaluate {user : Environment} (compiled : compile env source = .ok f)
    (h : (f.evaluate user).1 = .error e) (found : Nat) (target : Target) :
    e ≠ .resultType found target := by
  rintro rfl
  obtain ⟨tokens, code, read, compiled', rfl⟩ := exists_of_compile compiled
  exact Code.concernsOperands_of_evaluate (Token.contexted_of_ofText read) compiled' h

/-- The result of a formula of accepted shape fits. -/
theorem exists_convert_of_evaluate {xs : List Float} (numeric : t ≠ .text)
    (shape : t.accepts f.arity = true) (h : f.evaluate env = (.ok xs, env')) :
    ∃ v, t.convert xs = .ok v := by
  have length : xs.length = f.arity := (length_eq_arity env).2.2 f xs (congrArg Prod.fst h)
  rw [← length] at shape
  exact (Target.exists_convert_iff numeric xs).mpr shape

theorem adapt_refused (numeric : t ≠ .text) (shape : t.accepts f.arity = false) :
    f.adapt env t = (.error ⟨f.source, .resultType f.arity t⟩, env) := by
  simp only [adapt, convert, if_neg numeric, shape, Bool.false_eq_true, if_false, Except.mapError,
    Target.refuse]

theorem adapt_accepted (numeric : t ≠ .text) (shape : t.accepts f.arity = true) :
    f.adapt env t =
      (((f.evaluate env).1.bind t.convert).mapError (⟨f.source, ·⟩), (f.evaluate env).2) := by
  simp only [adapt, convert, if_neg numeric, shape, if_true]

end Formula

namespace Environment

variable {env : Environment} {source : String} {t : Target}

theorem adapt_of_compile (numeric : t ≠ .text) {f : Formula}
    (h : Formula.compile env source = .ok f) : env.adapt t source = f.adapt env t := by
  simp only [adapt, if_neg numeric, h]

theorem adapt_of_compile_error (numeric : t ≠ .text) {e : Error}
    (h : Formula.compile env source = .error e) :
    env.adapt t source = (.error ⟨source, e⟩, env) := by
  simp only [adapt, if_neg numeric, h]

theorem adapt_of_refused (numeric : t ≠ .text) {f : Formula}
    (compiled : Formula.compile env source = .ok f) (shape : t.accepts f.arity = false) :
    env.adapt t source = (.error ⟨source, .resultType f.arity t⟩, env) := by
  rw [adapt_of_compile numeric compiled, f.adapt_refused numeric shape]
  obtain ⟨tokens, code, _, _, rfl⟩ := Formula.exists_of_compile compiled
  rfl

section Accepted

variable {f : Formula} (numeric : t ≠ .text) (compiled : Formula.compile env source = .ok f)
  (shape : t.accepts f.arity = true)

include numeric compiled shape

theorem exists_adapt_of_evaluate {xs : List Float} {env' : Environment}
    (value : f.evaluate env = (.ok xs, env')) :
    ∃ v, t.convert xs = .ok v ∧ env.adapt t source = (.ok v, env') := by
  obtain ⟨v, converted⟩ := Formula.exists_convert_of_evaluate numeric shape value
  refine ⟨v, converted, ?_⟩
  rw [adapt_of_compile numeric compiled, f.adapt_accepted numeric shape, value]
  simp only [Except.bind, converted, Except.mapError]

theorem adapt_of_evaluate_error {e : Error} {env' : Environment}
    (failed : f.evaluate env = (.error e, env')) :
    env.adapt t source = (.error ⟨source, e⟩, env') := by
  rw [adapt_of_compile numeric compiled, f.adapt_accepted numeric shape, failed]
  obtain ⟨tokens, code, _, _, rfl⟩ := Formula.exists_of_compile compiled
  rfl

end Accepted

/-- Neither compiling nor running meets a result of the wrong type, so it is the shape. -/
theorem exists_refused_of_adapt (numeric : t ≠ .text) {formula : String} {found : Nat}
    {target : Target} (h : (env.adapt t source).1 = .error ⟨formula, .resultType found target⟩) :
    ∃ f, Formula.compile env source = .ok f ∧ t.accepts f.arity = false := by
  cases compiled : Formula.compile env source with
  | error e =>
    rw [adapt_of_compile_error numeric compiled] at h
    cases h
    exact absurd rfl (Formula.ne_resultType_of_compile compiled found target)
  | ok f =>
    cases shape : t.accepts f.arity with
    | false => exact ⟨f, rfl, shape⟩
    | true =>
      cases evaluated : f.evaluate env with
      | mk r env' =>
        cases r with
        | error e =>
          rw [adapt_of_evaluate_error numeric compiled shape evaluated] at h
          cases h
          have failed := congrArg Prod.fst evaluated
          exact absurd rfl (Formula.ne_resultType_of_evaluate compiled failed found target)
        | ok xs =>
          obtain ⟨v, _, adapted⟩ := exists_adapt_of_evaluate numeric compiled shape evaluated
          rw [adapted] at h
          cases h

/-- A text in a numeric type. It is refused for its shape exactly when it compiles to a shape that
the type does not accept, and then nothing has been drawn. A text that does not compile is refused
with that error. Of one that has an accepted shape only the evaluation can fail. -/
theorem adapt_numeric (numeric : t ≠ .text) (env : Environment) (source : String) :
    (∀ formula found target,
      (env.adapt t source).1 = .error ⟨formula, .resultType found target⟩ ↔
        formula = source ∧ target = t ∧
          ∃ f, Formula.compile env source = .ok f ∧ t.accepts f.arity = false ∧ found = f.arity) ∧
      (∀ f, Formula.compile env source = .ok f → t.accepts f.arity = false →
        env.adapt t source = (.error ⟨source, .resultType f.arity t⟩, env)) ∧
      (∀ e, Token.ofText env source = .error e → env.adapt t source = (.error ⟨source, e⟩, env)) ∧
      (∀ tokens e, Token.ofText env source = .ok tokens → Code.ofTokens tokens = .error e →
        env.adapt t source = (.error ⟨source, e⟩, env)) ∧
      (∀ f, Formula.compile env source = .ok f → t.accepts f.arity = true →
        (∀ xs env', f.evaluate env = (.ok xs, env') →
          ∃ v, t.convert xs = .ok v ∧ env.adapt t source = (.ok v, env')) ∧
        ∀ e env', f.evaluate env = (.error e, env') →
          env.adapt t source = (.error ⟨source, e⟩, env')) ∧
      ∀ xs, (∃ v, t.convert xs = .ok v) ↔ t.accepts xs.length = true := by
  refine ⟨?_, ?_, ?_, ?_, ?_, Target.exists_convert_iff numeric⟩
  · intro formula found target
    constructor
    · intro outcome
      obtain ⟨f, compiled, shape⟩ := exists_refused_of_adapt numeric outcome
      rw [adapt_of_refused numeric compiled shape] at outcome
      cases outcome
      exact ⟨rfl, rfl, f, compiled, shape, rfl⟩
    · rintro ⟨rfl, rfl, f, compiled, shape, rfl⟩
      rw [adapt_of_refused numeric compiled shape]
  · intro f compiled shape
    exact adapt_of_refused numeric compiled shape
  · intro e unread
    exact adapt_of_compile_error numeric (Formula.compile_of_ofText_error unread)
  · intro tokens e read uncompiled
    exact adapt_of_compile_error numeric (Formula.compile_of_ofTokens_error read uncompiled)
  · intro f compiled shape
    constructor
    · intro xs env' value
      exact exists_adapt_of_evaluate numeric compiled shape value
    · intro e env' failed
      exact adapt_of_evaluate_error numeric compiled shape failed

section Pair

open Token (digit)

/-- The formula of the text `(1,2),`. -/
def pair : Formula where
  source := "(1,2),"
  tokens := [.leftParen, .number (digit '1'), .separator, .number (digit '2'), .rightParen, .separator]
  code := [.number (digit '1'), .number (digit '2'), .tuple 2]

theorem compile_pair (env : Environment) : Formula.compile env "(1,2)," = .ok pair := by
  simp only [Formula.compile, ofText_pair, bind, Except.bind]
  rfl

/-- A pair does not become a vector of three components, but one of two. -/
theorem adapt_numeric_pair :
    initial.adapt .vec3 "(1,2)," = (.error ⟨"(1,2),", .resultType 2 .vec3⟩, initial) ∧
      ∃ v, Target.vec2.convert [digit '1', digit '2'] = .ok v ∧
        initial.adapt .vec2 "(1,2)," = (.ok v, initial) := by
  have three : Target.vec3 ≠ .text := by decide
  have two : Target.vec2 ≠ .text := by decide
  obtain ⟨_, refused, _⟩ := adapt_numeric three initial "(1,2),"
  obtain ⟨_, _, _, _, accepted, _⟩ := adapt_numeric two initial "(1,2),"
  constructor
  · exact refused pair (compile_pair initial) rfl
  · exact (accepted pair (compile_pair initial) rfl).1 [digit '1', digit '2'] initial rfl

end Pair

end Environment

end Calculator
