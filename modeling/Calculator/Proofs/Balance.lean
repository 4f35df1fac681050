import Calculator.Proofs.Machine
import Calculator.Proofs.Nest

/-!
Code of a nest gives no more values than the nest has arguments, since an operator goes with each
operand but the first one of an argument. When it gives as many, nothing in the nest takes the value
of another argument, and the same holds of all its parts.
-/

namespace Calculator

theorem Code.Machine.balance_packed (arity : Nat) :
    balance (Yard.packed arity) = if 1 < arity then 1 - (arity : Int) else 0 := by
  unfold Yard.packed
  split
  · simp [balance, rise]
  · rfl

namespace Nest

open Code Machine

/-- The value of the argument, if it stands right in front of the nest. -/
def behindValue (before : Option Token) (hasValue : Bool) : Nat :=
  (Token.endsValue before && hasValue).toNat

theorem behindValue_le (before : Option Token) (hasValue : Bool) :
    behindValue before hasValue ≤ hasValue.toNat := by
  unfold behindValue
  cases Token.endsValue before <;> cases hasValue <;> decide

theorem behindValue_of_not_endsValue {before : Option Token} (h : Token.endsValue before = false)
    (hasValue : Bool) : behindValue before hasValue = 0 := by
  simp [behindValue, h]

theorem not_endsValue_of_expectsOperand {before : Option Token}
    (h : Token.expectsOperand before = true) : Token.endsValue before = false := by
  cases before with
  | none => rfl
  | some t => cases t <;> first | rfl | cases h

def CallsTake (code : List Token) : Prop := ∀ name arity, .call name arity ∈ code → 0 < arity

theorem CallsTake.mono {p q : List Token} (calls : CallsTake q) (part : p ⊆ q) : CallsTake p :=
  fun name arity mem => calls name arity (part mem)

theorem CallsTake.tail {t : Token} {code : List Token} (calls : CallsTake (t :: code)) :
    CallsTake code :=
  calls.mono (List.subset_cons_self t code)

theorem CallsTake.call_parts {f : FunctionName} {claimed : Nat} {inner rest : Nest}
    (calls : CallsTake (name f claimed (group inner rest)).emitted) :
    0 < inner.arity false ∧ CallsTake inner.emitted ∧ CallsTake rest.emitted := by
  refine ⟨calls f _ (by simp [emitted]), calls.mono ?_, calls.mono ?_⟩
  · simp [emitted]
  · intro t mem
    simp [emitted, mem]

theorem CallsTake.not_unapplied {f : FunctionName} {claimed : Nat} {rest : Nest}
    (calls : CallsTake (name f claimed rest).emitted)
    (bare : ∀ inner after, rest ≠ group inner after) : False := by
  rw [emitted_name bare] at calls
  exact Nat.lt_irrefl 0 (calls f 0 (by simp))

theorem CallsTake.group_parts {inner rest : Nest} (calls : CallsTake (group inner rest).emitted) :
    CallsTake inner.emitted ∧ CallsTake rest.emitted := by
  refine ⟨calls.mono ?_, calls.mono ?_⟩
  · simp [emitted]
  · intro t mem
    simp [emitted, mem]

/-- An argument gets one value at most. -/
theorem balance_le (nest : Nest) {env : Environment} (before : Option Token) (hasValue : Bool)
    (context : Token.Contexted env before nest.tokens) (calls : CallsTake nest.emitted) :
    balance nest.emitted + behindValue before hasValue ≤ nest.arity hasValue := by
  induction nest using Nest.callInduction generalizing before hasValue with
  | nil =>
    have value := behindValue_le before hasValue
    simp only [emitted, balance, arity]
    omega
  | number x rest ih =>
    have others := ih (some (.number x)) true context.2 calls.tail
    have value : behindValue (some (.number x)) true = 1 := rfl
    have none := behindValue_of_not_endsValue context.1 hasValue
    simp only [emitted, balance, rise, arity]
    omega
  | sign c rest ih =>
    have others := ih (some (.prefixOp c)) hasValue context.2 calls.tail
    have none :=
      behindValue_of_not_endsValue (not_endsValue_of_expectsOperand context.1.2) hasValue
    simp only [emitted, balance, rise, arity]
    omega
  | operator c rest ih =>
    -- What the operator takes off is the value that stood in front of it.
    have others := ih (some (.binaryOp c)) hasValue context.2 calls.tail
    have value := behindValue_le before hasValue
    have one := Bool.toNat_le hasValue
    simp only [emitted, balance, rise, arity]
    omega
  | separator rest ih =>
    have others := ih (some .separator) false context.2 calls
    have value := behindValue_le before hasValue
    simp only [emitted, arity]
    omega
  | call f claimed inner rest ihInner ihRest =>
    have context' := Token.contexted_append.mp context.2.2
    obtain ⟨_, callsInner, callsRest⟩ := calls.call_parts
    have inside := ihInner (some .leftParen) false context'.1 callsInner
    have others := ihRest (some .rightParen) true context'.2.2 callsRest
    have value : behindValue (some .rightParen) true = 1 := rfl
    have none := behindValue_of_not_endsValue context.1.1 hasValue
    simp only [emitted, balance_append, balance, rise, arity]
    omega
  | name f claimed rest notGroup ih => exact (calls.not_unapplied notGroup).elim
  | group inner rest ihInner ihRest =>
    have context' := Token.contexted_append.mp context.2
    obtain ⟨callsInner, callsRest⟩ := calls.group_parts
    have inside := ihInner (some .leftParen) false context'.1 callsInner
    have others := ihRest (some .rightParen) (hasValue || decide (0 < inner.arity false))
      context'.2.2 callsRest
    have none := behindValue_of_not_endsValue context.1 hasValue
    simp only [emitted, balance_append, balance_packed, arity]
    by_cases some : 0 < inner.arity false
    · have value : behindValue (.some .rightParen) (hasValue || true) = 1 := by
        cases hasValue <;> rfl
      simp only [some, decide_true] at others ⊢
      split <;> omega
    · simp only [some, decide_false, Bool.or_false] at others ⊢
      split <;> omega

theorem callsTake_of_run {m n : Machine} {nest : Nest} {code : List Token}
    (ran : m.run code = (.ok (), n)) (part : nest.emitted ⊆ code) : CallsTake nest.emitted := by
  intro name arity mem
  obtain ⟨f, _, rfl⟩ := (length_of_run ran).2 name arity (part mem)
  exact f.arity_pos

/-- With its arguments packed, a formula gives one value at most. -/
theorem balance_code_le {nest : Nest} {env : Environment} {code : List Token}
    (context : Token.Contexted env none nest.tokens) (calls : CallsTake nest.emitted)
    (perm : code.Perm (nest.emitted ++ Yard.packed (nest.arity false))) : balance code ≤ 1 := by
  have le := balance_le nest none false context calls
  have start : behindValue none false = 0 := rfl
  rw [balance_eq_of_perm perm, balance_append, balance_packed]
  split <;> omega

/-- A part of a formula that gives as many values as it has arguments. -/
structure Tight (env : Environment) (nest : Nest) (before : Option Token) (hasValue : Bool) :
    Prop where
  context : Token.Contexted env before nest.tokens
  calls : CallsTake nest.emitted
  separated : nest.Separated hasValue
  exact : balance nest.emitted + behindValue before hasValue = nest.arity hasValue

namespace Tight

variable {env : Environment} {inner rest : Nest} {before : Option Token} {hasValue : Bool}

theorem nil (tight : Tight env .nil before hasValue) (value : hasValue = true) :
    Token.endsValue before = true := by
  have exact := tight.exact
  subst value
  cases ends : Token.endsValue before with
  | true => rfl
  | false =>
    rw [behindValue_of_not_endsValue ends] at exact
    cases exact

theorem number {x : Float} (tight : Tight env (.number x rest) before hasValue) :
    Tight env rest (some (.number x)) true := by
  refine ⟨tight.context.2, tight.calls.tail, tight.separated, ?_⟩
  have exact := tight.exact
  have value : behindValue (some (.number x)) true = 1 := rfl
  rw [behindValue_of_not_endsValue tight.context.1] at exact
  simp only [emitted, balance, rise, arity] at exact
  omega

theorem sign {c : Char} (tight : Tight env (.sign c rest) before hasValue) :
    Tight env rest (some (.prefixOp c)) hasValue := by
  refine ⟨tight.context.2, tight.calls.tail, tight.separated, ?_⟩
  have exact := tight.exact
  have value : behindValue (some (.prefixOp c)) hasValue = 0 := rfl
  rw [behindValue_of_not_endsValue (not_endsValue_of_expectsOperand tight.context.1.2)] at exact
  simp only [emitted, balance, rise, arity] at exact
  omega

theorem operator {c : Char} (tight : Tight env (.operator c rest) before hasValue) :
    Token.endsValue before = true ∧ hasValue = true ∧
      Tight env rest (some (.binaryOp c)) hasValue := by
  have exact := tight.exact
  have le := balance_le rest (some (.binaryOp c)) hasValue tight.context.2 tight.calls.tail
  have none : behindValue (some (.binaryOp c)) hasValue = 0 := rfl
  simp only [emitted, balance, rise, arity] at exact
  have value : behindValue before hasValue = 1 := by
    have one := behindValue_le before hasValue
    have bound := Bool.toNat_le hasValue
    omega
  have both : (Token.endsValue before && hasValue) = true := by
    simpa [behindValue] using value
  rw [Bool.and_eq_true] at both
  exact ⟨both.1, both.2, tight.context.2, tight.calls.tail, tight.separated, by omega⟩

theorem separator (tight : Tight env (.separator rest) before hasValue) :
    hasValue = true ∧ Token.endsValue before = true ∧
      Tight env rest (some .separator) false := by
  obtain ⟨rfl, separated⟩ := tight.separated
  have exact := tight.exact
  have le := balance_le rest (some .separator) false tight.context.2 tight.calls
  have none : behindValue (some .separator) false = 0 := rfl
  simp only [emitted, arity, Bool.toNat_true] at exact
  have value : behindValue before true = 1 := by
    have one := behindValue_le before true
    rw [Bool.toNat_true] at one
    omega
  have ends : Token.endsValue before = true := by
    simpa [behindValue] using value
  exact ⟨rfl, ends, tight.context.2, tight.calls, separated, by omega⟩

theorem call {f : FunctionName} {claimed : Nat}
    (tight : Tight env (.name f claimed (.group inner rest)) before hasValue) :
    0 < inner.arity false ∧ Tight env inner (some .leftParen) false ∧
      Tight env rest (some .rightParen) true := by
  obtain ⟨takes, callsInner, callsRest⟩ := tight.calls.call_parts
  have context := Token.contexted_append.mp tight.context.2.2
  have exact := tight.exact
  have leInner := balance_le inner (some .leftParen) false context.1 callsInner
  have leRest := balance_le rest (some .rightParen) true context.2.2 callsRest
  have none : behindValue (some .leftParen) false = 0 := rfl
  have value : behindValue (some .rightParen) true = 1 := rfl
  rw [behindValue_of_not_endsValue tight.context.1.1] at exact
  simp only [emitted, balance_append, balance, rise, arity] at exact
  exact ⟨takes, ⟨context.1, callsInner, tight.separated.1, by omega⟩,
    ⟨context.2.2, callsRest, tight.separated.2, by omega⟩⟩

/-- A group without arguments leaves its argument without a value. -/
theorem group (tight : Tight env (.group inner rest) before hasValue) :
    Tight env inner (some .leftParen) false ∧
      (0 < inner.arity false ∧ Tight env rest (some .rightParen) true ∨
        inner.arity false = 0 ∧ hasValue = false ∧ Tight env rest (some .rightParen) false) := by
  obtain ⟨callsInner, callsRest⟩ := tight.calls.group_parts
  obtain ⟨separatedInner, separatedRest⟩ := tight.separated
  have context := Token.contexted_append.mp tight.context.2
  have exact := tight.exact
  have leInner := balance_le inner (some .leftParen) false context.1 callsInner
  have none : behindValue (some .leftParen) false = 0 := rfl
  rw [behindValue_of_not_endsValue tight.context.1] at exact
  simp only [emitted, balance_append, balance_packed, arity] at exact
  by_cases takes : 0 < inner.arity false
  · have leRest := balance_le rest (some .rightParen) true context.2.2 callsRest
    have value : behindValue (some .rightParen) true = 1 := rfl
    simp only [takes, decide_true, Bool.or_true] at exact separatedRest
    refine ⟨⟨context.1, callsInner, separatedInner, ?_⟩,
      .inl ⟨takes, context.2.2, callsRest, separatedRest, ?_⟩⟩
    · split at exact <;> omega
    · split at exact <;> omega
  · have leRest := balance_le rest (some .rightParen) hasValue context.2.2 callsRest
    simp only [takes, decide_false, Bool.or_false] at exact separatedRest
    have few : ¬ 1 < inner.arity false := by omega
    rw [if_neg few] at exact
    have empty : hasValue = false := by
      cases hasValue with
      | false => rfl
      | true =>
        have value : behindValue (some .rightParen) true = 1 := rfl
        omega
    subst empty
    have value : behindValue (some .rightParen) false = 0 := rfl
    refine ⟨⟨context.1, callsInner, separatedInner, ?_⟩,
      .inr ⟨by omega, rfl, context.2.2, callsRest, separatedRest, ?_⟩⟩
    · omega
    · omega

end Tight

end Nest

end Calculator
