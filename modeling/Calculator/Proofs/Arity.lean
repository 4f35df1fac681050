import Calculator.Proofs.Machine
import Calculator.Proofs.Yard

/-!
How many components a result has. Each token that is carried out leaves one value, whose size the
token tells, so the size of a result is that of the last token. Compiling packs no tuple of fewer
than two components.
-/

namespace Calculator

namespace Code

theorem resultArity_append_singleton (code : List Token) (t : Token) :
    resultArity (code ++ [t]) = Machine.leaves t := by
  simp only [resultArity, List.getLast?_concat]
  cases t <;> rfl

/-- After a run the value on top is the one that the last token left. -/
theorem Machine.exists_of_run {m n : Machine} {code : List Token} (some : code ≠ [])
    (h : m.run code = (.ok (), n)) :
    ∃ (v : Value) (rest : List Value), n.stack = v :: rest ∧ v.arity = resultArity code := by
  cases code using List.reverseRecOn with
  | nil => exact absurd rfl some
  | append_singleton code t =>
    obtain ⟨middle, _, last⟩ := exists_of_run_append h
    obtain ⟨xs, v, rest, _, _, stack, size, _⟩ := exists_of_step (run_singleton_eq_ok_iff.mp last)
    exact ⟨v, rest, stack, size.trans (resultArity_append_singleton code t).symm⟩

theorem length_of_evaluate {code : List Token} {g g' : Random.Generator} {xs : List Float}
    (h : evaluate code g = (.ok xs, g')) : xs.length = resultArity code := by
  obtain ⟨v, ran, rfl⟩ := evaluate_eq_ok_iff.mp h
  have some : code ≠ [] := by
    intro empty
    subst empty
    cases ran
  obtain ⟨w, rest, stack, size⟩ := Machine.exists_of_run some ran
  cases stack
  exact size

namespace Yard

/-- The tuples packed so far have two components at least, and none waits to be packed. -/
structure PacksSeveral (y : Yard) : Prop where
  code : ∀ n, .tuple n ∈ y.code → 1 < n
  waiting : ∀ n, .tuple n ∉ y.waiting

theorem packsSeveral_of_push {y z : Yard} {t : Token} (h : y.push t = .ok z)
    (several : y.PacksSeveral) : z.PacksSeveral := by
  obtain ⟨sent, dropped, left, emitted, waits, replaces, before, code, waiting⟩ :=
    exists_of_push h
  have none := several.waiting
  rw [before] at none
  constructor
  · intro n mem
    rw [code] at mem
    rcases List.mem_append.mp mem with mem | mem
    · cases replaces with
      | several many =>
        cases List.mem_singleton.mp mem
        exact many
      | number x => cases List.mem_singleton.mp mem
      | call f claimed arity => cases List.mem_singleton.mp mem
      | sign | operator | name | separator | opening | single => cases mem
    · rcases List.mem_append.mp mem with mem | mem
      · exact absurd (List.mem_append_left _ (List.mem_reverse.mp mem)) (none n)
      · exact several.code n mem
  · intro n mem
    rw [waiting] at mem
    rcases List.mem_append.mp mem with mem | mem
    · cases replaces with
      | sign c => cases List.mem_singleton.mp mem
      | operator c => cases List.mem_singleton.mp mem
      | name f claimed => cases List.mem_singleton.mp mem
      | opening => cases List.mem_singleton.mp mem
      | number | separator | call | several | single => cases mem
    · exact none n (List.mem_append_right _ (List.mem_append_right _ mem))

theorem one_lt_of_mem_packed {arity n : Nat} (h : .tuple n ∈ packed arity) : 1 < n := by
  unfold packed at h
  split at h
  · cases List.mem_singleton.mp h
    assumption
  · cases h

end Yard

/-- Whatever the tokens, a tuple in their code has two components at least. -/
theorem one_lt_of_mem_ofTokens {tokens code : List Token} {n : Nat} (h : ofTokens tokens = .ok code)
    (mem : .tuple n ∈ code) : 1 < n := by
  obtain ⟨y, ran, finished⟩ := ofTokens_eq_ok_iff.mp h
  obtain ⟨_, _, rfl, _⟩ := Yard.finish_eq_ok_iff.mp finished
  have start : Yard.initial.PacksSeveral := by
    constructor
    · intro n mem
      cases mem
    · intro n mem
      cases mem
  have several : y.PacksSeveral :=
    Yard.initial_run_induction (motive := fun y _ => y.PacksSeveral)
      (fun several pushed => Yard.packsSeveral_of_push pushed several) start ran
  rcases List.mem_append.mp mem with mem | mem
  · rcases List.mem_append.mp mem with mem | mem
    · exact several.code n (List.mem_reverse.mp mem)
    · exact absurd mem (several.waiting n)
  · exact Yard.one_lt_of_mem_packed mem

theorem ne_nil_of_ofTokens {tokens code : List Token} (h : ofTokens tokens = .ok code) :
    code ≠ [] := by
  obtain ⟨y, _, finished⟩ := ofTokens_eq_ok_iff.mp h
  exact (Yard.finish_eq_ok_iff.mp finished).2.2.2

theorem resultArity_pos {tokens code : List Token} (h : ofTokens tokens = .ok code) :
    0 < resultArity code := by
  have some := ne_nil_of_ofTokens h
  cases code using List.reverseRecOn with
  | nil => exact absurd rfl some
  | append_singleton code t =>
    rw [resultArity_append_singleton]
    cases t with
    | tuple n =>
      have last : Token.tuple n ∈ code ++ [.tuple n] :=
        List.mem_append_right code List.mem_cons_self
      exact Nat.lt_of_succ_lt (one_lt_of_mem_ofTokens h last)
    | _ => exact Nat.one_pos

end Code

/-- The size of a result is read off the code, also off code that no formula compiles to. The result
of compiled code, well formed or not, has at least one component. -/
theorem length_eq_arity (env : Environment) :
    (∀ code xs, (env.evaluate code).1 = .ok xs → xs.length = Code.resultArity code) ∧
      (∀ tokens code xs, Code.ofTokens tokens = .ok code → (env.evaluate code).1 = .ok xs →
        xs ≠ []) ∧
      ∀ (f : Formula) xs, (f.evaluate env).1 = .ok xs → xs.length = f.arity := by
  have length (code : List Token) (xs : List Float) (h : (env.evaluate code).1 = .ok xs) :
      xs.length = Code.resultArity code :=
    Code.length_of_evaluate (Prod.ext h rfl)
  refine ⟨length, ?_, ?_⟩
  · intro tokens code xs compiled value empty
    have positive := Code.resultArity_pos compiled
    rw [← length code xs value, empty] at positive
    exact Nat.lt_irrefl 0 positive
  · intro f xs value
    exact length f.code xs value

/-- A pair that is compiled has two components; an empty tuple, which only code written by hand has,
has none. -/
theorem length_eq_arity_pair :
    (([] : List Float).length = Code.resultArity [.tuple 0]) ∧
      Code.ofTokens [.number 1, .separator, .number 2] = .ok [.number 1, .number 2, .tuple 2] ∧
      [(1 : Float), 2] ≠ [] ∧
      [(1 : Float), 2].length = (Formula.mk "1,2" [.number 1, .separator, .number 2]
        [.number 1, .number 2, .tuple 2]).arity := by
  have compiled : Code.ofTokens [.number 1, .separator, .number 2] =
      .ok [.number 1, .number 2, .tuple 2] := rfl
  have empty : (Environment.initial.evaluate [.tuple 0]).1 = .ok [] := rfl
  have pair : (Environment.initial.evaluate [.number 1, .number 2, .tuple 2]).1 = .ok [1, 2] := rfl
  obtain ⟨length, some, ofFormula⟩ := length_eq_arity .initial
  exact ⟨length _ _ empty, compiled, some _ _ _ compiled pair, ofFormula ⟨_, _, _⟩ _ pair⟩

end Calculator
