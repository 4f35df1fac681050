import Calculator.Proofs.Reading
import Calculator.Proofs.Yard
import Mathlib.Data.List.Perm.Basic

/-!
Tokens with their parentheses matched. Tokens that compile are such a nest, and compiling only
rearranges what the nest emits: its numbers, signs and operators, its functions with the number of
their arguments, and a tuple for each other group of several arguments.
-/

namespace Calculator

/-- Tokens in a row, each group of parentheses a row of its own. -/
inductive Nest
  | nil
  | number (x : Float) (rest : Nest)
  | sign (c : Char) (rest : Nest)
  | operator (c : Char) (rest : Nest)
  | separator (rest : Nest)
  | name (f : FunctionName) (claimed : Nat) (rest : Nest)
  | group (inner rest : Nest)

namespace Nest

def tokens : Nest → List Token
  | nil => []
  | number x rest => .number x :: rest.tokens
  | sign c rest => .prefixOp c :: rest.tokens
  | operator c rest => .binaryOp c :: rest.tokens
  | separator rest => .separator :: rest.tokens
  | name f claimed rest => .call f claimed :: rest.tokens
  | group inner rest => .leftParen :: (inner.tokens ++ .rightParen :: rest.tokens)

/-- How many arguments have a value, the first one if it already has or gets one. A number is a
value, and so are a function with its group and any other group with such an argument. -/
def arity : Nest → (hasValue : Bool) → Nat
  | nil, hasValue => hasValue.toNat
  | number _ rest, _ => rest.arity true
  | sign _ rest, hasValue | operator _ rest, hasValue => rest.arity hasValue
  | separator rest, hasValue => hasValue.toNat + rest.arity false
  | name _ _ (group _ rest), _ => rest.arity true
  | name _ _ rest, hasValue => rest.arity hasValue
  | group inner rest, hasValue => rest.arity (hasValue || decide (0 < inner.arity false))

/-- The tokens of the code, not in their order. -/
def emitted : Nest → List Token
  | nil => []
  | number x rest => .number x :: rest.emitted
  | sign c rest => .prefixOp c :: rest.emitted
  | operator c rest => .binaryOp c :: rest.emitted
  | separator rest => rest.emitted
  | name f _ (group inner rest) => inner.emitted ++ .call f (inner.arity false) :: rest.emitted
  | name f _ rest => .call f 0 :: rest.emitted
  | group inner rest =>
    inner.emitted ++ (Code.Yard.packed (inner.arity false) ++ rest.emitted)

/-- Each separator ends an argument that has a value. -/
def Separated : Nest → (hasValue : Bool) → Prop
  | nil, _ => True
  | number _ rest, _ => rest.Separated true
  | sign _ rest, hasValue | operator _ rest, hasValue => rest.Separated hasValue
  | separator rest, hasValue => hasValue = true ∧ rest.Separated false
  | name _ _ (group inner rest), _ => inner.Separated false ∧ rest.Separated true
  | name _ _ rest, hasValue => rest.Separated hasValue
  | group inner rest, hasValue =>
    inner.Separated false ∧ rest.Separated (hasValue || decide (0 < inner.arity false))

section Unapplied

variable {rest : Nest} (h : ∀ inner after, rest ≠ .group inner after) {f : FunctionName}
  {claimed : Nat} {hasValue : Bool}

include h

theorem arity_name : (name f claimed rest).arity hasValue = rest.arity hasValue := by
  cases rest <;> first | rfl | exact (h _ _ rfl).elim

theorem emitted_name : (name f claimed rest).emitted = .call f 0 :: rest.emitted := by
  cases rest <;> first | rfl | exact (h _ _ rfl).elim

theorem separated_name :
    (name f claimed rest).Separated hasValue ↔ rest.Separated hasValue := by
  cases rest <;> first | rfl | exact (h _ _ rfl).elim

end Unapplied

/-- Induction that takes a function together with the group behind it. -/
@[elab_as_elim]
theorem callInduction {motive : Nest → Prop} (nil : motive .nil)
    (number : ∀ x rest, motive rest → motive (.number x rest))
    (sign : ∀ c rest, motive rest → motive (.sign c rest))
    (operator : ∀ c rest, motive rest → motive (.operator c rest))
    (separator : ∀ rest, motive rest → motive (.separator rest))
    (call : ∀ f claimed inner rest, motive inner → motive rest →
      motive (.name f claimed (.group inner rest)))
    (name : ∀ f claimed rest, (∀ inner after, rest ≠ .group inner after) → motive rest →
      motive (.name f claimed rest))
    (group : ∀ inner rest, motive inner → motive rest → motive (.group inner rest))
    (nest : Nest) : motive nest := by
  induction nest using Nest.emitted.induct with
  | case1 => exact nil
  | case2 x rest ih => exact number x rest ih
  | case3 c rest ih => exact sign c rest ih
  | case4 c rest ih => exact operator c rest ih
  | case5 rest ih => exact separator rest ih
  | case6 f claimed inner rest ihInner ihRest => exact call f claimed inner rest ihInner ihRest
  | case7 f claimed rest notGroup ih => exact name f claimed rest notGroup ih
  | case8 inner rest ihInner ihRest => exact group inner rest ihInner ihRest

end Nest

namespace Code.Yard

theorem length_outer_of_push {y z : Yard} {t : Token} (h : y.push t = .ok z) :
    z.outer.length + [t].count .rightParen = y.outer.length + [t].count .leftParen := by
  cases t with
  | number x => cases h; rfl
  | prefixOp c => cases h; rfl
  | binaryOp c =>
    simp only [push, binary] at h
    split at h
    · cases h
    · cases h; rfl
  | leftParen => cases h; rfl
  | rightParen =>
    obtain ⟨enclosing, _, _, _, _, _, outer, _⟩ := exists_of_close h
    simp [outer]
  | separator =>
    simp only [push, separate, drain] at h
    split at h
    · cases h; rfl
    · cases h
  | call name n => cases h; rfl
  | tuple n => cases h

/-- Tokens that close all groups are a nest and, behind it, a parenthesis and a nest for each group
that was open. -/
theorem exists_nest {y z : Yard} {ts : List Token} (ran : y.run ts = .ok z)
    (closed : z.outer = []) :
    ∃ (nest : Nest) (enclosing : List Nest), enclosing.length = y.outer.length ∧
      ts = nest.tokens ++ enclosing.flatMap fun n => .rightParen :: n.tokens := by
  induction ts generalizing y with
  | nil =>
    cases ran
    exact ⟨.nil, [], by simp [closed], rfl⟩
  | cons t ts ih =>
    obtain ⟨m, pushed, ran⟩ := exists_of_run_cons ran
    obtain ⟨nest, enclosing, length, rfl⟩ := ih ran
    have outer := length_outer_of_push pushed
    cases t with
    | number x => exact ⟨.number x nest, enclosing, by simpa [length] using outer, rfl⟩
    | prefixOp c => exact ⟨.sign c nest, enclosing, by simpa [length] using outer, rfl⟩
    | binaryOp c => exact ⟨.operator c nest, enclosing, by simpa [length] using outer, rfl⟩
    | separator => exact ⟨.separator nest, enclosing, by simpa [length] using outer, rfl⟩
    | call f n => exact ⟨.name f n nest, enclosing, by simpa [length] using outer, rfl⟩
    | tuple n => cases pushed
    | rightParen => exact ⟨.nil, nest :: enclosing, by simpa [length] using outer, rfl⟩
    | leftParen =>
      cases enclosing with
      | nil => simp [← length] at outer
      | cons rest enclosing =>
        exact ⟨.group nest rest, enclosing, by simpa [← length] using outer, by simp [Nest.tokens]⟩

/-- An operator takes nothing that waits in an enclosing group. -/
theorem takeWhile_append_of_bottom {below : List Token} (bottom : ∀ t ∈ below.head?, t = .leftParen)
    (op : Operator) (waiting : List Token) :
    (waiting ++ below).takeWhile (yields op) = waiting.takeWhile (yields op) ∧
      (waiting ++ below).dropWhile (yields op) = waiting.dropWhile (yields op) ++ below := by
  induction waiting with
  | nil =>
    cases below with
    | nil => exact ⟨rfl, rfl⟩
    | cons top below =>
      cases bottom top rfl
      exact ⟨rfl, rfl⟩
  | cons top waiting ih =>
    cases taken : yields op top with
    | true => simp [taken, ih]
    | false => simp [taken]

theorem exists_of_push_binaryOp {code waiting below : List Token} {group : Group}
    {outer : List Group} {z : Yard} {c : Char} (bottom : ∀ t ∈ below.head?, t = .leftParen)
    (pushed : push ⟨code, waiting ++ below, group, outer⟩ (.binaryOp c) = .ok z) :
    ∃ taken left, waiting = taken ++ left ∧
      z = ⟨taken.reverse ++ code, .binaryOp c :: (left ++ below), group, outer⟩ := by
  simp only [push, binary] at pushed
  split at pushed
  · cases pushed
  · rename_i op _
    cases pushed
    obtain ⟨taken, left⟩ := takeWhile_append_of_bottom bottom op waiting
    refine ⟨waiting.takeWhile (yields op), waiting.dropWhile (yields op),
      List.takeWhile_append_dropWhile.symm, ?_⟩
    rw [taken, left]

theorem ne_group {env : Environment} {value : Token} {nest : Nest}
    (context : Token.Contexted env (some value) nest.tokens) (ends : value.kind.endsValue = true)
    (inner rest : Nest) : nest ≠ .group inner rest := by
  rintro rfl
  have apart : value.kind.endsValue = false := context.1
  rw [ends] at apart
  cases apart

open List in
/-- Compiling a nest sends on and leaves waiting what waited and what the nest emits, and counts its
arguments. -/
theorem run_nest (nest : Nest) (waiting below : List Token) {env : Environment}
    {before : Option Token} {code : List Token} {hasValue : Bool} {complete : Nat}
    {outer : List Group} {y : Yard} (context : Token.Contexted env before nest.tokens)
    (free : ∀ inner rest, nest = .group inner rest →
      ∀ t ∈ (waiting ++ below).head?, t.kind ≠ .call)
    (bottom : ∀ t ∈ below.head?, t = .leftParen)
    (ran : run ⟨code, waiting ++ below, ⟨hasValue, complete, below.length⟩, outer⟩ nest.tokens =
      .ok y) :
    nest.Separated hasValue ∧ ∃ sent kept hasValue' complete',
      y = ⟨sent.reverse ++ code, kept ++ below, ⟨hasValue', complete', below.length⟩, outer⟩ ∧
      complete' + hasValue'.toNat = complete + nest.arity hasValue ∧
      sent ++ kept ~ nest.emitted ++ waiting := by
  induction nest using Nest.callInduction generalizing waiting below before code hasValue complete
    outer y with
  | nil =>
    cases ran
    exact ⟨trivial, [], waiting, hasValue, complete, rfl, rfl, Perm.refl _⟩
  | number x rest ih =>
    obtain ⟨m, pushed, ran⟩ := exists_of_run_cons ran
    cases pushed
    obtain ⟨separated, sent, kept, hasValue', complete', rfl, count, perm⟩ :=
      ih waiting below context.2
        (fun inner after h => (ne_group context.2 rfl inner after h).elim) bottom ran
    exact ⟨separated, .number x :: sent, kept, hasValue', complete', by simp, count, perm.cons _⟩
  | sign c rest ih =>
    obtain ⟨m, pushed, ran⟩ := exists_of_run_cons ran
    cases pushed
    obtain ⟨separated, sent, kept, hasValue', complete', rfl, count, perm⟩ :=
      ih (.prefixOp c :: waiting) below context.2 (by simp [Token.kind]) bottom ran
    exact ⟨separated, sent, kept, hasValue', complete', rfl, count, perm.trans perm_middle⟩
  | operator c rest ih =>
    obtain ⟨m, pushed, ran⟩ := exists_of_run_cons ran
    obtain ⟨taken, left, rfl, rfl⟩ := exists_of_push_binaryOp bottom pushed
    obtain ⟨separated, sent, kept, hasValue', complete', rfl, count, perm⟩ :=
      ih (.binaryOp c :: left) below context.2 (by simp [Token.kind]) bottom ran
    refine ⟨separated, taken ++ sent, kept, hasValue', complete', by simp, count, ?_⟩
    -- Which operators are taken depends on how tightly they bind, how often each occurs does not.
    rw [perm_iff_count] at perm ⊢
    intro t
    have outside := perm t
    simp only [Nest.emitted, cons_append, count_append, count_cons] at outside ⊢
    omega
  | separator rest ih =>
    obtain ⟨m, pushed, ran⟩ := exists_of_run_cons ran
    cases hasValue with
    | false => cases pushed
    | true =>
      rw [push_separator] at pushed
      cases pushed
      obtain ⟨separated, sent, kept, hasValue', complete', rfl, count, perm⟩ :=
        ih [] below context.2
          (fun inner after _ t top => by simp [bottom t top, Token.kind]) bottom ran
      refine ⟨⟨rfl, separated⟩, waiting ++ sent, kept, hasValue', complete', by simp, ?_, ?_⟩
      · rw [count, Nest.arity, Bool.toNat_true, Nat.add_assoc]
      · rw [append_nil] at perm
        rw [append_assoc]
        exact (perm.append_left waiting).trans perm_append_comm
  | call f claimed inner rest ihInner ihRest =>
    obtain ⟨named, pushed, ran⟩ := exists_of_run_cons ran
    cases pushed
    obtain ⟨opened, pushed, ran⟩ := exists_of_run_cons ran
    cases pushed
    obtain ⟨inside, ranInner, ran⟩ := exists_of_run_append ran
    obtain ⟨closed, pushed, ran⟩ := exists_of_run_cons ran
    have context' := Token.contexted_append.mp context.2.2
    obtain ⟨separatedInner, sent₁, kept₁, hasValue₁, complete₁, rfl, count₁, perm₁⟩ :=
      ihInner [] (.leftParen :: .call f 0 :: (waiting ++ below)) context'.1
        (by simp [Token.kind]) (by simp) ranInner
    rw [push_rightParen_call] at pushed
    cases pushed
    obtain ⟨separated, sent, kept, hasValue', complete', rfl, count, perm⟩ :=
      ihRest waiting below context'.2.2
        (fun inner after h => (ne_group context'.2.2 rfl inner after h).elim) bottom ran
    rw [Nat.zero_add] at count₁
    refine ⟨⟨separatedInner, separated⟩,
      sent₁ ++ kept₁ ++ .call f (inner.arity false) :: sent, kept, hasValue', complete',
      by simp [count₁], count, ?_⟩
    rw [perm_iff_count] at perm perm₁ ⊢
    intro t
    have outside := perm t
    have inside := perm₁ t
    simp only [Nest.emitted, append_nil, cons_append, append_assoc, count_append, count_cons]
      at outside inside ⊢
    omega
  | name f claimed rest notGroup ih =>
    obtain ⟨m, pushed, ran⟩ := exists_of_run_cons ran
    cases pushed
    obtain ⟨separated, sent, kept, hasValue', complete', rfl, count, perm⟩ :=
      ih (.call f 0 :: waiting) below context.2
        (fun inner after h => (notGroup inner after h).elim) bottom ran
    refine ⟨(Nest.separated_name notGroup).mpr separated, sent, kept, hasValue', complete', rfl,
      Nest.arity_name notGroup ▸ count, ?_⟩
    rw [Nest.emitted_name notGroup]
    exact perm.trans perm_middle
  | group inner rest ihInner ihRest =>
    obtain ⟨opened, pushed, ran⟩ := exists_of_run_cons ran
    cases pushed
    obtain ⟨inside, ranInner, ran⟩ := exists_of_run_append ran
    obtain ⟨closed, pushed, ran⟩ := exists_of_run_cons ran
    have context' := Token.contexted_append.mp context.2
    obtain ⟨separatedInner, sent₁, kept₁, hasValue₁, complete₁, rfl, count₁, perm₁⟩ :=
      ihInner [] (.leftParen :: (waiting ++ below)) context'.1 (by simp [Token.kind]) (by simp)
        ranInner
    rw [push_rightParen_bare (free inner rest rfl)] at pushed
    cases pushed
    obtain ⟨separated, sent, kept, hasValue', complete', rfl, count, perm⟩ :=
      ihRest waiting below context'.2.2
        (fun inner after h => (ne_group context'.2.2 rfl inner after h).elim) bottom ran
    rw [Nat.zero_add] at count₁
    rw [count₁] at separated count
    refine ⟨⟨separatedInner, separated⟩,
      sent₁ ++ kept₁ ++ packed (inner.arity false) ++ sent, kept, hasValue', complete',
      by simp [count₁, reverse_packed], count, ?_⟩
    rw [perm_iff_count] at perm perm₁ ⊢
    intro t
    have outside := perm t
    have inside := perm₁ t
    simp only [Nest.emitted, append_nil, append_assoc, count_append] at outside inside ⊢
    omega

open List in
theorem exists_nest_of_initial {env : Environment} {tokens : List Token} {y : Yard}
    (context : Token.Contexted env none tokens) (ran : initial.run tokens = .ok y)
    (closed : y.outer = []) :
    ∃ (nest : Nest) (sent kept : List Token) (hasValue : Bool) (complete : Nat),
      nest.tokens = tokens ∧ nest.Separated false ∧
      y = ⟨sent.reverse, kept, ⟨hasValue, complete, 0⟩, []⟩ ∧
      complete + hasValue.toNat = nest.arity false ∧ sent ++ kept ~ nest.emitted := by
  obtain ⟨nest, enclosing, length, whole⟩ := exists_nest ran closed
  cases List.length_eq_zero_iff.mp length
  rw [flatMap_nil, append_nil] at whole
  subst whole
  obtain ⟨separated, sent, kept, hasValue, complete, rfl, count, perm⟩ :=
    run_nest nest [] [] context (by simp) (by simp) ran
  refine ⟨nest, sent, kept, hasValue, complete, rfl, separated, ?_, ?_, ?_⟩
  · simp
  · rw [count, Nat.zero_add]
  · rw [append_nil] at perm
    exact perm

end Code.Yard

open List in
/-- A formula that compiles is a nest, and its code is what the nest emits. -/
theorem Nest.exists_of_ofTokens {env : Environment} {tokens code : List Token}
    (context : Token.Contexted env none tokens) (h : Code.ofTokens tokens = .ok code) :
    ∃ nest : Nest, nest.tokens = tokens ∧ nest.Separated false ∧
      code ~ nest.emitted ++ Code.Yard.packed (nest.arity false) := by
  obtain ⟨y, ran, finished⟩ := Code.ofTokens_eq_ok_iff.mp h
  obtain ⟨closed, _, rfl, _⟩ := Code.Yard.finish_eq_ok_iff.mp finished
  obtain ⟨nest, sent, kept, hasValue, complete, tokens, separated, rfl, count, perm⟩ :=
    Code.Yard.exists_nest_of_initial context ran closed
  refine ⟨nest, tokens, separated, ?_⟩
  rw [Code.Yard.arity_mk, count, List.reverse_reverse]
  exact perm.append_right _

end Calculator
