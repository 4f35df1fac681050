import Calculator.Proofs.Dangling

/-!
A separator does not keep signs from the argument before it. Signs without an operand behind the
last separator are applied to the value of the argument before, if that is a number; all else that
has no operand in its argument is refused.
-/

namespace Calculator

open Code

theorem Token.ofText_digit (env : Environment) {text : String} {c : Char}
    (chars : text.toList = [c]) (unbroken : isBoundary c = false) (isDigit : c.isDigit = true) :
    ofText env text = .ok [number (digit c)] := by
  simp [ofText, chars, scan, unbroken, emitRun_digit isDigit, emit, Except.map]

namespace Code.Machine

variable {m n : Machine} {g : Random.Generator}

theorem run_packed_numbers (xs : List Float) (some : 0 < xs.length) :
    ∃ v : Value, run ⟨numbers xs, g⟩ (Yard.packed xs.length) = (.ok (), ⟨[v], g⟩) ∧
      v.components = xs := by
  unfold Yard.packed
  split
  · exact ⟨.tuple xs, run_singleton_eq_ok_iff.mpr (step_tuple_numbers xs), rfl⟩
  · rename_i few
    obtain ⟨x, rfl⟩ : ∃ x, xs = [x] := List.length_eq_one_iff.mp (by omega)
    exact ⟨.scalar x, rfl, rfl⟩

theorem exists_numbers_of_run_packed {x : Float} {stack : List Value}
    (top : m.stack = .scalar x :: stack)
    (ran : m.run (Yard.packed m.stack.length) = (.ok (), n)) :
    ∃ xs : List Float, m.stack = numbers xs := by
  unfold Yard.packed at ran
  split at ran
  · exact exists_numbers_of_step_tuple rfl (run_singleton_eq_ok_iff.mp ran)
  · rename_i few
    have none : stack = [] := by
      rw [top, List.length_cons] at few
      exact List.length_eq_zero_iff.mp (by omega)
    exact ⟨[x], by rw [top, none]; rfl⟩

end Code.Machine

namespace Dangle

open Machine

def apply (d : Dangle) (x : Float) : Float := d.signs.foldr Sign.apply x

theorem run_code (d : Dangle) (x : Float) (stack : List Value) (g : Random.Generator) :
    Machine.run ⟨.scalar x :: stack, g⟩ d.code = (.ok (), ⟨.scalar (d.apply x) :: stack, g⟩) := by
  unfold code apply
  induction d.signs with
  | nil => rfl
  | cons s signs ih =>
    simp only [List.reverse_cons, List.map_append, List.map_cons, List.map_nil]
    rw [run_append_ok ih, run_cons]
    simp only [Machine.step, Sign.signOfSymbol?_symbol]
    rfl

theorem exists_scalar_of_run_code {d : Dangle} (some : d.signs ≠ []) {m n : Machine}
    (ran : m.run d.code = (.ok (), n)) : ∃ x stack, m.stack = .scalar x :: stack := by
  unfold code at ran
  cases reversed : d.signs.reverse with
  | nil => exact absurd (List.reverse_eq_nil_iff.mp reversed) some
  | cons s signs =>
    rw [reversed, List.map_cons, run_cons] at ran
    simp only [Machine.step, Sign.signOfSymbol?_symbol] at ran
    cases popped : popScalar m.stack with
    | error e =>
      rw [popped] at ran
      cases ran
    | ok r => exact ⟨r.1, r.2, eq_of_popScalar popped⟩

end Dangle

namespace Enclosure

open Machine

def Takes : Enclosure → (arity : Nat) → Prop
  | formula, _ | parens, _ => True
  | args f, arity => f.arity = arity

/-- Code that ends like this leaves one value. -/
def Ends (k : Enclosure) (m : Machine) (arity : Nat) : Prop :=
  ∃ v g, m.run (k.closes arity) = (.ok (), ⟨[v], g⟩)

theorem ends_numbers_iff (k : Enclosure) {xs : List Float} (some : 0 < xs.length)
    (g : Random.Generator) : k.Ends ⟨numbers xs, g⟩ xs.length ↔ k.Takes xs.length := by
  have packed : ∃ v g', Machine.run ⟨numbers xs, g⟩ (Yard.packed xs.length) =
      (.ok (), ⟨[v], g'⟩) := by
    obtain ⟨v, ran, _⟩ := run_packed_numbers (g := g) xs some
    exact ⟨v, g, ran⟩
  cases k with
  | formula => exact ⟨fun _ => trivial, fun _ => packed⟩
  | parens => exact ⟨fun _ => trivial, fun _ => packed⟩
  | args f =>
    constructor
    · rintro ⟨v, g', ran⟩
      obtain ⟨f', _, known, exact, _⟩ := exists_numbers_of_step_call (length_numbers xs)
        (run_singleton_eq_ok_iff.mp ran)
      rw [Builtin.ofName?_name] at known
      cases known
      exact exact
    · intro takes
      obtain ⟨x, g', stepped⟩ := exists_of_step_call_numbers (g := g) (f := f) takes.symm
      exact ⟨.scalar x, g', run_singleton_eq_ok_iff.mpr stepped⟩

theorem exists_numbers_of_ends {k : Enclosure} {m : Machine} {x : Float} {stack : List Value}
    (top : m.stack = .scalar x :: stack) (ends : k.Ends m m.stack.length) :
    ∃ xs, m.stack = numbers xs := by
  obtain ⟨v, g, ran⟩ := ends
  cases k with
  | formula => exact exists_numbers_of_run_packed top ran
  | parens => exact exists_numbers_of_run_packed top ran
  | args f =>
    obtain ⟨_, xs, _, _, stack⟩ :=
      exists_numbers_of_step_call rfl (run_singleton_eq_ok_iff.mp ran)
    exact ⟨xs, stack⟩

/-- Signs can be applied in front of the end where the last value is a number, and then to it. -/
theorem run_dangling_iff (k : Enclosure) {d : Dangle} (some : d.signs ≠ []) (m : Machine)
    (arity : 0 < m.stack.length) :
    (∃ v g, m.run (d.code ++ k.closes m.stack.length) = (.ok (), ⟨[v], g⟩)) ↔
      (∃ xs, m.stack = numbers xs) ∧ k.Ends m m.stack.length := by
  obtain ⟨stack, g⟩ := m
  -- Whether the end can follow does not depend on which numbers there are.
  have same (xs : List Float) (x : Float) :
      k.Ends ⟨.scalar x :: numbers xs, g⟩ (numbers xs).length.succ ↔
        k.Ends ⟨.scalar (d.apply x) :: numbers xs, g⟩ (numbers xs).length.succ := by
    have length (y : Float) : (numbers xs).length.succ = (xs ++ [y]).length := by
      simp [length_numbers]
    rw [← numbers_append_singleton, ← numbers_append_singleton, length x,
      k.ends_numbers_iff (by simp), ← length x, length (d.apply x), k.ends_numbers_iff (by simp),
      ← length (d.apply x)]
  constructor
  · rintro ⟨v, g', ran⟩
    cases first : Machine.run ⟨stack, g⟩ d.code with
    | mk result m =>
      cases result with
      | error e =>
        rw [run_append_error first] at ran
        cases ran
      | ok u =>
        obtain ⟨x, rest, top⟩ := Dangle.exists_scalar_of_run_code some first
        cases top
        rw [run_append_ok (d.run_code x rest g)] at ran
        have ends : k.Ends ⟨.scalar (d.apply x) :: rest, g⟩ rest.length.succ := ⟨v, g', ran⟩
        obtain ⟨xs, stack⟩ := exists_numbers_of_ends rfl ends
        obtain ⟨ys, y, rfl, _, rfl⟩ := exists_of_numbers_eq_cons stack.symm
        exact ⟨⟨ys ++ [x], (numbers_append_singleton ys x).symm⟩, (same ys x).mpr ends⟩
  · rintro ⟨⟨xs, whole⟩, ends⟩
    cases stack with
    | nil => cases arity
    | cons v rest =>
      obtain ⟨ys, y, _, rfl, rfl⟩ := exists_of_numbers_eq_cons whole.symm
      obtain ⟨w, g', ran⟩ := (same ys y).mp ends
      exact ⟨w, g', by rw [run_append_ok (d.run_code y _ g)]; exact ran⟩

end Enclosure

/-- A text has a value. -/
def Environment.Accepts (env : Environment) (text : String) : Prop :=
  ∃ xs env', env.interpret text = (.ok xs, env')

namespace Environment

open Yard

variable {env : Environment} {text : String}

theorem accepts_iff :
    env.Accepts text ↔
      ∃ tokens y code, Token.ofText env text = .ok tokens ∧ Yard.initial.run tokens = .ok y ∧
        y.finish = .ok code ∧
        ∃ v g, Machine.run ⟨[], env.generator⟩ code = (.ok (), ⟨[v], g⟩) := by
  constructor
  · rintro ⟨xs, env', ok⟩
    obtain ⟨tokens, code, read, compiled, value, _⟩ := interpret_eq_ok_iff.mp ok
    obtain ⟨y, ran, finished⟩ := ofTokens_eq_ok_iff.mp compiled
    obtain ⟨v, evaluated, _⟩ := evaluate_eq_ok_iff.mp value
    exact ⟨tokens, y, code, read, ran, finished, v, _, evaluated⟩
  · rintro ⟨tokens, y, code, read, ran, finished, v, g, evaluated⟩
    refine ⟨v.components, { env with generator := g }, ?_⟩
    rw [interpret_eq_ok_iff]
    exact ⟨tokens, code, read, ofTokens_eq_ok_iff.mpr ⟨y, ran, finished⟩,
      evaluate_eq_ok_iff.mpr ⟨v, evaluated, rfl⟩, rfl⟩

/-- A text is read and compiled up to its last step; its last argument has a value, and its code
leaves the values of the arguments. -/
structure Prepares (env : Environment) (text : String) (first sent kept : List Token)
    (complete : Nat) (m : Machine) : Prop where
  read : Token.ofText env text = .ok first
  compiled : Yard.initial.run first = .ok ⟨sent.reverse, kept, ⟨true, complete, 0⟩, []⟩
  ran : Machine.run ⟨[], env.generator⟩ (sent ++ kept) = (.ok (), m)
  height : m.stack.length = complete + 1

theorem exists_of_accepts (accepted : env.Accepts text) :
    (∃ first sent kept complete m, env.Prepares text first sent kept complete m) ∨
      ∃ (first sent kept : List Token) (complete : Nat), Token.ofText env text = .ok first ∧
        Yard.initial.run first = .ok ⟨sent.reverse, kept, ⟨false, complete, 0⟩, []⟩ := by
  obtain ⟨first, y, code, read, ran, finished, v, g, evaluated⟩ := accepts_iff.mp accepted
  obtain ⟨closed, _, rfl, _⟩ := finish_eq_ok_iff.mp finished
  obtain ⟨_, sent, kept, hasValue, complete, _, _, rfl, _, _⟩ :=
    exists_nest_of_initial (Token.contexted_of_ofText read) ran closed
  cases hasValue with
  | false => exact .inr ⟨first, sent, kept, complete, read, ran⟩
  | true =>
    simp only [List.reverse_reverse, arity_mk, Bool.toNat_true] at evaluated
    cases first' : Machine.run ⟨[], env.generator⟩ (sent ++ kept) with
    | mk result m =>
      cases result with
      | error e =>
        rw [Machine.run_append_error first'] at evaluated
        cases evaluated
      | ok u =>
        refine .inl ⟨first, sent, kept, complete, m, read, ran, first', ?_⟩
        obtain ⟨before, _⟩ := Machine.length_of_run first'
        obtain ⟨whole, _⟩ := Machine.length_of_run evaluated
        have ends := Enclosure.formula.balance_closes (Nat.succ_pos complete)
        change _ = _ + Machine.balance _ at before whole
        rw [Machine.balance_append] at whole
        change Machine.balance (packed (complete + 1)) = _ at ends
        simp only [List.length_nil, List.length_singleton] at before whole
        omega

variable {first sent kept : List Token} {complete : Nat} {m : Machine} {s t : String}
  {k : Enclosure}

theorem formula_text_zero (s : String) : Enclosure.formula.text (s ++ "," ++ "0") = s ++ ",0" :=
  String.append_assoc

theorem not_accepts_separated (visible : k.Visible env) (read : Token.ofText env s = .ok first)
    (compiled : Yard.initial.run first = .ok ⟨sent.reverse, kept, ⟨false, complete, 0⟩, []⟩) :
    ¬ env.Accepts (k.text (s ++ "," ++ t)) := by
  intro accepted
  obtain ⟨tokens, y, code, whole, ran, _⟩ := accepts_iff.mp accepted
  rw [Token.ofText_enclosed_separated visible read] at whole
  cases last : Token.ofText env t with
  | error e =>
    rw [last] at whole
    cases whole
  | ok last' =>
    rw [last] at whole
    cases whole
    simp only [k.run_separated_of_not_hasValue compiled] at ran
    cases ran

theorem exists_prepares (visible : k.Visible env) (accepted : env.Accepts s)
    (whole : env.Accepts (k.text (s ++ "," ++ t))) :
    ∃ first sent kept complete m, env.Prepares s first sent kept complete m := by
  rcases exists_of_accepts accepted with prepared | ⟨first, sent, kept, complete, read, compiled⟩
  · exact prepared
  · exact absurd whole (not_accepts_separated visible read compiled)

theorem exists_prepares_of_another (accepted : env.Accepts s) (another : env.Accepts (s ++ ",0")) :
    ∃ first sent kept complete m, env.Prepares s first sent kept complete m := by
  have visible : Enclosure.formula.Visible env := trivial
  rw [← formula_text_zero] at another
  exact exists_prepares visible accepted another

namespace Prepares

variable (prepares : env.Prepares s first sent kept complete m)

include prepares

theorem some : sent ++ kept ≠ [] := by
  intro empty
  have ran := prepares.ran
  have height := prepares.height
  rw [empty] at ran
  cases ran
  cases height

theorem accepts_separated_iff (visible : k.Visible env) {last : List Token}
    (read : Token.ofText env t = .ok last) :
    env.Accepts (k.text (s ++ "," ++ t)) ↔
      ∃ y code, (k.resumed (sent ++ kept) (complete + 1)).run (last ++ k.closing) = .ok y ∧
        y.finish = .ok code ∧
        ∃ v g, Machine.run ⟨[], env.generator⟩ code = (.ok (), ⟨[v], g⟩) := by
  have whole : Token.ofText env (k.text (s ++ "," ++ t)) =
      .ok (k.opening ++ (first ++ .separator :: (last ++ k.closing))) := by
    rw [Token.ofText_enclosed_separated visible prepares.read, read]
    rfl
  rw [accepts_iff]
  constructor
  · rintro ⟨tokens, y, code, same, ran, finished, evaluated⟩
    rw [whole] at same
    cases same
    rw [k.run_separated prepares.compiled] at ran
    exact ⟨y, code, ran, finished, evaluated⟩
  · rintro ⟨y, code, ran, finished, evaluated⟩
    exact ⟨_, y, code, whole, (k.run_separated prepares.compiled _).trans ran, finished, evaluated⟩

/-- What a separator is followed by runs on the values of the arguments before it. -/
theorem accepts_behind_iff (visible : k.Visible env) {last rest : List Token} {y : Yard}
    (read : Token.ofText env t = .ok last)
    (ran : (k.resumed (sent ++ kept) (complete + 1)).run (last ++ k.closing) = .ok y)
    (finished : y.finish = .ok (sent ++ kept ++ rest)) :
    env.Accepts (k.text (s ++ "," ++ t)) ↔ ∃ v g, m.run rest = (.ok (), ⟨[v], g⟩) := by
  rw [prepares.accepts_separated_iff visible read, ← Machine.run_append_ok prepares.ran]
  constructor
  · rintro ⟨y', code, ran', finished', evaluated⟩
    rw [ran] at ran'
    cases ran'
    rw [finished] at finished'
    cases finished'
    exact evaluated
  · intro evaluated
    exact ⟨y, _, ran, finished, evaluated⟩

theorem accepts_dangling_iff (visible : k.Visible env) {d : Dangle}
    (read : Token.ofText env t = .ok d.tokens) :
    env.Accepts (k.text (s ++ "," ++ t)) ↔
      ∃ v g, m.run (d.code ++ k.closes (complete + 1)) = (.ok (), ⟨[v], g⟩) := by
  obtain ⟨y, ran, finished⟩ := k.exists_finish_dangling d prepares.some (complete + 1)
  rw [List.append_assoc] at finished
  exact prepares.accepts_behind_iff visible read ran finished

theorem accepts_trailing_iff (visible : k.Visible env) :
    env.Accepts (k.text (s ++ ",")) ↔ k.Ends m (complete + 1) := by
  have read : Token.ofText env "" = .ok Dangle.nil.tokens := by
    have chars : "".toList = [] := rfl
    rw [Token.ofText, chars, Token.scan, List.reverse_nil, Token.emitRun_nil]
    rfl
  have same : s ++ "," ++ "" = s ++ "," := String.append_empty
  rw [← same, prepares.accepts_dangling_iff visible read]
  rfl

theorem accepts_zero_iff :
    env.Accepts (s ++ ",0") ↔
      ∃ v g, m.run [.number (Token.digit '0'), .tuple (complete + 2)] = (.ok (), ⟨[v], g⟩) := by
  have read : Token.ofText env "0" = .ok [.number (Token.digit '0')] :=
    Token.ofText_digit env rfl rfl rfl
  have visible : Enclosure.formula.Visible env := trivial
  have ran : (Enclosure.formula.resumed (sent ++ kept) (complete + 1)).run
      ([.number (Token.digit '0')] ++ Enclosure.formula.closing) =
        .ok ⟨.number (Token.digit '0') :: (sent ++ kept).reverse, [],
          ⟨true, complete + 1, 0⟩, []⟩ := rfl
  rw [← formula_text_zero]
  refine prepares.accepts_behind_iff visible read ran (finish_eq_ok_iff.mpr ⟨rfl, rfl, ?_, ?_⟩)
  · simp [arity_mk, packed]
  · simp

theorem accepts_another_iff :
    env.Accepts (s ++ ",0") ↔ ∃ xs, m.stack = Machine.numbers xs := by
  have height := prepares.height
  rw [prepares.accepts_zero_iff]
  constructor
  · rintro ⟨v, g, ran⟩
    have tupled := Machine.run_singleton_eq_ok_iff.mp ran
    have length : (Value.scalar (Token.digit '0') :: m.stack).length = complete + 2 := by
      rw [List.length_cons, height]
    obtain ⟨xs, stack⟩ := Machine.exists_numbers_of_step_tuple length tupled
    obtain ⟨ys, _, _, _, rest⟩ := Machine.exists_of_numbers_eq_cons stack.symm
    exact ⟨ys, rest⟩
  · rintro ⟨xs, stack⟩
    have length : (xs ++ [Token.digit '0']).length = complete + 2 := by
      rw [stack, Machine.length_numbers] at height
      simp [height]
    have tupled := Machine.step_tuple_numbers (g := m.generator) (xs ++ [Token.digit '0'])
    rw [Machine.numbers_append_singleton, ← stack, length] at tupled
    exact ⟨_, _, Machine.run_singleton_eq_ok_iff.mpr tupled⟩

theorem exists_dangle_of_accepts (visible : k.Visible env) (operandless : Token.Operandless t)
    (accepted : env.Accepts (k.text (s ++ "," ++ t))) :
    ∃ d : Dangle, Token.ofText env t = .ok d.tokens := by
  obtain ⟨last, read, _, plain⟩ := Token.exists_of_operandless env operandless
  obtain ⟨y, code, ran, finished, v, g, evaluated⟩ :=
    (prepares.accepts_separated_iff visible read).mp accepted
  have whole := Token.ofText_enclosed_separated visible prepares.read t
  rw [read] at whole
  have contexts := Token.contexted_append.mp
    (Token.contexted_append.mp (Token.contexted_of_ofText whole)).2
  have before := (Machine.length_of_run prepares.ran).1
  have after := (Machine.length_of_run evaluated).1
  have balanced :
      Machine.balance code = Machine.balance (sent ++ kept) + (1 - (complete + 1 : Nat)) := by
    change _ = _ + Machine.balance _ at before after
    rw [prepares.height] at before
    simp only [List.length_nil, List.length_singleton] at before after
    omega
  obtain ⟨d, rfl⟩ := Enclosure.exists_dangle_of_finish contexts.2.2 plain (Nat.succ_pos complete)
    ran finished balanced
  exact ⟨d, read⟩

theorem eq_of_interpret {xs zs : List Float} {env' : Environment}
    (stack : m.stack = Machine.numbers xs) (value : env.interpret s = (.ok zs, env')) :
    zs = xs ∧ env' = { env with generator := m.generator } := by
  obtain ⟨tokens, code, read, compiled, evaluated, left⟩ := interpret_eq_ok_iff.mp value
  rw [prepares.read] at read
  cases read
  obtain ⟨y, ran, finished⟩ := ofTokens_eq_ok_iff.mp compiled
  rw [prepares.compiled] at ran
  cases ran
  obtain ⟨_, _, rfl, _⟩ := finish_eq_ok_iff.mp finished
  obtain ⟨v, ran, rfl⟩ := evaluate_eq_ok_iff.mp evaluated
  have length : complete + Bool.toNat true = xs.length := by
    rw [← Machine.length_numbers, ← stack, prepares.height]
    rfl
  rw [List.reverse_reverse, arity_mk, Machine.run_append_ok prepares.ran, length] at ran
  obtain ⟨stack', generator⟩ := m
  change stack' = _ at stack
  subst stack
  have some : 0 < xs.length := by
    rw [← length]
    exact Nat.succ_pos complete
  obtain ⟨w, ran', components⟩ := Machine.run_packed_numbers (g := generator) xs some
  rw [ran'] at ran
  cases ran
  exact ⟨components, left⟩

end Prepares

theorem operandless_minus :
    Token.Operandless "-" ∧ Token.visible "-" = Dangle.chars (.sign .minus .nil) := by
  have visible : Token.visible "-" = ['-'] := by decide
  exact ⟨by simp [Token.Operandless, visible], visible⟩

theorem ofText_one_minus (env : Environment) :
    Token.ofText env "1,-" = .ok [.number (Token.digit '1'), .separator, .prefixOp '-'] := by
  have whole : "1,-" = "1" ++ "," ++ "-" := rfl
  have last := ((Dangle.sign .minus .nil).ofText_eq_tokens_iff env
    operandless_minus.1).mpr operandless_minus.2
  rw [whole, Token.ofText_separated, Token.ofText_digit env rfl rfl rfl, last]
  rfl

theorem interpret_one_minus (env : Environment) :
    env.interpret "1,-" = (.ok [-(Token.digit '1')], env) := by
  rw [interpret_eq_ok_iff]
  exact ⟨_, [.number (Token.digit '1'), .prefixOp '-'], ofText_one_minus env, rfl, rfl, rfl⟩

theorem accepts_one (env : Environment) : env.Accepts "1" := by
  refine ⟨[Token.digit '1'], env, interpret_eq_ok_iff.mpr ?_⟩
  exact ⟨_, [.number (Token.digit '1')], Token.ofText_digit env rfl rfl rfl, rfl, rfl, rfl⟩

/-- Signs behind the last separator that have no operand there are accepted exactly when they are
dangling signs, another argument may follow the ones before them, and so may nothing. -/
theorem accepts_without_operand_iff (visible : k.Visible env) (accepted : env.Accepts s)
    (operandless : Token.Operandless t) (signed : ∃ sign : Sign, sign.symbol ∈ t.toList) :
    env.Accepts (k.text (s ++ "," ++ t)) ↔
      env.Accepts (s ++ ",0") ∧ env.Accepts (k.text (s ++ ",")) ∧
        ∃ d : Dangle, Token.visible t = d.chars := by
  have some (d : Dangle) (same : Token.visible t = d.chars) : d.signs ≠ [] := by
    obtain ⟨sign, mem⟩ := signed
    have seen : sign.symbol ∈ Token.visible t := by
      have plain : Text.isBlank sign.symbol = false := by cases sign <;> rfl
      simp [Token.visible, mem, plain]
    exact Dangle.signs_ne_nil (same ▸ seen)
  constructor
  · intro whole
    obtain ⟨first, sent, kept, complete, m, prepares⟩ := exists_prepares visible accepted whole
    have height := prepares.height
    obtain ⟨d, read⟩ := prepares.exists_dangle_of_accepts visible operandless whole
    have same := (d.ofText_eq_tokens_iff env operandless).mp read
    have evaluated := (prepares.accepts_dangling_iff visible read).mp whole
    rw [← height] at evaluated
    obtain ⟨numbers, ends⟩ := (k.run_dangling_iff (some d same) m (by omega)).mp evaluated
    rw [height] at ends
    exact ⟨prepares.accepts_another_iff.mpr numbers,
      (prepares.accepts_trailing_iff visible).mpr ends, d, same⟩
  · rintro ⟨another, trailing, d, same⟩
    obtain ⟨first, sent, kept, complete, m, prepares⟩ :=
      exists_prepares_of_another accepted another
    have height := prepares.height
    have numbers := prepares.accepts_another_iff.mp another
    have ends := (prepares.accepts_trailing_iff visible).mp trailing
    have read := (d.ofText_eq_tokens_iff env operandless).mpr same
    rw [prepares.accepts_dangling_iff visible read]
    rw [← height] at ends ⊢
    exact (k.run_dangling_iff (some d same) m (by omega)).mpr ⟨numbers, ends⟩

theorem accepts_one_minus_iff :
    Environment.initial.Accepts "1" ∧
      (Environment.initial.Accepts (Enclosure.formula.text ("1" ++ "," ++ "-")) ↔
        Environment.initial.Accepts ("1" ++ ",0") ∧
          Environment.initial.Accepts (Enclosure.formula.text ("1" ++ ",")) ∧
            ∃ d : Dangle, Token.visible "-" = d.chars) :=
  ⟨accepts_one .initial, accepts_without_operand_iff trivial (accepts_one .initial)
    operandless_minus.1 ⟨.minus, by decide⟩⟩

theorem exists_sign_across_separator :
    ∃ s t : String, Environment.initial.Accepts s ∧ Token.Operandless t ∧
      (∃ sign : Sign, sign.symbol ∈ t.toList) ∧ Environment.initial.Accepts (s ++ "," ++ t) :=
  ⟨"1", "-", accepts_one .initial, operandless_minus.1, ⟨.minus, by decide⟩, _, _,
    interpret_one_minus .initial⟩

/-- By itself or in parentheses, a formula with dangling signs has its value with the signs applied
to the last component. -/
theorem interpret_dangling (plain : ∀ f, k ≠ .args f) {env' : Environment} {xs : List Float}
    {x : Float} {d : Dangle} (value : env.interpret s = (.ok (xs ++ [x]), env'))
    (another : env.Accepts (s ++ ",0")) (operandless : Token.Operandless t)
    (same : Token.visible t = d.chars) :
    env.interpret (k.text (s ++ "," ++ t)) = (.ok (xs ++ [d.apply x]), env') := by
  have visible : k.Visible env := by
    cases k with
    | formula => trivial
    | parens => trivial
    | args f => exact (plain f rfl).elim
  have closes (n : Nat) : k.closes n = packed n := by
    cases k with
    | formula => rfl
    | parens => rfl
    | args f => exact (plain f rfl).elim
  obtain ⟨first, sent, kept, complete, m, prepares⟩ :=
    exists_prepares_of_another ⟨_, _, value⟩ another
  obtain ⟨ys, stack⟩ := prepares.accepts_another_iff.mp another
  obtain ⟨rfl, rfl⟩ := prepares.eq_of_interpret stack value
  have length : complete + 1 = (xs ++ [d.apply x]).length := by
    rw [← prepares.height, stack, Machine.length_numbers]
    simp
  have read := (d.ofText_eq_tokens_iff env operandless).mpr same
  have whole := Token.ofText_enclosed_separated visible prepares.read t
  rw [read] at whole
  obtain ⟨y, ran, finished⟩ := k.exists_finish_dangling d prepares.some (complete + 1)
  obtain ⟨stack', generator⟩ := m
  change stack' = _ at stack
  subst stack
  obtain ⟨v, packs, components⟩ :=
    Machine.run_packed_numbers (g := generator) (xs ++ [d.apply x]) (by simp)
  have evaluated : Machine.run ⟨[], env.generator⟩
      (sent ++ kept ++ d.code ++ k.closes (complete + 1)) = (.ok (), ⟨[v], generator⟩) := by
    rw [List.append_assoc, Machine.run_append_ok prepares.ran, Machine.numbers_append_singleton,
      Machine.run_append_ok (d.run_code x _ generator), closes, length,
      ← Machine.numbers_append_singleton]
    exact packs
  rw [interpret_eq_ok_iff]
  exact ⟨_, _, whole,
    ofTokens_eq_ok_iff.mpr ⟨y, (k.run_separated prepares.compiled _).trans ran, finished⟩,
    evaluate_eq_ok_iff.mpr ⟨v, evaluated, components⟩, rfl⟩

end Environment

end Calculator
