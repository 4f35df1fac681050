import Calculator.Proofs.Outline

/-!
What compiling remembers of the tokens. Each open group knows whether the argument at its end has a
value and how many arguments before it have one; what waits above its parenthesis knows which
functions wait for a group. So a token is refused for what is in front of it and nothing else.
-/

namespace Calculator

namespace Token

/-- How many functions wait on top of the others, each of them for a group. -/
def callsOnTop : List Token → Nat
  | .call _ _ :: waiting => callsOnTop waiting + 1
  | _ => 0

/-- What is left of the tokens that wait when a group has taken the function in front of it. -/
def released : List Token → List Token
  | .call _ _ :: waiting => waiting
  | waiting => waiting

theorem callsOnTop_released (waiting : List Token) :
    callsOnTop (released waiting) = callsOnTop waiting - 1 := by
  cases waiting with
  | nil => rfl
  | cons t waiting => cases t <;> rfl

theorem plain_of_applies {t : Token} (applies : t.applies = true) :
    t.delimits = false ∧ t ≠ .leftParen ∧ t ≠ .rightParen ∧ ∀ x, t ≠ .number x := by
  cases t with
  | prefixOp | binaryOp | call => simp [delimits]
  | _ => cases applies

theorem valuedArguments_eq (read : List Token) :
    valuedArguments read =
      (arguments 0 read).tail.countP valued + (valued (lastArgument read)).toNat := by
  unfold valuedArguments lastArgument
  cases split : arguments 0 read with
  | nil => exact absurd split (arguments_ne_nil 0 read)
  | cons a as =>
    rw [List.countP_cons, List.tail_cons, List.headD_cons]
    cases valued a <;> rfl

end Token

namespace Code

open Token (valued lastArgument arguments functionWaits valuedArguments Matched)

theorem Group.arity_pos_iff {g : Group} : 0 < g.arity ↔ 0 < g.complete ∨ g.hasValue = true := by
  unfold Group.arity
  split <;> simp_all

/-- What is in a group tells the group and what waits above its parenthesis. -/
structure Group.Describes (g : Group) (above inside : List Token) : Prop where
  value : valued (lastArgument inside) = g.hasValue
  complete : (arguments 0 inside).tail.countP valued = g.complete
  some : valued inside = decide (0 < g.arity)
  waits (taken : Nat) :
    functionWaits 0 taken inside = decide (taken < Token.callsOnTop above)
  matched : Matched inside
  applied : ∀ t ∈ above, t.applies = true

namespace Group.Describes

variable {g enclosing : Group} {above left inside before : List Token} {t : Token}

theorem arity (describes : g.Describes above inside) : valuedArguments inside = g.arity := by
  rw [Token.valuedArguments_eq, describes.value, describes.complete, Group.arity]
  cases g.hasValue <;> rfl

theorem opened (base : Nat) : (Group.opened base).Describes [] [] where
  value := rfl
  complete := rfl
  some := rfl
  waits taken := by simp [functionWaits, Token.callsOnTop]
  matched := .nil
  applied := by simp

theorem number (describes : g.Describes above inside) (x : Float) :
    Describes { g with hasValue := true } above (.number x :: inside) where
  value := by
    rw [Token.lastArgument_cons rfl]
    rfl
  complete := by
    rw [Token.tail_arguments_cons rfl]
    exact describes.complete
  some := by simp [valued, Group.arity]
  waits taken := by
    rw [functionWaits]
    exact describes.waits taken
  matched := describes.matched.cons (by simp) (by simp)
  applied := describes.applied

/-- A sign or an operator keeps what waits from the groups behind it. -/
theorem operator (describes : g.Describes above inside) (bare : t.kind ≠ .call)
    (applies : t.applies = true) (part : left ⊆ above) : Describes g (t :: left) (t :: inside) where
  value := by
    obtain ⟨plain, opens, _, number⟩ := Token.plain_of_applies applies
    rw [Token.lastArgument_cons plain, Token.valued_cons opens number, describes.value]
  complete := by
    rw [Token.tail_arguments_cons (Token.plain_of_applies applies).1, describes.complete]
  some := by
    obtain ⟨_, opens, _, number⟩ := Token.plain_of_applies applies
    rw [Token.valued_cons opens number, describes.some]
  waits taken := by
    cases t with
    | prefixOp | binaryOp => simp [functionWaits, Token.callsOnTop]
    | call => exact absurd rfl bare
    | _ => cases applies
  matched := by
    obtain ⟨_, opens, closes, _⟩ := Token.plain_of_applies applies
    exact describes.matched.cons opens closes
  applied := List.forall_mem_cons.mpr ⟨applies, fun t mem => describes.applied t (part mem)⟩

theorem call (describes : g.Describes above inside) (f : FunctionName) (claimed : Nat) :
    Describes g (.call f 0 :: above) (.call f claimed :: inside) where
  value := by
    rw [Token.lastArgument_cons rfl]
    exact describes.value
  complete := by
    rw [Token.tail_arguments_cons rfl]
    exact describes.complete
  some := describes.some
  waits taken := by
    cases taken with
    | zero => simp [functionWaits, Token.callsOnTop]
    | succ taken => simp [functionWaits, Token.callsOnTop, describes.waits]
  matched := describes.matched.cons (by simp) (by simp)
  applied := List.forall_mem_cons.mpr ⟨rfl, describes.applied⟩

theorem separator (describes : g.Describes above inside) (value : g.hasValue = true) :
    Describes { g with complete := g.complete + 1, hasValue := false } []
      (.separator :: inside) where
  value := rfl
  complete := by
    have whole := describes.arity
    rw [Group.arity, value] at whole
    exact whole
  some := by
    have some := describes.some
    simp only [Group.arity, value] at some
    simpa [valued, Group.arity] using some
  waits taken := by simp [functionWaits, Token.callsOnTop]
  matched := describes.matched.cons (by simp) (by simp)
  applied := by simp

/-- A group that closes is a value to the one around it if it takes a function or has an argument
with a value. -/
theorem group (describes : g.Describes above inside) (around : enclosing.Describes left before) :
    Describes
      { enclosing with
        hasValue := enclosing.hasValue ||
          decide (0 < Token.callsOnTop left) || decide (0 < g.arity) }
      (Token.released left) (.rightParen :: (inside ++ .leftParen :: before)) where
  value := by
    rw [Token.lastArgument_group describes.matched, Token.valued_cons (by simp) (by simp),
      Token.valued_append_opening, describes.some,
      Token.valued_opening (List.prefix_refl _) (Token.head_arguments_prefix 0 before),
      around.value, around.waits, Bool.or_comm]
  complete := by
    rw [Token.tail_arguments_group describes.matched]
    exact around.complete
  some := by
    rw [Token.valued_cons (by simp) (by simp), Token.valued_append_opening, describes.some,
      Token.valued_opening (Token.head_arguments_prefix 0 before) (List.prefix_refl _), around.some,
      around.waits]
    rw [Bool.eq_iff_iff]
    simp only [Bool.or_eq_true, decide_eq_true_eq, Group.arity_pos_iff]
    tauto
  waits taken := by
    rw [Token.functionWaits_group describes.matched, around.waits,
      Token.callsOnTop_released, decide_eq_decide]
    omega
  matched := describes.matched.group around.matched
  applied := by
    intro t mem
    apply around.applied t
    cases left with
    | nil => exact mem
    | cons u left => cases u <;> first | exact mem | exact List.mem_cons_of_mem _ mem

end Group.Describes

/-- What encloses a group: what waits below the group's own tokens, the groups around it and the
tokens in front of it. -/
inductive Encloses : (below : List Token) → (outer : List Group) → (around : List Token) → Prop
  | formula : Encloses [] [] []
  | group {g : Group} {above below inside around : List Token} {outer : List Group}
    (encloses : Encloses below outer around) (describes : g.Describes above inside)
    (base : g.base = below.length) :
    Encloses (.leftParen :: (above ++ below)) (g :: outer) (.leftParen :: (inside ++ around))

namespace Encloses

variable {below around : List Token} {outer : List Group}

theorem bottom (encloses : Encloses below outer around) :
    ∀ t ∈ below.head?, t = .leftParen := by
  cases encloses <;> simp

theorem opening (encloses : Encloses below outer around) :
    ∀ t ∈ around.head?, t = .leftParen := by
  cases encloses <;> simp

theorem unclosed (encloses : Encloses below outer around) :
    Token.unclosed around = outer.length := by
  induction encloses with
  | formula => rfl
  | group _ describes _ ih =>
    rw [Token.unclosed, describes.matched.unclosed_append, ih, List.length_cons]

end Encloses

namespace Yard

/-- The yard behind some tokens, given last first. -/
inductive Remembers : Yard → (read : List Token) → Prop
  | intro {code above below inside around : List Token} {g : Group} {outer : List Group}
    (encloses : Encloses below outer around) (describes : g.Describes above inside)
    (base : g.base = below.length) :
    Remembers ⟨code, above ++ below, g, outer⟩ (inside ++ around)

/-- What a group with so many arguments adds to the code, in view of what waits in front of it. -/
def bound : (waiting : List Token) → (arity : Nat) → List Token
  | .call f _ :: _, arity => [.call f arity]
  | _, arity => packed arity

theorem push_rightParen {code above left below : List Token} {g enclosing : Group}
    {outer : List Group} (bottom : ∀ t ∈ below.head?, t = .leftParen)
    (base : g.base = (Token.leftParen :: (left ++ below)).length) :
    push ⟨code, above ++ .leftParen :: (left ++ below), g, enclosing :: outer⟩ .rightParen =
      .ok ⟨bound left g.arity ++ (above.reverse ++ code), Token.released left ++ below,
        { enclosing with
          hasValue := enclosing.hasValue ||
            decide (0 < Token.callsOnTop left) || decide (0 < g.arity) }, outer⟩ := by
  obtain ⟨hasValue, complete, height⟩ := g
  simp only at base
  subst base
  cases left with
  | nil =>
    have bare : ∀ t ∈ below.head?, t.kind ≠ .call := fun t top => by simp [bottom t top, Token.kind]
    rw [List.nil_append, push_rightParen_bare bare]
    simp [bound, Token.released, Token.callsOnTop, arity_mk]
  | cons t left =>
    cases t with
    | call f claimed =>
      rw [List.cons_append, push_rightParen_call]
      simp [bound, Token.released, Token.callsOnTop, arity_mk]
    | _ =>
      rw [push_rightParen_bare (by simp [Token.kind])]
      simp [bound, Token.released, Token.callsOnTop, arity_mk]

variable {y z : Yard} {read : List Token} {t : Token}

theorem of_push_separator {code above below : List Token} {g : Group} {outer : List Group}
    (base : g.base = below.length)
    (pushed : push ⟨code, above ++ below, g, outer⟩ .separator = .ok z) :
    g.hasValue = true ∧
      z = ⟨above.reverse ++ code, below,
        { g with complete := g.complete + 1, hasValue := false }, outer⟩ := by
  obtain ⟨hasValue, complete, height⟩ := g
  simp only at base
  subst base
  cases hasValue with
  | false => cases pushed
  | true =>
    rw [push_separator] at pushed
    cases pushed
    exact ⟨rfl, rfl⟩

/-- A token that is pushed is remembered. -/
theorem Remembers.push (remembers : y.Remembers read) (pushed : y.push t = .ok z) :
    z.Remembers (t :: read) := by
  obtain @⟨code, above, below, inside, around, g, outer, encloses, describes, base⟩ := remembers
  cases t with
  | number x =>
    cases pushed
    exact .intro encloses (describes.number x) base
  | prefixOp c =>
    cases pushed
    exact .intro encloses (describes.operator (by simp [Token.kind]) rfl (List.Subset.refl _)) base
  | binaryOp c =>
    obtain ⟨taken, left, rfl, rfl⟩ := exists_of_push_binaryOp encloses.bottom pushed
    have operator := describes.operator (t := .binaryOp c) (by simp [Token.kind]) rfl
      (List.subset_append_right taken left)
    exact .intro encloses operator base
  | call f claimed =>
    cases pushed
    exact .intro encloses (describes.call f claimed) base
  | leftParen =>
    cases pushed
    exact .intro (.group encloses describes base) (.opened _) rfl
  | separator =>
    obtain ⟨value, rfl⟩ := of_push_separator base pushed
    exact .intro encloses (describes.separator value) base
  | rightParen =>
    cases encloses with
    | formula => cases pushed
    | @group enclosing left below before around outer encloses outside height =>
      rw [push_rightParen encloses.bottom base] at pushed
      cases pushed
      have whole : .rightParen :: (inside ++ .leftParen :: (before ++ around)) =
          .rightParen :: (inside ++ .leftParen :: before) ++ around := by simp
      rw [whole]
      exact .intro encloses (describes.group outside) height
  | tuple n => cases pushed

theorem remembers_initial : initial.Remembers [] := .intro .formula (.opened 0) rfl

theorem remembers_of_run {tokens : List Token} (ran : initial.run tokens = .ok y) :
    y.Remembers tokens.reverse :=
  initial_run_induction Remembers.push remembers_initial ran

namespace Remembers

theorem hasValue (remembers : y.Remembers read) :
    y.group.hasValue = valued (lastArgument read) := by
  obtain ⟨encloses, describes, _⟩ := remembers
  rw [lastArgument, describes.matched.arguments_bottom encloses.opening]
  exact describes.value.symm

theorem arity (remembers : y.Remembers read) : y.group.arity = valuedArguments read := by
  obtain ⟨encloses, describes, _⟩ := remembers
  rw [valuedArguments, describes.matched.arguments_bottom encloses.opening]
  exact describes.arity.symm

theorem length_outer (remembers : y.Remembers read) : y.outer.length = Token.unclosed read := by
  obtain ⟨encloses, describes, _⟩ := remembers
  rw [describes.matched.unclosed_append, encloses.unclosed]

theorem outer_eq_nil_iff (remembers : y.Remembers read) :
    y.outer = [] ↔ Token.unclosed read = 0 := by
  rw [← remembers.length_outer, List.length_eq_zero_iff]

theorem base_eq_zero (remembers : y.Remembers read) (closed : y.outer = []) :
    y.group.base = 0 := by
  obtain ⟨encloses, _, base⟩ := remembers
  cases encloses with
  | group => cases closed
  | formula => exact base

theorem applies (remembers : y.Remembers read) (closed : y.outer = []) :
    ∀ t ∈ y.waiting, t.applies = true := by
  obtain ⟨encloses, describes, _⟩ := remembers
  cases encloses with
  | group => cases closed
  | formula =>
    rw [List.append_nil]
    exact describes.applied

/-- Where no group is open no parenthesis waits. -/
theorem any_isParen (remembers : y.Remembers read) (closed : y.outer = []) :
    y.waiting.any isParen = false := by
  refine List.any_eq_false.mpr fun t mem => ?_
  have applies := remembers.applies closed t mem
  cases t with
  | leftParen | rightParen => cases applies
  | _ => simp [isParen]

end Remembers

end Yard

end Code

end Calculator
