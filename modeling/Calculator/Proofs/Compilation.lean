import Calculator.Proofs.Grammar
import Calculator.Proofs.Yard

/-!
Compiling the tokens of a formula gives the code of its tree. Each production of the grammar keeps
one invariant: a phrase sends on a part of its code and leaves the rest waiting, and what waits
binds at least as tightly as the phrase does, so that whatever may follow the phrase takes all of
it.
-/

namespace Calculator.Code.Yard

/-- A waiting token is left alone by operators of this level or higher, and takes no arguments. -/
def Holds (level : Nat) (top : Token) : Prop :=
  top.kind ≠ .call ∧ ∀ op : Operator, level ≤ op.precedence → yields op top = false

/-- Above waiting tokens that hold, the tokens of a phrase are compiled into its code up to what
still waits. -/
def Compiles (level : Nat) (tokens code : List Token) : Prop :=
  ∀ (before waiting : List Token) (group : Group) (outer : List Group),
    (∀ top ∈ waiting.head?, Holds level top) →
    ∃ sent kept,
      run ⟨before, waiting, group, outer⟩ tokens =
        .ok ⟨sent.reverse ++ before, kept ++ waiting, { group with hasValue := true }, outer⟩ ∧
      sent ++ kept = code ∧ ∀ t ∈ kept, ∃ p, precedence? t = some p ∧ level ≤ p

/-- What binds at least so tightly is taken by the operator that follows. -/
def leftLevel (op : Operator) : Nat :=
  match op.associativity with
  | .left => op.precedence
  | .right => op.precedence + 1

/-- What binds at least so tightly leaves the operator in front of it alone. -/
def rightLevel (op : Operator) : Nat :=
  match op.associativity with
  | .left => op.precedence + 1
  | .right => op.precedence

theorem precedence_le_leftLevel (op : Operator) : op.precedence ≤ leftLevel op := by
  cases op <;> decide

theorem precedence_le_rightLevel (op : Operator) : op.precedence ≤ rightLevel op := by
  cases op <;> decide

theorem precedence?_symbol (op : Operator) :
    precedence? (.binaryOp op.symbol) = some op.precedence := by
  simp [precedence?, Operator.ofSymbol?_symbol]

theorem yields_of_leftLevel_le {op : Operator} {t : Token} {p : Nat} (ht : precedence? t = some p)
    (hp : leftLevel op ≤ p) : yields op t = true := by
  simp only [yields, ht]
  unfold leftLevel at hp
  split
  · rename_i left
    simpa [left] using hp
  · rename_i right
    simp only [right] at hp
    exact decide_eq_true hp

theorem Holds.mono {level higher : Nat} {top : Token} (h : Holds level top)
    (le : level ≤ higher) : Holds higher top :=
  ⟨h.1, fun op hop => h.2 op (Nat.le_trans le hop)⟩

theorem holds_symbol (op : Operator) : Holds (rightLevel op) (.binaryOp op.symbol) := by
  refine ⟨by simp [Token.kind], ?_⟩
  intro next tighter
  simp only [yields, precedence?_symbol]
  revert tighter
  cases op <;> cases next <;> decide

theorem holds_sign (c : Char) : Holds 4 (.prefixOp c) := by
  refine ⟨by simp [Token.kind], ?_⟩
  intro next tighter
  simp only [yields, precedence?]
  revert tighter
  cases next <;> decide

theorem holds_leftParen (level : Nat) : Holds level .leftParen :=
  ⟨by simp [Token.kind], fun _ _ => rfl⟩

namespace Compiles

variable {level : Nat} {ts us c d : List Token}

theorem mono {higher : Nat} (h : Compiles higher ts c) (le : level ≤ higher) :
    Compiles level ts c := by
  intro before waiting group outer holds
  obtain ⟨sent, kept, ran, whole, tight⟩ := h before waiting group outer
    (fun top htop => (holds top htop).mono le)
  refine ⟨sent, kept, ran, whole, ?_⟩
  intro t ht
  obtain ⟨p, hp, hlevel⟩ := tight t ht
  exact ⟨p, hp, Nat.le_trans le hlevel⟩

theorem number (x : Float) : Compiles level [.number x] [.number x] := by
  intro before waiting group outer _
  exact ⟨[.number x], [], rfl, rfl, by simp⟩

theorem sign (s : Sign) (h : Compiles 4 ts c) :
    Compiles 4 (.prefixOp s.symbol :: ts) (c ++ [.prefixOp s.symbol]) := by
  intro before waiting group outer _
  obtain ⟨sent, kept, ran, whole, tight⟩ := h before (.prefixOp s.symbol :: waiting) group outer
    (by simpa using holds_sign s.symbol)
  refine ⟨sent, kept ++ [.prefixOp s.symbol], ?_, ?_, ?_⟩
  · rw [run_cons_ok (z := ⟨before, .prefixOp s.symbol :: waiting, group, outer⟩) rfl, ran]
    simp
  · rw [← List.append_assoc, whole]
  · intro t ht
    rcases List.mem_append.mp ht with ht | ht
    · exact tight t ht
    · cases List.mem_singleton.mp ht
      exact ⟨4, rfl, Nat.le_refl 4⟩

/-- The operator takes what waits of its left operand, and then waits below its right one. -/
theorem binary (op : Operator) (left : Compiles (leftLevel op) ts c)
    (right : Compiles (rightLevel op) us d) :
    Compiles op.precedence (ts ++ .binaryOp op.symbol :: us)
      (c ++ d ++ [.binaryOp op.symbol]) := by
  intro before waiting group outer holds
  obtain ⟨sent, kept, ran, rfl, tight⟩ := left before waiting group outer
    (fun top htop => (holds top htop).mono (precedence_le_leftLevel op))
  -- All that waits of the left operand goes before the operator, and nothing below it does.
  have all : ∀ t ∈ kept, yields op t = true := by
    intro t ht
    obtain ⟨p, hp, hlevel⟩ := tight t ht
    exact yields_of_leftLevel_le hp hlevel
  have stop : ∀ top ∈ waiting.head?, yields op top = false :=
    fun top htop => (holds top htop).2 op (Nat.le_refl _)
  obtain ⟨sent', kept', ran', rfl, tight'⟩ := right
    (kept.reverse ++ (sent.reverse ++ before)) (.binaryOp op.symbol :: waiting)
    { group with hasValue := true } outer (by simpa using holds_symbol op)
  refine ⟨sent ++ kept ++ sent', kept' ++ [.binaryOp op.symbol], ?_, by simp, ?_⟩
  · rw [run_append_ok ran, run_cons_ok (push_binaryOp_append all stop), ran']
    simp
  · intro t ht
    rcases List.mem_append.mp ht with ht | ht
    · obtain ⟨p, hp, hlevel⟩ := tight' t ht
      exact ⟨p, hp, Nat.le_trans (precedence_le_rightLevel op) hlevel⟩
    · cases List.mem_singleton.mp ht
      exact ⟨op.precedence, precedence?_symbol op, Nat.le_refl _⟩

end Compiles

/-- In a group that has just opened, or after a separator, the tokens of some arguments are
compiled into their code up to what still waits. -/
def CompilesItems (count : Nat) (tokens code : List Token) : Prop :=
  ∀ (before waiting : List Token) (complete : Nat) (outer : List Group),
    (∀ top ∈ waiting.head?, top = .leftParen) →
    ∃ sent kept,
      run ⟨before, waiting, ⟨false, complete, waiting.length⟩, outer⟩ tokens =
        .ok ⟨sent.reverse ++ before, kept ++ waiting,
          ⟨true, complete + count, waiting.length⟩, outer⟩ ∧
      sent ++ kept = code ∧ ∀ t ∈ kept, isParen t = false

theorem isParen_of_precedence? {t : Token} {p : Nat} (h : precedence? t = some p) :
    isParen t = false := by
  cases t <;> first | rfl | cases h

namespace CompilesItems

variable {count : Nat} {ts us c d : List Token}

theorem one (h : Compiles 2 ts c) : CompilesItems 0 ts c := by
  intro before waiting complete outer opened
  obtain ⟨sent, kept, ran, whole, tight⟩ :=
    h before waiting ⟨false, complete, waiting.length⟩ outer
      (fun top htop => opened top htop ▸ holds_leftParen 2)
  refine ⟨sent, kept, ran, whole, ?_⟩
  intro t ht
  obtain ⟨p, hp, _⟩ := tight t ht
  exact isParen_of_precedence? hp

theorem more (first : Compiles 2 ts c) (rest : CompilesItems count us d) :
    CompilesItems (count + 1) (ts ++ .separator :: us) (c ++ d) := by
  intro before waiting complete outer opened
  obtain ⟨sent, kept, ran, rfl, _⟩ := one first before waiting complete outer opened
  obtain ⟨sent', kept', ran', rfl, operators⟩ :=
    rest (kept.reverse ++ (sent.reverse ++ before)) waiting (complete + 1) outer opened
  refine ⟨sent ++ kept ++ sent', kept', ?_, by simp, operators⟩
  rw [run_append_ok ran, run_cons_ok push_separator, ran']
  simp [Nat.add_assoc, Nat.add_comm 1]

end CompilesItems

/-- What arguments leave when the group is about to close: their code, and their number as the
number of the group's arguments that have a value. -/
def CompilesArguments (count : Nat) (tokens code : List Token) : Prop :=
  ∀ (before waiting : List Token) (outer : List Group),
    (∀ top ∈ waiting.head?, top = .leftParen) →
    ∃ sent kept hasValue complete,
      run ⟨before, waiting, .opened waiting.length, outer⟩ tokens =
        .ok ⟨sent.reverse ++ before, kept ++ waiting,
          ⟨hasValue, complete, waiting.length⟩, outer⟩ ∧
      sent ++ kept = code ∧ complete + hasValue.toNat = count ∧ ∀ t ∈ kept, isParen t = false

namespace CompilesArguments

variable {count : Nat} {ts c : List Token}

theorem ended (h : CompilesItems count ts c) : CompilesArguments (count + 1) ts c := by
  intro before waiting outer opened
  obtain ⟨sent, kept, ran, whole, operators⟩ := h before waiting 0 outer opened
  exact ⟨sent, kept, true, 0 + count, ran, whole, by simp, operators⟩

theorem trailing (h : CompilesItems count ts c) :
    CompilesArguments (count + 1) (ts ++ [.separator]) c := by
  intro before waiting outer opened
  obtain ⟨sent, kept, ran, rfl, _⟩ := h before waiting 0 outer opened
  refine ⟨sent ++ kept, [], false, 0 + count + 1, ?_, by simp, by simp, by simp⟩
  have ran' : run ⟨before, waiting, .opened waiting.length, outer⟩ ts = _ := ran
  rw [run_append_ok ran', run_cons_ok push_separator]
  simp [run]

end CompilesArguments

namespace Compiles

variable {count : Nat} {ts c : List Token}

theorem group (h : CompilesArguments count ts c) (some : 0 < count) :
    Compiles 5 (.leftParen :: (ts ++ [.rightParen])) (c ++ packed count) := by
  intro before waiting group outer holds
  obtain ⟨sent, kept, hasValue, complete, ran, rfl, rfl, _⟩ :=
    h before (.leftParen :: waiting) (group :: outer) (by simp)
  have bare : ∀ t ∈ waiting.head?, t.kind ≠ .call := fun t ht => (holds t ht).1
  refine ⟨sent ++ kept ++ packed (complete + hasValue.toNat), [], ?_, by simp, by simp⟩
  have opens : push ⟨before, waiting, group, outer⟩ .leftParen =
      .ok ⟨before, .leftParen :: waiting, .opened (Token.leftParen :: waiting).length,
        group :: outer⟩ := rfl
  rw [run_cons_ok opens, run_append_ok ran, run_cons_ok (push_rightParen_bare bare)]
  simp [run, some, reverse_packed]

theorem call (name : FunctionName) (claimed : Nat) (h : CompilesArguments count ts c) :
    Compiles 5 (.call name claimed :: .leftParen :: (ts ++ [.rightParen]))
      (c ++ [.call name count]) := by
  intro before waiting group outer holds
  obtain ⟨sent, kept, hasValue, complete, ran, rfl, rfl, _⟩ :=
    h before (.leftParen :: .call name 0 :: waiting) (group :: outer) (by simp)
  refine ⟨sent ++ kept ++ [.call name (complete + hasValue.toNat)], [], ?_, by simp, by simp⟩
  have calls : push ⟨before, waiting, group, outer⟩ (.call name claimed) =
      .ok ⟨before, .call name 0 :: waiting, group, outer⟩ := rfl
  have opens : push ⟨before, .call name 0 :: waiting, group, outer⟩ .leftParen =
      .ok ⟨before, .leftParen :: .call name 0 :: waiting,
        .opened (Token.leftParen :: .call name 0 :: waiting).length, group :: outer⟩ := rfl
  rw [run_cons_ok calls, run_cons_ok opens, run_append_ok ran,
    run_cons_ok (push_rightParen_call name 0)]
  simp [run]

end Compiles

theorem compilesArguments_nil : CompilesArguments 0 [] [] := by
  intro before waiting outer _
  exact ⟨[], [], false, 0, rfl, rfl, rfl, by simp⟩

end Calculator.Code.Yard

namespace Calculator.Grammar

open Code Yard

theorem items_trees_ne_nil (items : Items) : items.trees ≠ [] := by
  cases items <;> simp [Items.trees]

theorem code_packed {ts : List Tree} (some : ts ≠ []) :
    (packed ts).code = Tree.codes ts ++ Yard.packed ts.length := by
  match ts with
  | [] => contradiction
  | [t] => simp [packed, Tree.codes, Yard.packed]
  | t :: u :: ts => simp [packed, Tree.code, Yard.packed]

theorem arguments_trees_ne_nil (args : Arguments) : args.trees ≠ [] := by
  cases args <;> exact items_trees_ne_nil _

mutual

theorem compiles_arguments (args : Arguments) :
    CompilesArguments args.trees.length args.tokens (Tree.codes args.trees) := by
  cases args with
  | ended items =>
    obtain ⟨n, length, h⟩ := compiles_items items
    simp only [Arguments.trees, Arguments.tokens, length]
    exact .ended h
  | trailing items =>
    obtain ⟨n, length, h⟩ := compiles_items items
    simp only [Arguments.trees, Arguments.tokens, length]
    exact .trailing h

theorem compiles_items (items : Items) :
    ∃ n, items.trees.length = n + 1 ∧
      CompilesItems n items.tokens (Tree.codes items.trees) := by
  cases items with
  | one e =>
    refine ⟨0, rfl, ?_⟩
    simp only [Items.trees, Items.tokens, Tree.codes, List.append_nil]
    exact .one (compiles_expr e)
  | more e rest =>
    obtain ⟨n, length, h⟩ := compiles_items rest
    exact ⟨n + 1, by simp [Items.trees, length], .more (compiles_expr e) h⟩

theorem compiles_expr (e : Expr) : Compiles 2 e.tokens e.tree.code := by
  cases e with
  | term t => exact (compiles_term t).mono (by decide)
  | sum left op right =>
    cases op with
    | plus => exact .binary .add (compiles_expr left) (compiles_term right)
    | minus => exact .binary .sub (compiles_expr left) (compiles_term right)

theorem compiles_term (t : Term) : Compiles 3 t.tokens t.tree.code := by
  cases t with
  | unary u => exact (compiles_unary u).mono (by decide)
  | product left op right =>
    cases op with
    | times => exact .binary .mul (compiles_term left) (compiles_unary right)
    | dividedBy => exact .binary .div (compiles_term left) (compiles_unary right)

theorem compiles_unary (u : Unary) : Compiles 4 u.tokens u.tree.code := by
  cases u with
  | sign s operand => exact .sign s (compiles_unary operand)
  | power p => exact compiles_power p

theorem compiles_power (p : Power) : Compiles 4 p.tokens p.tree.code := by
  cases p with
  | atom a => exact (compiles_atom a).mono (by decide)
  | raised base exponent => exact .binary .pow (compiles_atom base) (compiles_unary exponent)

theorem compiles_atom (a : Atom) : Compiles 5 a.tokens a.tree.code := by
  cases a with
  | number x => exact .number x
  | group args =>
    have some := arguments_trees_ne_nil args
    simp only [Atom.tree, code_packed some]
    exact .group (compiles_arguments args) (List.length_pos_iff.mpr some)
  | call name claimed args => exact .call name claimed (compiles_arguments args)
  | emptyCall name claimed => exact .call name claimed compilesArguments_nil

end

/-- What compiling leaves of a formula, which is its tree's code but for the last step. -/
theorem exists_run_tokens (formula : Arguments) :
    ∃ sent kept hasValue complete,
      Yard.initial.run formula.tokens =
        .ok ⟨sent.reverse, kept, ⟨hasValue, complete, 0⟩, []⟩ ∧
      formula.tree.code = sent ++ kept ++ Yard.packed (complete + hasValue.toNat) ∧
      ∀ t ∈ kept, isParen t = false := by
  have some : formula.trees ≠ [] := arguments_trees_ne_nil formula
  obtain ⟨sent, kept, hasValue, complete, ran, whole, count, operators⟩ :=
    compiles_arguments formula [] [] [] (by simp)
  refine ⟨sent, kept, hasValue, complete, ?_, ?_, operators⟩
  · simpa [Yard.initial] using ran
  · rw [Arguments.tree, code_packed some, whole, count]

theorem ofTokens_tokens (formula : Arguments) :
    Code.ofTokens formula.tokens = .ok formula.tree.code := by
  obtain ⟨sent, kept, hasValue, complete, ran, code, operators⟩ := exists_run_tokens formula
  refine ofTokens_eq_ok_iff.mpr ⟨_, ran, finish_eq_ok_iff.mpr ⟨rfl, ?_, ?_, Tree.code_ne_nil _⟩⟩
  · simpa using operators
  · rw [code, List.reverse_reverse, arity_mk]

end Calculator.Grammar
