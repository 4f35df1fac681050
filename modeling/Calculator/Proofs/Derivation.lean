import Calculator.Proofs.Balance
import Calculator.Proofs.Grammar

/-!
A tight nest is derived from the grammar, read from its end: behind a value stands the end, a
separator or an operator with further arguments, and a value or a sign in front of arguments gives
arguments again.
-/

namespace Calculator

namespace Grammar

section Before

variable {p : List Token}

theorem exists_expr_before (before : ∀ t : Term, ∃ e : Expr, e.tokens = p ++ t.tokens) (e : Expr) :
    ∃ e' : Expr, e'.tokens = p ++ e.tokens := by
  cases e with
  | term t => exact before t
  | sum left op right =>
    obtain ⟨left', tokens⟩ := exists_expr_before before left
    exact ⟨.sum left' op right, by simp [Expr.tokens, tokens]⟩

theorem exists_term_before (before : ∀ u : Unary, ∃ t : Term, t.tokens = p ++ u.tokens) (t : Term) :
    ∃ t' : Term, t'.tokens = p ++ t.tokens := by
  cases t with
  | unary u => exact before u
  | product left op right =>
    obtain ⟨left', tokens⟩ := exists_term_before before left
    exact ⟨.product left' op right, by simp [Term.tokens, tokens]⟩

theorem exists_items_before (before : ∀ e : Expr, ∃ e' : Expr, e'.tokens = p ++ e.tokens)
    (items : Items) : ∃ items' : Items, items'.tokens = p ++ items.tokens := by
  cases items with
  | one e =>
    obtain ⟨e', tokens⟩ := before e
    exact ⟨.one e', tokens⟩
  | more e rest =>
    obtain ⟨e', tokens⟩ := before e
    exact ⟨.more e' rest, by simp [Items.tokens, tokens]⟩

theorem exists_arguments_before (before : ∀ t : Term, ∃ e : Expr, e.tokens = p ++ t.tokens)
    (args : Arguments) : ∃ args' : Arguments, args'.tokens = p ++ args.tokens := by
  cases args with
  | ended items =>
    obtain ⟨items', tokens⟩ := exists_items_before (exists_expr_before before) items
    exact ⟨.ended items', tokens⟩
  | trailing items =>
    obtain ⟨items', tokens⟩ := exists_items_before (exists_expr_before before) items
    exact ⟨.trailing items', by simp [Arguments.tokens, tokens]⟩

theorem exists_arguments_before_unary (before : ∀ u : Unary, ∃ t : Term, t.tokens = p ++ u.tokens)
    (args : Arguments) : ∃ args' : Arguments, args'.tokens = p ++ args.tokens := by
  apply exists_arguments_before
  intro t
  obtain ⟨t', tokens⟩ := exists_term_before before t
  exact ⟨.term t', tokens⟩

end Before

theorem exists_sign (s : Sign) (args : Arguments) :
    ∃ args' : Arguments, args'.tokens = .prefixOp s.symbol :: args.tokens := by
  apply exists_arguments_before_unary (p := [.prefixOp s.symbol])
  intro u
  exact ⟨.unary (.sign s u), rfl⟩

def Atom.term (a : Atom) : Term := .unary (.power (.atom a))

theorem exists_operator (a : Atom) (op : Operator) (args : Arguments) :
    ∃ args' : Arguments, args'.tokens = a.tokens ++ .binaryOp op.symbol :: args.tokens := by
  have first (op : Additive) (t : Term) : (Expr.sum (.term a.term) op t).tokens =
      (a.tokens ++ [.binaryOp op.operator.symbol]) ++ t.tokens := by
    simp [Expr.tokens, Atom.term, Term.tokens, Unary.tokens, Power.tokens]
  have factor (op : Multiplicative) (u : Unary) : (Term.product a.term op u).tokens =
      (a.tokens ++ [.binaryOp op.operator.symbol]) ++ u.tokens := by
    simp [Atom.term, Term.tokens, Unary.tokens, Power.tokens]
  have base (u : Unary) : (Term.unary (.power (.raised a u))).tokens =
      (a.tokens ++ [.binaryOp Operator.pow.symbol]) ++ u.tokens := by
    simp [Term.tokens, Unary.tokens, Power.tokens]
  have split : a.tokens ++ .binaryOp op.symbol :: args.tokens =
      (a.tokens ++ [.binaryOp op.symbol]) ++ args.tokens := by simp
  rw [split]
  cases op with
  | add => exact exists_arguments_before (fun t => ⟨_, first .plus t⟩) args
  | sub => exact exists_arguments_before (fun t => ⟨_, first .minus t⟩) args
  | mul => exact exists_arguments_before_unary (fun u => ⟨_, factor .times u⟩) args
  | div => exact exists_arguments_before_unary (fun u => ⟨_, factor .dividedBy u⟩) args
  | pow => exact exists_arguments_before_unary (fun u => ⟨_, base u⟩) args

/-- What may follow a value. -/
inductive Continues : List Token → Prop
  | ended : Continues []
  | trailing : Continues [.separator]
  | next (args : Arguments) : Continues (.separator :: args.tokens)
  | operator (op : Operator) (args : Arguments) : Continues (.binaryOp op.symbol :: args.tokens)

theorem exists_atom (a : Atom) {ts : List Token} (h : Continues ts) :
    ∃ args : Arguments, args.tokens = a.tokens ++ ts := by
  have alone : (Expr.term a.term).tokens = a.tokens := rfl
  cases h with
  | ended => exact ⟨.ended (.one (.term a.term)), by simp [Arguments.tokens, Items.tokens, alone]⟩
  | trailing => exact ⟨.trailing (.one (.term a.term)), rfl⟩
  | next args =>
    cases args with
    | ended items =>
      exact ⟨.ended (.more (.term a.term) items), rfl⟩
    | trailing items =>
      exact ⟨.trailing (.more (.term a.term) items),
        by simp [Arguments.tokens, Items.tokens, alone]⟩
  | operator op args => exact exists_operator a op args

end Grammar

namespace Nest

open Grammar

/-- Behind a separator there is an argument with a value or nothing. -/
def Filled : Nest → Prop
  | nil => True
  | number _ rest | sign _ rest | operator _ rest | name _ _ rest => rest.Filled
  | separator rest => (rest.arity false = 0 → rest = nil) ∧ rest.Filled
  | group inner rest => inner.Filled ∧ rest.Filled

theorem arity_true_pos (nest : Nest) : 0 < nest.arity true := by
  induction nest using Nest.callInduction with
  | nil => decide
  | number x rest ih => exact ih
  | sign c rest ih => exact ih
  | operator c rest ih => exact ih
  | separator rest ih => simp only [arity, Bool.toNat_true]; omega
  | call f claimed inner rest ihInner ihRest => exact ihRest
  | name f claimed rest notGroup ih =>
    rw [arity_name notGroup]
    exact ih
  | group inner rest ihInner ihRest => exact ihRest

/-- What a tight nest is, in view of what stands before it. -/
def Derives (nest : Nest) (before : Option Token) (hasValue : Bool) : Prop :=
  if Token.endsValue before then if hasValue then Continues nest.tokens else nest = nil
  else 0 < nest.arity hasValue → ∃ args : Arguments, args.tokens = nest.tokens

theorem derives_of_not_endsValue {nest : Nest} {before : Option Token} {hasValue : Bool}
    (start : Token.endsValue before = false)
    (args : 0 < nest.arity hasValue → ∃ args : Arguments, args.tokens = nest.tokens) :
    nest.Derives before hasValue := by
  rw [Derives, if_neg (by simp [start])]
  exact args

theorem derives (nest : Nest) {env : Environment} {before : Option Token} {hasValue : Bool}
    (tight : Tight env nest before hasValue) (filled : nest.Filled) :
    nest.Derives before hasValue := by
  induction nest using Nest.callInduction generalizing before hasValue with
  | nil =>
    cases ends : Token.endsValue before with
    | false =>
      apply derives_of_not_endsValue ends
      intro value
      cases hasValue with
      | false => cases value
      | true =>
        rw [tight.nil rfl] at ends
        cases ends
    | true =>
      rw [Derives, if_pos ends]
      cases hasValue with
      | false => rfl
      | true => exact .ended
  | number x rest ih =>
    apply derives_of_not_endsValue tight.context.1
    intro _
    exact exists_atom (.number x) (ih tight.number filled)
  | sign c rest ih =>
    obtain ⟨s, rfl⟩ := Sign.exists_symbol tight.context.1.1
    apply derives_of_not_endsValue (not_endsValue_of_expectsOperand tight.context.1.2)
    intro value
    obtain ⟨args, tokens⟩ := ih tight.sign filled value
    obtain ⟨args', tokens'⟩ := exists_sign s args
    exact ⟨args', by rw [tokens', tokens]; rfl⟩
  | operator c rest ih =>
    obtain ⟨ends, rfl, others⟩ := tight.operator
    obtain ⟨op, known⟩ := Option.isSome_iff_exists.mp tight.context.1.1
    cases Operator.symbol_of_ofSymbol? known
    obtain ⟨args, tokens⟩ := ih others filled rest.arity_true_pos
    rw [Derives, if_pos ends, Nest.tokens, ← tokens]
    exact .operator op args
  | separator rest ih =>
    obtain ⟨rfl, ends, others⟩ := tight.separator
    rw [Derives, if_pos ends, Nest.tokens]
    by_cases empty : rest.arity false = 0
    · cases filled.1 empty
      exact .trailing
    · obtain ⟨args, tokens⟩ := ih others filled.2 (Nat.pos_of_ne_zero empty)
      rw [← tokens]
      exact .next args
  | call f claimed inner rest ihInner ihRest =>
    obtain ⟨takes, inside, others⟩ := tight.call
    apply derives_of_not_endsValue tight.context.1.1
    intro _
    obtain ⟨args, tokens⟩ := ihInner inside filled.1 takes
    obtain ⟨args', tokens'⟩ := exists_atom (.call f claimed args) (ihRest others filled.2)
    exact ⟨args', by rw [tokens', Atom.tokens, tokens]; simp [Nest.tokens]⟩
  | name f claimed rest notGroup ih => exact (tight.calls.not_unapplied notGroup).elim
  | group inner rest ihInner ihRest =>
    obtain ⟨inside, ⟨takes, others⟩ | ⟨empty, rfl, others⟩⟩ := tight.group
    · apply derives_of_not_endsValue tight.context.1
      intro _
      obtain ⟨args, tokens⟩ := ihInner inside filled.1 takes
      obtain ⟨args', tokens'⟩ := exists_atom (.group args) (ihRest others filled.2)
      exact ⟨args', by rw [tokens', Atom.tokens, tokens]; simp [Nest.tokens]⟩
    · -- Nothing can follow a group without arguments, and the argument gets no value from it.
      apply derives_of_not_endsValue tight.context.1
      have none : rest = nil := ihRest others filled.2
      subst none
      simp [arity, empty]

end Nest

end Calculator
