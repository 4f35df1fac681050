import Calculator.Proofs.Balance
import Calculator.Proofs.Enclosure
import Calculator.Proofs.Tree

/-!
Signs without an operand. Where an argument has signs and parentheses but no value, the signs are
sent on when the group around them ends, the last one first, and so they follow the code of the
argument before.
-/

namespace Calculator

/-- Signs and then nothing, or a group of the same kind. -/
inductive Dangle
  | nil
  | sign (s : Sign) (rest : Dangle)
  | group (inner : Dangle)

namespace Dangle

def tokens : Dangle → List Token
  | nil => []
  | sign s rest => .prefixOp s.symbol :: rest.tokens
  | group inner => .leftParen :: (inner.tokens ++ [.rightParen])

def chars : Dangle → List Char
  | nil => []
  | sign s rest => s.symbol :: rest.chars
  | group inner => '(' :: (inner.chars ++ [')'])

def signs : Dangle → List Sign
  | nil => []
  | sign s rest => s :: rest.signs
  | group inner => inner.signs

def code (d : Dangle) : List Token := d.signs.reverse.map fun s => .prefixOp s.symbol

open Code Yard in
theorem run_tokens (d : Dangle) (code waiting below : List Token) (complete : Nat)
    (outer : List Group) (free : ∀ t ∈ (waiting ++ below).head?, t.kind ≠ .call) :
    ∃ sent kept,
      run ⟨code, waiting ++ below, ⟨false, complete, below.length⟩, outer⟩ d.tokens =
        .ok ⟨sent.reverse ++ code, kept ++ below, ⟨false, complete, below.length⟩, outer⟩ ∧
      sent ++ kept = d.code ++ waiting := by
  induction d generalizing code waiting below complete outer with
  | nil => exact ⟨[], waiting, rfl, rfl⟩
  | sign s rest ih =>
    obtain ⟨sent, kept, ran, parts⟩ :=
      ih code (.prefixOp s.symbol :: waiting) below complete outer (by simp [Token.kind])
    refine ⟨sent, kept, ran, ?_⟩
    simp [parts, Dangle.code, signs]
  | group inner ih =>
    obtain ⟨sent, kept, ran, parts⟩ :=
      ih code [] (.leftParen :: (waiting ++ below)) 0 (⟨false, complete, below.length⟩ :: outer)
        (by simp [Token.kind])
    refine ⟨sent ++ kept, waiting, ?_, ?_⟩
    · have opens :
          push ⟨code, waiting ++ below, ⟨false, complete, below.length⟩, outer⟩ .leftParen =
            .ok ⟨code, [] ++ .leftParen :: (waiting ++ below),
              ⟨false, 0, (Token.leftParen :: (waiting ++ below)).length⟩,
              ⟨false, complete, below.length⟩ :: outer⟩ := rfl
      rw [tokens, run_cons_ok opens, run_append_ok ran, run_cons_ok (push_rightParen_bare free)]
      simp [run, packed]
    · rw [parts, List.append_nil]
      rfl

end Dangle

namespace Token

variable {env : Environment}

theorem scan_boundaries {cs : List Char} (ends : ∀ c ∈ cs, isBoundary c = true)
    (emitted : Emitted) : scan env emitted [] cs = .ok (cs.foldl emitBoundary emitted) := by
  induction cs generalizing emitted with
  | nil => exact emitRun_nil
  | cons c cs ih =>
    rw [scan, if_pos (ends c List.mem_cons_self), List.reverse_nil, emitRun_nil]
    exact ih (fun d mem => ends d (List.mem_cons_of_mem c mem)) _

theorem emitBoundary_blank {c : Char} (blank : Text.isBlank c = true) (emitted : Emitted) :
    emitBoundary emitted c = emitted := by
  have plain : c ≠ '(' ∧ c ≠ ')' ∧ c ≠ ',' := by
    refine ⟨?_, ?_, ?_⟩ <;> rintro rfl <;> revert blank <;> decide
  simp [emitBoundary, plain, blank]

theorem emitBoundary_sign (s : Sign) (emitted : Emitted) :
    emitBoundary emitted s.symbol =
      (if expectsOperand emitted.head? then prefixOp s.symbol else binaryOp s.symbol) ::
        emitted := by
  have start : emitBoundary emitted s.symbol = emit emitted (binaryOp s.symbol) := by
    cases s <;> rfl
  have sign : isSign emitted s.symbol = expectsOperand emitted.head? := by
    rw [isSign, Sign.signOfSymbol?_symbol]
    rfl
  rw [start, emit_binaryOp, sign]

def visible (text : String) : List Char := text.toList.filter fun c => !Text.isBlank c

/-- Nothing but signs, parentheses and blanks. -/
def Operandless (text : String) : Prop :=
  ∀ c ∈ visible text, c = '+' ∨ c = '-' ∨ c = '(' ∨ c = ')'

theorem ofText_operandless {text : String} (h : Operandless text) :
    ofText env text = .ok ((visible text).foldl emitBoundary []).reverse := by
  have ends : ∀ c ∈ text.toList, isBoundary c = true := by
    intro c mem
    cases blank : Text.isBlank c with
    | true => simp [isBoundary, blank]
    | false =>
      have seen : c ∈ visible text := by simp [visible, mem, blank]
      rcases h c seen with rfl | rfl | rfl | rfl <;> rfl
  have skip (cs : List Char) (emitted : Emitted) : cs.foldl emitBoundary emitted =
      (cs.filter fun c => !Text.isBlank c).foldl emitBoundary emitted := by
    induction cs generalizing emitted with
    | nil => rfl
    | cons c cs ih =>
      cases blank : Text.isBlank c with
      | true => simp [blank, emitBoundary_blank blank, ih]
      | false => simp [blank, ih]
  rw [ofText, scan_boundaries ends, skip]
  rfl

/-- What a token of such a text is written as; products are not written. -/
def written : Token → List Char
  | prefixOp c => [c]
  | binaryOp c => if c = '*' then [] else [c]
  | leftParen => ['(']
  | rightParen => [')']
  | _ => []

def IsOperandless (t : Token) : Prop :=
  t.kind = .prefixOp ∨ t.kind = .binaryOp ∨ t.kind = .leftParen ∨ t.kind = .rightParen

theorem emitBoundary_operandless {c : Char} (h : c = '+' ∨ c = '-' ∨ c = '(' ∨ c = ')')
    (emitted : Emitted) :
    ∃ new : List Token, emitBoundary emitted c = new.reverse ++ emitted ∧
      new.flatMap written = [c] ∧ ∀ t ∈ new, IsOperandless t := by
  have signed (s : Sign) : ∃ new : List Token,
      emitBoundary emitted s.symbol = new.reverse ++ emitted ∧
        new.flatMap written = [s.symbol] ∧ ∀ t ∈ new, IsOperandless t := by
    rw [emitBoundary_sign]
    split
    · exact ⟨[prefixOp s.symbol], rfl, rfl, by simp [IsOperandless, kind]⟩
    · refine ⟨[binaryOp s.symbol], rfl, ?_, by simp [IsOperandless, kind]⟩
      cases s <;> rfl
  rcases h with rfl | rfl | rfl | rfl
  · exact signed .plus
  · exact signed .minus
  · change ∃ new : List Token, emit emitted leftParen = new.reverse ++ emitted ∧ _
    rw [emit_of_ne_binaryOp (by simp)]
    split
    · exact ⟨[binaryOp '*', leftParen], rfl, rfl, by simp [IsOperandless, kind]⟩
    · exact ⟨[leftParen], rfl, rfl, by simp [IsOperandless, kind]⟩
  · exact ⟨[rightParen], emitBoundary_rightParen emitted, rfl, by simp [IsOperandless, kind]⟩

theorem foldl_emitBoundary_operandless {cs : List Char}
    (h : ∀ c ∈ cs, c = '+' ∨ c = '-' ∨ c = '(' ∨ c = ')') (emitted : Emitted) :
    ∃ new : List Token, cs.foldl emitBoundary emitted = new.reverse ++ emitted ∧
      new.flatMap written = cs ∧ ∀ t ∈ new, IsOperandless t := by
  induction cs generalizing emitted with
  | nil => exact ⟨[], rfl, rfl, by simp⟩
  | cons c cs ih =>
    obtain ⟨first, emits, writes, operandless⟩ :=
      emitBoundary_operandless (h c List.mem_cons_self) emitted
    obtain ⟨others, emits', writes', operandless'⟩ :=
      ih (fun d mem => h d (List.mem_cons_of_mem c mem)) (emitBoundary emitted c)
    refine ⟨first ++ others, ?_, ?_, ?_⟩
    · rw [List.foldl_cons, emits', emits]
      simp
    · rw [List.flatMap_append, writes, writes']
      rfl
    · intro t mem
      rcases List.mem_append.mp mem with mem | mem
      · exact operandless t mem
      · exact operandless' t mem

theorem exists_of_operandless (env : Environment) {text : String} (h : Operandless text) :
    ∃ tokens, ofText env text = .ok tokens ∧ tokens.flatMap written = visible text ∧
      ∀ t ∈ tokens, IsOperandless t := by
  obtain ⟨new, emits, writes, operandless⟩ := foldl_emitBoundary_operandless h []
  refine ⟨new, ?_, writes, operandless⟩
  rw [ofText_operandless h, emits, List.append_nil, List.reverse_reverse]

end Token

namespace Dangle

open Token

theorem written_tokens (d : Dangle) : d.tokens.flatMap written = d.chars := by
  induction d with
  | nil => rfl
  | sign s rest ih =>
    rw [tokens, List.flatMap_cons, ih]
    rfl
  | group inner ih =>
    rw [tokens, List.flatMap_cons, List.flatMap_append, ih]
    rfl

theorem foldl_emitBoundary_chars (d : Dangle) {emitted : Emitted} (fresh : Fresh emitted) :
    d.chars.foldl emitBoundary emitted = d.tokens.reverse ++ emitted := by
  induction d generalizing emitted with
  | nil => rfl
  | sign s rest ih =>
    have next : Fresh (prefixOp s.symbol :: emitted) := fresh_cons rfl
    rw [chars, List.foldl_cons, emitBoundary_sign, if_pos fresh.1, ih next]
    simp [tokens]
  | group inner ih =>
    have next : Fresh (leftParen :: emitted) := fresh_cons rfl
    rw [chars, List.foldl_cons, emitBoundary_leftParen fresh.2, List.foldl_append, ih next]
    simp [tokens, emitBoundary_rightParen]

theorem signs_ne_nil {d : Dangle} {s : Sign} (h : s.symbol ∈ d.chars) : d.signs ≠ [] := by
  induction d with
  | nil => cases h
  | sign s' rest ih => simp [signs]
  | group inner ih =>
    have inside : s.symbol ∈ inner.chars := by
      cases s <;> simpa [chars, Sign.symbol] using h
    exact ih inside

/-- A text is read as dangling signs when it is written as them. -/
theorem ofText_eq_tokens_iff (d : Dangle) (env : Environment) {text : String}
    (h : Operandless text) : ofText env text = .ok d.tokens ↔ visible text = d.chars := by
  constructor
  · intro read
    obtain ⟨tokens, read', writes, _⟩ := exists_of_operandless env h
    rw [read'] at read
    cases read
    rw [← writes, written_tokens]
  · intro same
    have start : Fresh [] := ⟨rfl, rfl⟩
    rw [ofText_operandless h, same, foldl_emitBoundary_chars d start]
    simp

end Dangle

def Token.isBinary : Token → Bool
  | binaryOp _ => true
  | _ => false

namespace Nest

open Code Token

variable {env : Environment}

theorem arity_of_operandless (nest : Nest) (operandless : ∀ t ∈ nest.tokens, IsOperandless t)
    (hasValue : Bool) : nest.arity hasValue = hasValue.toNat := by
  induction nest generalizing hasValue with
  | nil => rfl
  | number x rest ih => simp [Nest.tokens, IsOperandless, kind] at operandless
  | separator rest ih => simp [Nest.tokens, IsOperandless, kind] at operandless
  | name f claimed rest ih => simp [Nest.tokens, IsOperandless, kind] at operandless
  | sign c rest ih => exact ih (fun t mem => operandless t (List.mem_cons_of_mem _ mem)) hasValue
  | operator c rest ih =>
    exact ih (fun t mem => operandless t (List.mem_cons_of_mem _ mem)) hasValue
  | group inner rest ihInner ihRest =>
    have none : inner.arity false = 0 := by
      apply ihInner
      intro t mem
      exact operandless t (by simp [Nest.tokens, mem])
    have others := ihRest (fun t mem => operandless t (by simp [Nest.tokens, mem])) hasValue
    simp [Nest.arity, none, others]

theorem balance_of_operandless (nest : Nest) (operandless : ∀ t ∈ nest.tokens, IsOperandless t) :
    Machine.balance nest.emitted = -(nest.tokens.countP isBinary : Int) := by
  induction nest with
  | nil => rfl
  | number x rest ih => simp [Nest.tokens, IsOperandless, kind] at operandless
  | separator rest ih => simp [Nest.tokens, IsOperandless, kind] at operandless
  | name f claimed rest ih => simp [Nest.tokens, IsOperandless, kind] at operandless
  | sign c rest ih =>
    have others := ih fun t mem => operandless t (List.mem_cons_of_mem _ mem)
    simp [emitted, Nest.tokens, Machine.balance, Machine.rise, others, isBinary]
  | operator c rest ih =>
    have others := ih fun t mem => operandless t (List.mem_cons_of_mem _ mem)
    have counted : (operator c rest).tokens.countP isBinary = rest.tokens.countP isBinary + 1 :=
      List.countP_cons_of_pos rfl
    rw [emitted, Machine.balance, others, counted, Machine.rise]
    omega
  | group inner rest ihInner ihRest =>
    have insideTokens : ∀ t ∈ inner.tokens, IsOperandless t :=
      fun t mem => operandless t (by simp [Nest.tokens, mem])
    have inside := ihInner insideTokens
    have others := ihRest fun t mem => operandless t (by simp [Nest.tokens, mem])
    have none := inner.arity_of_operandless insideTokens false
    simp [emitted, Nest.tokens, Machine.balance_append, Machine.balance_packed, inside, others,
      none, isBinary]
    omega

theorem eq_nil_of_operandless {nest : Nest}
    (context : Contexted env (some .rightParen) nest.tokens)
    (operandless : ∀ t ∈ nest.tokens, IsOperandless t)
    (none : nest.tokens.countP isBinary = 0) : nest = nil := by
  cases nest with
  | nil => rfl
  | number x rest => cases context.1
  | sign c rest => cases context.1.2
  | operator c rest => simp [Nest.tokens, isBinary] at none
  | separator rest => simp [Nest.tokens, IsOperandless, kind] at operandless
  | name f claimed rest => cases context.1.1
  | group inner rest => cases context.1

/-- Without operands and operators there are only signs, up to one group at the end. -/
theorem exists_dangle (nest : Nest) {before : Option Token}
    (context : Contexted env before nest.tokens)
    (operandless : ∀ t ∈ nest.tokens, IsOperandless t)
    (none : nest.tokens.countP isBinary = 0) :
    ∃ d : Dangle, d.tokens = nest.tokens := by
  induction nest generalizing before with
  | nil => exact ⟨.nil, rfl⟩
  | number x rest ih => simp [Nest.tokens, IsOperandless, kind] at operandless
  | separator rest ih => simp [Nest.tokens, IsOperandless, kind] at operandless
  | name f claimed rest ih => simp [Nest.tokens, IsOperandless, kind] at operandless
  | operator c rest ih => simp [Nest.tokens, isBinary] at none
  | sign c rest ih =>
    obtain ⟨s, rfl⟩ := Sign.exists_symbol context.1.1
    have noneRest : rest.tokens.countP isBinary = 0 := by
      simpa [Nest.tokens, isBinary] using none
    obtain ⟨d, same⟩ :=
      ih context.2 (fun t mem => operandless t (List.mem_cons_of_mem _ mem)) noneRest
    exact ⟨.sign s d, by rw [Dangle.tokens, same]; rfl⟩
  | group inner rest ihInner ihRest =>
    have parts := contexted_append.mp context.2
    have noneParts : inner.tokens.countP isBinary = 0 ∧ rest.tokens.countP isBinary = 0 := by
      simpa [Nest.tokens, isBinary] using none
    have empty : rest = nil := by
      apply eq_nil_of_operandless parts.2.2 _ noneParts.2
      intro t mem
      exact operandless t (by simp [Nest.tokens, mem])
    obtain ⟨d, same⟩ :=
      ihInner parts.1 (fun t mem => operandless t (by simp [Nest.tokens, mem])) noneParts.1
    exact ⟨.group d, by rw [Dangle.tokens, same, empty]; rfl⟩

end Nest

namespace Enclosure

open Code Yard

variable {code : List Token}

theorem exists_finish_dangling (k : Enclosure) (d : Dangle) (some : code ≠ []) (complete : Nat) :
    ∃ y, (k.resumed code complete).run (d.tokens ++ k.closing) = .ok y ∧
      y.finish = .ok (code ++ d.code ++ k.closes complete) := by
  have free : ∀ t ∈ ([] ++ k.below).head?, t.kind ≠ .call := by
    intro t top
    rw [k.below_bottom t top]
    decide
  obtain ⟨sent, kept, ran, parts⟩ := d.run_tokens code.reverse [] k.below complete k.outside free
  rw [List.append_nil] at parts
  have operators : ∀ t ∈ kept, isParen t = false := by
    intro t mem
    have sign : t ∈ d.code := parts ▸ List.mem_append_right sent mem
    obtain ⟨s, _, rfl⟩ := List.mem_map.mp sign
    rfl
  have resumed : (k.resumed code complete).run d.tokens =
      .ok ⟨(code ++ sent).reverse, kept ++ k.below, ⟨false, complete, k.below.length⟩,
        k.outside⟩ := by
    rw [List.reverse_append]
    exact ran
  have some' : code ++ sent ++ kept ++ k.closes (complete + Bool.toNat false) ≠ [] := by
    simp [some]
  obtain ⟨y, closed, finished⟩ := k.exists_finish operators some'
  refine ⟨y, (run_append_ok resumed _).trans closed, ?_⟩
  rw [finished, List.append_assoc code, parts]
  rfl

theorem balance_closes (k : Enclosure) {arity : Nat} (some : 0 < arity) :
    Machine.balance (k.closes arity) = 1 - (arity : Int) := by
  have packed : Machine.balance (Yard.packed arity) = 1 - (arity : Int) := by
    rw [Machine.balance_packed]
    split
    · rfl
    · omega
  cases k with
  | formula => exact packed
  | parens => exact packed
  | args f => simp [closes, Machine.balance, Machine.rise]

theorem exists_of_run_operandless {nest : Nest} {env : Environment} {before : Option Token}
    {below : List Token} {hasValue : Bool} {outer : List Group} {y : Yard}
    (context : Token.Contexted env before nest.tokens)
    (operandless : ∀ t ∈ nest.tokens, Token.IsOperandless t)
    (bottom : ∀ t ∈ below.head?, t = .leftParen)
    (ran : run ⟨code.reverse, below, ⟨hasValue, complete, below.length⟩, outer⟩ nest.tokens =
      .ok y) :
    ∃ sent kept hasValue' complete',
      y = ⟨(code ++ sent).reverse, kept ++ below, ⟨hasValue', complete', below.length⟩, outer⟩ ∧
      complete' + hasValue'.toNat = complete + hasValue.toNat ∧
      Machine.balance (sent ++ kept) = -(nest.tokens.countP Token.isBinary : Int) := by
  have free : ∀ inner rest, nest = .group inner rest →
      ∀ t ∈ ([] ++ below).head?, t.kind ≠ .call := by
    intro inner rest _ t top
    rw [bottom t top]
    decide
  obtain ⟨_, sent, kept, hasValue', complete', rfl, count, perm⟩ :=
    run_nest nest [] below context free bottom ran
  rw [List.append_nil] at perm
  rw [nest.arity_of_operandless operandless] at count
  refine ⟨sent, kept, hasValue', complete', by simp, count, ?_⟩
  rw [Machine.balance_eq_of_perm perm, nest.balance_of_operandless operandless]

section Finish

variable {k : Enclosure} {env : Environment} {last final : List Token} {y : Yard}
  (context : Token.Contexted env (some .separator) (last ++ k.closing))
  (operandless : ∀ t ∈ last, Token.IsOperandless t) (arity : 0 < complete)
  (ran : (k.resumed code complete).run (last ++ k.closing) = .ok y)
  (finished : y.finish = .ok final)
  (balanced : Machine.balance final = Machine.balance code + (1 - complete))

include context operandless arity ran finished balanced

theorem exists_dangle_of_open (unclosed : k.closing = []) : ∃ d : Dangle, d.tokens = last := by
  obtain rfl : k = formula := by
    cases k <;> first | rfl | cases unclosed
  obtain ⟨closed, _, rfl, _⟩ := finish_eq_ok_iff.mp finished
  obtain ⟨nest, enclosing, length, whole⟩ := exists_nest ran closed
  have none : enclosing = [] := List.length_eq_zero_iff.mp length
  subst none
  rw [closing, List.append_nil] at whole context ran
  rw [List.flatMap_nil, List.append_nil] at whole
  subst whole
  have start : run ⟨code.reverse, [], ⟨false, complete, 0⟩, []⟩ nest.tokens = .ok y := ran
  obtain ⟨sent, kept, hasValue, complete', rfl, count, balance₁⟩ :=
    exists_of_run_operandless context operandless (by simp) start
  have ends := formula.balance_closes arity
  rw [closes] at ends
  simp only [List.reverse_reverse, arity_mk, count, Bool.toNat_false, Nat.add_zero,
    List.append_nil, List.append_assoc, Machine.balance_append, ends] at balanced balance₁
  exact nest.exists_dangle context operandless (by omega)

theorem exists_dangle_of_enclosed (enclosed : k.closing = [.rightParen]) :
    ∃ d : Dangle, d.tokens = last := by
  obtain ⟨closed, _, rfl, _⟩ := finish_eq_ok_iff.mp finished
  obtain ⟨nest, enclosing, length, whole⟩ := exists_nest ran closed
  -- A parenthesis of `last` may end the enclosure, and the closing one then ends a group of
  -- `last`. The balance rules this out: what is behind the enclosure has no value to spare.
  have one : enclosing.length = 1 := by
    rw [length]
    cases k <;> first | rfl | cases enclosed
  obtain ⟨after, rfl⟩ := List.length_eq_one_iff.mp one
  rw [List.flatMap_singleton] at whole
  have parts : ∀ t ∈ nest.tokens ++ .rightParen :: after.tokens, Token.IsOperandless t := by
    intro t mem
    rw [← whole, enclosed] at mem
    rcases List.mem_append.mp mem with mem | mem
    · exact operandless t mem
    · cases List.mem_singleton.mp mem
      simp [Token.IsOperandless, Token.kind]
  rw [whole] at context ran
  have contexts := Token.contexted_append.mp context
  obtain ⟨inside, ranNest, ran⟩ := exists_of_run_append ran
  obtain ⟨outside, pushed, ran⟩ := exists_of_run_cons ran
  obtain ⟨sent, kept, hasValue, complete', rfl, count, balance₁⟩ :=
    exists_of_run_operandless contexts.1 (fun t mem => parts t (List.mem_append_left _ mem))
      k.below_bottom ranNest
  have arity' : 0 < complete' + hasValue.toNat := by
    rw [count]
    exact arity
  rw [push_closing enclosed arity', count] at pushed
  cases pushed
  have start : run ⟨(code ++ sent ++ kept ++ k.closes (complete + Bool.toNat false)).reverse, [],
      ⟨true, 0, 0⟩, []⟩ after.tokens = .ok y := by
    simpa using ran
  obtain ⟨sent', kept', hasValue', complete'', rfl, count', balance₂⟩ :=
    exists_of_run_operandless contexts.2.2 (fun t mem => parts t (by simp [mem])) (by simp) start
  have ends := k.balance_closes arity
  simp only [List.reverse_reverse, arity_mk, count', Bool.toNat_false, Nat.add_zero,
    List.append_nil, List.append_assoc, Machine.balance_append, ends] at balanced balance₁ balance₂
  have alone : Machine.balance (packed (0 + Bool.toNat true)) = 0 := rfl
  rw [alone] at balanced
  have none : after = .nil :=
    Nest.eq_nil_of_operandless contexts.2.2 (fun t mem => parts t (by simp [mem])) (by omega)
  subst none
  have same : last = nest.tokens := by simpa [enclosed, Nest.tokens] using whole
  rw [same]
  exact nest.exists_dangle contexts.1 (fun t mem => parts t (by simp [mem])) (by omega)

/-- What has no operand but compiles, with nothing left over, is dangling signs. -/
theorem exists_dangle_of_finish : ∃ d : Dangle, d.tokens = last := by
  cases closing : k.closing with
  | nil => exact exists_dangle_of_open context operandless arity ran finished balanced closing
  | cons t rest =>
    have enclosed : k.closing = [.rightParen] := by
      cases k <;> first | rfl | cases closing
    exact exists_dangle_of_enclosed context operandless arity ran finished balanced enclosed

end Finish

end Enclosure

end Calculator
