import Calculator.Code.Yard

/-!
Laws of compiling. Tokens are pushed piece by piece, and each step is stated for a yard whose
waiting tokens are those of the innermost group above those that were there when it opened.
-/

namespace Calculator.Code

namespace Yard

theorem run_cons (y : Yard) (t : Token) (rest : List Token) :
    y.run (t :: rest) =
      match y.push t with
      | .error e => .error e
      | .ok y => y.run rest := rfl

theorem run_cons_ok {y z : Yard} {t : Token} (h : y.push t = .ok z) (rest : List Token) :
    y.run (t :: rest) = z.run rest := by
  rw [run_cons, h]

theorem run_append (y : Yard) (p q : List Token) :
    y.run (p ++ q) =
      match y.run p with
      | .error e => .error e
      | .ok y => y.run q := by
  induction p generalizing y with
  | nil => rfl
  | cons t p ih =>
    simp only [List.cons_append, run_cons]
    cases y.push t with
    | error e => rfl
    | ok y => exact ih y

theorem run_append_ok {y z : Yard} {p : List Token} (h : y.run p = .ok z) (q : List Token) :
    y.run (p ++ q) = z.run q := by
  rw [run_append, h]

theorem exists_of_run_append {y z : Yard} {p q : List Token} (h : y.run (p ++ q) = .ok z) :
    ∃ m, y.run p = .ok m ∧ m.run q = .ok z := by
  rw [run_append] at h
  cases first : y.run p with
  | error e => rw [first] at h; cases h
  | ok m => rw [first] at h; exact ⟨m, rfl, h⟩

theorem exists_of_run_cons {y z : Yard} {t : Token} {rest : List Token}
    (h : y.run (t :: rest) = .ok z) : ∃ m, y.push t = .ok m ∧ m.run rest = .ok z := by
  rw [run_cons] at h
  cases first : y.push t with
  | error e => rw [first] at h; cases h
  | ok m => rw [first] at h; exact ⟨m, rfl, h⟩

/-- What each push keeps, of a yard and of the tokens so far, is kept by a run. These tokens are
given last first. -/
theorem run_induction {motive : Yard → (read : List Token) → Prop}
    (step : ∀ {y z t read}, motive y read → y.push t = .ok z → motive z (t :: read))
    {y z : Yard} {ts read : List Token} (start : motive y read) (ran : y.run ts = .ok z) :
    motive z (ts.reverse ++ read) := by
  induction ts generalizing y read with
  | nil =>
    cases ran
    exact start
  | cons t ts ih =>
    obtain ⟨m, pushed, ran⟩ := exists_of_run_cons ran
    rw [List.reverse_cons, List.append_assoc, List.singleton_append]
    exact ih (step start pushed) ran

theorem initial_run_induction {motive : Yard → (read : List Token) → Prop}
    (step : ∀ {y z t read}, motive y read → y.push t = .ok z → motive z (t :: read))
    {y : Yard} {tokens : List Token} (start : motive initial [])
    (ran : initial.run tokens = .ok y) : motive y tokens.reverse := by
  have kept := run_induction step start ran
  rwa [List.append_nil] at kept

/-- What a group with so many arguments adds to the code unless a function takes them. -/
def packed (arity : Nat) : List Token := if 1 < arity then [.tuple arity] else []

variable {code kept below : List Token} {group enclosing : Group} {outer : List Group}
  {hasValue : Bool} {complete : Nat}

theorem drain_append :
    drain ⟨code, kept ++ below, group, outer⟩ below.length =
      ⟨kept.reverse ++ code, below, group, outer⟩ := by
  simp [drain]

theorem push_binaryOp (op : Operator) (waiting : List Token) :
    push ⟨code, waiting, group, outer⟩ (.binaryOp op.symbol) =
      .ok ⟨(waiting.takeWhile (yields op)).reverse ++ code,
        .binaryOp op.symbol :: waiting.dropWhile (yields op), group, outer⟩ := by
  simp [push, binary, Operator.ofSymbol?_symbol]

/-- An operator takes what yields to it and stops at what does not. -/
theorem push_binaryOp_append {op : Operator} (all : ∀ t ∈ kept, yields op t = true)
    (stop : ∀ top ∈ below.head?, yields op top = false) :
    push ⟨code, kept ++ below, group, outer⟩ (.binaryOp op.symbol) =
      .ok ⟨kept.reverse ++ code, .binaryOp op.symbol :: below, group, outer⟩ := by
  rw [push_binaryOp, List.takeWhile_append_of_pos all, List.dropWhile_append_of_pos all]
  cases below with
  | nil => simp
  | cons top below => simp [stop top rfl]

theorem push_separator :
    push ⟨code, kept ++ below, ⟨true, complete, below.length⟩, outer⟩ .separator =
      .ok ⟨kept.reverse ++ code, below, ⟨false, complete + 1, below.length⟩, outer⟩ := by
  simp [push, separate, drain_append]

theorem reverse_packed (arity : Nat) : (packed arity).reverse = packed arity := by
  unfold packed
  split <;> rfl

theorem arity_mk (base : Nat) :
    Group.arity ⟨hasValue, complete, base⟩ = complete + hasValue.toNat := by
  cases hasValue <;> rfl

theorem push_rightParen_call (name : FunctionName) (bound : Nat) :
    push ⟨code, kept ++ .leftParen :: .call name bound :: below,
        ⟨hasValue, complete, (Token.leftParen :: .call name bound :: below).length⟩,
        enclosing :: outer⟩ .rightParen =
      .ok ⟨.call name (complete + hasValue.toNat) :: (kept.reverse ++ code), below,
        { enclosing with hasValue := true }, outer⟩ := by
  simp only [push, close, drain_append, arity_mk, mark]

/-- Without a function the arguments are packed, and they are a value if there are any. -/
theorem push_rightParen_bare (bare : ∀ t ∈ below.head?, t.kind ≠ .call) :
    push ⟨code, kept ++ .leftParen :: below,
        ⟨hasValue, complete, (Token.leftParen :: below).length⟩, enclosing :: outer⟩ .rightParen =
      .ok ⟨packed (complete + hasValue.toNat) ++ (kept.reverse ++ code), below,
        { enclosing with
          hasValue := enclosing.hasValue || decide (0 < complete + hasValue.toNat) },
        outer⟩ := by
  simp only [push, close, drain_append, arity_mk, mark, packed]
  split
  · rename_i found
    cases found
    exact absurd rfl (bare _ rfl)
  · rename_i found
    cases found
    split
    · rename_i many
      have some : 0 < complete + hasValue.toNat := by omega
      simp [some]
    · split
      · rename_i none
        simp [none]
      · rename_i nonzero
        have some : 0 < complete + hasValue.toNat := by omega
        simp [some]
  · rename_i bottom
    exact absurd rfl (bottom below)

section Push

variable {y z : Yard} {t : Token}

/-- What a token does once some of those that wait have been sent on: which ones on top of the
others it drops, what it emits and what it leaves waiting instead. -/
inductive Replaces : Token → (dropped emitted waits : List Token) → Prop
  | number (x : Float) : Replaces (.number x) [] [.number x] []
  | sign (c : Char) : Replaces (.prefixOp c) [] [] [.prefixOp c]
  | operator (c : Char) : Replaces (.binaryOp c) [] [] [.binaryOp c]
  | name (f : FunctionName) (claimed : Nat) : Replaces (.call f claimed) [] [] [.call f 0]
  | separator : Replaces .separator [] [] []
  | opening : Replaces .leftParen [] [] [.leftParen]
  | call (f : FunctionName) (claimed arity : Nat) :
    Replaces .rightParen [.leftParen, .call f claimed] [.call f arity] []
  | several {arity : Nat} (h : 1 < arity) : Replaces .rightParen [.leftParen] [.tuple arity] []
  | single : Replaces .rightParen [.leftParen] [] []

/-- A group that closes sends on what waits above its parenthesis and gives way to the one around
it. -/
theorem exists_of_close (h : y.close = .ok z) :
    ∃ enclosing sent dropped left emitted, Replaces .rightParen dropped emitted [] ∧
      y.outer = enclosing :: z.outer ∧ y.waiting = sent ++ (dropped ++ left) ∧
      z.code = emitted ++ (sent.reverse ++ y.code) ∧ z.waiting = left := by
  have whole := (List.take_append_drop (y.waiting.length - y.group.base) y.waiting).symm
  unfold close at h
  cases outer : y.outer with
  | nil => rw [outer] at h; cases h
  | cons enclosing rest =>
    simp only [outer, drain] at h
    refine ⟨enclosing, y.waiting.take (y.waiting.length - y.group.base), ?_⟩
    split at h
    · rename_i f claimed left top
      cases h
      rw [top] at whole
      exact ⟨_, left, _, .call f claimed y.group.arity, rfl, whole, rfl, rfl⟩
    · rename_i left _ top
      rw [top] at whole
      split at h
      · rename_i several
        cases h
        exact ⟨_, left, _, .several several, rfl, whole, rfl, rfl⟩
      · split at h
        · cases h
          exact ⟨_, left, _, .single, rfl, whole, rfl, rfl⟩
        · cases h
          exact ⟨_, left, _, .single, rfl, whole, rfl, rfl⟩
    · cases h

/-- A push sends on some of what waits and then does with the others what its token does. -/
theorem exists_of_push (h : y.push t = .ok z) :
    ∃ sent dropped left emitted waits, Replaces t dropped emitted waits ∧
      y.waiting = sent ++ (dropped ++ left) ∧ z.code = emitted ++ (sent.reverse ++ y.code) ∧
      z.waiting = waits ++ left := by
  cases t with
  | number x =>
    cases h
    exact ⟨[], [], y.waiting, _, _, .number x, rfl, rfl, rfl⟩
  | prefixOp c =>
    cases h
    exact ⟨[], [], y.waiting, _, _, .sign c, rfl, rfl, rfl⟩
  | call f claimed =>
    cases h
    exact ⟨[], [], y.waiting, _, _, .name f claimed, rfl, rfl, rfl⟩
  | leftParen =>
    cases h
    exact ⟨[], [], y.waiting, _, _, .opening, rfl, rfl, rfl⟩
  | binaryOp c =>
    simp only [push, binary] at h
    split at h
    · cases h
    · rename_i op _
      cases h
      exact ⟨y.waiting.takeWhile (yields op), [], y.waiting.dropWhile (yields op), _, _,
        .operator c, List.takeWhile_append_dropWhile.symm, rfl, rfl⟩
  | separator =>
    simp only [push, separate] at h
    split at h
    · cases h
      exact ⟨_, [], _, _, _, .separator, (List.take_append_drop _ y.waiting).symm, rfl, rfl⟩
    · cases h
  | rightParen =>
    obtain ⟨_, sent, dropped, left, emitted, replaces, _, before, code, waiting⟩ :=
      exists_of_close h
    exact ⟨sent, dropped, left, emitted, [], replaces, before, code, waiting⟩
  | tuple n => cases h

end Push

/-- A formula ends when no group is open, with what waits behind the code. -/
theorem finish_eq_ok_iff {y : Yard} {code : List Token} :
    y.finish = .ok code ↔
      y.outer = [] ∧ y.waiting.any isParen = false ∧
        code = y.code.reverse ++ y.waiting ++ packed y.group.arity ∧ code ≠ [] := by
  have whole : (y.code.reverse ++ y.waiting ++ packed y.group.arity).reverse =
      if 1 < y.group.arity then .tuple y.group.arity :: (y.waiting.reverse ++ y.code)
      else y.waiting.reverse ++ y.code := by
    simp only [List.reverse_append, reverse_packed, List.reverse_reverse]
    unfold packed
    split
    · rfl
    · rfl
  unfold finish
  by_cases closed : y.outer = []
  · rw [if_neg (by simp [closed])]
    cases operators : y.waiting.any isParen with
    | true => simp
    | false =>
      simp only [Bool.false_eq_true, if_false, ← whole, List.reverse_eq_nil_iff,
        List.reverse_reverse, closed, true_and]
      by_cases empty : y.code.reverse ++ y.waiting ++ packed y.group.arity = []
      · rw [if_pos empty, empty]
        simp only [reduceCtorEq, false_iff]
        exact fun h => h.2 h.1
      · rw [if_neg empty, Except.ok.injEq]
        constructor
        · rintro rfl
          exact ⟨rfl, empty⟩
        · exact fun h => h.1.symm
  · rw [if_pos closed]
    simp [closed]

end Yard

theorem ofTokens_eq_ok_iff {tokens code : List Token} :
    ofTokens tokens = .ok code ↔
      ∃ y : Yard, Yard.initial.run tokens = .ok y ∧ y.finish = .ok code := by
  unfold ofTokens
  split
  · rename_i empty
    subst empty
    constructor
    · intro h
      cases h
    · rintro ⟨y, ran, finished⟩
      cases ran
      cases finished
  · cases Yard.initial.run tokens with
    | error e => simp
    | ok y => simp

end Calculator.Code
