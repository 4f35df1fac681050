import Calculator.Token.Reading

/-!
Laws of reading. What is emitted depends on nothing but the token before it, so that the tokens of
a text are the same behind a parenthesis or a separator as at the start; and each token of a text
is one that may follow the token before it.
-/

namespace Calculator.Token

def endsValue (before : Option Token) : Bool := before.elim false (·.kind.endsValue)

def expectsOperand (before : Option Token) : Bool := before.elim true (·.kind.expectsOperand)

/-- What reading may emit after another token, or at the start. -/
def Follows (env : Environment) (before : Option Token) : Token → Prop
  | number _ | leftParen => endsValue before = false
  | call name bound =>
    endsValue before = false ∧ bound = 0 ∧ env.lookup name.text = none ∧
      (Builtin.ofName? name.text).isSome
  | prefixOp c => (Operator.signOfSymbol? c).isSome ∧ expectsOperand before = true
  | binaryOp c =>
    (Operator.ofSymbol? c).isSome ∧
      ¬ ((Operator.signOfSymbol? c).isSome ∧ expectsOperand before = true)
  | rightParen | separator => True
  | tuple _ => False

def Contexted (env : Environment) : Option Token → List Token → Prop
  | _, [] => True
  | before, t :: rest => Follows env before t ∧ Contexted env (some t) rest

variable {env : Environment}

theorem contexted_append {before : Option Token} {p q : List Token} :
    Contexted env before (p ++ q) ↔
      Contexted env before p ∧ Contexted env (p.getLast?.or before) q := by
  induction p generalizing before with
  | nil => simp [Contexted]
  | cons t p ih =>
    have last : (t :: p).getLast?.or before = p.getLast?.or (some t) := by
      rw [List.getLast?_cons]
      cases p.getLast? <;> rfl
    simp only [List.cons_append, Contexted, ih, and_assoc, last]

/-- Tokens emitted so far, last first, each following the one before it. -/
def EmittedInContext (env : Environment) (emitted : Emitted) : Prop :=
  Contexted env none emitted.reverse

theorem emittedInContext_cons {t : Token} {emitted : Emitted} :
    EmittedInContext env (t :: emitted) ↔
      EmittedInContext env emitted ∧ Follows env emitted.head? t := by
  simp [EmittedInContext, contexted_append, Contexted]

/-- What reading hands over to be emitted: signs are not told from operators yet. -/
def Raw (env : Environment) : Token → Prop
  | number _ | leftParen | rightParen | separator => True
  | call name bound =>
    bound = 0 ∧ env.lookup name.text = none ∧ (Builtin.ofName? name.text).isSome
  | binaryOp c => (Operator.ofSymbol? c).isSome
  | prefixOp _ | tuple _ => False

theorem emit_binaryOp (emitted : Emitted) (c : Char) :
    emit emitted (binaryOp c) =
      (if isSign emitted c then prefixOp c else binaryOp c) :: emitted := by
  cases emitted with
  | nil => rfl
  | cons before emitted =>
    have plain : (if isSign (before :: emitted) c then prefixOp c
        else binaryOp c).kind.startsValue = false := by
      split <;> rfl
    simp only [emit, plain, Bool.and_false]
    rfl

theorem emit_of_ne_binaryOp {t : Token} (h : ∀ c, t ≠ binaryOp c) (emitted : Emitted) :
    emit emitted t =
      if endsValue emitted.head? && t.kind.startsValue then t :: binaryOp '*' :: emitted
      else t :: emitted := by
  cases t with
  | binaryOp c => exact absurd rfl (h c)
  | _ => cases emitted <;> rfl

theorem isSign_iff {emitted : Emitted} {c : Char} :
    isSign emitted c = true ↔
      (Operator.signOfSymbol? c).isSome ∧ expectsOperand emitted.head? = true := by
  rw [← Bool.and_eq_true]
  rfl

/-- A token that does not touch a value in front of it may follow. -/
theorem follows_of_raw {before : Option Token} {t : Token} (raw : Raw env t)
    (h : ∀ c, t ≠ binaryOp c) (apart : (endsValue before && t.kind.startsValue) = false) :
    Follows env before t := by
  cases t with
  | number x => simpa [Follows, TokenKind.startsValue, kind] using apart
  | leftParen => simpa [Follows, TokenKind.startsValue, kind] using apart
  | call name bound => exact ⟨by simpa [TokenKind.startsValue, kind] using apart, raw⟩
  | binaryOp c => exact absurd rfl (h c)
  | rightParen => trivial
  | separator => trivial
  | prefixOp c => exact raw.elim
  | tuple n => exact raw.elim

theorem emittedInContext_emit {emitted : Emitted} {t : Token}
    (h : EmittedInContext env emitted) (raw : Raw env t) :
    EmittedInContext env (emit emitted t) := by
  by_cases operator : ∃ c, t = binaryOp c
  · obtain ⟨c, rfl⟩ := operator
    rw [emit_binaryOp]
    split
    · rename_i sign
      exact emittedInContext_cons.mpr ⟨h, isSign_iff.mp sign⟩
    · rename_i sign
      exact emittedInContext_cons.mpr ⟨h, raw, fun both => sign (isSign_iff.mpr both)⟩
  · have other : ∀ c, t ≠ binaryOp c := fun c hc => operator ⟨c, hc⟩
    rw [emit_of_ne_binaryOp other]
    split
    · have product : Follows env emitted.head? (binaryOp '*') :=
        ⟨rfl, by simp [Operator.signOfSymbol?, Operator.ofSymbol?, Operator.sign?]⟩
      exact emittedInContext_cons.mpr ⟨emittedInContext_cons.mpr ⟨h, product⟩,
        follows_of_raw raw other rfl⟩
    · rename_i apart
      exact emittedInContext_cons.mpr ⟨h, follows_of_raw raw other (by simpa using apart)⟩

theorem raw_of_ofName {name : String} {t : Token} (h : ofName env name = .ok t) : Raw env t := by
  unfold ofName at h
  split at h
  · cases h
    trivial
  · rename_i hidden
    split at h
    · rename_i f known
      cases h
      have text := Builtin.name_of_ofName? known
      exact ⟨rfl, text ▸ hidden, by simp [text, known]⟩
    · cases h

theorem emittedInContext_emitRun {emitted last : Emitted} {run : List Char}
    (h : EmittedInContext env emitted) (ok : emitRun env emitted run = .ok last) :
    EmittedInContext env last := by
  fun_induction emitRun env emitted run with
  | case1 =>
    cases ok
    exact h
  | case2 _ _ _ _ _ _ ih => exact ih (emittedInContext_emit h trivial) ok
  | case3 => cases ok
  | case4 => cases ok
  | case5 _ _ _ _ _ _ _ token found ih =>
    exact ih (emittedInContext_emit h (raw_of_ofName found)) ok

theorem emittedInContext_emitBoundary {emitted : Emitted} {c : Char}
    (h : EmittedInContext env emitted) (boundary : isBoundary c = true) :
    EmittedInContext env (emitBoundary emitted c) := by
  unfold emitBoundary
  split
  · exact emittedInContext_emit h trivial
  split
  · exact emittedInContext_emit h trivial
  split
  · exact emittedInContext_emit h trivial
  split
  · exact h
  · have operator : (Operator.ofSymbol? c).isSome := by
      simp_all [isBoundary, isDelimiter]
    exact emittedInContext_emit h operator

theorem emittedInContext_scan {emitted last : Emitted} {run rest : List Char}
    (h : EmittedInContext env emitted) (ok : scan env emitted run rest = .ok last) :
    EmittedInContext env last := by
  induction rest generalizing emitted run with
  | nil => exact emittedInContext_emitRun h ok
  | cons c rest ih =>
    simp only [scan] at ok
    split at ok
    · rename_i boundary
      split at ok
      · cases ok
      · rename_i emitted' flushed
        exact ih (emittedInContext_emitBoundary (emittedInContext_emitRun h flushed) boundary) ok
    · exact ih h ok

theorem contexted_of_ofText {text : String} {tokens : List Token}
    (h : ofText env text = .ok tokens) : Contexted env none tokens := by
  cases scanned : scan env [] [] text.toList with
  | error e => simp [ofText, scanned, Except.map] at h
  | ok last =>
    simp only [ofText, scanned, Except.map, Except.ok.injEq] at h
    exact h ▸ emittedInContext_scan (by trivial) scanned

section Runs

variable {emitted : Emitted} {run : List Char}

theorem emitRun_nil : emitRun env emitted [] = .ok emitted := by
  rw [emitRun, if_pos rfl]

theorem emitRun_literal {literal : Number.Literal} {rest : List Char}
    (found : Number.Literal.read? run = some (literal, rest)) :
    emitRun env emitted run = emitRun env (emit emitted (number literal.value.toFloat)) rest := by
  have some : run ≠ [] := by
    intro empty
    rw [empty] at found
    cases found
  rw [emitRun, if_neg some]
  split
  · rename_i literal' rest' found'
    rw [found] at found'
    cases found'
    rfl
  · rename_i unread
    rw [found] at unread
    cases unread

theorem emitRun_letters {c : Char} {cs : List Char} (unread : Number.Literal.read? run = none)
    (letters : run.takeWhile Text.isLetter = c :: cs) :
    emitRun env emitted run =
      match ofName env (String.ofList (c :: cs)) with
      | .error e => .error e
      | .ok token => emitRun env (emit emitted token) (run.dropWhile Text.isLetter) := by
  have some : run ≠ [] := by
    intro empty
    rw [empty] at letters
    cases letters
  rw [emitRun, if_neg some]
  split
  · rename_i found
    rw [unread] at found
    cases found
  · split
    · rename_i none
      rw [letters] at none
      cases none
    · rename_i d ds letters'
      rw [letters] at letters'
      cases letters'
      rfl

theorem emitRun_unreadable (some : run ≠ []) (unread : Number.Literal.read? run = none)
    (letters : run.takeWhile Text.isLetter = []) :
    emitRun env emitted run = .error (.unknownToken (String.ofList run)) := by
  rw [emitRun, if_neg some]
  split
  · rename_i found
    rw [unread] at found
    cases found
  · split
    · rfl
    · rename_i letters'
      rw [letters] at letters'
      cases letters'

def digit (c : Char) : Float := Number.Decimal.toFloat (Number.Literal.value ⟨[c], none, none⟩)

theorem emitRun_digit {c : Char} (h : c.isDigit = true) :
    emitRun env emitted [c] = .ok (emit emitted (number (digit c))) := by
  have found : Number.Literal.read? [c] = some (⟨[c], none, none⟩, []) := by
    simp [Number.Literal.read?, h, Number.Literal.readFraction, Number.Literal.readExponent]
  rw [emitRun_literal found, emitRun_nil]
  rfl

end Runs

/-- Behind such tokens reading goes on as at the start. -/
def Fresh (base : Emitted) : Prop :=
  expectsOperand base.head? = true ∧ endsValue base.head? = false

theorem fresh_cons {t : Token} {base : Emitted} (h : t.kind.expectsOperand = true) :
    Fresh (t :: base) := by
  refine ⟨h, ?_⟩
  cases t <;> first | rfl | cases h

section Behind

variable {base : Emitted}

theorem head?_append_of_fresh (fresh : Fresh base) (emitted : Emitted) :
    expectsOperand (emitted ++ base).head? = expectsOperand emitted.head? ∧
      endsValue (emitted ++ base).head? = endsValue emitted.head? := by
  cases emitted with
  | nil => exact fresh
  | cons t emitted => exact ⟨rfl, rfl⟩

theorem emit_append (fresh : Fresh base) (emitted : Emitted) (t : Token) :
    emit (emitted ++ base) t = emit emitted t ++ base := by
  obtain ⟨expects, ends⟩ := head?_append_of_fresh fresh emitted
  by_cases operator : ∃ c, t = binaryOp c
  · obtain ⟨c, rfl⟩ := operator
    have sign : isSign (emitted ++ base) c = isSign emitted c := by
      rw [Bool.eq_iff_iff, isSign_iff, isSign_iff, expects]
    rw [emit_binaryOp, emit_binaryOp, sign, List.cons_append]
  · have other : ∀ c, t ≠ binaryOp c := fun c hc => operator ⟨c, hc⟩
    rw [emit_of_ne_binaryOp other, emit_of_ne_binaryOp other, ends]
    split
    · rfl
    · rfl

theorem emitRun_append (fresh : Fresh base) (emitted : Emitted) (run : List Char) :
    emitRun env (emitted ++ base) run = (emitRun env emitted run).map (· ++ base) := by
  fun_induction emitRun env emitted run with
  | case1 => rw [emitRun_nil]; rfl
  | case2 emitted run _ literal rest found ih =>
    rw [emitRun_literal found, emit_append fresh, ih]
  | case3 emitted run some unread letters =>
    rw [emitRun_unreadable some unread letters]
    rfl
  | case4 emitted run _ unread c cs letters e unknown =>
    rw [emitRun_letters unread letters, unknown]
    rfl
  | case5 emitted run _ unread c cs letters token known ih =>
    rw [emitRun_letters unread letters, known]
    simp only [emit_append fresh, ih]

theorem emitBoundary_append (fresh : Fresh base) (emitted : Emitted) (c : Char) :
    emitBoundary (emitted ++ base) c = emitBoundary emitted c ++ base := by
  unfold emitBoundary
  simp only [emit_append fresh]
  split
  · rfl
  split
  · rfl
  split
  · rfl
  split
  · rfl
  · rfl

theorem scan_append_base (fresh : Fresh base) (emitted : Emitted) (run rest : List Char) :
    scan env (emitted ++ base) run rest = (scan env emitted run rest).map (· ++ base) := by
  induction rest generalizing emitted run with
  | nil => exact emitRun_append fresh emitted run.reverse
  | cons c rest ih =>
    simp only [scan, emitRun_append fresh]
    split
    · cases emitRun env emitted run.reverse with
      | error e => rfl
      | ok flushed =>
        simp only [Except.map, emitBoundary_append fresh]
        exact ih _ _
    · exact ih _ _

end Behind

/-- At a boundary character a text can be read in two parts. -/
theorem scan_append_boundary (emitted : Emitted) (run p q : List Char) {c : Char}
    (boundary : isBoundary c = true) :
    scan env emitted run (p ++ c :: q) =
      (scan env emitted run p).bind fun emitted => scan env (emitBoundary emitted c) [] q := by
  induction p generalizing emitted run with
  | nil =>
    simp only [List.nil_append, scan, if_pos boundary]
    cases emitRun env emitted run.reverse <;> rfl
  | cons d p ih =>
    simp only [List.cons_append, scan]
    split
    · cases emitRun env emitted run.reverse with
      | error e => rfl
      | ok flushed => exact ih _ _
    · exact ih _ _

end Calculator.Token
